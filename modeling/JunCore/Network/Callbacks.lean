/-
  The order in which the application is called.

  `HandleAcceptComplete` posts the first receive after `OnSessionConnect` has returned, so a server has
  no packet to handle before.  `HandleConnectComplete` posts it before it calls `OnConnectComplete`:
  what the peer sends can arrive in between, and another worker calls the packet handler
  (`handler_first`).  A client is safe as long as nothing complete arrives so early (`Ready`).

  The other end is the same for both.  The destructor runs without any reference, so no handler is
  running, and none comes after it (`parted`).
-/
import JunCore.Lib.Precedence
import JunCore.Network.Disconnect

set_option linter.unusedVariables false
set_option linter.unusedSectionVars false

namespace JunCore.SessionSteps

open Function Transition Network Counting Precedence

variable {T : Type} [DecidableEq T] [Fintype T]

/-! ## The connection comes first -/

def Iteration.isPacket : Iteration → Bool
  | .packet _ _ => true
  | .leave _ _ => false

/-- Until the connection callback of a client has returned, no worker takes up a receive that makes a
    packet complete. -/
def ConnectFirst (s s' : Sys T) : Prop :=
  s.cell.engine = some .client → .connected ∉ s.cell.log →
    ∀ t id n, s.tasks t = none → s'.tasks t = some (.recv id (.moveRear n)) →
      (recvIteration true (s.cell.recvBuf.moveRear n)).isPacket = false

/-- What is known of the receiving before the callback has returned. -/
def Life.Ready (l : Life) : Stage → Prop
  | .recv (.moveRear n) =>
    l.engine ≠ some .server ∧ (recvIteration true (l.recvBuf.moveRear n)).isPacket = false
  | .recv (.loop _) => l.engine ≠ some .server ∧ (recvIteration true l.recvBuf).isPacket = false
  | .recv (.inHandler _) => False
  | .recv .loadPending | .recv (.recvAsync _) => l.engine ≠ some .server
  | .first e _ => e ≠ .server
  | _ => True

/-- **Before the callback has returned, a server does not receive, and a client gets no packet.** -/
structure Ready (s : Sys T) : Prop where
  stages : .connected ∉ s.cell.log → ∀ t, s.cell.life.Ready (stageOf (s.tasks t))
  ops : .connected ∉ s.cell.log → s.cell.engine = some .server →
    ∀ op ∈ s.cell.ops, op.operation ≠ .recv
  order : Heralded .connected .handling s.cell.log

theorem LifeStep.ready {ok : Bool} {c : Cell} {p p' : Stage} {l' : Life}
    (h : LifeStep ok c p l' p') (R : c.life.Ready p) (hengine : p.ends = false → c.engine ≠ none)
    (hnot : .connected ∉ l'.log) : l'.Ready p' := by
  have hnone : ∀ {q r}, p.ends = false → recvIteration c.engine.isSome c.recvBuf = .packet q r →
      (recvIteration true c.life.recvBuf).isPacket = false → False := by
    intro q r hends hpacket hno
    cases he : c.engine with
    | none => exact hengine hends he
    | some e =>
      rw [he] at hpacket
      rw [show recvIteration true c.life.recvBuf = .packet q r from hpacket] at hno
      cases hno
  cases h with
  | keep | cancel | failed _ | cast _ | newUser _ | set _ | callback _ | tooMany _ => trivial
  | drop | giveUp k =>
    unfold Stage.dropped
    split <;> trivial
  | cas => split <;> trivial
  | coming e hp | checked e hp => rcases hp with rfl | rfl | rfl <;> trivial
  | drain e hp =>
    rcases hp with rfl | rfl
    · trivial
    · cases e with
      | server => trivial
      | client => exact nofun
  | inCallback e => exact absurd (List.mem_append_right c.log List.mem_cons_self) hnot
  | first e pc =>
    cases (SessionSteps.recvAsync ok c pc).2 with
    | none => cases e <;> trivial
    | some pc' => exact R
  | moveRear n => exact R
  | handle huser hpacket | skip hpacket => exact (hnone rfl hpacket R.2).elim
  | leave rest hp =>
    rcases hp with rfl | rfl
    · exact R.1
    · trivial
  | inHandler k => exact R.elim
  | loadPending hp =>
    rcases hp with rfl | rfl
    · exact R
    · trivial
  | recvAsync pc =>
    cases (SessionSteps.recvAsync ok c pc).2 with
    | none => trivial
    | some pc' =>
      rcases recvAsync_life ok c pc with heq | ⟨heq, -⟩ <;> rw [heq] <;> exact R
  | onUserDisconnect | clearOwner | release => trivial
  | drained pc => cases (SessionSteps.drain c pc).2 <;> trivial

/-- The steps that receive, or make a session anew. -/
def Stage.receives : Stage → Bool
  | .recv _ | .set _ | .ending _ => true
  | _ => false

/-- Nobody else touches what is received. -/
theorem LifeStep.recvBuf {ok : Bool} {c : Cell} {p p' : Stage} {l' : Life}
    (h : LifeStep ok c p l' p') (hp : p.receives = false) :
    l'.recvBuf = c.recvBuf ∧ l'.engine = c.engine := by
  cases h with
  | cas =>
    unfold Cell.casPending
    split <;> exact ⟨rfl, rfl⟩
  | first e pc =>
    rcases recvAsync_life ok c pc with heq | ⟨heq, -⟩ <;> rw [heq] <;> exact ⟨rfl, rfl⟩
  | set _ | moveRear _ | tooMany _ | handle _ _ | skip _ | leave _ _ | inHandler _ | loadPending _
  | recvAsync _ | onUserDisconnect | clearOwner | release | drained _ => cases hp
  | _ => exact ⟨rfl, rfl⟩

/-- A session does not come to a server. -/
theorem LifeStep.engine {ok : Bool} {c : Cell} {p p' : Stage} {l' : Life}
    (h : LifeStep ok c p l' p') (F : c.life.Fit p) {e : Engine} (he : l'.engine = some e) :
    c.engine = some e := by
  cases h with
  | cas =>
    unfold Cell.casPending at he
    split at he <;> exact he
  | set e' =>
    obtain rfl : e' = e := Option.some.inj he
    exact F.1
  | first e pc | recvAsync pc =>
    rcases recvAsync_life ok c pc with heq | ⟨heq, -⟩ <;> rw [heq] at he <;> exact he
  | onUserDisconnect =>
    simp only [destroy] at he
    split at he <;> exact he
  | release => cases he
  | _ => exact he

/-- A packet handler is called after the callback has returned. -/
theorem LifeStep.order {ok : Bool} {c : Cell} {p p' : Stage} {l' : Life}
    (h : LifeStep ok c p l' p') (R : .connected ∉ c.log → c.life.Ready p)
    (hengine : p.ends = false → c.engine ≠ none) (hold : Heralded .connected .handling c.log) :
    Heralded .connected .handling l'.log := by
  cases h with
  | cas =>
    unfold Cell.casPending
    split
    · exact hold.append (by simp)
    · exact hold
  | cancel | newUser _ | inCallback _ | inHandler _ => exact hold.append (by simp)
  | @handle k q rest huser hpacket =>
    refine hold.append fun _ => ?_
    by_contra hnot
    have hno : (recvIteration true c.recvBuf).isPacket = false := (R hnot).2
    cases he : c.engine with
    | none => exact hengine rfl he
    | some e =>
      rw [he] at hpacket
      rw [show recvIteration true c.recvBuf = .packet q rest from hpacket] at hno
      cases hno
  | first e pc | recvAsync pc =>
    rcases recvAsync_life ok c pc with heq | ⟨heq, -⟩ <;> rw [heq] <;> exact hold
  | onUserDisconnect =>
    simp only [destroy]
    split
    · rename_i e _ _
      exact hold.append (by cases e <;> simp [Engine.onUserDisconnect])
    · exact hold
  | _ => exact hold

theorem recv_of_stage {task : Task} {pc : RecvPc} (h : task.stage = .recv pc) :
    ∃ id, task = .recv id pc := by
  have hat := at_stage task
  rw [h] at hat
  cases hat with
  | recv htask => exact ⟨_, htask⟩
  | before hp _ | connects hp => cases hp

/-- Whoever receives has the duty to. -/
theorem receives_of_stage {task : Task} (h : task.stage.receives = true)
    (hends : task.stage.ends = false) : 0 < task.receives := by
  cases hp : task.stage with
  | recv pc =>
    obtain ⟨id, rfl⟩ := recv_of_stage hp
    cases pc with
    | recvAsync pc => cases pc <;> exact Nat.one_pos
    | _ => exact Nat.one_pos
  | set e => exact early_receives (early_of_before (by rw [hp]; rfl))
  | ending pc =>
    rw [hp] at hends
    cases hends
  | _ =>
    rw [hp] at h
    cases h

theorem stage_of_recv {task : Task} {pc : RecvAsyncPc} (h : task.recvPc = some pc) :
    task.stage = .recv (.recvAsync pc) ∨ ∃ e, task.stage = .first e pc := by
  cases task with
  | recv id pc' =>
    cases pc' with
    | recvAsync pc' => exact .inl (congrArg (fun x => Stage.recv (.recvAsync x)) (Option.some.inj h))
    | _ => cases h
  | accept id pc' =>
    cases pc' with
    | recvAsync pc' => exact .inr ⟨.server, congrArg (Stage.first .server) (Option.some.inj h)⟩
    | _ => cases h
  | connect id pc' =>
    cases pc' with
    | recvAsync pc' => exact .inr ⟨.client, congrArg (Stage.first .client) (Option.some.inj h)⟩
    | _ => cases h
  | _ => cases h

/-- What is known of the receiving is known of nobody else. -/
theorem Life.Ready.keep {l l' : Life} {p : Stage} (R : l.Ready p)
    (h : p.receives = true → l'.recvBuf = l.recvBuf ∧ l'.engine = l.engine) : l'.Ready p := by
  cases p with
  | recv pc =>
    obtain ⟨hbuf, hengine⟩ := h rfl
    cases pc with
    | moveRear n | loop k =>
      refine ⟨?_, ?_⟩
      · rw [hengine]
        exact R.1
      · rw [hbuf]
        exact R.2
    | inHandler k => exact R
    | loadPending | recvAsync pc =>
      show l'.engine ≠ some .server
      rw [hengine]
      exact R
  | first e pc => exact R
  | _ => trivial

theorem Ready.run {s : Sys T} (A : Ready s) (hr : Reachable system s) {t : T} {task : Task}
    (ht : s.tasks t = some task) (ok : Bool) : Ready (s.after t (task.run ok s.cell)) := by
  obtain ⟨L, -⟩ := lawful hr
  have V := lived hr
  have hstep := run_lifeStep ok s.cell task
  have hstage : stageOf (s.tasks t) = task.stage := by
    rw [ht]
    rfl
  have F : s.cell.life.Fit task.stage := hstage ▸ V.stages t
  have R : .connected ∉ s.cell.log → s.cell.life.Ready task.stage :=
    fun h => hstage ▸ A.stages h t
  have hengine : task.stage.ends = false → s.cell.engine ≠ none := by
    intro hends
    refine V.engine (L.refs_pos ht ?_)
    rintro pc rfl
    cases hends
  obtain ⟨m, hm⟩ := hstep.log
  have hbefore : .connected ∉ (task.run ok s.cell).1.log → .connected ∉ s.cell.log := by
    intro hnot hold
    refine hnot ?_
    rw [show (task.run ok s.cell).1.log = s.cell.log ++ m from hm]
    exact List.mem_append_left m hold
  refine ⟨fun hnot => ?_, fun hnot hserver op hop hrecv => ?_, hstep.order R hengine A.order⟩
  · refine Sys.forall_after (P := fun o => (task.run ok s.cell).1.life.Ready (stageOf o)) ?_
      fun u hu => ?_
    · exact hstep.ready (R (hbefore hnot)) hengine hnot
    · refine (A.stages (hbefore hnot) u).keep fun hreceives => hstep.recvBuf ?_
      refine Bool.eq_false_of_not_eq_true fun hme => ?_
      -- two who receive
      cases hends : task.stage.ends with
      | true =>
        obtain ⟨pc, rfl⟩ := ends_destroy hends
        rw [(L.destroying ht).2.2 u hu] at hreceives
        cases hreceives
      | false =>
        have hzero := (L.sole_receiver ht (receives_of_stage hme hends)).2.2 u hu
        cases htask : s.tasks u with
        | none =>
          rw [htask] at hreceives
          cases hreceives
        | some other =>
          rw [htask] at hreceives hzero
          have hpos : 0 < other.receives := by
            refine receives_of_stage hreceives (Bool.eq_false_of_not_eq_true fun h => ?_)
            obtain ⟨pc, rfl⟩ := ends_destroy h
            rw [(L.destroying htask).2.2 t (Ne.symm hu)] at ht
            cases ht
          have hzero : other.receives = 0 := hzero
          omega
  · have hserver : s.cell.engine = some .server := hstep.engine F hserver
    rcases run_op hop with ⟨o, ho, hkind, -⟩ | ⟨hkind, -⟩ | ⟨-, pc, hpc⟩ | ⟨e, id, -, hkind⟩
    · exact A.ops (hbefore hnot) hserver o ho (hkind.trans hrecv)
    · rw [hrecv] at hkind
      cases hkind
    · have R := R (hbefore hnot)
      rcases stage_of_recv hpc with hp | ⟨e, hp⟩
      · rw [hp] at R
        exact R hserver
      · rw [hp] at R F
        obtain rfl : Engine.server = e := Option.some.inj (hserver.symm.trans F.1)
        exact R rfl
    · rw [hrecv] at hkind
      cases e <;> cases hkind

/-- **The rule for the connection callback.** -/
theorem ready {s : Sys T} (h : Reachable (system.guard ConnectFirst) s) : Ready s := by
  apply h.invariant (I := Ready)
  · rintro _ ⟨e, mem, b, hb, t, rfl⟩
    refine ⟨fun _ => ?_, fun _ _ op hop => absurd hop List.not_mem_nil, heralded_nil⟩
    exact Sys.forall_new (P := fun o => (Cell.new e (.new mem b hb)).life.Ready (stageOf o)) trivial
      trivial
  · rintro s s' hg A ⟨hnext, hguard⟩
    have hr : Reachable system s := hg.of_guard
    obtain ⟨L, -⟩ := lawful hr
    rcases step_does hnext with ⟨t, r, hdoes, rfl⟩ | ⟨op, chunk, hmem, hdone, hroom, rfl⟩
    · generalize hpre : s.tasks t = pre at hdoes
      cases hdoes with
      | sendPacket m hpub hrefs | disconnect hpub hrefs =>
        refine ⟨fun hnot => ?_, A.ops, A.order⟩
        exact Sys.forall_after (P := fun o => s.cell.life.Ready (stageOf o)) trivial
          fun u _ => A.stages hnot u
      | @take op n hmem hdone =>
        refine ⟨fun hnot => ?_, fun hnot hserver o ho => A.ops hnot hserver o (List.mem_of_mem_erase ho),
          A.order⟩
        refine Sys.forall_after (P := fun o => s.cell.life.Ready (stageOf o)) ?_
          fun u _ => A.stages hnot u
        have hrefs : 0 < s.cell.refs := by
          have hlaw := L.refs
          have hlen := List.length_pos_of_mem hmem
          omega
        have hnext : ∀ m, (op.handler n) = .recv op.id (.moveRear m) →
            s.cell.engine = some .client → (recvIteration true (s.cell.recvBuf.moveRear m)).isPacket
              = false := by
          intro m hm hclient
          refine hguard hclient hnot t op.id m hpre ?_
          show update s.tasks t (some (op.handler n)) t = _
          rw [update_self, hm]
        have hserver := A.ops hnot
        show s.cell.life.Ready (op.handler n).stage
        obtain ⟨id, operation, wsa, room, done⟩ := op
        cases operation with
        | recv =>
          rcases Nat.eq_zero_or_pos n with rfl | hpos
          · trivial
          · have hm : Op.handler ⟨id, .recv, wsa, room, done⟩ n = .recv id (.moveRear n) :=
              if_neg (by omega)
            rw [hm]
            have hnot : s.cell.engine ≠ some .server := fun h => hserver h _ hmem rfl
            refine ⟨hnot, hnext n hm ?_⟩
            cases he : s.cell.engine with
            | none => exact absurd he ((lived hr).engine hrefs)
            | some e =>
              cases e with
              | server => exact absurd he hnot
              | client => rfl
        | send =>
          show s.cell.life.Ready (Task.stage (if n = 0 then _ else _))
          split <;> trivial
        | accept | connect => trivial
      | run task ok => exact A.run hr hpre ok
    · refine ⟨fun hnot t => ?_, fun hnot hserver o ho => ?_, A.order⟩
      · refine (A.stages hnot t).keep fun hreceives => ?_
        have hkind : op.operation ≠ .recv := by
          intro hkind
          cases htask : s.tasks t with
          | none =>
            rw [htask] at hreceives
            cases hreceives
          | some task =>
            rw [htask] at hreceives
            cases hends : task.stage.ends with
            | true =>
              obtain ⟨pc, rfl⟩ := ends_destroy hends
              rw [(L.unreferenced (L.destroying htask).1).1] at hmem
              exact List.not_mem_nil hmem
            | false =>
              have hzero := (L.sole_receiver htask (receives_of_stage hreceives hends)).1 op hmem
              rw [hkind] at hzero
              cases hzero
        exact ⟨if_neg hkind, rfl⟩
      · rcases List.mem_cons.mp ho with rfl | ho
        · exact A.ops hnot hserver op hmem
        · exact A.ops hnot hserver o (List.mem_of_mem_erase ho)

/-! ## The goodbye comes last -/

/-- A call of a packet handler that has not returned. -/
def Stage.handles : Stage → Nat
  | .recv (.inHandler _) => 1
  | _ => 0

theorem LifeStep.handles {ok : Bool} {c : Cell} {p p' : Stage} {l' : Life}
    (h : LifeStep ok c p l' p') : l'.times .handling + (c.life.times .handled + p.handles)
      = c.life.times .handling + (l'.times .handled + p'.handles) := by
  -- a log that only gets an entry of another kind
  have hlog : ∀ m : List Event, m.count .handling = 0 → m.count .handled = 0 →
      ({ c.life with log := c.log ++ m } : Life).times .handling = c.life.times .handling ∧
        ({ c.life with log := c.log ++ m } : Life).times .handled = c.life.times .handled := by
    intro m h₁ h₂
    refine ⟨(times_append c.life m _).trans ?_, (times_append c.life m _).trans ?_⟩
    · rw [h₁]
      rfl
    · rw [h₂]
      rfl
  cases h with
  | cas =>
    have h₁ : c.casPending.1.life.times .handling = _ := casPending_times c nofun
    have h₂ : c.casPending.1.life.times .handled = _ := casPending_times c nofun
    rw [h₁, h₂]
    split <;> rfl
  | cancel =>
    obtain ⟨h₁, h₂⟩ := hlog [.cancelled, .disconnected] rfl rfl
    rw [h₁, h₂]
    rfl
  | newUser e =>
    obtain ⟨h₁, h₂⟩ := hlog [.created] rfl rfl
    rw [h₁, h₂]
    rfl
  | inCallback e =>
    obtain ⟨h₁, h₂⟩ := hlog [.connected] rfl rfl
    rw [h₁, h₂]
    cases e <;> rfl
  | @handle k q rest _ _ =>
    have h₁ : ({ c.life with recvBuf := rest, published := true, log := c.log ++ [.handling] }
        : Life).times .handling = c.life.times .handling + 1 := times_append c.life _ _
    have h₂ : ({ c.life with recvBuf := rest, published := true, log := c.log ++ [.handling] }
        : Life).times .handled = c.life.times .handled := times_append c.life _ _
    rw [h₁, h₂]
    show _ + (_ + 0) = _ + (_ + 1)
    omega
  | inHandler k =>
    have h₁ : ({ c.life with log := c.log ++ [.handled] } : Life).times .handling
        = c.life.times .handling := times_append c.life _ _
    have h₂ : ({ c.life with log := c.log ++ [.handled] } : Life).times .handled
        = c.life.times .handled + 1 := times_append c.life _ _
    rw [h₁, h₂]
    show _ + (_ + 1) = _ + (_ + 1 + 0)
    omega
  | drop | giveUp k =>
    unfold Stage.dropped
    split <;> rfl
  | coming e hp | checked e hp => rcases hp with rfl | rfl | rfl <;> rfl
  | drain e hp =>
    rcases hp with rfl | rfl
    · rfl
    · cases e <;> rfl
  | leave rest hp => rcases hp with rfl | rfl <;> rfl
  | loadPending hp => rcases hp with rfl | rfl <;> rfl
  | first e pc =>
    rcases recvAsync_life ok c pc with heq | ⟨heq, -⟩ <;> rw [heq] <;>
      cases (SessionSteps.recvAsync ok c pc).2 <;> cases e <;> rfl
  | recvAsync pc =>
    rcases recvAsync_life ok c pc with heq | ⟨heq, -⟩ <;> rw [heq] <;>
      cases (SessionSteps.recvAsync ok c pc).2 <;> rfl
  | onUserDisconnect =>
    simp only [destroy]
    split
    · rename_i e _ _
      obtain ⟨h₁, h₂⟩ := hlog e.onUserDisconnect (by cases e <;> rfl) (by cases e <;> rfl)
      show ({ c.life with log := c.log ++ e.onUserDisconnect } : Life).times _ + _
        = _ + (({ c.life with log := c.log ++ e.onUserDisconnect } : Life).times _ + _)
      rw [h₁, h₂]
      rfl
    · rfl
  | drained pc => cases (SessionSteps.drain c pc).2 <;> rfl
  | _ => rfl

/-- **Every call of a packet handler has returned, or a thread is in it.** -/
theorem handler_calls {s : Sys T} (h : Reachable system s) : s.cell.life.times .handling
    = s.cell.life.times .handled + s.sum fun task => task.stage.handles := by
  have hweigh : ∀ o, weigh (fun task => task.stage.handles) o = (stageOf o).handles := by
    intro o
    cases o <;> rfl
  refine conserved _ (fun c => c.life.times .handling) (fun c => c.life.times .handled)
    (fun e buf => rfl) (fun s t r hr hdoes => ?_) (fun c op chunk _ _ => ⟨rfl, rfl⟩) h
  rw [hweigh, hweigh]
  generalize s.tasks t = pre at hdoes
  cases hdoes with
  | sendPacket m hpub hrefs | disconnect hpub hrefs => rfl
  | @take op n hmem hdone =>
    have hzero : (op.handler n).stage.handles = 0 := by
      obtain ⟨id, operation, wsa, room, done⟩ := op
      cases operation with
      | recv | send =>
        show Stage.handles (Task.stage (if n = 0 then _ else _)) = 0
        split <;> rfl
      | accept | connect => rfl
    show _ = _ + (_ + (op.handler n).stage.handles)
    rw [hzero]
    rfl
  | run task ok => exact (run_lifeStep ok s.cell task).handles

/-- Nothing is handled after `OnUserDisconnect`. -/
structure Parted (s : Sys T) : Prop where
  handling : ¬ Before .userDisconnected .handling s.cell.log
  handled : ¬ Before .userDisconnected .handled s.cell.log

/-- What the destructor adds to the log. -/
theorem LifeStep.parts {ok : Bool} {c : Cell} {p p' : Stage} {l' : Life}
    (h : LifeStep ok c p l' p') (hends : p.ends = true) :
    ∃ m, l'.log = c.log ++ m ∧ .handling ∉ m ∧ .handled ∉ m := by
  cases h with
  | onUserDisconnect =>
    simp only [destroy]
    split
    · rename_i e _ _
      exact ⟨_, rfl, by cases e <;> decide, by cases e <;> decide⟩
    · exact ⟨[], (List.append_nil _).symm, List.not_mem_nil, List.not_mem_nil⟩
  | clearOwner | release | drained pc => exact ⟨[], (List.append_nil _).symm, List.not_mem_nil, List.not_mem_nil⟩
  | _ => cases hends

theorem parted {s : Sys T} (h : Reachable system s) : Parted s := by
  apply h.invariant (I := Parted)
  · rintro _ ⟨e, mem, b, hb, t, rfl⟩
    exact ⟨fun h => absurd h.left List.not_mem_nil, fun h => absurd h.left List.not_mem_nil⟩
  · intro s s' hr A hnext
    obtain ⟨L, -⟩ := lawful hr
    rcases step_does hnext with ⟨t, r, hdoes, rfl⟩ | ⟨op, chunk, hmem, hdone, hroom, rfl⟩
    · generalize hpre : s.tasks t = pre at hdoes
      cases hdoes with
      | sendPacket m hpub hrefs | disconnect hpub hrefs | take hmem hdone =>
        exact ⟨A.handling, A.handled⟩
      | run task ok =>
        have hstep := run_lifeStep ok s.cell task
        cases hends : task.stage.ends with
        | true =>
          obtain ⟨m, hm, h₁, h₂⟩ := hstep.parts hends
          have hm : (task.run ok s.cell).1.log = s.cell.log ++ m := hm
          refine ⟨fun h => A.handling ?_, fun h => A.handled ?_⟩
          · exact (show Before _ _ (s.cell.log ++ m) from hm ▸ h).of_append h₁
          · exact (show Before _ _ (s.cell.log ++ m) from hm ▸ h).of_append h₂
        | false =>
          -- while anybody works for the session, it has not said goodbye
          have hrefs : 0 < s.cell.refs := by
            refine L.refs_pos hpre ?_
            rintro pc rfl
            cases hends
          have hnone : .userDisconnected ∉ (task.run ok s.cell).1.log :=
            List.count_eq_zero.mp ((hstep.frame hends).2.1.trans ((lived hr).before hrefs))
          exact ⟨fun h => hnone h.left, fun h => hnone h.left⟩
    · exact ⟨A.handling, A.handled⟩

/-! ## The order of the callbacks -/

/-- `OnUserDisconnect` is not called for nobody. -/
theorem Lived.parted_le {s : Sys T} (V : Lived s) (L : Laws s) :
    s.cell.life.times .userDisconnected ≤ s.cell.life.times .created := by
  rcases Nat.eq_zero_or_pos s.cell.refs with hzero | hrefs
  · rcases Nat.eq_zero_or_pos s.cell.destroyed with halive | hgone
    · have hlife := L.life
      rw [hzero, halive] at hlife
      have hlife : 1 = 0 + 0 + s.sum Task.dies := hlife
      obtain ⟨t, ht⟩ : ∃ t, 0 < weigh Task.dies (s.tasks t) :=
        exists_of_total_pos (show 0 < total (weigh Task.dies) s.tasks from by
          have hsum : s.sum Task.dies = total (weigh Task.dies) s.tasks := rfl
          omega)
      cases htask : s.tasks t with
      | none =>
        rw [htask] at ht
        cases ht
      | some task =>
        rw [htask] at ht
        obtain ⟨pc, rfl⟩ := destroy_of_dies ht
        have F := V.stages t
        rw [htask] at F
        cases pc with
        | onUserDisconnect =>
          have hnone : s.cell.life.times .userDisconnected = 0 := F.2.1
          omega
        | clearOwner | release | drain pc => exact Nat.le_of_eq F
    · exact Nat.le_of_eq (V.gone hgone)
  · rw [V.before hrefs]
    exact Nat.zero_le _

/-- **The order of the callbacks**: a packet handler is called after the connection callback has
    returned; when `OnUserDisconnect` is called, all handlers have returned, and none is called after it;
    and it is called for every `User` that was created, once. -/
theorem callback_order {s : Sys T} (h : Reachable (system.guard ConnectFirst) s) :
    Heralded .connected .handling s.cell.log ∧
    (¬ Before .userDisconnected .handling s.cell.log ∧
      ¬ Before .userDisconnected .handled s.cell.log) ∧
    (.userDisconnected ∈ s.cell.log → s.cell.log.count .handling = s.cell.log.count .handled) ∧
    s.cell.log.count .userDisconnected ≤ s.cell.log.count .created ∧
    s.cell.log.count .created ≤ 1 ∧
    (0 < s.cell.destroyed → s.cell.log.count .userDisconnected = s.cell.log.count .created) := by
  have hr : Reachable system s := h.of_guard
  obtain ⟨L, -⟩ := lawful hr
  have V := lived hr
  refine ⟨(ready h).order, ⟨(parted hr).handling, (parted hr).handled⟩, fun hsaid => ?_,
    V.parted_le L, V.once, V.gone⟩
  have hrefs : s.cell.refs = 0 := by
    refine Nat.eq_zero_of_not_pos fun hpos => ?_
    have hcount : s.cell.log.count .userDisconnected = 0 := V.before hpos
    exact List.count_eq_zero.mp hcount hsaid
  have hcalls := handler_calls hr
  have hnone : (s.sum fun task => task.stage.handles) = 0 := total_eq_zero fun t => by
    cases htask : s.tasks t with
    | none => rfl
    | some task =>
      obtain ⟨pc, rfl⟩ := (L.unreferenced hrefs).2 t task htask
      rfl
  rw [hnone] at hcalls
  exact hcalls

/-- A run of a server meets the condition. -/
theorem connectFirst_of_server (s s' : Sys T) (h : decide (s.cell.engine ≠ some .client) = true) :
    ConnectFirst s s' := by
  intro hclient
  exact absurd hclient (of_decide_eq_true h)

/-- A packet is handled, the peer closes the connection, and the session ends. -/
theorem callback_order_server : ∃ s : Sys Unit, .handling ∈ s.cell.log ∧
    Heralded .connected .handling s.cell.log ∧
    s.cell.log.count .userDisconnected = s.cell.log.count .created := by
  obtain ⟨s, hr, hp⟩ := exists_reachable_of_exec (M := system.guard ConnectFirst) (served_init ())
    (next_of_gate (M := system) (g := fun s _ => decide (s.cell.engine ≠ some .client)) step_next
      connectFirst_of_server)
    (accepting () ++ .complete (recvOp 1 8191) (encode ⟨1, [2]⟩) ::
      .take () { recvOp 1 8191 with done := some 9 } :: goes () 8 ++
      .complete (recvOp 2 8191) [] :: .take () { recvOp 2 8191 with done := some 0 } :: goes () 6)
    (fun s => decide (.handling ∈ s.cell.log ∧ 0 < s.cell.destroyed)) (by decide)
  obtain ⟨hhandling, hgone⟩ := of_decide_eq_true hp
  obtain ⟨horder, -, -, -, -, hall⟩ := callback_order hr
  exact ⟨s, hhandling, horder, hall hgone⟩

/-- One worker is in `HandleConnectComplete`, behind `RecvAsync`; the other gets the first packet. -/
def earlyPacket : List (Act Pair) :=
  goes .worker 3 ++ .complete ⟨0, .connect, [], 0, none⟩ [] ::
    .take .worker ⟨0, .connect, [], 0, some 0⟩ :: goes .worker 8 ++
    .complete (recvOp 1 8191) (encode ⟨1, [2]⟩) ::
    .take .caller { recvOp 1 8191 with done := some 9 } :: goes .caller 2

/-- **A handler is called first**: `OnConnectComplete` has not returned, nor even been called. -/
theorem handler_first : ∃ s : Sys Pair, Reachable system s ∧
    ¬ Heralded .connected .handling s.cell.log := by
  have hinit : (system : System (Sys Pair)).init (.new .client (.new (fun _ => 0) 0 rfl) .worker) :=
    ⟨_, _, _, _, _, rfl⟩
  obtain ⟨s, hr, hp⟩ := exists_reachable_of_exec hinit step_next earlyPacket
    (fun s => decide (.handling ∈ s.cell.log ∧ .connected ∉ s.cell.log)) (by decide)
  obtain ⟨hhandling, hnot⟩ := of_decide_eq_true hp
  obtain ⟨l₁, l₂, hlog⟩ := List.append_of_mem hhandling
  refine ⟨s, hr, fun horder => hnot ?_⟩
  rw [hlog]
  exact List.mem_append_left _ (horder l₁ l₂ hlog)

end JunCore.SessionSteps
