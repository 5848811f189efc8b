/-
  No packet is forgotten in the queue.

  A thread that has put a packet into `send_q_` goes on to the CAS on `send_flag_`; if that fails,
  somebody else has the right to send, and looks at the queue after giving it up: at once, if it was
  a `SendAsync` that found nothing, or in `HandleSendComplete`.  So while the flag is clear and a
  packet waits, there is somebody on the way to the CAS (`Awake.wakes`).

  The step that needs an argument is the one that reads the counter and finds zero, although a packet
  waits.  The counter lags behind (`queue_length`): somebody has linked a packet without having
  counted it yet, and the CAS of that thread is still to come.
-/
import Mathlib.Algebra.Group.Int.Defs
import JunCore.Network.SendStream

set_option linter.unusedVariables false
set_option linter.unusedSectionVars false

namespace JunCore.SessionSteps

open Function Transition Network Counting

variable {T : Type} [DecidableEq T] [Fintype T]

/-! ## How far the counter lags -/

/-- A packet that is in the queue and not in its counter. -/
def Phase.lag : Phase → Int
  | .count | .async (.unlink _) | .async (.dequeueFail _) => 1
  | .drain .unlink | .drain .dequeueFail => 1
  | _ => 0

theorem sendAsync_lag (ok : Bool) (c : Cell) (pc : SendPc) :
    ((sendAsync ok c pc).1.sendQ.items.length : Int) + (c.sendQ.nodeCount + (Phase.async pc).lag)
      = c.sendQ.items.length + ((sendAsync ok c pc).1.sendQ.nodeCount
        + (Phase.inside .async (sendAsync ok c pc).2).lag) := by
  cases pc with
  | cas | loadCount | reloadCount | loadSize | loop wsa | commit wsa =>
    simp only [sendAsync]
    split <;> rfl
  | storeFalse | cancel | postZero id wsa => rfl
  | post wsa => cases ok <;> rfl
  | overflow | noPacket =>
    have hqueue : c.casPending.1.sendQ = c.sendQ := congrArg Outbox.sendQ (casPending_outbox c)
    simp only [sendAsync, hqueue]
    split <;> rfl
  | dequeue wsa =>
    have hlag : (c.sendQ.items.length : Int) + (c.sendQ.nodeCount + 0)
        = c.sendQ.items.length + (c.sendQ.nodeCount - 1 + 1) := by omega
    simp only [sendAsync]
    split <;> exact hlag
  | dequeueFail wsa =>
    show (c.sendQ.items.length : Int) + (c.sendQ.nodeCount + 1)
      = c.sendQ.items.length + (c.sendQ.nodeCount + 1 + 0)
    omega
  | unlink wsa =>
    cases hitems : c.sendQ.items with
    | nil =>
      simp only [sendAsync, hitems]
      rfl
    | cons b l =>
      simp only [sendAsync, hitems, LFQueue.unlink_items, LFQueue.unlink_nodeCount, List.tail_cons,
        List.length_cons]
      show (l.length : Int) + (c.sendQ.nodeCount + 1) = ((l.length + 1 : Nat) : Int)
        + (c.sendQ.nodeCount + 0)
      omega

theorem drain_lag (c : Cell) (pc : DrainPc) :
    ((drain c pc).1.sendQ.items.length : Int) + (c.sendQ.nodeCount + (Phase.drain pc).lag)
      = c.sendQ.items.length + ((drain c pc).1.sendQ.nodeCount
        + (Phase.inside .drain (drain c pc).2).lag) := by
  cases pc with
  | dequeue =>
    have hlag : (c.sendQ.items.length : Int) + (c.sendQ.nodeCount + 0)
        = c.sendQ.items.length + (c.sendQ.nodeCount - 1 + 1) := by omega
    simp only [drain]
    split <;> exact hlag
  | dequeueFail =>
    show (c.sendQ.items.length : Int) + (c.sendQ.nodeCount + 1)
      = c.sendQ.items.length + (c.sendQ.nodeCount + 1 + 0)
    omega
  | unlink =>
    cases hitems : c.sendQ.items with
    | nil =>
      simp only [drain, hitems]
      rfl
    | cons b l =>
      simp only [drain, hitems, LFQueue.unlink_items, LFQueue.unlink_nodeCount, List.tail_cons,
        List.length_cons]
      show (l.length : Int) + (c.sendQ.nodeCount + 1) = ((l.length + 1 : Nat) : Int)
        + (c.sendQ.nodeCount + 0)
      omega

theorem SendStep.lag {ok : Bool} {c : Cell} {p p' : Phase} {o' : Outbox}
    (h : SendStep ok c p o' p') : (o'.sendQ.items.length : Int) + (c.sendQ.nodeCount + p.lag)
      = c.sendQ.items.length + (o'.sendQ.nodeCount + p'.lag) := by
  cases h with
  | idle hstarts =>
    cases p' with
    | idle | link b | set => rfl
    | _ => cases hstarts
  | link b =>
    show ((c.sendQ.items ++ [b]).length : Int) + (c.sendQ.nodeCount + 0)
      = c.sendQ.items.length + (c.sendQ.nodeCount + 1)
    rw [List.length_append, List.length_singleton]
    omega
  | count =>
    show (c.sendQ.items.length : Int) + (c.sendQ.nodeCount + 1)
      = c.sendQ.items.length + (c.sendQ.nodeCount + 1 + 0)
    omega
  | async pc => exact sendAsync_lag ok c pc
  | drain pc => exact drain_lag c pc
  | loadPending | loadCount => split <;> rfl
  | _ => rfl

theorem weigh_lag (o : Option Task) : weigh (fun task => task.phase.lag) o = (phaseOf o).lag := by
  cases o <;> rfl

/-- A worker that has taken a completion has not touched the queue yet. -/
theorem handler_phase (op : Op) (n : Nat) : (op.handler n).phase
    = if op.operation = .send then (if n = 0 then .lost else .delete 0) else .idle := by
  obtain ⟨id, operation, wsa, room, done⟩ := op
  cases operation with
  | recv | send =>
    show Task.phase (if n = 0 then _ else _) = _
    split <;> rfl
  | accept | connect => rfl

theorem handler_lag (op : Op) (n : Nat) : (op.handler n).phase.lag = 0 := by
  rw [handler_phase]
  split
  · split <;> rfl
  · rfl

/-- **The length of the queue** is what its counter says, and the packets that are not in it. -/
theorem queue_length {s : Sys T} (h : Reachable system s) : (s.cell.sendQ.items.length : Int)
    = s.cell.sendQ.nodeCount + s.sum fun task => task.phase.lag := by
  refine conserved _ (fun c => (c.sendQ.items.length : Int)) (fun c => c.sendQ.nodeCount)
    (fun e buf => rfl) (fun s t r hr hdoes => ?_) (fun c op chunk _ _ => ⟨rfl, rfl⟩) h
  rw [weigh_lag, weigh_lag]
  generalize s.tasks t = pre at hdoes
  cases hdoes with
  | sendPacket m hpub hrefs | disconnect hpub hrefs => rfl
  | @take op n hmem hdone =>
    show _ = (s.cell.sendQ.items.length : Int) + (s.cell.sendQ.nodeCount + (op.handler n).phase.lag)
    rw [handler_lag]
    rfl
  | run task ok => exact (run_sendStep ok s.cell task).lag

/-! ## Somebody is on the way -/

/-- The places that lead to the CAS on `send_flag_`, or to another look at the counter. -/
def Phase.rouses : Phase → Bool
  | .count | .async .cas | .async .reloadCount | .loadPending | .loadCount => true
  | _ => false

/-- A step that gives up sending disconnects. -/
theorem SendStep.pays {ok : Bool} {c : Cell} {p p' : Phase} {o' : Outbox}
    (h : SendStep ok c p o' p') (hp : p ≠ .lost)
    (hlost : 0 < c.lostSend → c.pendingDisconnect = true) : 0 < o'.lostSend → o'.pending = true := by
  cases h with
  | lost => exact absurd rfl hp
  | pend => exact fun _ => rfl
  | set => exact fun h => absurd h (Nat.lt_irrefl 0)
  | async pc =>
    cases pc with
    | overflow | noPacket =>
      have hpending : c.casPending.1.pendingDisconnect = true :=
        congrArg Outbox.pending (casPending_outbox c)
      exact fun _ => hpending
    | cas | unlink wsa | commit wsa =>
      simp only [sendAsync]
      split <;> exact hlost
    | _ => exact hlost
  | drain pc =>
    cases pc with
    | unlink =>
      simp only [SessionSteps.drain]
      split <;> exact hlost
    | dequeue | dequeueFail => exact hlost
  | _ => exact hlost

/-- What is pending stays so, except in `Set`. -/
theorem SendStep.pending {ok : Bool} {c : Cell} {p p' : Phase} {o' : Outbox}
    (h : SendStep ok c p o' p') (hsets : p.sets = false) (hpending : c.pendingDisconnect = true) :
    o'.pending = true := by
  cases h with
  | pend => rfl
  | set | drain pc => cases hsets
  | async pc =>
    cases pc with
    | overflow | noPacket => exact congrArg Outbox.pending (casPending_outbox c)
    | cas | unlink wsa | commit wsa =>
      simp only [sendAsync]
      split <;> exact hpending
    | _ => exact hpending
  | _ => exact hpending

theorem SendStep.not_lost {ok : Bool} {c : Cell} {p p' : Phase} {o' : Outbox}
    (h : SendStep ok c p o' p') : p' ≠ .lost := by
  cases h with
  | idle hstarts =>
    rintro rfl
    cases hstarts
  | async pc => cases (sendAsync ok c pc).2 <;> exact nofun
  | drain pc => cases (SessionSteps.drain c pc).2 <;> exact nofun
  | loadPending | loadCount => split <;> exact nofun
  | _ => exact nofun

/-- **A step that leaves a waiting packet to nobody** found the counter at zero, or left it to those it
    was left to before. -/
theorem SendStep.rouses {ok : Bool} {c : Cell} {p p' : Phase} {o' : Outbox}
    (h : SendStep ok c p o' p') (hsets : p.sets = false) (howner : p.owns = true → c.sendFlag = true)
    (hlost : p ≠ .lost) (hpending : o'.pending = false) (hflag : o'.sendFlag = false) :
    p'.rouses = true ∨ c.sendFlag = false ∧ o'.sendQ = c.sendQ ∧
      (p.rouses = true → c.sendQ.nodeCount ≤ 0 ∧ p ≠ .count) := by
  have hset : c.sendFlag = false → p.owns ≠ true := by
    intro hclear howns
    rw [howner howns] at hclear
    cases hclear
  cases h with
  | idle hstarts => exact .inr ⟨hflag, rfl, fun h => absurd h Bool.false_ne_true⟩
  | pend => cases hpending
  | link b | count | clearFlag => exact .inl rfl
  | async pc =>
    cases pc with
    | storeFalse => exact .inl rfl
    | cas =>
      cases hclear : c.sendFlag with
      | true =>
        simp only [sendAsync, hclear] at hflag
        exact absurd (hclear.symm.trans hflag) Bool.false_ne_true.symm
      | false =>
        simp only [sendAsync, hclear] at hflag
        cases hflag
    | reloadCount =>
      by_cases hpos : 0 < c.sendQ.getUseCount
      · left
        simp only [sendAsync, if_pos hpos]
        rfl
      · exact .inr ⟨hflag, rfl, fun _ => ⟨Int.not_lt.mp hpos, by rintro ⟨⟩⟩⟩
    | cancel => exact .inr ⟨hflag, rfl, fun h => absurd h Bool.false_ne_true⟩
    | overflow | noPacket =>
      have hsame : c.casPending.1.sendFlag = c.sendFlag :=
        congrArg Outbox.sendFlag (casPending_outbox c)
      exact absurd rfl (hset (hsame.symm.trans hflag))
    | unlink wsa | commit wsa =>
      refine absurd rfl (hset (Eq.trans ?_ hflag))
      simp only [sendAsync]
      split <;> rfl
    | _ => exact absurd rfl (hset hflag)
  | delete _ | deleted _ | clearCount => exact absurd rfl (hset hflag)
  | loadPending =>
    have hclear : c.pendingDisconnect = false := hpending
    rw [hclear]
    exact .inl rfl
  | loadCount =>
    by_cases hpos : 0 < c.sendQ.getUseCount
    · rw [if_pos hpos]
      exact .inl rfl
    · exact .inr ⟨hflag, rfl, fun _ => ⟨Int.not_lt.mp hpos, by rintro ⟨⟩⟩⟩
  | lost => exact absurd rfl hlost
  | set | drain pc => cases hsets

/-- Where the counter is zero and a packet waits, somebody has yet to count it. -/
theorem somebody_counts {s : Sys T} (h : Reachable system s) (hrefs : 0 < s.cell.refs)
    (hflag : s.cell.sendFlag = false) (hitems : s.cell.sendQ.items ≠ [])
    (hcount : s.cell.sendQ.nodeCount ≤ 0) : ∃ t, phaseOf (s.tasks t) = .count := by
  obtain ⟨L, -⟩ := lawful h
  have hlaw := queue_length h
  have hpos : 0 < s.cell.sendQ.items.length := List.length_pos_iff.mpr hitems
  have hsum : (s.sum fun task => task.phase.lag) ≠ 0 := by omega
  obtain ⟨t, -, ht⟩ := Finset.exists_ne_zero_of_sum_ne_zero hsum
  rw [weigh_lag] at ht
  refine ⟨t, ?_⟩
  have howns : (phaseOf (s.tasks t)).owns ≠ true := by
    intro howns
    rw [L.flag_of_owns howns] at hflag
    cases hflag
  have hsets : (phaseOf (s.tasks t)).sets ≠ true := by
    intro hsets
    cases htask : s.tasks t with
    | none =>
      rw [htask] at hsets
      cases hsets
    | some task =>
      rw [htask] at hsets
      rcases setting h htask hsets with ⟨pc, rfl⟩ | ⟨hpub, -⟩
      · have := (L.destroying htask).1
        omega
      · exact hitems (blank_reachable h hpub).1.items
  cases hphase : phaseOf (s.tasks t) with
  | count => rfl
  | async pc =>
    rw [hphase] at ht howns
    cases pc with
    | unlink wsa | dequeueFail wsa => exact absurd rfl howns
    | _ => exact absurd rfl ht
  | drain pc =>
    rw [hphase] at hsets
    exact absurd rfl hsets
  | _ =>
    rw [hphase] at ht
    exact absurd rfl ht

/-- Every `WSASend` that has completed has transferred something. -/
def NonZero (s s' : Sys T) : Prop := ∀ op ∈ s'.cell.ops, op.operation = .send → op.done ≠ some 0

/-- **While `send_flag_` is clear and a packet waits, somebody is on the way to it.** -/
structure Awake (s : Sys T) : Prop where
  ops : ∀ op ∈ s.cell.ops, op.operation = .send → op.done ≠ some 0
  tasks : ∀ t, phaseOf (s.tasks t) ≠ .lost
  lost : 0 < s.cell.lostSend → s.cell.pendingDisconnect = true
  wakes : 0 < s.cell.refs → s.cell.pendingDisconnect = false → s.cell.sendFlag = false →
    s.cell.sendQ.items ≠ [] → ∃ t, (phaseOf (s.tasks t)).rouses = true

/-- A thread that has not moved is still on the way. -/
theorem rouses_after {s : Sys T} {t u : T} {r : Cell × Option Task} (hu : u ≠ t)
    (h : (phaseOf (s.tasks u)).rouses = true) :
    ∃ v, (phaseOf ((s.after t r).tasks v)).rouses = true := by
  refine ⟨u, ?_⟩
  show (phaseOf (update s.tasks t r.2 u)).rouses = true
  rwa [update_of_ne hu]

theorem Awake.run {s : Sys T} (A : Awake s) (hr : Reachable system s) {t : T} {task : Task}
    (ht : s.tasks t = some task) {ok : Bool}
    (hr' : Reachable system (s.after t (task.run ok s.cell)))
    (hops : NonZero s (s.after t (task.run ok s.cell))) :
    Awake (s.after t (task.run ok s.cell)) := by
  obtain ⟨L, -⟩ := lawful hr
  have hstep := run_sendStep ok s.cell task
  have hphase : phaseOf (s.tasks t) = task.phase := by
    rw [ht]
    rfl
  have hlost : task.phase ≠ .lost := hphase ▸ A.tasks t
  refine ⟨hops, ?_, hstep.pays hlost A.lost, fun hrefs hpending hflag hitems => ?_⟩
  · exact Sys.forall_after (P := fun o => phaseOf o ≠ .lost) hstep.not_lost fun u _ => A.tasks u
  · have hrefs : 0 < s.cell.refs := L.refs_run ht hrefs
    have hsets : task.phase.sets = false := by
      cases hsets : task.phase.sets with
      | false => rfl
      | true =>
        rcases setting hr ht hsets with ⟨pc, rfl⟩ | ⟨-, hpub⟩
        · have := (L.destroying ht).1
          omega
        · exact absurd (blank_reachable hr' (hpub ok)).1.items hitems
    have howner : task.phase.owns = true → s.cell.sendFlag = true := by
      rw [← hphase]
      exact L.flag_of_owns
    rcases hstep.rouses hsets howner hlost hpending hflag with hme | ⟨hclear, hsame, hread⟩
    · refine ⟨t, ?_⟩
      show (phaseOf (update s.tasks t _ t)).rouses = true
      rwa [update_self]
    have hitems : s.cell.sendQ.items ≠ [] := by
      have hsame : (task.run ok s.cell).1.sendQ = s.cell.sendQ := hsame
      rw [← hsame]
      exact hitems
    by_cases hrouses : task.phase.rouses = true
    · -- the counter lags behind, and not because of this thread
      obtain ⟨hzero, hcount⟩ := hread hrouses
      obtain ⟨u, hu⟩ := somebody_counts hr hrefs hclear hitems hzero
      refine rouses_after (u := u) ?_ (by rw [hu]; rfl)
      rintro rfl
      exact hcount (hphase.symm.trans hu)
    · have hbefore : s.cell.pendingDisconnect = false := by
        cases hold : s.cell.pendingDisconnect with
        | false => rfl
        | true => exact (hstep.pending hsets hold).symm.trans hpending
      obtain ⟨u, hu⟩ := A.wakes hrefs hbefore hclear hitems
      refine rouses_after ?_ hu
      rintro rfl
      exact hrouses (hphase ▸ hu)

/-- **The rule for the wakeups.** -/
theorem awake {s : Sys T} (h : Reachable (system.guard NonZero) s) : Awake s := by
  apply h.invariant (I := Awake)
  · rintro _ ⟨e, mem, b, hb, t, rfl⟩
    exact ⟨fun op hop => absurd hop List.not_mem_nil,
      Sys.forall_new (P := fun o => phaseOf o ≠ .lost) nofun nofun,
      fun hpos => absurd hpos (Nat.lt_irrefl 0), fun _ _ _ hitems => absurd rfl hitems⟩
  · rintro s s' hg A ⟨hnext, hops⟩
    have hr : Reachable system s := hg.of_guard
    have hr' : Reachable system s' := .step hr hnext
    rcases step_does hnext with ⟨t, r, hdoes, rfl⟩ | ⟨op, chunk, hmem, hdone, hroom, rfl⟩
    · generalize hpre : s.tasks t = pre at hdoes
      cases hdoes with
      | sendPacket m hpub hrefs | disconnect hpub hrefs =>
        refine ⟨hops, ?_, A.lost, fun _ hpending hflag hitems => ?_⟩
        · exact Sys.forall_after (P := fun o => phaseOf o ≠ .lost) nofun fun u _ => A.tasks u
        · obtain ⟨u, hu⟩ := A.wakes hrefs hpending hflag hitems
          refine rouses_after ?_ hu
          rintro rfl
          rw [hpre] at hu
          cases hu
      | @take op n hmem hdone =>
        refine ⟨hops, ?_, A.lost, fun hrefs hpending hflag hitems => ?_⟩
        · refine Sys.forall_after (P := fun o => phaseOf o ≠ .lost) ?_ fun u _ => A.tasks u
          show (op.handler n).phase ≠ .lost
          rw [handler_phase]
          split
          · rename_i hkind
            have hne : n ≠ 0 := by
              rintro rfl
              exact A.ops op hmem hkind hdone
            rw [if_neg hne]
            exact nofun
          · exact nofun
        · obtain ⟨u, hu⟩ := A.wakes hrefs hpending hflag hitems
          refine rouses_after ?_ hu
          rintro rfl
          rw [hpre] at hu
          cases hu
      | run task ok => exact A.run hr hpre hr' hops
    · exact ⟨hops, A.tasks, A.lost, A.wakes⟩

/-! ## The destructor -/

/-- What `Set` leaves. -/
structure Drained (s : Sys T) : Prop where
  draining : ∀ t pc, phaseOf (s.tasks t) = .drain pc →
    s.cell.sendFlag = false ∧ (pc = .dequeueFail → s.cell.sendQ.items = [])
  destroyed : 0 < s.cell.destroyed → s.cell.sendFlag = false ∧ s.cell.sendQ.items = []

/-- Where a thread comes from that is in the loop of `Set`. -/
theorem SendStep.drains {ok : Bool} {c : Cell} {p : Phase} {o' : Outbox} {pc : DrainPc}
    (h : SendStep ok c p o' (.drain pc)) : (p = .set ∨ ∃ pc', p = .drain pc') ∧
      (p = .set ∨ c.sendFlag = false → o'.sendFlag = false) ∧
      (pc = .dequeueFail → o'.sendQ.nodeCount < 0) := by
  generalize hp' : Phase.drain pc = p' at h
  cases h with
  | idle hstarts =>
    rw [← hp'] at hstarts
    cases hstarts
  | async pc' => cases hpc : (sendAsync ok c pc').2 <;> rw [hpc] at hp' <;> cases hp'
  | loadPending | loadCount => split at hp' <;> cases hp'
  | set =>
    refine ⟨.inl rfl, fun _ => rfl, ?_⟩
    rintro rfl
    cases hp'
  | drain pc' =>
    refine ⟨.inr ⟨pc', rfl⟩, fun hflag => ?_, ?_⟩
    · have hflag : c.sendFlag = false := hflag.resolve_left nofun
      have hsame : (SessionSteps.drain c pc').1.sendFlag = c.sendFlag :=
        congrArg Book.sendFlag (drain_book c pc')
      exact hsame.trans hflag
    · rintro rfl
      cases pc' with
      | dequeue =>
        simp only [SessionSteps.drain] at hp' ⊢
        split at hp'
        · rename_i hneg
          exact hneg
        · cases hp'
      | dequeueFail => cases hp'
      | unlink =>
        simp only [SessionSteps.drain] at hp'
        split at hp' <;> cases hp'
  | _ => cases hp'

/-- The sum over all tasks, where there is only one. -/
theorem Sys.sum_alone {M : Type} [AddCommMonoid M] {s : Sys T} {t : T} {task : Task}
    (ht : s.tasks t = some task) (hothers : ∀ u, u ≠ t → s.tasks u = none) (w : Task → M) :
    s.sum w = w task := by
  have hsum : s.sum w = weigh w (s.tasks t) := by
    refine Finset.sum_eq_single t (fun u _ hu => ?_) fun h => absurd (Finset.mem_univ t) h
    rw [hothers u hu]
    rfl
  rw [hsum, ht]
  rfl

/-- The destructor comes to the end of the loop when the queue is empty. -/
theorem Drained.step {s s' : Sys T} (D : Drained s) (hr : Reachable system s)
    (hnext : system.next s s') {u : T} {pc : DrainPc} (hu : phaseOf (s'.tasks u) = .drain pc) :
    s'.cell.sendFlag = false ∧ (pc = .dequeueFail → s'.cell.sendQ.items = []) := by
  have hr' : Reachable system s' := .step hr hnext
  obtain ⟨L, -⟩ := lawful hr
  obtain ⟨L', -⟩ := lawful hr'
  cases htask : s'.tasks u with
  | none =>
    rw [htask] at hu
    cases hu
  | some task' =>
    have hphase : task'.phase = .drain pc := by
      rw [htask] at hu
      exact hu
    rcases setting hr' htask (by rw [hphase]; rfl) with ⟨pc', rfl⟩ | ⟨hpub, -⟩
    · obtain ⟨hrefs', -, hothers'⟩ := L'.destroying htask
      rcases step_does hnext with ⟨t, r, hdoes, rfl⟩ | ⟨op, chunk, hmem, -, -, rfl⟩
      · have hut : u = t := by
          by_contra hut
          have hold : s.tasks u = some (.destroy pc') := by
            rw [← htask]
            exact (update_of_ne hut _ _).symm
          obtain ⟨hrefs, -, hothers⟩ := L.destroying hold
          rw [hothers t (Ne.symm hut)] at hdoes
          cases hdoes with
          | sendPacket m _ hpos | disconnect _ hpos => omega
          | take hmem hdone =>
            rw [(L.unreferenced hrefs).1] at hmem
            exact List.not_mem_nil hmem
        subst hut
        have hr2 : r.2 = some (.destroy pc') := by
          rw [← htask]
          show r.2 = update s.tasks u r.2 u
          rw [update_self]
        have hp2 : phaseOf r.2 = .drain pc := by
          rw [hr2]
          exact hphase
        generalize hpre : s.tasks u = pre at hdoes
        cases hdoes with
        | sendPacket m hpub hrefs | disconnect hpub hrefs => cases hr2
        | @take op n hmem hdone =>
          have hp2 : (op.handler n).phase = .drain pc := hp2
          rw [handler_phase] at hp2
          split at hp2
          · split at hp2 <;> cases hp2
          · cases hp2
        | run task ok =>
          have hstep := run_sendStep ok s.cell task
          rw [hp2] at hstep
          obtain ⟨hfrom, hflag, hneg⟩ := hstep.drains
          refine ⟨hflag (hfrom.imp id ?_), fun hpc => ?_⟩
          · rintro ⟨pc₀, hpc₀⟩
            refine (D.draining u pc₀ ?_).1
            rw [hpre]
            exact hpc₀
          · have hlaw := queue_length hr'
            rw [Sys.sum_alone htask hothers'] at hlaw
            have hlag : (Task.destroy pc').phase.lag = 1 := by
              rw [hphase, hpc]
              rfl
            have hneg : (s.after u (task.run ok s.cell)).cell.sendQ.nodeCount < 0 := hneg hpc
            rw [hlag] at hlaw
            exact List.length_eq_zero_iff.mp (by omega)
      · exact D.draining u pc hu
    · have B := (blank_reachable hr' hpub).1
      exact ⟨B.sendFlag, fun _ => B.items⟩

/-- **What the destructor leaves.** -/
theorem drained {s : Sys T} (h : Reachable system s) : Drained s := by
  apply h.invariant (I := Drained)
  · rintro _ ⟨e, mem, b, hb, t, rfl⟩
    refine ⟨fun u pc => ?_, fun hpos => absurd hpos (Nat.lt_irrefl 0)⟩
    exact Sys.forall_new (P := fun o => phaseOf o = .drain pc → _) nofun nofun u
  · intro s s' hr D hnext
    obtain ⟨L, -⟩ := lawful hr
    refine ⟨fun u pc hu => D.step hr hnext hu, fun hpos => ?_⟩
    rcases Nat.eq_zero_or_pos s.cell.destroyed with hzero | hgone
    · rcases step_does hnext with ⟨t, r, hdoes, rfl⟩ | ⟨op, chunk, -, -, -, rfl⟩
      · have hpos : 0 < r.1.destroyed := hpos
        generalize hpre : s.tasks t = pre at hdoes
        cases hdoes with
        | sendPacket m _ _ | disconnect _ _ | take _ _ => exact D.destroyed hpos
        | run task ok =>
          rcases run_destroyed hr hpre ok with hsame | ⟨pc, rfl⟩
          · omega
          · rcases destroy_destroyed s.cell pc with hsame | rfl
            · have hsame : ((Task.destroy pc).run ok s.cell).1.destroyed = _ := hsame
              omega
            · obtain ⟨hflag, hitems⟩ := D.draining t .dequeueFail (by rw [hpre]; rfl)
              exact ⟨hflag, hitems rfl⟩
      · exact D.destroyed hpos
    · exact absurd hnext (L.gone_step hgone)

/-! ## No lost wakeup -/

/-- No thread is in `SendPacket` or `HandleSendComplete`, none in the destructor, and no `WSASend` is
    outstanding. -/
structure Quiet (s : Sys T) : Prop where
  sendPacket : ∀ t pc, s.tasks t ≠ some (.sendPacket pc)
  send : ∀ t id pc, s.tasks t ≠ some (.send id pc)
  destroy : ∀ t pc, s.tasks t ≠ some (.destroy pc)
  outstanding : s.cell.outstanding .send = []

/-- The bytes of a packet with a payload of one byte, and the `WSASend` of it alone. -/
def oneSend (done : Option Nat) : Op :=
  { sendOp 2 [some ⟨0, encode ⟨1, [2]⟩⟩] with done := done }

end JunCore.SessionSteps
