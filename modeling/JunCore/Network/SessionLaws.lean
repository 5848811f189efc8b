/-
  The laws of a session.

  Five equations say where everything is that a session has handed out (`Laws`): its references, its
  `OverlappedEx`, the right to send, the duty to receive, its life.  They hold in every run
  (`lawful`).  That there is at most one of something is then a matter of counting
  (`Laws.sole_sender`, `Laws.sole_receiver`), and so is that nothing goes on any more when the last
  reference is gone (`Laws.unreferenced`, `Laws.destroying`).

  One step does not fit in: `Set` clears `send_flag_` whoever has the right to send.  It is called by
  the handler that connects the session, and nobody sends before that (`Born`); and by the destructor,
  which is alone.
-/
import JunCore.Network.SessionLedger

set_option linter.unusedVariables false
set_option linter.unusedSectionVars false

namespace JunCore.SessionSteps

open Function Transition Network Counting

variable {T : Type} [DecidableEq T] [Fintype T]

/-! ## The operations in the system -/

/-- Where a task is in `SendAsync`. -/
def Task.asyncPc : Task → Option SendPc
  | .sendPacket (.sendAsync pc) | .send _ (.sendAsync pc) => some pc
  | _ => none

/-- Where a task is in `RecvAsync`. -/
def Task.recvPc : Task → Option RecvAsyncPc
  | .recv _ (.recvAsync pc) | .accept _ (.recvAsync pc) | .connect _ (.recvAsync pc) => some pc
  | _ => none

/-- In `SendAsync` a task does what `SendAsync` does. -/
theorem run_async {task : Task} {pc : SendPc} (h : task.asyncPc = some pc) (ok : Bool) (c : Cell) :
    (task.run ok c).1 = (sendAsync ok c pc).1 := by
  cases task with
  | sendPacket pc' =>
    cases pc' with
    | sendAsync pc' =>
      obtain rfl : pc' = pc := Option.some.inj h
      rfl
    | _ => cases h
  | send id pc' =>
    cases pc' with
    | sendAsync pc' =>
      obtain rfl : pc' = pc := Option.some.inj h
      rfl
    | _ => cases h
  | _ => cases h

/-- What a step of a task does with the operations in the system. -/
inductive NewOps (c : Cell) (ok : Bool) (task : Task) : List Op → Prop
  | same : NewOps c ok task c.ops
  | abort (h : task.asyncPc = some .cancel ∨ task = .disconnect .cancel) :
      NewOps c ok task (c.ops.map Op.abort)
  | send {wsa : List (Option Buffer)} (hpc : task.asyncPc = some (.post wsa)) (hok : ok = true) :
      NewOps c ok task (sendOp c.overlappeds wsa :: c.ops)
  | sendZero {id : Nat} {wsa : List (Option Buffer)}
      (hpc : task.asyncPc = some (.postZero id wsa)) :
      NewOps c ok task ({ sendOp id wsa with done := some 0 } :: c.ops)
  | recv (hpc : task.recvPc = some .post) (hok : ok = true) :
      NewOps c ok task (recvOp c.overlappeds c.window :: c.ops)
  | recvZero {id room : Nat} (hpc : task.recvPc = some (.postZero id room)) :
      NewOps c ok task ({ recvOp id room with done := some 0 } :: c.ops)
  | post {e : Engine} {id : Nat} (htask : task = .post e (.call id)) :
      NewOps c ok task ({ id := id, operation := e.operation } :: c.ops)

theorem sendAsync_ops (ok : Bool) (c : Cell) {task : Task} {pc : SendPc}
    (h : task.asyncPc = some pc) : NewOps c ok task (sendAsync ok c pc).1.ops := by
  cases pc with
  | cas | unlink wsa | commit wsa =>
    simp only [sendAsync]
    split <;> exact .same
  | overflow | noPacket =>
    have hops : c.casPending.1.ops = c.ops := congrArg Book.ops (casPending_book c)
    show NewOps c ok task c.casPending.1.ops
    rw [hops]
    exact .same
  | cancel => exact .abort (.inl h)
  | post wsa =>
    cases ok with
    | false => exact .same
    | true => exact .send h rfl
  | postZero id wsa => exact .sendZero h
  | _ => exact .same

theorem recvAsync_ops (ok : Bool) (c : Cell) {task : Task} {pc : RecvAsyncPc}
    (h : task.recvPc = some pc) : NewOps c ok task (recvAsync ok c pc).1.ops := by
  cases pc with
  | check =>
    simp only [recvAsync]
    split <;> exact .same
  | post =>
    cases ok with
    | false => exact .same
    | true => exact .recv h rfl
  | postZero id room => exact .recvZero h

theorem drain_ops (ok : Bool) (c : Cell) (task : Task) (pc : DrainPc) :
    NewOps c ok task (drain c pc).1.ops := by
  have hops : (drain c pc).1.ops = c.ops := congrArg Book.ops (drain_book c pc)
  rw [hops]
  exact .same

theorem run_ops (ok : Bool) (c : Cell) (task : Task) : NewOps c ok task (task.run ok c).1.ops := by
  cases task with
  | post e pc =>
    cases pc with
    | newOverlapped | failed id => exact .same
    | call id =>
      cases ok with
      | false => exact .same
      | true => exact .post rfl
  | sendPacket pc =>
    cases pc with
    | sendAsync pc => exact sendAsync_ops ok c rfl
    | serialize m b =>
      simp only [Task.run, sendPacket]
      split <;> exact .same
    | check m | allocate m | link b | count => exact .same
  | disconnect pc =>
    cases pc with
    | cas =>
      have hops : c.casPending.1.ops = c.ops := congrArg Book.ops (casPending_book c)
      show NewOps c ok _ c.casPending.1.ops
      rw [hops]
      exact .same
    | cancel => exact .abort (.inr rfl)
  | recv id pc =>
    cases pc with
    | recvAsync pc => exact recvAsync_ops ok c rfl
    | loop k =>
      simp only [Task.run, recvComplete]
      split
      · exact .same
      split
      · split <;> exact .same
      · exact .same
    | moveRear n | inHandler k | loadPending => exact .same
  | send id pc =>
    cases pc with
    | sendAsync pc => exact sendAsync_ops ok c rfl
    | delete i =>
      simp only [Task.run, sendComplete]
      split <;> exact .same
    | clearCount | clearFlag | loadPending | loadCount => exact .same
  | accept id pc =>
    cases pc with
    | recvAsync pc => exact recvAsync_ops ok c rfl
    | drain pc => exact drain_ops ok c _ pc
    | _ => exact .same
  | connect id pc =>
    cases pc with
    | recvAsync pc => exact recvAsync_ops ok c rfl
    | drain pc => exact drain_ops ok c _ pc
    | _ => exact .same
  | delete id lost | unlock => exact .same
  | destroy pc =>
    cases pc with
    | drain pc =>
      simp only [Task.run, destroy]
      split <;> exact drain_ops ok c _ pc
    | onUserDisconnect =>
      simp only [Task.run, destroy]
      split <;> exact .same
    | clearOwner | release => exact .same

/-- An operation in the system is an old one, as it was or completed, or it was posted just now. -/
theorem run_op {ok : Bool} {c : Cell} {task : Task} {op : Op} (hop : op ∈ (task.run ok c).1.ops) :
    (∃ o ∈ c.ops, o.operation = op.operation ∧ o.wsaBuf = op.wsaBuf) ∨
    (op.operation = .send ∧ (ok = true ∧ task.asyncPc = some (.post op.wsaBuf) ∨
      ∃ id, task.asyncPc = some (.postZero id op.wsaBuf))) ∨
    (op.operation = .recv ∧ ∃ pc, task.recvPc = some pc) ∨
    ∃ e id, task = .post e (.call id) ∧ op.operation = e.operation := by
  generalize hl : (task.run ok c).1.ops = l at hop
  cases hl ▸ run_ops ok c task with
  | same => exact .inl ⟨op, hop, rfl, rfl⟩
  | abort _ =>
    obtain ⟨o, ho, rfl⟩ := List.mem_map.mp hop
    refine .inl ⟨o, ho, ?_⟩
    unfold Op.abort
    split <;> exact ⟨rfl, rfl⟩
  | send hpc hok =>
    rcases List.mem_cons.mp hop with rfl | hop
    · exact .inr (.inl ⟨rfl, .inl ⟨hok, hpc⟩⟩)
    · exact .inl ⟨op, hop, rfl, rfl⟩
  | @sendZero id wsa hpc =>
    rcases List.mem_cons.mp hop with rfl | hop
    · exact .inr (.inl ⟨rfl, .inr ⟨id, hpc⟩⟩)
    · exact .inl ⟨op, hop, rfl, rfl⟩
  | recv hpc _ | recvZero hpc =>
    rcases List.mem_cons.mp hop with rfl | hop
    · exact .inr (.inr (.inl ⟨rfl, _, hpc⟩))
    · exact .inl ⟨op, hop, rfl, rfl⟩
  | @post e id htask =>
    rcases List.mem_cons.mp hop with rfl | hop
    · exact .inr (.inr (.inr ⟨e, id, htask, rfl⟩))
    · exact .inl ⟨op, hop, rfl, rfl⟩

/-! ## What a session comes from -/

/-- A task that leads to the first receive, as long as the `User` has not been published by it. -/
def Task.early : Task → Bool
  | .post _ _ => true
  | .accept _ .inCallback | .accept _ (.recvAsync _) => false
  | .connect _ .callback | .connect _ .inCallback => false
  | .accept _ _ | .connect _ _ => true
  | _ => false

/-- The `AcceptEx` or `ConnectEx` that does. -/
def Op.early (op : Op) : Bool := op.operation = .accept || op.operation = .connect

/-- `HandleConnectComplete`, after `RecvAsync`. -/
def Task.connecting : Task → Bool
  | .connect _ .callback | .connect _ .inCallback => true
  | _ => false

/-- What leads to the first receive is in the procedures that begin with a new `OverlappedEx`. -/
theorem procedure_of_early {next : Task} (h : next.early = true) :
    next.procedure = .post ∨ next.procedure = .accept ∨ next.procedure = .connect := by
  cases next with
  | post e pc => exact .inl rfl
  | accept id pc => exact .inr (.inl rfl)
  | connect id pc => exact .inr (.inr rfl)
  | _ => cases h

theorem run_early (ok : Bool) (c : Cell) {task : Task} (h : task.early = false) :
    isTask Task.early (task.run ok c).2 = false := by
  cases task with
  | post e pc => cases h
  | accept id pc =>
    cases pc with
    | recvAsync pc => exact is_resume (p := Task.early) (fun _ => rfl) rfl _
    | inCallback => rfl
    | _ => cases h
  | connect id pc =>
    cases pc with
    | callback | inCallback => rfl
    | _ => cases h
  | _ =>
    -- the other procedures do not go on in one of the three
    refine is_run ok c fun next hnext => ?_
    rcases procedure_of_early hnext with hproc | hproc | hproc <;> rw [hproc] <;>
      exact ⟨Procedure.noConfusion, Procedure.noConfusion⟩

theorem run_ops_early (ok : Bool) (c : Cell) {task : Task} (h : ∀ e pc, task ≠ .post e pc)
    (hops : ∀ op ∈ c.ops, op.early = false) : ∀ op ∈ (task.run ok c).1.ops, op.early = false := by
  intro op hop
  unfold Op.early
  rcases run_op hop with ⟨o, ho, hkind, -⟩ | ⟨hkind, -⟩ | ⟨hkind, -⟩ | ⟨e, id, htask, -⟩
  · rw [← hkind]
    exact hops o ho
  · rw [hkind]
    rfl
  · rw [hkind]
    rfl
  · exact absurd htask (h e _)

theorem procedure_of_connecting {next : Task} (h : next.connecting = true) :
    next.procedure = .connect := by
  cases next with
  | connect id pc => rfl
  | _ => cases h

theorem run_connecting (ok : Bool) (c : Cell) {task : Task} (h : task.connecting = false)
    (hnot : ∀ id pc, task ≠ .connect id (.recvAsync pc)) :
    isTask Task.connecting (task.run ok c).2 = false := by
  cases task with
  | connect id pc =>
    cases pc with
    | recvAsync pc => exact absurd rfl (hnot id pc)
    | drain pc => exact is_resume (p := Task.connecting) (fun _ => rfl) rfl _
    | cast | setsockopt =>
      simp only [Task.run, connectComplete]
      split <;> rfl
    | newUser | set => rfl
    | callback | inCallback => cases h
  | _ =>
    refine is_run ok c fun next hnext => ?_
    rw [procedure_of_connecting hnext]
    exact ⟨Procedure.noConfusion, Procedure.noConfusion⟩

/-! ## The laws -/

/-- **The laws of a session.** -/
structure Laws (s : Sys T) : Prop where
  /-- every `shared_ptr` is held by a task or by an `OverlappedEx` in the system -/
  refs : s.cell.refs = s.cell.ops.length + s.sum Task.refs
  /-- every `OverlappedEx` is held by a task, in the system, or deleted -/
  overlapped : Multiset.range s.cell.overlappeds
    = ↑(s.cell.ops.map (·.id)) + ↑s.cell.deleted + s.sum Task.overlapped
  /-- while `send_flag_` is set, there is one to clear it, or it was lost -/
  sends : s.cell.sendFlag.toNat
    = (s.cell.ops.map fun op => lostSends (some op.operation)).sum + s.cell.lostSend
      + s.sum Task.sends
  /-- there is one receive, or something that leads to it or comes from it, or it was lost -/
  receives : 1 = (s.cell.ops.map fun op => lostRecvs (some op.operation)).sum + s.cell.lostRecv
    + s.sum Task.receives
  /-- the session is referenced, or in its destructor, or gone -/
  life : 1 = (if 0 < s.cell.refs then 1 else 0) + s.cell.destroyed + s.sum Task.dies

theorem sum_hold (s : Sys T) : s.sum Task.hold = (s.sum Task.refs, s.sum Task.overlapped,
    s.sum Task.sends, s.sum Task.receives, s.sum Task.dies) := by
  have hsnd := fun f : Multiset Nat × Nat × Nat × Nat →+ Nat =>
    s.apply_sum (f.comp (AddMonoidHom.snd Nat _)) Task.hold
  refine Prod.ext ?_ (Prod.ext ?_ (Prod.ext ?_ (Prod.ext ?_ ?_)))
  · exact s.apply_sum (AddMonoidHom.fst _ _) Task.hold
  · exact s.apply_sum ((AddMonoidHom.fst _ _).comp (AddMonoidHom.snd _ _)) Task.hold
  · exact hsnd ((AddMonoidHom.fst _ _).comp (AddMonoidHom.snd _ _))
  · exact hsnd ((AddMonoidHom.fst _ _).comp
      ((AddMonoidHom.snd _ _).comp (AddMonoidHom.snd _ _)))
  · exact hsnd ((AddMonoidHom.snd _ _).comp
      ((AddMonoidHom.snd _ _).comp (AddMonoidHom.snd _ _)))

theorem sum_ops (l : List Op) : (l.map Op.hold).sum = (l.length, ↑(l.map (·.id)),
    (l.map fun op => lostSends (some op.operation)).sum,
    (l.map fun op => lostRecvs (some op.operation)).sum, 0) := by
  induction l with
  | nil => rfl
  | cons op l ih =>
    rw [List.map_cons, List.sum_cons, ih]
    refine Prod.ext ?_ rfl
    exact Nat.add_comm 1 l.length

theorem Laws.of_hold {s : Sys T}
    (h : s.cell.book.credit = s.cell.book.debit + s.sum Task.hold) : Laws s := by
  rw [sum_hold, Book.debit, sum_ops] at h
  have hlife := congrArg (fun x : Hold => x.2.2.2.2) h
  exact {
    refs := congrArg Prod.fst h
    overlapped := congrArg (fun x : Hold => x.2.1) h
    sends := congrArg (fun x : Hold => x.2.2.1) h
    receives := congrArg (fun x : Hold => x.2.2.2.1) h
    life := by
      have hlife : 1 = 0 + ((if 0 < s.cell.refs then 1 else 0) + s.cell.destroyed)
        + s.sum Task.dies := hlife
      omega }

/-- Where there is only one, and a task has it, nothing else does. -/
theorem sole {s : Sys T} {w : Task → Nat} {f : Op → Nat} {n : Nat}
    (h : (s.cell.ops.map f).sum + n + s.sum w ≤ 1) {t : T} {task : Task}
    (ht : s.tasks t = some task) (hw : 0 < w task) :
    (∀ op ∈ s.cell.ops, f op = 0) ∧ n = 0 ∧ ∀ u, u ≠ t → weigh w (s.tasks u) = 0 := by
  have hone : weigh w (s.tasks t) ≤ s.sum w := s.le_sum t w
  have hweigh : weigh w (s.tasks t) = w task := by rw [ht]; rfl
  have hops : (s.cell.ops.map f).sum = 0 := by omega
  refine ⟨fun op hop => ?_, by omega, fun u hu => ?_⟩
  · exact List.sum_eq_zero_iff.mp hops _ (List.mem_map_of_mem hop)
  · have htwo : weigh w (s.tasks u) + weigh w (s.tasks t) ≤ s.sum w :=
      add_le_total (weigh w) s.tasks hu
    omega

namespace Laws

variable {s : Sys T} {t : T} {task : Task}

theorem sole_receiver (L : Laws s) (ht : s.tasks t = some task) (hr : 0 < task.receives) :
    (∀ op ∈ s.cell.ops, lostRecvs (some op.operation) = 0) ∧ s.cell.lostRecv = 0 ∧
      ∀ u, u ≠ t → weigh Task.receives (s.tasks u) = 0 :=
  sole L.receives.ge ht hr

theorem sole_sender (L : Laws s) (ht : s.tasks t = some task) (hr : 0 < task.sends) :
    (∀ op ∈ s.cell.ops, lostSends (some op.operation) = 0) ∧ s.cell.lostSend = 0 ∧
      ∀ u, u ≠ t → weigh Task.sends (s.tasks u) = 0 := by
  refine sole (Nat.le_trans L.sends.ge ?_) ht hr
  cases s.cell.sendFlag
  · exact Nat.zero_le 1
  · exact Nat.le_refl 1

theorem refs_le (L : Laws s) (ht : s.tasks t = some task) : task.refs ≤ s.cell.refs := by
  have hone : weigh Task.refs (s.tasks t) ≤ s.sum Task.refs := s.le_sum t Task.refs
  rw [ht] at hone
  have hle : task.refs ≤ s.sum Task.refs := hone
  have := L.refs
  omega

theorem sends_le (L : Laws s) (ht : s.tasks t = some task) :
    task.sends ≤ s.cell.sendFlag.toNat := by
  have hone : weigh Task.sends (s.tasks t) ≤ s.sum Task.sends := s.le_sum t Task.sends
  rw [ht] at hone
  have hle : task.sends ≤ s.sum Task.sends := hone
  have := L.sends
  omega

end Laws

/-- A task that holds no reference is the destructor. -/
theorem destroy_of_refs {task : Task} (h : task.refs = 0) : ∃ pc, task = .destroy pc := by
  cases task with
  | destroy pc => exact ⟨pc, rfl⟩
  | post e pc => cases pc <;> cases h
  | sendPacket pc => cases pc <;> cases h
  | disconnect pc | delete id lost | unlock => cases h
  | recv id pc => cases pc <;> cases h
  | send id pc => cases pc <;> cases h
  | accept id pc => cases pc <;> cases h
  | connect id pc => cases pc <;> cases h

/-- When the last reference is gone, nothing is going on but the destructor. -/
theorem Laws.unreferenced {s : Sys T} (L : Laws s) (h : s.cell.refs = 0) :
    s.cell.ops = [] ∧ ∀ t task, s.tasks t = some task → ∃ pc, task = .destroy pc := by
  have hlaw := L.refs
  refine ⟨List.length_eq_zero_iff.mp (by omega), fun t task ht => destroy_of_refs ?_⟩
  have := L.refs_le ht
  omega

/-- The destructor is alone. -/
theorem Laws.destroying {s : Sys T} (L : Laws s) {t : T} {pc : DestroyPc}
    (ht : s.tasks t = some (.destroy pc)) :
    s.cell.refs = 0 ∧ s.cell.destroyed = 0 ∧ ∀ u, u ≠ t → s.tasks u = none := by
  have hone : weigh Task.dies (s.tasks t) ≤ s.sum Task.dies := s.le_sum t Task.dies
  have hweigh : weigh Task.dies (s.tasks t) = 1 := by rw [ht]; rfl
  have hlife := L.life
  have hrefs : s.cell.refs = 0 := by
    by_contra hne
    rw [if_pos (Nat.pos_of_ne_zero hne)] at hlife
    omega
  refine ⟨hrefs, by omega, fun u hu => ?_⟩
  cases htask : s.tasks u with
  | none => rfl
  | some task =>
    obtain ⟨pc', rfl⟩ := (L.unreferenced hrefs).2 u task htask
    have htwo : weigh Task.dies (s.tasks u) + weigh Task.dies (s.tasks t) ≤ s.sum Task.dies :=
      add_le_total (weigh Task.dies) s.tasks hu
    have hother : weigh Task.dies (s.tasks u) = 1 := by rw [htask]; rfl
    omega

/-- When the destructor has returned, nothing happens any more. -/
theorem Laws.gone {s : Sys T} (L : Laws s) (h : 0 < s.cell.destroyed) :
    s.cell.refs = 0 ∧ s.cell.ops = [] ∧ ∀ t, s.tasks t = none := by
  have hrefs : s.cell.refs = 0 := by
    have hlife := L.life
    by_contra hne
    rw [if_pos (Nat.pos_of_ne_zero hne)] at hlife
    omega
  obtain ⟨hops, hdestroy⟩ := L.unreferenced hrefs
  refine ⟨hrefs, hops, fun t => ?_⟩
  cases htask : s.tasks t with
  | none => rfl
  | some task =>
    obtain ⟨pc, rfl⟩ := hdestroy t task htask
    have := (L.destroying htask).2.1
    omega

theorem Laws.gone_step {s s' : Sys T} (L : Laws s) (h : 0 < s.cell.destroyed) :
    ¬ system.next s s' := by
  intro hnext
  obtain ⟨hrefs, hops, hnone⟩ := L.gone h
  rcases step_does hnext with ⟨t, r, hdoes, rfl⟩ | ⟨op, chunk, hmem, -, -, rfl⟩
  · rw [hnone t] at hdoes
    cases hdoes with
    | sendPacket m _ hpos | disconnect _ hpos => omega
    | take hmem hdone =>
      rw [hops] at hmem
      exact List.not_mem_nil hmem
  · rw [hops] at hmem
    exact List.not_mem_nil hmem

/-- Nothing is left that a receive could still come from. -/
structure Grown (s : Sys T) : Prop where
  tasks : ∀ t, isTask Task.early (s.tasks t) = false
  ops : ∀ op ∈ s.cell.ops, op.early = false

/-- **Once the `User` may be known, the session has grown.** -/
def Born (s : Sys T) : Prop :=
  (s.cell.published = true ∨ ∃ t, isTask Task.connecting (s.tasks t) = true) → Grown s

theorem early_receives {task : Task} (h : task.early = true) : 0 < task.receives := by
  cases task with
  | post e pc => cases pc <;> exact Nat.one_pos
  | accept id pc =>
    cases pc with
    | inCallback | recvAsync pc => cases h
    | _ => exact Nat.one_pos
  | connect id pc =>
    cases pc with
    | callback | inCallback => cases h
    | recvAsync pc => cases pc <;> exact Nat.one_pos
    | _ => exact Nat.one_pos
  | sendPacket pc | disconnect pc | recv id pc | send id pc | delete id lost | unlock | destroy pc =>
    cases h

theorem Op.early_receives {op : Op} (h : lostRecvs (some op.operation) = 0) : op.early = false := by
  obtain ⟨id, operation, wsa, room, done⟩ := op
  cases operation with
  | send => rfl
  | recv | accept | connect => cases h

/-- A session that has grown stays so. -/
theorem Grown.step {s : Sys T} (G : Grown s) {t : T} {r : Cell × Option Task}
    (h : Does s.cell (s.tasks t) r) : Grown (s.after t r) := by
  have hnew : isTask Task.early r.2 = false ∧ ∀ op ∈ r.1.ops, op.early = false := by
    have htask := G.tasks t
    generalize s.tasks t = pre at h htask
    cases h with
    | sendPacket m hpub hrefs | disconnect hpub hrefs => exact ⟨rfl, G.ops⟩
    | @take op n hmem hdone =>
      refine ⟨?_, fun o ho => G.ops o (List.mem_of_mem_erase ho)⟩
      have hearly := G.ops op hmem
      obtain ⟨id, operation, wsa, room, done⟩ := op
      cases operation with
      | recv | send =>
        show Task.early (if n = 0 then _ else _) = false
        split <;> rfl
      | accept | connect => cases hearly
    | run task ok =>
      refine ⟨run_early ok s.cell htask, run_ops_early ok s.cell ?_ G.ops⟩
      rintro e pc rfl
      cases htask
  exact ⟨Sys.forall_after (P := fun o => isTask Task.early o = false) hnew.1 fun u _ => G.tasks u,
    hnew.2⟩

/-- The one task that has the duty to receive, leaving the early stage. -/
theorem Grown.of_sole {s : Sys T} (L : Laws s) {t : T} {task : Task} (ht : s.tasks t = some task)
    (hr : 0 < task.receives) (hpost : ∀ e pc, task ≠ .post e pc) {ok : Bool}
    (hearly : isTask Task.early (task.run ok s.cell).2 = false) :
    Grown (s.after t (task.run ok s.cell)) := by
  obtain ⟨hops, -, hothers⟩ := L.sole_receiver ht hr
  constructor
  · refine Sys.forall_after (P := fun o => isTask Task.early o = false) hearly fun u hu => ?_
    have hzero := hothers u hu
    cases htask : s.tasks u with
    | none => rfl
    | some other =>
      rw [htask] at hzero
      have hzero : other.receives = 0 := hzero
      cases he : other.early with
      | false => exact he
      | true =>
        have := early_receives he
        omega
  · exact run_ops_early ok s.cell hpost fun op hop => Op.early_receives (hops op hop)

/-- A task on its way to the `User` is not early when it gets there. -/
theorem connecting_early {o : Option Task} (h : isTask Task.connecting o = true) :
    isTask Task.early o = false := by
  cases o with
  | none => rfl
  | some task =>
    cases task with
    | connect id pc =>
      cases pc with
      | callback | inCallback => rfl
      | _ => cases h
    | _ => cases h

/-- A step that publishes the `User`, or comes to `OnConnectComplete`, was taken by the task with the
    duty to receive. -/
theorem Grown.of_new {s : Sys T} (L : Laws s) {t : T} {task : Task} (ht : s.tasks t = some task)
    {ok : Bool} (hpub : s.cell.published ≠ true) (hconn : task.connecting = false)
    (hnew : (task.run ok s.cell).1.published = true ∨
      isTask Task.connecting (task.run ok s.cell).2 = true) :
    Grown (s.after t (task.run ok s.cell)) := by
  rcases hnew with h | h
  · rcases run_published ok s.cell task with heq | ⟨-, hpublishes⟩
    · rw [heq] at h
      exact absurd h hpub
    · cases task with
      | recv id pc =>
        cases pc with
        | loop k => exact .of_sole L ht Nat.one_pos nofun (run_early ok s.cell rfl)
        | _ => cases hpublishes
      | accept id pc =>
        cases pc with
        | callback => exact .of_sole L ht Nat.one_pos nofun rfl
        | _ => cases hpublishes
      | connect id pc =>
        cases pc with
        | callback => cases hconn
        | _ => cases hpublishes
      | _ => cases hpublishes
  · have hrecv : ∃ id pc, task = .connect id (.recvAsync pc) := by
      by_contra hnot
      rw [run_connecting ok s.cell hconn fun id pc heq => hnot ⟨id, pc, heq⟩] at h
      cases h
    obtain ⟨id, pc, rfl⟩ := hrecv
    refine .of_sole L ht ?_ nofun (connecting_early h)
    cases pc <;> exact Nat.one_pos

theorem Born.step {s : Sys T} (L : Laws s) (B : Born s) {t : T} {r : Cell × Option Task}
    (h : Does s.cell (s.tasks t) r) : Born (s.after t r) := by
  intro hnew
  by_cases hold : s.cell.published = true ∨ ∃ u, isTask Task.connecting (s.tasks u) = true
  · exact (B hold).step h
  · rw [not_or, not_exists] at hold
    obtain ⟨hpub, hconn⟩ := hold
    have hmover : r.1.published = true ∨ isTask Task.connecting r.2 = true := by
      refine hnew.imp id ?_
      rintro ⟨u, hu⟩
      have hu : isTask Task.connecting (update s.tasks t r.2 u) = true := hu
      by_cases hut : u = t
      · subst hut
        rwa [update_self] at hu
      · rw [update_of_ne hut] at hu
        exact absurd hu (hconn u)
    have hme := hconn t
    generalize hpre : s.tasks t = pre at h hme
    cases h with
    | sendPacket m hpub' hrefs | disconnect hpub' hrefs => exact absurd hpub' hpub
    | @take op n hmem hdone =>
      refine absurd (hmover.resolve_left hpub) ?_
      obtain ⟨id, operation, wsa, room, done⟩ := op
      cases operation with
      | recv | send =>
        show ¬ Task.connecting (if n = 0 then _ else _) = true
        split <;> exact Bool.false_ne_true
      | accept | connect => exact Bool.false_ne_true
    | run task ok => exact .of_new L hpre hpub (Bool.eq_false_of_not_eq_true hme) hmover

/-- `Set` overwrites nothing: it is called before anything was sent, or after all that was. -/
theorem Laws.sets {s : Sys T} (L : Laws s) (B : Born s) (hr : Reachable system s) {t : T}
    {task : Task} (ht : s.tasks t = some task) (hsets : task.sets = true) :
    s.cell.sendFlag.toNat = s.cell.lostSend := by
  have hblank : task.early = true → s.cell.sendFlag.toNat = s.cell.lostSend := by
    intro hearly
    have hpub : s.cell.published = false := by
      cases hp : s.cell.published with
      | false => rfl
      | true =>
        have := (B (.inl hp)).tasks t
        rw [ht] at this
        rw [show isTask Task.early (some task) = task.early from rfl, hearly] at this
        cases this
    obtain ⟨hB, -⟩ := blank_reachable hr hpub
    rw [hB.sendFlag, hB.lostSend]
    rfl
  cases task with
  | accept id pc =>
    cases pc with
    | set => exact hblank rfl
    | _ => cases hsets
  | connect id pc =>
    cases pc with
    | set => exact hblank rfl
    | _ => cases hsets
  | destroy pc =>
    obtain ⟨hrefs, -, hothers⟩ := L.destroying ht
    obtain ⟨hops, -⟩ := L.unreferenced hrefs
    have hzero : s.sum Task.sends = 0 := by
      refine total_eq_zero fun u => ?_
      by_cases hu : u = t
      · subst hu
        rw [ht]
        rfl
      · rw [hothers u hu]
        rfl
    have hlaw := L.sends
    rw [hops, hzero] at hlaw
    simpa using hlaw
  | _ => cases hsets

theorem destroy_of_dies {task : Task} (h : 0 < task.dies) : ∃ pc, task = .destroy pc := by
  cases task with
  | destroy pc => exact ⟨pc, rfl⟩
  | post e pc => cases pc <;> cases h
  | sendPacket pc =>
    cases pc with
    | sendAsync pc => cases pc <;> cases h
    | _ => cases h
  | disconnect pc | delete id lost | unlock => cases h
  | recv id pc =>
    cases pc with
    | recvAsync pc => cases pc <;> cases h
    | _ => cases h
  | send id pc =>
    cases pc with
    | sendAsync pc => cases pc <;> cases h
    | _ => cases h
  | accept id pc =>
    cases pc with
    | recvAsync pc => cases pc <;> cases h
    | _ => cases h
  | connect id pc =>
    cases pc with
    | recvAsync pc => cases pc <;> cases h
    | _ => cases h

theorem Effect.destroyed {k k' : Book} {a b : Hold} (E : Effect k k' a b) :
    k'.destroyed = k.destroyed ∨ 0 < a.2.2.2.2 := by
  cases E with
  | die => exact .inr (Nat.succ_le_of_lt (Nat.lt_of_lt_of_le Nat.one_pos (Nat.le_add_right _ _)))
  | _ => exact .inl rfl

/-- **The laws hold in every run.** -/
theorem lawful {s : Sys T} (h : Reachable system s) : Laws s ∧ Born s := by
  have hall : s.cell.book.credit = s.cell.book.debit + s.sum Task.hold ∧ Born s := by
    apply h.invariant (I := fun s =>
      s.cell.book.credit = s.cell.book.debit + s.sum Task.hold ∧ Born s)
    · rintro _ ⟨e, mem, b, hb, t, rfl⟩
      refine ⟨?_, fun hnew => ?_⟩
      · rw [Sys.sum_new]
        rfl
      · rcases hnew with h | ⟨u, hu⟩
        · cases h
        · rw [Sys.forall_new (P := fun o => isTask Task.connecting o = false) rfl rfl u] at hu
          cases hu
    · rintro s s' hr ⟨hlaw, B⟩ hnext
      have L := Laws.of_hold hlaw
      rcases step_does hnext with ⟨t, r, hdoes, rfl⟩ | ⟨op, chunk, hmem, hdone, hroom, rfl⟩
      · refine ⟨?_, B.step L hdoes⟩
        refine conserved_step Task.hold (fun c => c.book.credit) (fun c => c.book.debit) hlaw ?_
        have hE : Effect s.cell.book r.1.book (weigh Task.hold (s.tasks t)) (weigh Task.hold r.2) := by
          generalize hpre : s.tasks t = pre at hdoes
          cases hdoes with
          | sendPacket m hpub hrefs | disconnect hpub hrefs =>
            exact Effect.lock (k := s.cell.book) (a := 0) hrefs
          | @take op n hmem hdone =>
            show Effect s.cell.book _ _ (op.handler n).hold
            rw [handler_hold]
            exact Effect.take (k := s.cell.book) (a := 0) hmem
          | run task ok =>
            exact run_effect ok (L.refs_le hpre) (L.sends_le hpre) (L.sets B hr hpre)
        exact hE.balanced
      · refine ⟨?_, fun hnew => ?_⟩
        · show s.cell.book.credit = (s.cell.complete op chunk).book.debit + s.sum Task.hold
          have hops : ((s.cell.complete op chunk).ops.map Op.hold).sum
              = (s.cell.ops.map Op.hold).sum := by
            show (Op.hold { op with done := _ } :: (s.cell.ops.erase op).map Op.hold).sum = _
            rw [Effect.hold_erase hmem, List.sum_cons]
            rfl
          rw [hlaw]
          unfold Book.debit
          rw [show (s.cell.complete op chunk).book.ops = (s.cell.complete op chunk).ops from rfl,
            hops]
          rfl
        · have G := B hnew
          refine ⟨G.tasks, fun o ho => ?_⟩
          rcases List.mem_cons.mp ho with rfl | ho
          · exact G.ops op hmem
          · exact G.ops o (List.mem_of_mem_erase ho)
  exact ⟨.of_hold hall.1, hall.2⟩

theorem destroy_refs (c : Cell) (pc : DestroyPc) : (destroy c pc).1.refs = c.refs := by
  cases pc with
  | onUserDisconnect =>
    simp only [destroy]
    split <;> rfl
  | clearOwner | release => rfl
  | drain pc =>
    have hrefs : (drain c pc).1.refs = c.refs := congrArg Book.refs (drain_book c pc)
    simp only [destroy]
    split <;> exact hrefs

/-- Nothing but the destructor runs without a reference, and it does not make one. -/
theorem Laws.refs_run {s : Sys T} (L : Laws s) {t : T} {task : Task} (ht : s.tasks t = some task)
    {ok : Bool} (h : 0 < (task.run ok s.cell).1.refs) : 0 < s.cell.refs := by
  rcases Nat.eq_zero_or_pos s.cell.refs with hzero | hpos
  · obtain ⟨pc, rfl⟩ := (L.unreferenced hzero).2 t task ht
    have hrefs := destroy_refs s.cell pc
    have h : 0 < (destroy s.cell pc).1.refs := h
    omega
  · exact hpos

/-- A thread that runs, other than in the destructor, holds a reference. -/
theorem Laws.refs_pos {s : Sys T} (L : Laws s) {t : T} {task : Task} (ht : s.tasks t = some task)
    (hnot : ∀ pc, task ≠ .destroy pc) : 0 < s.cell.refs := by
  refine Nat.pos_of_ne_zero fun hzero => ?_
  obtain ⟨pc, heq⟩ := (L.unreferenced hzero).2 t task ht
  exact hnot pc heq

/-- The thread with the last reference is alone. -/
theorem Laws.last {s : Sys T} (L : Laws s) (hone : s.cell.refs = 1) {t : T} {task : Task}
    (ht : s.tasks t = some task) (hnot : ∀ pc, task ≠ .destroy pc) :
    s.cell.ops = [] ∧ ∀ u, u ≠ t → s.tasks u = none := by
  have hrefs := L.refs
  have hme : 0 < task.refs := by
    refine Nat.pos_of_ne_zero fun hzero => ?_
    obtain ⟨pc, heq⟩ := destroy_of_refs hzero
    exact hnot pc heq
  have hle : weigh Task.refs (s.tasks t) ≤ s.sum Task.refs := s.le_sum t Task.refs
  have hweigh : weigh Task.refs (s.tasks t) = task.refs := by rw [ht]; rfl
  refine ⟨List.length_eq_zero_iff.mp (by omega), fun u hu => ?_⟩
  have htwo : weigh Task.refs (s.tasks u) + weigh Task.refs (s.tasks t) ≤ s.sum Task.refs :=
    add_le_total (weigh Task.refs) s.tasks hu
  cases htask : s.tasks u with
  | none => rfl
  | some other =>
    have hother : weigh Task.refs (s.tasks u) = other.refs := by rw [htask]; rfl
    have hzero : other.refs = 0 := by omega
    obtain ⟨pc, rfl⟩ := destroy_of_refs hzero
    have := (L.destroying htask).1
    omega

/-- The last step of the destructor. -/
theorem destroy_destroyed (c : Cell) (pc : DestroyPc) :
    (destroy c pc).1.destroyed = c.destroyed ∨ pc = .drain .dequeueFail := by
  cases pc with
  | onUserDisconnect =>
    left
    simp only [destroy]
    split <;> rfl
  | clearOwner | release => exact .inl rfl
  | drain pc =>
    cases pc with
    | dequeue => exact .inl rfl
    | dequeueFail => exact .inr rfl
    | unlink =>
      left
      have hsome : ∃ pc', (drain c .unlink).2 = some pc' := by
        simp only [drain]
        split <;> exact ⟨_, rfl⟩
      obtain ⟨pc', hpc'⟩ := hsome
      simp only [destroy, hpc']
      exact congrArg Book.destroyed (drain_book c .unlink)

/-- Only the destructor returns from it. -/
theorem run_destroyed {s : Sys T} (h : Reachable system s) {t : T} {task : Task}
    (ht : s.tasks t = some task) (ok : Bool) :
    (task.run ok s.cell).1.destroyed = s.cell.destroyed ∨ ∃ pc, task = .destroy pc := by
  obtain ⟨L, B⟩ := lawful h
  exact (run_effect ok (L.refs_le ht) (L.sends_le ht) (L.sets B h ht)).destroyed.imp id
    destroy_of_dies

end JunCore.SessionSteps
