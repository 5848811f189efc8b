/-
  A session receives one thing at a time.

  Between two receives a session has one worker that handles the completion of the last one, and
  while a receive is outstanding it has none (`serial`).  So the receive buffer belongs to one at a
  time, the operation or the task; `Stage.reads` and `Op.reads` say with which bytes in it.  Every
  step of anybody else is quiet (`quiet_or_sole`), and the one that has the buffer hands it on as it
  left it (`LifeStep.reads`, `run_reads_op`, `handler_reads`).
-/
import JunCore.Network.Callbacks

set_option linter.unusedVariables false
set_option linter.unusedSectionVars false

namespace JunCore.SessionSteps

open Function Transition Network Counting

variable {T : Type} [DecidableEq T] [Fintype T]

/-! ## One at a time -/

/-- A worker that has taken the completion of a receive, and has not re-armed the receive. -/
def Task.receiving : Task → Bool
  | .recv _ _ | .delete _ (some .recv) => true
  | _ => false

theorem receives_of_receiving {task : Task} (h : task.receiving = true) : 0 < task.receives := by
  cases task with
  | recv id pc => exact receives_of_stage rfl rfl
  | delete id lost =>
    cases lost with
    | none => cases h
    | some k =>
      cases k with
      | recv => exact Nat.one_pos
      | _ => cases h
  | _ => cases h

/-- What is outstanding, as the laws count it. -/
theorem length_outstanding_recv_le (c : Cell) : (c.outstanding .recv).length
    ≤ (c.ops.map fun op => lostRecvs (some op.operation)).sum := by
  unfold Cell.outstanding
  induction c.ops with
  | nil => exact Nat.le_refl 0
  | cons op l ih =>
    rw [List.map_cons, List.sum_cons, List.filter_cons]
    obtain ⟨id, operation, wsa, room, done⟩ := op
    cases operation with
    | recv => exact (Nat.succ_le_succ ih).trans (Nat.add_comm _ 1).le
    | send | accept | connect => exact ih.trans (Nat.le_add_left _ _)

/-- **One at a time**: the workers that handle a receive, and the receives outstanding. -/
structure Serial (s : Sys T) : Prop where
  worker : ∀ t u, isTask Task.receiving (s.tasks t) = true →
    isTask Task.receiving (s.tasks u) = true → t = u
  outstanding : (s.cell.outstanding .recv).length ≤ 1
  either : ∀ t, isTask Task.receiving (s.tasks t) = true → s.cell.outstanding .recv = []

theorem serial {s : Sys T} (h : Reachable system s) : Serial s := by
  obtain ⟨L, -⟩ := lawful h
  have hholds : ∀ t, isTask Task.receiving (s.tasks t) = true →
      ∃ task, s.tasks t = some task ∧ 0 < task.receives := by
    intro t ht
    cases htask : s.tasks t with
    | none =>
      rw [htask] at ht
      cases ht
    | some task =>
      rw [htask] at ht
      exact ⟨task, rfl, receives_of_receiving ht⟩
  constructor
  · intro t u ht hu
    obtain ⟨task, htask, hr⟩ := hholds t ht
    obtain ⟨other, hother, hr'⟩ := hholds u hu
    by_contra hne
    have hzero := (L.sole_receiver htask hr).2.2 u (Ne.symm hne)
    rw [hother] at hzero
    have hzero : other.receives = 0 := hzero
    omega
  · have hlaw := L.receives
    have hle := length_outstanding_recv_le s.cell
    omega
  · intro t ht
    obtain ⟨task, htask, hr⟩ := hholds t ht
    refine List.filter_eq_nil_iff.mpr fun op hop hkind => ?_
    have hzero := (L.sole_receiver htask hr).1 op hop
    rw [of_decide_eq_true hkind] at hzero
    cases hzero

/-! ## Whose the buffer is -/

/-- What the session has read up to at this stage: the receive buffer, with the bytes that the
    completion has brought. -/
def Stage.reads (rb : RingBuffer) : Stage → Option RingBuffer
  | .drain _ | .callback .server | .inCallback .server | .first _ _ => some rb
  | .recv (.moveRear n) => some (rb.moveRear n)
  | .recv _ => some rb
  | _ => none

/-- And while this operation is in the system; nothing will be read if it transferred nothing. -/
def Op.reads (rb : RingBuffer) (op : Op) : Option RingBuffer :=
  match op.operation, op.done with
  | .recv, none => some rb
  | .recv, some (n + 1) => some (rb.moveRear (n + 1))
  | _, _ => none

theorem receives_of_reads {task : Task} {rb rb' : RingBuffer} (h : task.stage.reads rb = some rb') :
    0 < task.receives := by
  cases task with
  | recv id pc => exact receives_of_stage rfl rfl
  | accept id pc =>
    cases pc with
    | recvAsync pc => cases pc <;> exact Nat.one_pos
    | _ => exact Nat.one_pos
  | connect id pc =>
    cases pc with
    | recvAsync pc => cases pc <;> exact Nat.one_pos
    | callback | inCallback => cases h
    | _ => exact Nat.one_pos
  | sendPacket pc =>
    cases pc with
    | sendAsync pc => cases pc <;> cases h
    | _ => cases h
  | send id pc =>
    cases pc with
    | sendAsync pc => cases pc <;> cases h
    | _ => cases h
  | disconnect pc => cases pc <;> cases h
  | delete id lost => cases lost <;> cases h
  | post e pc | unlock | destroy pc => cases h

/-- Who has no duty to receive does not have the buffer, and is not on the way to it. -/
theorem stage_of_weigh {o : Option Task} (h : weigh Task.receives o = 0) :
    (stageOf o).before = false ∧ ∀ rb, (stageOf o).reads rb = none := by
  cases o with
  | none => exact ⟨rfl, fun rb => rfl⟩
  | some task =>
    have hzero : task.receives = 0 := h
    constructor
    · refine Bool.eq_false_of_not_eq_true fun hbefore => ?_
      have := early_receives (early_of_before hbefore)
      omega
    · intro rb
      refine Option.eq_none_iff_forall_ne_some.mpr fun rb' hrb => ?_
      have := receives_of_reads hrb
      omega

theorem op_of_lostRecvs {op : Op} (h : lostRecvs (some op.operation) = 0) :
    op.early = false ∧ ∀ rb, op.reads rb = none := by
  refine ⟨Op.early_receives h, fun rb => ?_⟩
  obtain ⟨id, operation, wsa, room, done⟩ := op
  cases operation with
  | send => rfl
  | recv | accept | connect => cases h

/-- The operation that has the buffer is the only one to have it. -/
theorem Laws.sole_op {s : Sys T} (L : Laws s) {op : Op} (hop : op ∈ s.cell.ops)
    (hkind : op.operation = .recv) :
    (∀ o ∈ s.cell.ops.erase op, lostRecvs (some o.operation) = 0) ∧
      ∀ t, weigh Task.receives (s.tasks t) = 0 := by
  have hlaw := L.receives
  rw [((List.perm_cons_erase hop).map fun op => lostRecvs (some op.operation)).sum_eq,
    List.map_cons, List.sum_cons, hkind] at hlaw
  have hlaw : 1 = 1 + ((s.cell.ops.erase op).map fun op => lostRecvs (some op.operation)).sum
    + s.cell.lostRecv + s.sum Task.receives := hlaw
  have hzero : ((s.cell.ops.erase op).map fun op => lostRecvs (some op.operation)).sum = 0 := by
    omega
  constructor
  · intro o ho
    exact List.sum_eq_zero_iff.mp hzero _ (List.mem_map_of_mem ho)
  · intro t
    have hle := s.le_sum t Task.receives
    omega

/-! ## Each step -/

/-- A step beside the receiving. -/
structure Cell.Quiet (c c' : Cell) : Prop where
  recvBuf : c'.recvBuf = c.recvBuf
  ownerUser : c'.ownerUser = c.ownerUser
  pending : c.pendingDisconnect = true → c'.pendingDisconnect = true

theorem quiet_of_stage {task : Task} (h : task.stage.receives = false) (ok : Bool) (c : Cell) :
    c.Quiet (task.run ok c).1 := by
  have hstep := run_lifeStep ok c task
  have hends : task.stage.ends = false := by
    cases hp : task.stage with
    | ending pc =>
      rw [hp] at h
      cases h
    | _ => rfl
  have hset : task.stage.isSet = false := by
    cases hp : task.stage with
    | set e =>
      rw [hp] at h
      cases h
    | _ => rfl
  have howner : (task.run ok c).1.ownerUser = (task.stage.isSet || c.ownerUser) :=
    (hstep.frame hends).2.2.1
  rw [hset] at howner
  exact ⟨(hstep.recvBuf h).1, howner, hstep.pending hends hset⟩

/-- **A step is quiet**, unless it is taken by the one that receives, or is to, or by the destructor. -/
theorem quiet_or_sole {s : Sys T} (L : Laws s) {t : T} {task : Task} (ht : s.tasks t = some task)
    (ok : Bool) : s.cell.Quiet (task.run ok s.cell).1 ∨
      (∀ op ∈ s.cell.ops, lostRecvs (some op.operation) = 0) ∧
        ∀ u, u ≠ t → weigh Task.receives (s.tasks u) = 0 := by
  cases hrecv : task.stage.receives with
  | false => exact .inl (quiet_of_stage hrecv ok s.cell)
  | true =>
    right
    cases hends : task.stage.ends with
    | true =>
      obtain ⟨pc, rfl⟩ := ends_destroy hends
      obtain ⟨hrefs, -, hothers⟩ := L.destroying ht
      constructor
      · intro op hop
        rw [(L.unreferenced hrefs).1] at hop
        exact absurd hop List.not_mem_nil
      · intro u hu
        rw [hothers u hu]
        rfl
    | false =>
      obtain ⟨hops, -, hothers⟩ := L.sole_receiver ht (receives_of_stage hrecv hends)
      exact ⟨hops, hothers⟩

/-- **The buffer is handed on**: whoever has it after a step had it before, with the same in it; or it
    was cleared. -/
theorem LifeStep.reads {ok : Bool} {c : Cell} {p p' : Stage} {l' : Life} (h : LifeStep ok c p l' p')
    (hloop : ∀ k, p ≠ .recv (.loop k)) {rb : RingBuffer} (hrb : p'.reads l'.recvBuf = some rb) :
    p.reads c.recvBuf = some rb ∨ (∃ e, p = .set e) ∧ rb = c.recvBuf.clear := by
  cases h with
  | drop | giveUp k =>
    unfold Stage.dropped at hrb
    split at hrb <;> cases hrb
  | cas => split at hrb <;> cases hrb
  | coming e hp | checked e hp => rcases hp with rfl | rfl | rfl <;> cases hrb
  | set e => exact .inr ⟨⟨e, rfl⟩, (Option.some.inj hrb).symm⟩
  | drain e hp =>
    left
    rcases hp with rfl | rfl
    · exact hrb
    · cases e <;> exact hrb
  | callback e =>
    cases e with
    | server => exact .inl hrb
    | client => cases hrb
  | inCallback e =>
    cases e with
    | server => exact .inl hrb
    | client => cases hrb
  | first e pc =>
    left
    have hbuf : (SessionSteps.recvAsync ok c pc).1.life.recvBuf = c.recvBuf := by
      rcases recvAsync_life ok c pc with heq | ⟨heq, -⟩ <;> rw [heq] <;> rfl
    rw [hbuf] at hrb
    cases hpc : (SessionSteps.recvAsync ok c pc).2 with
    | none =>
      rw [hpc] at hrb
      cases e <;> cases hrb
    | some pc' =>
      rw [hpc] at hrb
      exact hrb
  | moveRear n | inHandler k => exact .inl hrb
  | tooMany k | handle huser hpacket | skip hpacket | leave rest hp => exact absurd rfl (hloop _)
  | loadPending hp =>
    rcases hp with rfl | rfl
    · exact .inl hrb
    · cases hrb
  | recvAsync pc =>
    left
    have hbuf : (SessionSteps.recvAsync ok c pc).1.life.recvBuf = c.recvBuf := by
      rcases recvAsync_life ok c pc with heq | ⟨heq, -⟩ <;> rw [heq] <;> rfl
    rw [hbuf] at hrb
    cases hpc : (SessionSteps.recvAsync ok c pc).2 with
    | none =>
      rw [hpc] at hrb
      cases hrb
    | some pc' =>
      rw [hpc] at hrb
      exact hrb
  | drained pc => cases hpc : (SessionSteps.drain c pc).2 <;> rw [hpc] at hrb <;> cases hrb
  | _ => cases hrb

/-- Nobody gets on the way to the connection who was not. -/
theorem LifeStep.stays_before {ok : Bool} {c : Cell} {p p' : Stage} {l' : Life}
    (h : LifeStep ok c p l' p') (hp' : p'.before = true) : p.before = true := by
  cases h with
  | coming e hp | checked e hp => rfl
  | cast hengine | newUser e => rfl
  | drop | giveUp k =>
    unfold Stage.dropped at hp'
    split at hp' <;> cases hp'
  | cas => split at hp' <;> cases hp'
  | drain e hp =>
    rcases hp with rfl | rfl
    · cases hp'
    · cases e <;> cases hp'
  | inCallback e => cases e <;> cases hp'
  | leave rest hp | loadPending hp => rcases hp with rfl | rfl <;> cases hp'
  | first e pc =>
    cases hpc : (SessionSteps.recvAsync ok c pc).2 <;> rw [hpc] at hp'
    · cases e <;> cases hp'
    · cases hp'
  | recvAsync pc => cases hpc : (SessionSteps.recvAsync ok c pc).2 <;> rw [hpc] at hp' <;> cases hp'
  | drained pc => cases hpc : (SessionSteps.drain c pc).2 <;> rw [hpc] at hp' <;> cases hp'
  | _ => cases hp'

/-- An operation that has the buffer had it before, and the same room in it; or it was posted just
    now, with all the room there is. -/
theorem run_reads_op {ok : Bool} {c : Cell} {task : Task} {op : Op} {rb rb' : RingBuffer}
    (hop : op ∈ (task.run ok c).1.ops) (hrb : op.reads rb = some rb') :
    (∃ o ∈ c.ops, o.reads rb = some rb' ∧ (op.done = none → op.room = o.room ∧ o.done = none)) ∨
    (∃ pc, task.recvPc = some pc) ∧ rb' = rb ∧ op.room = c.window := by
  generalize hl : (task.run ok c).1.ops = l at hop
  cases hl ▸ run_ops ok c task with
  | same => exact .inl ⟨op, hop, hrb, fun h => ⟨rfl, h⟩⟩
  | abort _ =>
    obtain ⟨o, ho, rfl⟩ := List.mem_map.mp hop
    unfold Op.abort at hrb ⊢
    split
    · rename_i hdone
      rw [if_pos hdone] at hrb
      obtain ⟨id, operation, wsa, room, done⟩ := o
      cases operation <;> cases hrb
    · rename_i hdone
      rw [if_neg hdone] at hrb
      exact .inl ⟨o, ho, hrb, fun h => ⟨rfl, h⟩⟩
  | send _ _ | sendZero _ | recvZero _ =>
    rcases List.mem_cons.mp hop with rfl | hop
    · cases hrb
    · exact .inl ⟨op, hop, hrb, fun h => ⟨rfl, h⟩⟩
  | recv hpc _ =>
    rcases List.mem_cons.mp hop with rfl | hop
    · exact .inr ⟨⟨_, hpc⟩, (Option.some.inj hrb).symm, rfl⟩
    · exact .inl ⟨op, hop, hrb, fun h => ⟨rfl, h⟩⟩
  | @post e id _ =>
    rcases List.mem_cons.mp hop with rfl | hop
    · cases e <;> cases hrb
    · exact .inl ⟨op, hop, hrb, fun h => ⟨rfl, h⟩⟩

/-- A task in `RecvAsync` has the buffer, and leaves it as it is. -/
theorem run_recvAsync {task : Task} {pc : RecvAsyncPc} (h : task.recvPc = some pc) (ok : Bool)
    (c : Cell) : task.stage.reads c.recvBuf = some c.recvBuf ∧ (task.run ok c).1.recvBuf = c.recvBuf := by
  have hstep := run_lifeStep ok c task
  have hbuf : (recvAsync ok c pc).1.life.recvBuf = c.recvBuf := by
    rcases recvAsync_life ok c pc with heq | ⟨heq, -⟩ <;> rw [heq] <;> rfl
  have hlife : (task.run ok c).1.life.recvBuf = c.recvBuf := by
    generalize (task.run ok c).1.life = l' at hstep
    generalize stageOf (task.run ok c).2 = p' at hstep
    rcases stage_of_recv h with hp | ⟨e, hp⟩
    · rw [hp] at hstep
      cases hstep
      exact hbuf
    · rw [hp] at hstep
      cases hstep
      exact hbuf
  refine ⟨?_, hlife⟩
  rcases stage_of_recv h with hp | ⟨e, hp⟩ <;> rw [hp] <;> rfl

/-- Where nothing has the buffer, nothing gets it, unless the task is about to post a receive. -/
theorem run_ops_idle (ok : Bool) {c : Cell} (task : Task)
    (hops : ∀ op ∈ c.ops, lostRecvs (some op.operation) = 0) (hrecv : task.recvPc = none)
    (hcoming : ∀ e, task.stage ≠ .coming e) :
    ∀ op ∈ (task.run ok c).1.ops, op.early = false ∧ ∀ rb, op.reads rb = none := by
  intro op hop
  constructor
  · refine Bool.eq_false_of_not_eq_true fun hearly => ?_
    rcases run_early_op hop hearly with ⟨o, ho, hoearly⟩ | ⟨e, hstage⟩
    · rw [(op_of_lostRecvs (hops o ho)).1] at hoearly
      cases hoearly
    · exact hcoming e hstage
  · intro rb
    refine Option.eq_none_iff_forall_ne_some.mpr fun rb' hrb => ?_
    rcases run_reads_op hop hrb with ⟨o, ho, horb, -⟩ | ⟨⟨pc, hpc⟩, -⟩
    · rw [(op_of_lostRecvs (hops o ho)).2 rb] at horb
      cases horb
    · rw [hrecv] at hpc
      cases hpc

/-- The worker that takes a completion gets the buffer from it. -/
theorem handler_reads {op : Op} {n : Nat} (hdone : op.done = some n) {rb rb' : RingBuffer}
    (hrb : (op.handler n).stage.reads rb = some rb') : op.reads rb = some rb' := by
  obtain ⟨id, operation, wsa, room, done⟩ := op
  obtain rfl : done = some n := hdone
  cases operation with
  | recv =>
    cases n with
    | zero => cases hrb
    | succ n => exact hrb
  | send => cases n <;> cases hrb
  | accept | connect => cases hrb

theorem handler_before {op : Op} {n : Nat} (h : (op.handler n).stage.before = true) :
    op.early = true := by
  obtain ⟨id, operation, wsa, room, done⟩ := op
  cases operation with
  | recv | send => cases n <;> cases h
  | accept | connect => rfl

/-- A receive that completes brings its bytes into the buffer. -/
theorem contents_of_complete {rb rb' : RingBuffer} {op : Op} {chunk : List UInt8}
    (hroom : chunk.length ≤ rb.getFreeSize)
    (hrb : Op.reads (rb.fillWindows chunk) { op with done := some chunk.length } = some rb') :
    rb'.contents = rb.contents ++ chunk := by
  obtain ⟨id, operation, wsa, room, done⟩ := op
  cases operation with
  | recv =>
    have hcontents := rb.contents_receive hroom
    cases hlen : chunk.length with
    | zero =>
      rw [hlen] at hrb
      cases hrb
    | succ n =>
      rw [hlen] at hrb hcontents
      rw [← Option.some.inj hrb]
      exact hcontents
  | send | accept | connect => cases hrb

/-! ## An iteration of the loop -/

/-- The packet that an iteration finds is the one the decoder cuts off. -/
theorem recvIteration_packet {rb rest : RingBuffer} {p : Packet}
    (h : recvIteration true rb = .packet p rest) :
    packetGrammar.cut rb.contents = .frame p rest.contents := by
  unfold recvIteration at h
  split at h
  · cases h
  · rename_i hlen
    simp only [rb.peek_eq] at h
    split at h
    · cases h
    · rename_i hvalid
      split at h
      · cases h
      · rename_i hfull
        obtain ⟨hbytes, hrest⟩ := rb.dequeue_eq (readLE (rb.contents.take 4))
        have hlen' := rb.length_contents
        obtain ⟨hp, hr⟩ := Iteration.packet.inj h
        rw [packetGrammar_cut, cutPacket_frame, ← hp, ← hr, hbytes, hrest]
        exact ⟨by omega, by simpa using hvalid, by omega, rfl, rfl⟩

/-- Where it finds none, it leaves the buffer as it is. -/
theorem recvIteration_leave {rb rest : RingBuffer} {e : Exit}
    (h : recvIteration true rb = .leave e rest) : rest = rb := by
  unfold recvIteration at h
  split at h
  · exact (Iteration.leave.inj h).2.symm
  · simp only at h
    split at h
    · exact (Iteration.leave.inj h).2.symm
    · split at h
      · exact (Iteration.leave.inj h).2.symm
      · cases h

end JunCore.SessionSteps
