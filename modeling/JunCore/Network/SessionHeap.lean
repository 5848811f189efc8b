/-
  Who deletes what a session has allocated.

  A packet buffer goes from `SendPacket` through `send_q_` into `send_packet_arr_`.  It is deleted where
  it does not serialize, by the worker that handles the send, or by the loop in `Set`.  `HeapStep` is
  the list of these moves, and from it comes the ledger: a buffer is at one of these places, or it
  was deleted, once (`buffers_balance`).  Two places are empty when the session is gone.  The third is
  the array: a send that completes without any bytes is not handled, and what it was to send stays
  there.  If there is no such send, nothing stays (`emptied`).

  Every `OverlappedEx` is deleted by the worker that has taken it.  The `User` is not deleted at all:
  `Client::OnUserDisconnect` does so, `GameServer::OnUserDisconnect` does not, and neither does the
  `Player`, which only points to it.
-/
import JunCore.Network.SendWakeup
import JunCore.Network.UserLaws

set_option linter.unusedVariables false
set_option linter.unusedSectionVars false

namespace JunCore.SessionSteps

open Function Transition Network Counting

/-! ## The moves of a buffer -/

/-- The members that own buffers, and what became of those they owned. -/
structure Heap where
  buffers : Nat
  freed : List Nat
  items : List Buffer
  arr : Nat → Option Buffer

def Cell.heap (c : Cell) : Heap where
  buffers := c.buffers
  freed := c.freed
  items := c.sendQ.items
  arr := c.sendPacketArr

/-- The number of the buffer in an entry. -/
def bufferId : Option Buffer → Multiset Nat
  | some b => {b.id}
  | none => 0

/-- What is in `send_packet_arr_`, which has `MAX_SEND_MSG` entries. -/
def Heap.inArr (k : Heap) : Multiset Nat := ∑ i ∈ Finset.range 200, bufferId (k.arr i)

/-- What is somewhere in the session, or deleted. -/
def Heap.stored (k : Heap) : Multiset Nat :=
  (↑k.freed : Multiset Nat) + ↑(k.items.map (·.id)) + k.inArr

/-- The buffer that a task has in a local. -/
def Task.buffer : Task → Multiset Nat
  | .sendPacket (.serialize m b) | .sendPacket (.link b) => {b.id}
  | _ => 0

/-- **What a step does with the buffers**: the thread that takes it has `a` before and `b` after. -/
inductive HeapStep (k : Heap) : Heap → Multiset Nat → Multiset Nat → Prop
  | keep {a : Multiset Nat} : HeapStep k k a a
  | allocate : HeapStep k { k with buffers := k.buffers + 1 } 0 {k.buffers}
  /-- it does not serialize -/
  | reject (b : Buffer) : HeapStep k { k with freed := k.freed ++ [b.id] } {b.id} 0
  | enqueue (b : Buffer) : HeapStep k { k with items := k.items ++ [b] } {b.id} 0
  | fetch {i : Nat} {b : Buffer} {l : List Buffer} (hitems : k.items = b :: l) (hi : i < 200)
      (hnone : k.arr i = none) :
      HeapStep k { k with items := l, arr := update k.arr i (some b) } 0 0
  /-- it was sent -/
  | delete {i : Nat} (hi : i < 200) :
      HeapStep k
        { k with
          freed := k.freed ++ ((k.arr i).map (·.id)).toList
          arr := update k.arr i none } 0 0
  /-- it is still in the queue when the session ends -/
  | discard {b : Buffer} {l : List Buffer} (hitems : k.items = b :: l) :
      HeapStep k { k with items := l, freed := k.freed ++ [b.id] } 0 0

theorem Heap.inArr_update (k : Heap) {i : Nat} (hi : i < 200) (w : Option Buffer) :
    ({ k with arr := update k.arr i w } : Heap).inArr + bufferId (k.arr i)
      = k.inArr + bufferId w :=
  sum_update_of_mem bufferId k.arr (Finset.mem_range.mpr hi) w

/-- Nothing gets lost, and nothing is there twice. -/
theorem HeapStep.balanced {k k' : Heap} {a b : Multiset Nat} (h : HeapStep k k' a b) :
    Multiset.range k'.buffers + (k.stored + a) = Multiset.range k.buffers + (k'.stored + b) := by
  cases h with
  | keep => rfl
  | allocate =>
    show Multiset.range (k.buffers + 1) + (k.stored + 0) = Multiset.range k.buffers + (k.stored + _)
    rw [Multiset.range_succ, ← Multiset.singleton_add]
    abel
  | reject b =>
    unfold Heap.stored
    rw [← Multiset.coe_add, Multiset.coe_singleton]
    show _ + (_ + _ + k.inArr + _) = _ + (_ + _ + _ + k.inArr + _)
    abel
  | enqueue b =>
    unfold Heap.stored
    rw [List.map_append, ← Multiset.coe_add, List.map_singleton, Multiset.coe_singleton]
    show _ + (_ + _ + k.inArr + _) = _ + (_ + (_ + _) + k.inArr + _)
    abel
  | @fetch i b l hitems hi hnone =>
    have harr := k.inArr_update hi (some b)
    rw [hnone] at harr
    have harr : Heap.inArr ⟨k.buffers, k.freed, l, update k.arr i (some b)⟩ = k.inArr + {b.id} :=
      (add_zero _).symm.trans harr
    unfold Heap.stored
    rw [harr, hitems, List.map_cons, ← Multiset.cons_coe, ← Multiset.singleton_add]
    abel
  | @delete i hi =>
    have harr := k.inArr_update hi none
    have hid : (↑((k.arr i).map (·.id)).toList : Multiset Nat) = bufferId (k.arr i) := by
      cases k.arr i <;> rfl
    have harr : Heap.inArr ⟨k.buffers, k.freed ++ ((k.arr i).map (·.id)).toList, k.items,
        update k.arr i none⟩ + bufferId (k.arr i) = k.inArr := harr.trans (add_zero _)
    unfold Heap.stored
    rw [← Multiset.coe_add, hid, ← harr]
    abel
  | @discard b l hitems =>
    unfold Heap.stored
    rw [hitems, List.map_cons, ← Multiset.cons_coe, ← Multiset.singleton_add, ← Multiset.coe_add,
      Multiset.coe_singleton]
    show _ + (_ + (_ + _) + k.inArr + _) = _ + (_ + _ + _ + k.inArr + _)
    abel

/-! ## The batch fits -/

/-- The places where a batch is being put together. -/
def Phase.Short : Phase → Prop
  | .async (.loop wsa) | .async (.commit wsa) | .async (.post wsa) => wsa.length ≤ 200
  | .async (.dequeue wsa) | .async (.dequeueFail wsa) | .async (.unlink wsa) => wsa.length < 200
  | _ => True

theorem SendStep.short {ok : Bool} {c : Cell} {p p' : Phase} {o' : Outbox}
    (h : SendStep ok c p o' p') (hshort : p.Short) (hcount : c.sendPacketCount ≤ 200) :
    p'.Short ∧ o'.count ≤ 200 := by
  cases h with
  | idle hstarts =>
    refine ⟨?_, hcount⟩
    cases p' with
    | idle | link b | set => trivial
    | _ => cases hstarts
  | async pc =>
    have hlen : ∀ (wsa : List (Option Buffer)) b, wsa.length < 200 → (wsa ++ [b]).length ≤ 200 := by
      intro wsa b hlt
      rw [List.length_append, List.length_singleton]
      exact hlt
    cases pc with
    | cas | loadCount | reloadCount =>
      simp only [sendAsync]
      split <;> exact ⟨trivial, hcount⟩
    | loadSize =>
      simp only [sendAsync]
      split
      · exact ⟨trivial, hcount⟩
      · exact ⟨Nat.zero_le _, hcount⟩
    | overflow | noPacket =>
      have hsame := congrArg Outbox.count (casPending_outbox c)
      refine ⟨?_, hsame.trans_le hcount⟩
      show Phase.Short (Phase.inside Phase.async (if c.casPending.2 then _ else _))
      split <;> trivial
    | loop wsa =>
      simp only [sendAsync]
      split
      · rename_i hmore
        exact ⟨hmore.1, hcount⟩
      · exact ⟨hshort, hcount⟩
    | dequeue wsa =>
      simp only [sendAsync]
      split <;> exact ⟨hshort, hcount⟩
    | dequeueFail wsa => exact ⟨hlen wsa _ hshort, hcount⟩
    | unlink wsa =>
      simp only [sendAsync]
      split
      · exact ⟨hshort, hcount⟩
      · exact ⟨hlen wsa _ hshort, hcount⟩
    | commit wsa =>
      simp only [sendAsync]
      split
      · exact ⟨trivial, hcount⟩
      · exact ⟨hshort, hshort⟩
    | post wsa => cases ok <;> exact ⟨trivial, hcount⟩
    | storeFalse | cancel | postZero id wsa => exact ⟨trivial, hcount⟩
  | clearCount | set => exact ⟨trivial, Nat.zero_le _⟩
  | loadPending | loadCount =>
    refine ⟨?_, hcount⟩
    split <;> trivial
  | drain pc =>
    have hsame : (SessionSteps.drain c pc).1.sendPacketCount = c.sendPacketCount := by
      cases pc with
      | unlink =>
        simp only [SessionSteps.drain]
        split <;> rfl
      | dequeue | dequeueFail => rfl
    refine ⟨?_, hsame.trans_le hcount⟩
    cases (SessionSteps.drain c pc).2 <;> trivial
  | pend | link b | count | delete _ | deleted _ | clearFlag | lost => exact ⟨trivial, hcount⟩

variable {T : Type} [DecidableEq T] [Fintype T]

/-- `send_packet_arr_` is not overrun. -/
theorem batch_fits {s : Sys T} (h : Reachable system s) :
    (∀ t, (phaseOf (s.tasks t)).Short) ∧ s.cell.sendPacketCount ≤ 200 := by
  apply h.invariant (I := fun s => (∀ t, (phaseOf (s.tasks t)).Short) ∧ s.cell.sendPacketCount ≤ 200)
  · rintro _ ⟨e, mem, b, hb, t, rfl⟩
    exact ⟨Sys.forall_new (P := fun o => (phaseOf o).Short) trivial trivial, Nat.zero_le _⟩
  · rintro s s' - ⟨hshort, hcount⟩ hnext
    rcases step_does hnext with ⟨t, r, hdoes, rfl⟩ | ⟨op, chunk, -, -, -, rfl⟩
    · have hnew : (phaseOf r.2).Short ∧ r.1.sendPacketCount ≤ 200 := by
        generalize hpre : s.tasks t = pre at hdoes
        cases hdoes with
        | sendPacket _ _ _ | disconnect _ _ => exact ⟨trivial, hcount⟩
        | @take op n _ _ =>
          refine ⟨?_, hcount⟩
          show (op.handler n).phase.Short
          rw [handler_phase]
          split
          · split <;> trivial
          · trivial
        | run task ok =>
          have hme := hshort t
          rw [hpre] at hme
          exact (run_sendStep ok s.cell task).short hme hcount
      exact ⟨Sys.forall_after (P := fun o => (phaseOf o).Short) hnew.1 fun u _ => hshort u, hnew.2⟩
    · exact ⟨hshort, hcount⟩

/-! ## The steps -/

theorem resume_buffer {P : Type} {inside : P → Task} {after : Task}
    (hinside : ∀ pc, (inside pc).buffer = 0) (hafter : after.buffer = 0) (o : Option P) :
    weigh Task.buffer (some (resume inside after o)) = 0 := by
  cases o with
  | none => exact hafter
  | some pc => exact hinside pc

theorem drop_buffer (c : Cell) : weigh Task.buffer c.drop.2 = 0 := by
  show weigh Task.buffer (if c.refs = 1 then _ else _) = 0
  split <;> rfl

theorem recvAsync_heap (ok : Bool) (c : Cell) (pc : RecvAsyncPc) :
    (recvAsync ok c pc).1.heap = c.heap := by
  cases pc with
  | check =>
    simp only [recvAsync]
    split <;> rfl
  | post | postZero id room => rfl

theorem drain_heapStep (c : Cell) (pc : DrainPc) : HeapStep c.heap (drain c pc).1.heap 0 0 := by
  cases pc with
  | dequeue | dequeueFail => exact .keep
  | unlink =>
    cases hitems : c.sendQ.items with
    | nil =>
      simp only [drain, hitems]
      exact .keep
    | cons b l =>
      have hstep : HeapStep c.heap _ 0 0 := .discard hitems
      simp only [drain, hitems]
      have htail : c.sendQ.unlink.items = l := congrArg List.tail hitems
      rw [← htail] at hstep
      exact hstep

/-- `SendAsync` moves the buffers from the queue into the array. -/
theorem sendAsync_heapStep (ok : Bool) {c : Cell} {pc : SendPc} (F : c.outbox.FitAsync pc)
    (hshort : (Phase.async pc).Short) : HeapStep c.heap (sendAsync ok c pc).1.heap 0 0 := by
  cases pc with
  | cas | commit wsa =>
    simp only [sendAsync]
    split <;> exact .keep
  | overflow | noPacket =>
    simp only [sendAsync, Cell.casPending]
    split <;> exact .keep
  | unlink wsa =>
    cases hitems : c.sendQ.items with
    | nil =>
      simp only [sendAsync, hitems]
      exact .keep
    | cons b l =>
      have harr : c.sendPacketArr = slots wsa := F.arr
      have hnone : c.sendPacketArr wsa.length = none := by
        rw [harr]
        unfold slots
        rw [List.getElem?_eq_none (Nat.le_refl _)]
        rfl
      have hstep : HeapStep c.heap _ 0 0 := .fetch hitems hshort hnone
      have htail : c.sendQ.unlink.items = l := congrArg List.tail hitems
      rw [← htail] at hstep
      simp only [sendAsync, hitems]
      exact hstep
  | _ => exact .keep

/-- **Every step of a task is one of these.** -/
theorem run_heapStep (ok : Bool) {c : Cell} {task : Task} (F : c.outbox.Fit task.phase)
    (hshort : task.phase.Short) (hcount : c.sendPacketCount ≤ 200) :
    HeapStep c.heap (task.run ok c).1.heap task.buffer (weigh Task.buffer (task.run ok c).2) := by
  have hrecv : ∀ (pc : RecvAsyncPc) {inside : RecvAsyncPc → Task} {after : Task},
      (∀ pc, (inside pc).buffer = 0) → after.buffer = 0 →
      HeapStep c.heap (recvAsync ok c pc).1.heap 0
        (weigh Task.buffer (some (resume inside after (recvAsync ok c pc).2))) := by
    intro pc inside after hinside hafter
    rw [recvAsync_heap, resume_buffer hinside hafter]
    exact .keep
  cases task with
  | post e pc =>
    cases pc with
    | newOverlapped | failed id => exact .keep
    | call id => cases ok <;> exact .keep
  | sendPacket pc =>
    cases pc with
    | check m =>
      simp only [Task.run, sendPacket]
      split <;> exact .keep
    | allocate m => exact .allocate
    | serialize m b =>
      simp only [Task.run, sendPacket]
      split
      · exact .keep
      · exact .reject b
    | link b => exact .enqueue b
    | count => exact .keep
    | sendAsync pc =>
      simp only [Task.run, sendPacket]
      rw [resume_buffer (fun _ => rfl) rfl]
      exact sendAsync_heapStep ok F hshort
  | disconnect pc =>
    cases pc with
    | cas =>
      simp only [Task.run, Cell.casPending]
      split <;> exact .keep
    | cancel => exact .keep
  | recv id pc =>
    cases pc with
    | moveRear n | inHandler k => exact .keep
    | loop k =>
      simp only [Task.run, recvComplete]
      split
      · exact .keep
      split <;> split <;> exact .keep
    | loadPending =>
      simp only [Task.run, recvComplete]
      split <;> exact .keep
    | recvAsync pc => exact hrecv pc (fun _ => rfl) rfl
  | send id pc =>
    cases pc with
    | delete i =>
      simp only [Task.run, sendComplete]
      split
      · rename_i hlt
        exact .delete (Nat.lt_of_lt_of_le hlt hcount)
      · exact .keep
    | clearCount | clearFlag => exact .keep
    | loadPending | loadCount =>
      simp only [Task.run, sendComplete]
      split <;> exact .keep
    | sendAsync pc =>
      simp only [Task.run, sendComplete]
      rw [resume_buffer (fun _ => rfl) rfl]
      exact sendAsync_heapStep ok F hshort
  | accept id pc =>
    cases pc with
    | cast | setsockopt | getpeername =>
      simp only [Task.run, acceptComplete]
      split <;> exact .keep
    | newUser | set | callback | inCallback => exact .keep
    | drain pc =>
      simp only [Task.run, acceptComplete]
      rw [resume_buffer (fun _ => rfl) rfl]
      exact drain_heapStep c pc
    | recvAsync pc => exact hrecv pc (fun _ => rfl) rfl
  | connect id pc =>
    cases pc with
    | cast | setsockopt =>
      simp only [Task.run, connectComplete]
      split <;> exact .keep
    | newUser | set | callback | inCallback => exact .keep
    | drain pc =>
      simp only [Task.run, connectComplete]
      rw [resume_buffer (fun _ => rfl) rfl]
      exact drain_heapStep c pc
    | recvAsync pc => exact hrecv pc (fun _ => rfl) rfl
  | delete id lost =>
    show HeapStep c.heap c.heap 0 (weigh Task.buffer c.drop.2)
    rw [drop_buffer]
    exact .keep
  | unlock =>
    show HeapStep c.heap c.heap 0 (weigh Task.buffer c.drop.2)
    rw [drop_buffer]
    exact .keep
  | destroy pc =>
    cases pc with
    | onUserDisconnect =>
      simp only [Task.run, destroy]
      split <;> exact .keep
    | clearOwner | release => exact .keep
    | drain pc =>
      simp only [Task.run, destroy]
      split <;> exact drain_heapStep c pc

theorem handler_buffer (op : Op) (n : Nat) : (op.handler n).buffer = 0 := by
  unfold Op.handler
  split
  · split <;> rfl
  · split <;> rfl
  · rfl
  · rfl

/-- **The ledger of the buffers.** -/
theorem buffers_balance {s : Sys T} (h : Reachable system s) :
    Multiset.range s.cell.buffers = s.cell.heap.stored + s.sum Task.buffer := by
  refine conserved Task.buffer (fun c => Multiset.range c.buffers) (fun c => c.heap.stored)
    (fun e buf => ?_) (fun s t r hr hdoes => ?_) (fun c op chunk _ _ => ⟨rfl, rfl⟩) h
  · show Multiset.range 0 = (↑([] : List Nat) + ↑([] : List Nat) + _) + 0
    have harr : (Cell.new e buf).heap.inArr = 0 := Finset.sum_eq_zero fun i _ => rfl
    rw [harr]
    rfl
  · generalize hpre : s.tasks t = pre at hdoes
    cases hdoes with
    | sendPacket _ _ _ | disconnect _ _ => rfl
    | @take op n _ _ =>
      show _ + (_ + 0) = _ + (_ + (op.handler n).buffer)
      rw [handler_buffer]
      rfl
    | run task ok =>
      have F := (streaming hr).tasks t
      obtain ⟨hshort, hcount⟩ := batch_fits hr
      have hshort := hshort t
      rw [hpre] at F hshort
      exact (run_heapStep ok F hshort hcount).balanced

/-! ## What stays in the array -/

/-- Whoever has not the right to send leaves the array as it is. -/
theorem SendStep.arr {ok : Bool} {c : Cell} {p p' : Phase} {o' : Outbox}
    (h : SendStep ok c p o' p') (howns : p.owns = false) : o'.arr = c.sendPacketArr := by
  cases h with
  | async pc =>
    cases pc with
    | cas =>
      simp only [sendAsync]
      split <;> rfl
    | reloadCount | cancel => rfl
    | _ => cases howns
  | drain pc =>
    cases pc with
    | dequeue | dequeueFail => rfl
    | unlink =>
      simp only [SessionSteps.drain]
      split <;> rfl
  | delete _ | deleted _ | clearCount | clearFlag | lost => cases howns
  | _ => rfl

/-- Whoever gives up the right leaves the array empty, or a `WSASend`. -/
theorem SendStep.empties {ok : Bool} {c : Cell} {p p' : Phase} {o' : Outbox}
    (h : SendStep ok c p o' p') (F : c.outbox.Fit p) (howns : p.owns = true) (hlost : p ≠ .lost)
    (howns' : p'.owns = false) : o'.arr = slots [] ∨
      (ok = true ∧ ∃ wsa, p = .async (.post wsa)) ∨ ∃ id wsa, p = .async (.postZero id wsa) := by
  cases h with
  | async pc =>
    cases pc with
    | storeFalse => exact .inl F.arr
    | overflow => exact .inl ((congrArg Outbox.arr (casPending_outbox c)).trans F.arr)
    | post wsa =>
      cases ok with
      | true => exact .inr (.inl ⟨rfl, wsa, rfl⟩)
      | false => cases howns'
    | postZero id wsa => exact .inr (.inr ⟨id, wsa, rfl⟩)
    | noPacket | dequeueFail wsa => exact F.elim
    | cas | reloadCount | cancel => cases howns
    | loadCount | loadSize | loop wsa =>
      simp only [sendAsync] at howns'
      split at howns' <;> cases howns'
    | dequeue wsa =>
      simp only [sendAsync] at howns'
      split at howns' <;> cases howns'
    | unlink wsa =>
      simp only [sendAsync] at howns'
      split at howns' <;> cases howns'
    | commit wsa =>
      simp only [sendAsync, if_neg F.2] at howns'
      cases howns'
  | clearFlag => exact .inl F.arr
  | lost => exact absurd rfl hlost
  | delete _ | deleted _ | clearCount => cases howns'
  | _ => cases howns

/-- Nobody has the right to send. -/
def Unowned (s : Sys T) : Prop :=
  (∀ t, (phaseOf (s.tasks t)).owns = false) ∧ ∀ op ∈ s.cell.ops, op.operation ≠ .send

/-- A `WSASend` in the system stays there until a worker takes it. -/
theorem send_stays {ok : Bool} {c : Cell} {task : Task}
    (h : ∀ op ∈ (task.run ok c).1.ops, op.operation ≠ .send) :
    ∀ op ∈ c.ops, op.operation ≠ .send := by
  intro op hop
  generalize hl : (task.run ok c).1.ops = l at h
  cases hl ▸ run_ops ok c task with
  | same => exact h op hop
  | abort _ =>
    have hkind : op.abort.operation = op.operation := by
      unfold Op.abort
      split <;> rfl
    rw [← hkind]
    exact h _ (List.mem_map_of_mem hop)
  | _ => exact h op (List.mem_cons_of_mem _ hop)

/-- **If every send transfers something, nothing stays in the array.** -/
theorem emptied {s : Sys T} (h : Reachable (system.guard NonZero) s) (hunowned : Unowned s) :
    s.cell.sendPacketArr = slots [] := by
  have hall : Unowned s → s.cell.sendPacketArr = slots [] := by
    apply h.invariant (I := fun s => Unowned s → s.cell.sendPacketArr = slots [])
    · rintro _ ⟨e, mem, b, hb, t, rfl⟩ -
      rfl
    · rintro s s' hg ih ⟨hnext, -⟩ ⟨hnobody, hops⟩
      have hr : Reachable system s := hg.of_guard
      rcases step_does hnext with ⟨t, r, hdoes, rfl⟩ | ⟨op, chunk, hmem, -, -, rfl⟩
      · have hothers : ∀ u, u ≠ t → (phaseOf (s.tasks u)).owns = false := by
          intro u hu
          have hnobody := hnobody u
          rwa [show (s.after t r).tasks u = s.tasks u from update_of_ne hu _ _] at hnobody
        have hme : (phaseOf r.2).owns = false := by
          have hnobody := hnobody t
          rwa [show (s.after t r).tasks t = r.2 from update_self _ _ _] at hnobody
        have hbefore : (phaseOf (s.tasks t)).owns = false →
            (∀ op ∈ s.cell.ops, op.operation ≠ .send) → Unowned s := by
          refine fun howns hops => ⟨fun u => ?_, hops⟩
          by_cases hu : u = t
          · rw [hu]
            exact howns
          · exact hothers u hu
        generalize hpre : s.tasks t = pre at hdoes hbefore
        cases hdoes with
        | sendPacket _ _ _ | disconnect _ _ => exact ih (hbefore rfl hops)
        | @take op n hmem hdone =>
          refine ih (hbefore rfl fun o ho hsend => ?_)
          by_cases heq : o = op
          · -- its handler has the right to send
            subst heq
            have hme : (o.handler n).phase.owns = false := hme
            rw [handler_phase, if_pos hsend] at hme
            split at hme <;> cases hme
          · exact hops o ((List.mem_erase_of_ne heq).mpr ho) hsend
        | run task ok =>
          have hstep := run_sendStep ok s.cell task
          cases howns : task.phase.owns with
          | false =>
            exact (hstep.arr howns).trans (ih (hbefore howns (send_stays hops)))
          | true =>
            have F := (streaming hr).tasks t
            have hlost := (awake hg).tasks t
            rw [hpre] at F hlost
            rcases hstep.empties F howns hlost hme with harr | ⟨hok, wsa, hpc⟩ | ⟨id, wsa, hpc⟩
            · exact harr
            · subst hok
              refine absurd rfl (hops (sendOp s.cell.overlappeds wsa) ?_)
              show _ ∈ (task.run true s.cell).1.ops
              rw [run_async (phase_async_iff.mp hpc)]
              exact List.mem_cons_self
            · refine absurd rfl (hops { sendOp id wsa with done := some 0 } ?_)
              show _ ∈ (task.run ok s.cell).1.ops
              rw [run_async (phase_async_iff.mp hpc)]
              exact List.mem_cons_self
      · refine ih ⟨hnobody, fun o ho hsend => ?_⟩
        by_cases heq : o = op
        · subst heq
          exact hops { o with done := some chunk.length } List.mem_cons_self hsend
        · exact hops o (List.mem_cons_of_mem _ ((List.mem_erase_of_ne heq).mpr ho)) hsend
  exact hall hunowned

/-! ## A session of the game server -/

/-- **All runs of a session of `GameServer`.** -/
def gameServer : System (Sys T) where
  init s := ∃ mem b h t, s = .new .server (.new mem b h) t
  next := system.next

theorem reachable_of_gameServer {s : Sys T} (h : Reachable gameServer s) : Reachable system s := by
  induction h with
  | start h0 =>
    obtain ⟨mem, b, hb, t, rfl⟩ := h0
    exact .start ⟨_, mem, b, hb, t, rfl⟩
  | step _ hnext ih => exact .step ih hnext

/-- A step does not make a session of a server one of a client. -/
theorem LifeStep.server {ok : Bool} {c : Cell} {p p' : Stage} {l' : Life}
    (h : LifeStep ok c p l' p') (F : c.life.Fit p) (hengine : c.engine ≠ some .client)
    (hlog : .userDeleted ∉ c.log) : l'.engine ≠ some .client ∧ .userDeleted ∉ l'.log := by
  have hnot : ∀ m : List Event, .userDeleted ∉ m → .userDeleted ∉ c.log ++ m := by
    intro m hm hmem
    rcases List.mem_append.mp hmem with hmem | hmem
    · exact hlog hmem
    · exact hm hmem
  cases h with
  | cas =>
    unfold Cell.casPending
    split
    · exact ⟨hengine, hnot _ (by decide)⟩
    · exact ⟨hengine, hlog⟩
  | cancel | newUser e | inCallback e | handle _ _ | inHandler k =>
    exact ⟨hengine, hnot _ (by decide)⟩
  | set e => exact ⟨F.1 ▸ hengine, hlog⟩
  | first e pc | recvAsync pc =>
    rcases recvAsync_life ok c pc with heq | ⟨heq, -⟩ <;> rw [heq] <;> exact ⟨hengine, hlog⟩
  | onUserDisconnect =>
    simp only [destroy]
    split
    · rename_i e he huser
      refine ⟨hengine, hnot _ ?_⟩
      cases e with
      | server => decide
      | client => exact absurd he hengine
    · exact ⟨hengine, hlog⟩
  | release => exact ⟨(Option.some_ne_none _).symm, hlog⟩
  | _ => exact ⟨hengine, hlog⟩

/-- **Nobody deletes the `User`.** -/
theorem user_not_deleted {s : Sys T} (h : Reachable gameServer s) : .userDeleted ∉ s.cell.log := by
  have hall : s.cell.engine ≠ some .client ∧ .userDeleted ∉ s.cell.log := by
    apply h.invariant (I := fun s => s.cell.engine ≠ some .client ∧ .userDeleted ∉ s.cell.log)
    · rintro _ ⟨mem, b, hb, t, rfl⟩
      exact ⟨nofun, List.not_mem_nil⟩
    · rintro s s' hg ⟨hengine, hlog⟩ hnext
      rcases step_does hnext with ⟨t, r, hdoes, rfl⟩ | ⟨op, chunk, -, -, -, rfl⟩
      · generalize hpre : s.tasks t = pre at hdoes
        cases hdoes with
        | sendPacket _ _ _ | disconnect _ _ | take _ _ => exact ⟨hengine, hlog⟩
        | run task ok =>
          have F := (lived (reachable_of_gameServer hg)).stages t
          rw [hpre] at F
          exact (run_lifeStep ok s.cell task).server F hengine hlog
      · exact ⟨hengine, hlog⟩
  exact hall.2

/-! ## What is deleted in the end -/

/-- Everything that was allocated for the session has been deleted, once. -/
structure Cell.Deleted (c : Cell) : Prop where
  buffers : ∀ id < c.buffers, c.freed.count id = 1
  overlappeds : ∀ id < c.overlappeds, c.deleted.count id = 1
  users : c.log.count .userDeleted = c.log.count .created

/-- What makes up a range is there once. -/
theorem count_of_range {n : Nat} {l : List Nat} (h : Multiset.range n = ↑l) :
    ∀ id < n, l.count id = 1 := by
  intro id hid
  have hone := Multiset.count_eq_one_of_mem (Multiset.nodup_range n) (Multiset.mem_range.mpr hid)
  rw [h, Multiset.coe_count] at hone
  exact hone

/-- When the session is gone, every `OverlappedEx` has been deleted. -/
theorem overlappeds_deleted {s : Sys T} (h : Reachable system s) (hgone : 0 < s.cell.destroyed) :
    Multiset.range s.cell.overlappeds = ↑s.cell.deleted := by
  obtain ⟨L, -⟩ := lawful h
  obtain ⟨-, hops, hnone⟩ := L.gone hgone
  have hlaw := L.overlapped
  have hsum : s.sum Task.overlapped = 0 := Finset.sum_eq_zero fun t _ => by
    rw [hnone t]
    rfl
  rw [hsum, hops] at hlaw
  rw [hlaw]
  show (0 : Multiset Nat) + ↑s.cell.deleted + 0 = ↑s.cell.deleted
  rw [zero_add, add_zero]

/-- And every buffer, but for those in the array. -/
theorem buffers_deleted {s : Sys T} (h : Reachable system s) (hgone : 0 < s.cell.destroyed) :
    Multiset.range s.cell.buffers = ↑s.cell.freed + s.cell.heap.inArr := by
  obtain ⟨-, -, hnone⟩ := (lawful h).1.gone hgone
  have hitems : s.cell.heap.items = [] := ((drained h).destroyed hgone).2
  have hlaw := buffers_balance h
  have hsum : s.sum Task.buffer = 0 := Finset.sum_eq_zero fun t _ => by
    rw [hnone t]
    rfl
  rw [hsum, add_zero] at hlaw
  rw [hlaw]
  unfold Heap.stored
  rw [hitems]
  show ↑s.cell.freed + (0 : Multiset Nat) + _ = _
  rw [add_zero]

/-- If every send transfers something, every buffer has been deleted. -/
theorem all_buffers_deleted {s : Sys T} (h : Reachable (system.guard NonZero) s)
    (hgone : 0 < s.cell.destroyed) : ∀ id < s.cell.buffers, s.cell.freed.count id = 1 := by
  have hr : Reachable system s := h.of_guard
  obtain ⟨-, hops, hnone⟩ := (lawful hr).1.gone hgone
  have harr : s.cell.sendPacketArr = slots [] := by
    refine emptied h ⟨fun t => ?_, fun op hop => ?_⟩
    · rw [hnone t]
      rfl
    · rw [hops] at hop
      exact absurd hop List.not_mem_nil
  have hlaw := buffers_deleted hr hgone
  have hzero : s.cell.heap.inArr = 0 := Finset.sum_eq_zero fun i _ => by
    show bufferId (s.cell.sendPacketArr i) = 0
    rw [harr]
    rfl
  rw [hzero, add_zero] at hlaw
  exact count_of_range hlaw

/-- **The heap of a session of the game server**: in the end everything has been deleted if, and only
    if, no `User` was created.  Every `OverlappedEx` has been, and every buffer but for those that a
    send without any bytes left in `send_packet_arr_`; the `User` never is. -/
theorem session_heap {s : Sys T} (h : Reachable gameServer s) (hgone : 0 < s.cell.destroyed) :
    (s.cell.Deleted ↔ .created ∉ s.cell.log) ∧
    (∀ id < s.cell.overlappeds, s.cell.deleted.count id = 1) ∧
    Multiset.range s.cell.buffers = ↑s.cell.freed + s.cell.heap.inArr ∧
    .userDeleted ∉ s.cell.log := by
  have hr : Reachable system s := reachable_of_gameServer h
  have hoverlappeds := count_of_range (overlappeds_deleted hr hgone)
  have hnot := user_not_deleted h
  refine ⟨⟨fun D hcreated => ?_, fun hcreated => ?_⟩, hoverlappeds, buffers_deleted hr hgone, hnot⟩
  · have husers := D.users
    rw [List.count_eq_zero.mpr hnot] at husers
    exact List.count_eq_zero.mp husers.symm hcreated
  · have hzero : s.cell.log.count .created = 0 := List.count_eq_zero.mpr hcreated
    have hpub : s.cell.published = false := by
      cases hpub : s.cell.published with
      | false => rfl
      | true =>
        have hone : s.cell.log.count .created = 1 := (lived hr).published hpub
        omega
    obtain ⟨B, -⟩ := blank_reachable hr hpub
    refine ⟨fun id hid => ?_, hoverlappeds, (List.count_eq_zero.mpr hnot).trans hzero.symm⟩
    rw [B.buffers] at hid
    exact absurd hid (Nat.not_lt_zero id)

theorem step_gameServer (s : Sys T) (a : Act T) (s' : Sys T) (h : step s a = some s') :
    (gameServer : System (Sys T)).next s s' := ⟨a, h⟩

theorem served_gameServer (t : T) : (gameServer : System (Sys T)).init (served t) := ⟨_, _, _, _, rfl⟩

/-- `setsockopt` fails, and the session ends. -/
theorem session_heap_refused : ∃ s : Sys Unit, 0 < s.cell.overlappeds ∧ s.cell.Deleted := by
  obtain ⟨s, hr, hp⟩ := exists_reachable_of_exec (served_gameServer ()) step_gameServer
    (goes () 3 ++ .complete ⟨0, .accept, [], 0, none⟩ [] ::
      .take () ⟨0, .accept, [], 0, some 0⟩ :: .go () true :: .go () false :: goes () 6)
    (fun s => decide (0 < s.cell.overlappeds ∧ 0 < s.cell.destroyed ∧ .created ∉ s.cell.log))
    (by decide)
  obtain ⟨hpos, hgone, hcreated⟩ := of_decide_eq_true hp
  exact ⟨s, hpos, (session_heap hr hgone).1.mpr hcreated⟩

/-- A packet is on its way, the client resets the connection, and the session ends. -/
def resetWhileSending : List (Act Unit) :=
  accepting () ++ .sendPacket () ⟨⟨1, [2]⟩, true⟩ :: goes () 15 ++
    .complete (oneSend none) [] :: .take () (oneSend (some 0)) :: goes () 1 ++
    .complete (recvOp 1 8191) [] :: .take () { recvOp 1 8191 with done := some 0 } :: goes () 6

/-- **The `User` is left behind**, and the packet too. -/
theorem session_leaks : ∃ s : Sys Unit, Reachable gameServer s ∧ 0 < s.cell.destroyed ∧
    (0 < s.cell.buffers ∧ s.cell.freed.count 0 = 0) ∧
    (s.cell.log.count .created = 1 ∧ s.cell.log.count .userDeleted = 0) ∧ ¬ s.cell.Deleted := by
  obtain ⟨s, hr, hp⟩ := exists_reachable_of_exec (served_gameServer ()) step_gameServer
    resetWhileSending
    (fun s => decide (0 < s.cell.destroyed ∧ (0 < s.cell.buffers ∧ s.cell.freed.count 0 = 0) ∧
      s.cell.log.count .created = 1 ∧ s.cell.log.count .userDeleted = 0)) (by decide)
  obtain ⟨hgone, hbuffer, hcreated, hdeleted⟩ := of_decide_eq_true hp
  refine ⟨s, hr, hgone, hbuffer, ⟨hcreated, hdeleted⟩, fun D => ?_⟩
  have husers := D.users
  omega

end JunCore.SessionSteps
