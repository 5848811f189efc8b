/-
  `IOCPManager::Shutdown` in `IOCPManager.h` and the loop of `RunWorkerThread` in `IOCPManager.cpp`: how
  the workers get the completions, and how they are told to stop.

  The port is a queue.  A packet with no bytes and no `OverlappedEx` means the end: whoever takes it posts
  the same packet again and leaves its loop.  `Shutdown` posts one for each worker, joins them one after
  the other and closes the handle; it does so once, and any other `Shutdown` returns at once.

  What the handlers do with a completion is told elsewhere (`SessionSteps.lean`); here a worker has it in
  hand until it deletes the `OverlappedEx`.  Completions come from outside, at any time.  A handler that
  called `Shutdown` would wait for its own thread.

  The workers that are left are never more than the packets for the end that are queued before everything
  that came after `Shutdown` (`alive`).  So all that was there before it is handled, and nothing of what
  came after it (`completions`); and `Shutdown` returns (`port_closes`).  What is left in the queue then
  is deleted by nobody.
-/
import JunCore.Lib.Counting
import JunCore.Lib.Transition
import Mathlib.Data.List.ReduceOption

set_option linter.unusedVariables false
set_option linter.unusedSectionVars false

namespace JunCore.CompletionPort

open Transition Function Counting

variable {C E : Type} {n : Nat}

/-! ## The program -/

/-- Where a worker is in `RunWorkerThread`. -/
inductive WorkerPc (E : Type)
  /-- `GetQueuedCompletionStatus` -/
  | wait
  /-- in the handler, up to `delete p_overlapped` -/
  | handle (e : E)
  /-- `PostQueuedCompletionStatus(iocpHandle, 0, 0, 0)` -/
  | repost
  | exited
  deriving DecidableEq

def WorkerPc.isExited : WorkerPc E → Bool
  | .exited => true
  | _ => false

/-- Where a caller is in `Shutdown`. -/
inductive CallerPc
  | idle
  | exchange
  | post (i : Nat)
  | join (i : Nat)
  | close
  deriving DecidableEq

/-- A manager with `n` workers.  `none` among the packets is the one that means the end.  The members from
    `arrived` on are a history that no step reads. -/
structure Manager (C : Type) (n : Nat) (E : Type) where
  packets : List (Option E) := []
  handleOpen : Bool := true
  shutdown : Bool := false
  workers : Fin n → WorkerPc E := fun _ => .wait
  callers : C → CallerPc := fun _ => .idle
  /-- the completions that were queued, those a worker took, and those whose `OverlappedEx` is deleted -/
  arrived : List E := []
  taken : List E := []
  deleted : List E := []
  /-- how many packets `Shutdown` has posted, and how many completions had arrived before its first packet
      and before its last one -/
  posted : Nat := 0
  first : Nat := 0
  last : Nat := 0
  /-- how many of the packets in the queue are not behind its last one -/
  ahead : Nat := 0
  /-- since its last packet: the steps of all workers; and its own steps -/
  worked : Nat := 0
  closes : Nat := 0

/-- A completion, a call, or the next step of a thread. -/
inductive Act (C : Type) (n : Nat) (E : Type)
  | complete (e : E)
  | shutdown (c : C)
  | caller (c : C)
  | worker (w : Fin n)

/-- A caller has taken the flag and has not returned. -/
def CallerPc.closing : CallerPc → Nat
  | .post _ | .join _ | .close => 1
  | _ => 0

/-- A worker is at `pc`, after a step. -/
def Manager.seat (m : Manager C n E) (w : Fin n) (pc : WorkerPc E) : Manager C n E :=
  { m with
    workers := update m.workers w pc
    worked := if m.posted = n then m.worked + 1 else m.worked }

/-- A caller is. -/
def Manager.put [DecidableEq C] (m : Manager C n E) (c : C) (pc : CallerPc) : Manager C n E :=
  { m with
    callers := update m.callers c pc
    closes := m.closes + (m.callers c).closing }

/-- A step of a worker. -/
def Manager.workerStep (m : Manager C n E) (w : Fin n) : Option (Manager C n E) :=
  match m.workers w with
  | .wait =>
    match m.packets with
    | [] => none
    | none :: packets => some ({ m with packets := packets, ahead := m.ahead - 1 }.seat w .repost)
    | some e :: packets =>
      some ({ m with packets := packets, taken := m.taken ++ [e], ahead := m.ahead - 1 }.seat w (.handle e))
  | .handle e => some ({ m with deleted := m.deleted ++ [e] }.seat w .wait)
  | .repost => some ({ m with packets := m.packets ++ [none] }.seat w .exited)
  | .exited => none

variable [DecidableEq C]

/-- A step of a caller. -/
def Manager.callerStep (m : Manager C n E) (c : C) : Option (Manager C n E) :=
  match m.callers c with
  | .idle => none
  | .exchange => some (if m.shutdown then m.put c .idle else { m with shutdown := true }.put c (.post 0))
  | .post i =>
    some (if i < n then
      { m with
        packets := m.packets ++ [none]
        posted := m.posted + 1
        first := if m.posted = 0 then m.arrived.length else m.first
        last := m.arrived.length
        ahead := m.packets.length + 1 }.put c (.post (i + 1))
    else m.put c (.join 0))
  | .join i =>
    if h : i < n then
      if (m.workers ⟨i, h⟩).isExited then some (m.put c (.join (i + 1))) else none
    else some (m.put c .close)
  | .close => some ({ m with handleOpen := false }.put c .idle)

def Manager.step (m : Manager C n E) : Act C n E → Option (Manager C n E)
  | .complete e =>
    if m.handleOpen then some { m with packets := m.packets ++ [some e], arrived := m.arrived ++ [e] }
    else none
  | .shutdown c => if m.callers c = .idle then some (m.put c .exchange) else none
  | .caller c => m.callerStep c
  | .worker w => m.workerStep w

/-- **All runs of a manager.** -/
def manager (C : Type) [DecidableEq C] (n : Nat) (E : Type) : System (Manager C n E) where
  init m := m = {}
  next m m' := ∃ a, m.step a = some m'

/-! ## What the steps do -/

theorem WorkerPc.isExited_iff {pc : WorkerPc E} : pc.isExited = true ↔ pc = .exited := by
  cases pc <;> simp [isExited]

/-- What a worker does in a step, and where it is then. -/
inductive Turn (m : Manager C n E) (w : Fin n) : Manager C n E → WorkerPc E → Prop
  | take {e : E} {packets : List (Option E)} (h : m.workers w = .wait) (hp : m.packets = some e :: packets) :
      Turn m w { m with packets := packets, taken := m.taken ++ [e], ahead := m.ahead - 1 } (.handle e)
  | stop {packets : List (Option E)} (h : m.workers w = .wait) (hp : m.packets = none :: packets) :
      Turn m w { m with packets := packets, ahead := m.ahead - 1 } .repost
  | delete {e : E} (h : m.workers w = .handle e) :
      Turn m w { m with deleted := m.deleted ++ [e] } .wait
  | repost (h : m.workers w = .repost) : Turn m w { m with packets := m.packets ++ [none] } .exited

theorem Manager.workerStep_cases {m m' : Manager C n E} {w : Fin n} (h : m.workerStep w = some m') :
    ∃ q pc, Turn m w q pc ∧ m' = q.seat w pc := by
  rw [Manager.workerStep] at h
  cases hpc : m.workers w with
  | wait =>
    rw [hpc] at h
    dsimp only at h
    split at h
    · cases h
    · exact ⟨_, _, .stop hpc ‹_›, (Option.some.inj h).symm⟩
    · exact ⟨_, _, .take hpc ‹_›, (Option.some.inj h).symm⟩
  | handle e =>
    rw [hpc] at h
    exact ⟨_, _, .delete hpc, (Option.some.inj h).symm⟩
  | repost =>
    rw [hpc] at h
    exact ⟨_, _, .repost hpc, (Option.some.inj h).symm⟩
  | exited =>
    rw [hpc] at h
    cases h

/-- What a caller does in a step, and where it is then. -/
inductive Errand (m : Manager C n E) (c : C) : Manager C n E → CallerPc → Prop
  | call (h : m.callers c = .idle) : Errand m c m .exchange
  | refuse (h : m.callers c = .exchange) : Errand m c m .idle
  | exchange (h : m.callers c = .exchange) (hs : m.shutdown = false) :
      Errand m c { m with shutdown := true } (.post 0)
  | post {i : Nat} (h : m.callers c = .post i) (hi : i < n) : Errand m c
      { m with
        packets := m.packets ++ [none]
        posted := m.posted + 1
        first := if m.posted = 0 then m.arrived.length else m.first
        last := m.arrived.length
        ahead := m.packets.length + 1 } (.post (i + 1))
  | posted {i : Nat} (h : m.callers c = .post i) (hi : n ≤ i) : Errand m c m (.join 0)
  | join {i : Nat} (h : m.callers c = .join i) (hi : i < n) (hw : m.workers ⟨i, hi⟩ = .exited) :
      Errand m c m (.join (i + 1))
  | joined {i : Nat} (h : m.callers c = .join i) (hi : n ≤ i) : Errand m c m .close
  | close (h : m.callers c = .close) : Errand m c { m with handleOpen := false } .idle

theorem Manager.callerStep_cases {m m' : Manager C n E} {c : C} (h : m.callerStep c = some m') :
    ∃ q pc, Errand m c q pc ∧ m' = q.put c pc := by
  rw [Manager.callerStep] at h
  cases hpc : m.callers c with
  | idle =>
    rw [hpc] at h
    cases h
  | exchange =>
    rw [hpc] at h
    dsimp only at h
    rw [← Option.some.inj h]
    split
    · exact ⟨_, _, .refuse hpc, rfl⟩
    · exact ⟨_, _, .exchange hpc (Bool.eq_false_iff.mpr ‹_›), rfl⟩
  | post i =>
    rw [hpc] at h
    dsimp only at h
    rw [← Option.some.inj h]
    split
    · exact ⟨_, _, .post hpc ‹_›, rfl⟩
    · exact ⟨_, _, .posted hpc (Nat.le_of_not_lt ‹_›), rfl⟩
  | join i =>
    rw [hpc] at h
    dsimp only at h
    split at h
    · split at h
      · exact ⟨_, _, .join hpc ‹_› (WorkerPc.isExited_iff.mp ‹_›), (Option.some.inj h).symm⟩
      · cases h
    · exact ⟨_, _, .joined hpc (Nat.le_of_not_lt ‹_›), (Option.some.inj h).symm⟩
  | close =>
    rw [hpc] at h
    exact ⟨_, _, .close hpc, (Option.some.inj h).symm⟩

/-- A completion arrives, a caller takes a step, or a worker does. -/
theorem Manager.step_cases {m m' : Manager C n E} {a : Act C n E} (h : m.step a = some m') :
    (∃ e, m.handleOpen = true ∧
      m' = { m with packets := m.packets ++ [some e], arrived := m.arrived ++ [e] }) ∨
    (∃ c q pc, Errand m c q pc ∧ m' = q.put c pc) ∨
    (∃ w q pc, Turn m w q pc ∧ m' = q.seat w pc) := by
  cases a with
  | complete e =>
    simp only [Manager.step] at h
    split at h
    · exact .inl ⟨e, ‹_›, (Option.some.inj h).symm⟩
    · cases h
  | shutdown c =>
    simp only [Manager.step] at h
    split at h
    · exact .inr (.inl ⟨c, _, _, .call ‹_›, (Option.some.inj h).symm⟩)
    · cases h
  | caller c => exact .inr (.inl ⟨c, Manager.callerStep_cases h⟩)
  | worker w => exact .inr (.inr ⟨w, Manager.workerStep_cases h⟩)

/-! ## The queue -/

/-- The packets for the end. -/
def ends (packets : List (Option E)) : Nat := packets.countP Option.isNone

/-- The completions before the first packet for the end. -/
def before (packets : List (Option E)) : Nat := (packets.takeWhile Option.isSome).length

@[simp] theorem ends_nil : ends ([] : List (Option E)) = 0 := rfl

@[simp] theorem ends_none (packets : List (Option E)) : ends (none :: packets) = ends packets + 1 := by
  simp [ends]

@[simp] theorem ends_some (e : E) (packets : List (Option E)) : ends (some e :: packets) = ends packets := by
  simp [ends]

theorem ends_append (l l' : List (Option E)) : ends (l ++ l') = ends l + ends l' := List.countP_append

@[simp] theorem before_none (packets : List (Option E)) : before (none :: packets) = 0 := by
  simp [before]

@[simp] theorem before_some (e : E) (packets : List (Option E)) :
    before (some e :: packets) = before packets + 1 := by
  simp [before]

theorem before_append (l l' : List (Option E)) : before l ≤ before (l ++ l') := by
  unfold before
  rw [List.takeWhile_append]
  split
  · rename_i h
    rw [List.length_append]
    omega
  · exact Nat.le_refl _

theorem before_of_none (l : List (Option E)) (h : ends l = 0) : before l = l.reduceOption.length := by
  induction l with
  | nil => rfl
  | cons x l ih =>
    cases x with
    | none =>
      rw [ends_none] at h
      omega
    | some e =>
      rw [ends_some] at h
      rw [before_some, ih h, List.reduceOption_cons_of_some, List.length_cons]

/-- A queue with a packet for the end is not empty. -/
theorem ne_nil_of_ends {l : List (Option E)} (h : 0 < ends l) : l ≠ [] := by
  rintro rfl
  exact Nat.lt_irrefl 0 h

/-! ## What is to hold -/

/-- It has taken a packet for the end and not posted it again. -/
def WorkerPc.atRepost : WorkerPc E → Nat
  | .repost => 1
  | _ => 0

/-- It is in its loop. -/
def WorkerPc.alive : WorkerPc E → Nat
  | .wait | .handle _ => 1
  | _ => 0

/-- The completion it has in hand. -/
def WorkerPc.held : WorkerPc E → Multiset E
  | .handle e => {e}
  | _ => 0

theorem held_wait : (.wait : WorkerPc E).held = 0 := rfl
theorem held_handle (e : E) : (WorkerPc.handle e).held = {e} := rfl
theorem held_repost : (.repost : WorkerPc E).held = 0 := rfl
theorem held_exited : (.exited : WorkerPc E).held = 0 := rfl

/-- How many steps it is from the end, if the next packet is one for the end. -/
def WorkerPc.rank : WorkerPc E → Nat
  | .handle _ => 3
  | .wait => 2
  | .repost => 1
  | .exited => 0

theorem WorkerPc.rank_le (pc : WorkerPc E) : pc.rank ≤ 3 := by
  cases pc <;> simp [rank]

/-- How many steps a caller is from the end of `Shutdown`, if no worker keeps it waiting. -/
def CallerPc.patience (n : Nat) : CallerPc → Nat
  | .post i => n - i + (n + 3)
  | .join i => n - i + 2
  | .close => 1
  | _ => 0

/-- **The packets.**  The completions are taken in the order in which they arrived.  Whoever is out of its
    loop has left a packet for the end, so there are as many as were posted; and those that are not behind
    the last one posted are enough for the workers that are still in theirs (`alive`). -/
structure Queue (m : Manager C n E) : Prop where
  fifo : m.arrived = m.taken ++ m.packets.reduceOption
  balance : ends m.packets + total WorkerPc.atRepost m.workers = m.posted
  ahead : m.ahead ≤ m.packets.length
  alive : total WorkerPc.alive m.workers + m.posted ≤ n + ends (m.packets.take m.ahead)
  first : 0 < m.posted → m.first ≤ m.taken.length + before m.packets
  last : m.posted = n → 0 < n → m.taken.length + (m.packets.take m.ahead).reduceOption.length = m.last
  out : ∀ w, (m.workers w).alive = 0 → 0 < m.posted ∧ m.first ≤ m.taken.length
  deleted : (m.taken : Multiset E) = m.deleted + ∑ w, (m.workers w).held
  early : m.posted < n → m.worked = 0
  energy : m.posted = n → m.worked + 2 * (m.packets.take m.ahead).reduceOption.length
    + total WorkerPc.rank m.workers ≤ 2 * m.last + 3 * n

/-- A completion arrives. -/
theorem Queue.complete {m : Manager C n E} (Q : Queue m) (e : E) :
    Queue { m with packets := m.packets ++ [some e], arrived := m.arrived ++ [e] } := by
  have htake : (m.packets ++ [some e]).take m.ahead = m.packets.take m.ahead :=
    List.take_append_of_le_length Q.ahead
  refine ⟨?_, ?_, ?_, ?_, fun h => ?_, ?_, Q.out, Q.deleted, Q.early, ?_⟩
  · show m.arrived ++ [e] = m.taken ++ (m.packets ++ [some e]).reduceOption
    rw [List.reduceOption_append, Q.fifo, List.append_assoc]
    rfl
  · show ends (m.packets ++ [some e]) + _ = m.posted
    rw [ends_append]
    exact Q.balance
  · show m.ahead ≤ (m.packets ++ [some e]).length
    have := Q.ahead
    rw [List.length_append]
    omega
  · show _ ≤ n + ends ((m.packets ++ [some e]).take m.ahead)
    rw [htake]
    exact Q.alive
  · have := Q.first h
    have := before_append m.packets [some e]
    show m.first ≤ m.taken.length + before (m.packets ++ [some e])
    omega
  · show _ → _ → m.taken.length + ((m.packets ++ [some e]).take m.ahead).reduceOption.length = m.last
    rw [htake]
    exact Q.last
  · show _ → m.worked + 2 * ((m.packets ++ [some e]).take m.ahead).reduceOption.length + _ ≤ _
    rw [htake]
    exact Q.energy

/-- What taking the next packet does to those that are not behind the last one posted. -/
theorem take_next (x : Option E) (l : List (Option E)) (k : Nat) :
    k = 0 ∧ (x :: l).take k = [] ∧ l.take (k - 1) = [] ∨ (x :: l).take k = x :: l.take (k - 1) := by
  cases k with
  | zero => exact .inl ⟨rfl, rfl, rfl⟩
  | succ k => exact .inr rfl

/-- While a worker is in its loop and the last packet has been posted, there is one for it to take. -/
theorem Queue.ahead_pos {m : Manager C n E} (Q : Queue m) (hposted : m.posted = n) {w : Fin n}
    (hw : (m.workers w).alive = 1) : 0 < ends (m.packets.take m.ahead) := by
  have hle := le_total WorkerPc.alive m.workers w
  have halive := Q.alive
  omega

/-- The history of the workers' steps. -/
theorem seat_worked {m q : Manager C n E} (w : Fin n) (pc : WorkerPc E) (hq : q.posted = m.posted)
    (hw : q.worked = m.worked) (Q : Queue m) :
    ((q.seat w pc).posted < n → (q.seat w pc).worked = 0) ∧
    (m.posted = n → (q.seat w pc).worked = m.worked + 1) := by
  refine ⟨fun h => ?_, fun h => ?_⟩
  · have h : q.posted < n := h
    show (if q.posted = n then q.worked + 1 else q.worked) = 0
    rw [if_neg (by omega), hw]
    exact Q.early (hq ▸ h)
  · show (if q.posted = n then q.worked + 1 else q.worked) = m.worked + 1
    rw [if_pos (by omega), hw]

/-- Who is out of its loop, after a step of another. -/
theorem Queue.out_of_ne {m : Manager C n E} (Q : Queue m) {w v : Fin n} {pc : WorkerPc E} {taken : List E}
    (hle : m.taken.length ≤ taken.length) (hpc : pc.alive = 0 → 0 < m.posted ∧ m.first ≤ taken.length)
    (h : (update m.workers w pc v).alive = 0) : 0 < m.posted ∧ m.first ≤ taken.length := by
  by_cases hvw : v = w
  · subst hvw
    rw [update_self] at h
    exact hpc h
  · rw [update_of_ne hvw] at h
    obtain ⟨hpos, hfirst⟩ := Q.out v h
    exact ⟨hpos, by omega⟩

/-- A worker takes a completion. -/
theorem Queue.take {m : Manager C n E} {w : Fin n} {e : E} {packets : List (Option E)} (Q : Queue m)
    (h : m.workers w = .wait) (hp : m.packets = some e :: packets) :
    Queue ({ m with packets := packets, taken := m.taken ++ [e], ahead := m.ahead - 1 }.seat w
      (.handle e)) := by
  have hrepost := total_update WorkerPc.atRepost m.workers w (.handle e)
  have halive := total_update WorkerPc.alive m.workers w (.handle e)
  have hrank := total_update WorkerPc.rank m.workers w (.handle e)
  have hheld := sum_update WorkerPc.held m.workers w (.handle e)
  rw [h] at hrepost halive hrank hheld
  simp only [WorkerPc.atRepost, WorkerPc.alive, WorkerPc.rank] at hrepost halive hrank
  obtain ⟨hearly, hworked⟩ := seat_worked w (.handle e) (m := m)
    (q := { m with packets := packets, taken := m.taken ++ [e], ahead := m.ahead - 1 }) rfl rfl Q
  have hnext := take_next (some e) packets m.ahead
  have hpos : m.posted = n → 0 < ends (m.packets.take m.ahead) :=
    fun hn => Q.ahead_pos hn (w := w) (by rw [h]; rfl)
  have hlength : (m.taken ++ [e]).length = m.taken.length + 1 := by
    rw [List.length_append, List.length_singleton]
  rw [hp] at hpos
  have hlive := Q.alive
  have hlast := Q.last
  have henergy := Q.energy
  rw [hp] at hlive hlast henergy
  refine ⟨?_, ?_, ?_, ?_, fun hposted => ?_, fun hn hn' => ?_, fun v hv => ?_, ?_, hearly, fun hn => ?_⟩
  · show m.arrived = m.taken ++ [e] ++ packets.reduceOption
    rw [Q.fifo, hp, List.append_assoc]
    simp
  · show ends packets + total _ (update m.workers w _) = m.posted
    have := Q.balance
    rw [hp, ends_some] at this
    omega
  · show m.ahead - 1 ≤ packets.length
    have := Q.ahead
    rw [hp, List.length_cons] at this
    omega
  · show total _ (update m.workers w _) + m.posted ≤ n + ends (packets.take (m.ahead - 1))
    rcases hnext with ⟨-, hnil, hnil'⟩ | hcons
    · rw [hnil']
      rw [hnil] at hlive
      omega
    · rw [hcons, ends_some] at hlive
      omega
  · show m.first ≤ (m.taken ++ [e]).length + before packets
    have := Q.first hposted
    rw [hp, before_some] at this
    omega
  · show (m.taken ++ [e]).length + (packets.take (m.ahead - 1)).reduceOption.length = m.last
    have hpos := hpos hn
    have hlast := hlast hn hn'
    rcases hnext with ⟨-, hnil, -⟩ | hcons
    · rw [hnil] at hpos
      exact absurd hpos (Nat.lt_irrefl 0)
    · rw [hcons, List.reduceOption_cons_of_some, List.length_cons] at hlast
      omega
  · show 0 < m.posted ∧ m.first ≤ (m.taken ++ [e]).length
    exact Q.out_of_ne (by omega) (fun h => by cases h) hv
  · show ((m.taken ++ [e] : List E) : Multiset E) = m.deleted + ∑ v, (update m.workers w _ v).held
    rw [held_wait, add_zero] at hheld
    rw [← Multiset.coe_add, Q.deleted, hheld, Multiset.coe_singleton, held_handle, add_assoc]
  · rw [hworked hn]
    show m.worked + 1 + 2 * (packets.take (m.ahead - 1)).reduceOption.length
      + total _ (update m.workers w _) ≤ 2 * m.last + 3 * n
    have hpos := hpos hn
    have henergy := henergy hn
    rcases hnext with ⟨-, hnil, -⟩ | hcons
    · rw [hnil] at hpos
      exact absurd hpos (Nat.lt_irrefl 0)
    · rw [hcons, List.reduceOption_cons_of_some, List.length_cons] at henergy
      omega

/-- A worker takes a packet for the end: all the completions before the first one are taken. -/
theorem Queue.stop {m : Manager C n E} {w : Fin n} {packets : List (Option E)} (Q : Queue m)
    (h : m.workers w = .wait) (hp : m.packets = none :: packets) :
    Queue ({ m with packets := packets, ahead := m.ahead - 1 }.seat w .repost) := by
  have hrepost := total_update WorkerPc.atRepost m.workers w .repost
  have halive := total_update WorkerPc.alive m.workers w .repost
  have hrank := total_update WorkerPc.rank m.workers w .repost
  have hheld := sum_update WorkerPc.held m.workers w .repost
  rw [h] at hrepost halive hrank hheld
  simp only [WorkerPc.atRepost, WorkerPc.alive, WorkerPc.rank] at hrepost halive hrank
  obtain ⟨hearly, hworked⟩ := seat_worked w .repost (m := m)
    (q := { m with packets := packets, ahead := m.ahead - 1 }) rfl rfl Q
  have hnext := take_next none packets m.ahead
  have hends := Q.balance
  have hlive := Q.alive
  have hlast := Q.last
  have henergy := Q.energy
  have hfirst := Q.first
  rw [hp, ends_none] at hends
  rw [hp, before_none] at hfirst
  rw [hp] at hlive hlast henergy
  refine ⟨?_, ?_, ?_, ?_, fun hposted => ?_, fun hn hn' => ?_, fun v hv => ?_, ?_, hearly, fun hn => ?_⟩
  · show m.arrived = m.taken ++ packets.reduceOption
    rw [Q.fifo, hp, List.reduceOption_cons_of_none]
  · show ends packets + total _ (update m.workers w _) = m.posted
    omega
  · show m.ahead - 1 ≤ packets.length
    have := Q.ahead
    rw [hp, List.length_cons] at this
    omega
  · show total _ (update m.workers w _) + m.posted ≤ n + ends (packets.take (m.ahead - 1))
    rcases hnext with ⟨-, hnil, hnil'⟩ | hcons
    · rw [hnil']
      rw [hnil] at hlive
      omega
    · rw [hcons, ends_none] at hlive
      omega
  · show m.first ≤ m.taken.length + before packets
    have := hfirst hposted
    omega
  · show m.taken.length + (packets.take (m.ahead - 1)).reduceOption.length = m.last
    have hlast := hlast hn hn'
    rcases hnext with ⟨-, hnil, hnil'⟩ | hcons
    · rw [hnil']
      rwa [hnil] at hlast
    · rwa [hcons, List.reduceOption_cons_of_none] at hlast
  · exact Q.out_of_ne (Nat.le_refl _) (fun _ => ⟨by omega, hfirst (by omega)⟩) hv
  · show (m.taken : Multiset E) = m.deleted + ∑ v, (update m.workers w _ v).held
    rw [held_wait, held_repost, add_zero, add_zero] at hheld
    rw [Q.deleted, hheld]
  · rw [hworked hn]
    show m.worked + 1 + 2 * (packets.take (m.ahead - 1)).reduceOption.length
      + total _ (update m.workers w _) ≤ 2 * m.last + 3 * n
    have henergy := henergy hn
    rcases hnext with ⟨-, hnil, hnil'⟩ | hcons
    · rw [hnil']
      rw [hnil] at henergy
      omega
    · rw [hcons, List.reduceOption_cons_of_none] at henergy
      omega

/-- A worker is done with a completion. -/
theorem Queue.delete {m : Manager C n E} {w : Fin n} {e : E} (Q : Queue m)
    (h : m.workers w = .handle e) : Queue ({ m with deleted := m.deleted ++ [e] }.seat w .wait) := by
  have hrepost := total_update WorkerPc.atRepost m.workers w .wait
  have halive := total_update WorkerPc.alive m.workers w .wait
  have hrank := total_update WorkerPc.rank m.workers w .wait
  have hheld := sum_update WorkerPc.held m.workers w .wait
  rw [h] at hrepost halive hrank hheld
  simp only [WorkerPc.atRepost, WorkerPc.alive, WorkerPc.rank] at hrepost halive hrank
  obtain ⟨hearly, hworked⟩ := seat_worked w .wait (m := m)
    (q := { m with deleted := m.deleted ++ [e] }) rfl rfl Q
  refine ⟨Q.fifo, ?_, Q.ahead, ?_, Q.first, Q.last, fun v hv => ?_, ?_, hearly, fun hn => ?_⟩
  · show ends m.packets + total _ (update m.workers w _) = m.posted
    have := Q.balance
    omega
  · show total _ (update m.workers w _) + m.posted ≤ n + ends (m.packets.take m.ahead)
    have := Q.alive
    omega
  · exact Q.out_of_ne (Nat.le_refl _) (fun h => by cases h) hv
  · show (m.taken : Multiset E)
      = ((m.deleted ++ [e] : List E) : Multiset E) + ∑ v, (update m.workers w _ v).held
    rw [held_handle, held_wait, add_zero] at hheld
    rw [Q.deleted, ← hheld, ← Multiset.coe_add, Multiset.coe_singleton]
    abel
  · rw [hworked hn]
    show m.worked + 1 + 2 * (m.packets.take m.ahead).reduceOption.length
      + total _ (update m.workers w _) ≤ 2 * m.last + 3 * n
    have := Q.energy hn
    omega

/-- A worker posts the packet for the end again, and leaves. -/
theorem Queue.repost {m : Manager C n E} {w : Fin n} (Q : Queue m) (h : m.workers w = .repost) :
    Queue ({ m with packets := m.packets ++ [none] }.seat w .exited) := by
  have hrepost := total_update WorkerPc.atRepost m.workers w .exited
  have halive := total_update WorkerPc.alive m.workers w .exited
  have hrank := total_update WorkerPc.rank m.workers w .exited
  have hheld := sum_update WorkerPc.held m.workers w .exited
  rw [h] at hrepost halive hrank hheld
  simp only [WorkerPc.atRepost, WorkerPc.alive, WorkerPc.rank] at hrepost halive hrank
  obtain ⟨hearly, hworked⟩ := seat_worked w .exited (m := m)
    (q := { m with packets := m.packets ++ [none] }) rfl rfl Q
  have htake : (m.packets ++ [none]).take m.ahead = m.packets.take m.ahead :=
    List.take_append_of_le_length Q.ahead
  refine ⟨?_, ?_, ?_, ?_, fun hposted => ?_, ?_, fun v hv => ?_, ?_, hearly, fun hn => ?_⟩
  · show m.arrived = m.taken ++ (m.packets ++ [none]).reduceOption
    rw [List.reduceOption_append, Q.fifo]
    simp
  · show ends (m.packets ++ [none]) + total _ (update m.workers w _) = m.posted
    have := Q.balance
    rw [ends_append, ends_none, ends_nil]
    omega
  · show m.ahead ≤ (m.packets ++ [none]).length
    have := Q.ahead
    rw [List.length_append]
    omega
  · show total _ (update m.workers w _) + m.posted ≤ n + ends ((m.packets ++ [none]).take m.ahead)
    have := Q.alive
    rw [htake]
    omega
  · show m.first ≤ m.taken.length + before (m.packets ++ [none])
    have := Q.first hposted
    have := before_append m.packets [none]
    omega
  · show _ → _ → m.taken.length + ((m.packets ++ [none]).take m.ahead).reduceOption.length = m.last
    rw [htake]
    exact Q.last
  · exact Q.out_of_ne (Nat.le_refl _) (fun _ => Q.out w (by rw [h]; rfl)) hv
  · show (m.taken : Multiset E) = m.deleted + ∑ v, (update m.workers w _ v).held
    rw [held_repost, held_exited, add_zero, add_zero] at hheld
    rw [Q.deleted, hheld]
  · rw [hworked hn]
    show m.worked + 1 + 2 * ((m.packets ++ [none]).take m.ahead).reduceOption.length
      + total _ (update m.workers w _) ≤ 2 * m.last + 3 * n
    have := Q.energy hn
    rw [htake]
    omega

/-- **A packet for the end is posted.**  It is behind everything that has arrived. -/
theorem Queue.post {m : Manager C n E} {c : C} {pc : CallerPc} (Q : Queue m) (hn : m.posted < n) :
    Queue ({ m with
      packets := m.packets ++ [none]
      posted := m.posted + 1
      first := if m.posted = 0 then m.arrived.length else m.first
      last := m.arrived.length
      ahead := m.packets.length + 1 }.put c pc) := by
  have htake : (m.packets ++ [none]).take (m.packets.length + 1) = m.packets ++ [none] :=
    List.take_of_length_le (by simp)
  have harrived : m.arrived.length = m.taken.length + m.packets.reduceOption.length := by
    rw [Q.fifo, List.length_append]
  have hreduce : (m.packets ++ [none]).reduceOption = m.packets.reduceOption := by
    rw [List.reduceOption_append]
    simp
  refine ⟨?_, ?_, ?_, ?_, fun _ => ?_, fun _ _ => ?_, fun w hw => ?_, Q.deleted, fun h => ?_, fun h => ?_⟩
  · show m.arrived = m.taken ++ (m.packets ++ [none]).reduceOption
    rw [hreduce]
    exact Q.fifo
  · show ends (m.packets ++ [none]) + total WorkerPc.atRepost m.workers = m.posted + 1
    have := Q.balance
    rw [ends_append, ends_none, ends_nil]
    omega
  · show m.packets.length + 1 ≤ (m.packets ++ [none]).length
    simp
  · show total WorkerPc.alive m.workers + (m.posted + 1)
      ≤ n + ends ((m.packets ++ [none]).take (m.packets.length + 1))
    have halive := Q.alive
    have hle : ends (m.packets.take m.ahead) ≤ ends m.packets := (List.take_sublist _ _).countP_le
    rw [htake, ends_append, ends_none, ends_nil]
    omega
  · show (if m.posted = 0 then m.arrived.length else m.first)
      ≤ m.taken.length + before (m.packets ++ [none])
    have hle := before_append m.packets [none]
    split
    · have hbalance := Q.balance
      have := before_of_none m.packets (by omega)
      omega
    · have := Q.first (by omega)
      omega
  · show m.taken.length + ((m.packets ++ [none]).take (m.packets.length + 1)).reduceOption.length
      = m.arrived.length
    rw [htake, hreduce, harrived]
  · obtain ⟨hpos, hfirst⟩ := Q.out w hw
    show 0 < m.posted + 1 ∧ (if m.posted = 0 then m.arrived.length else m.first) ≤ m.taken.length
    rw [if_neg (by omega)]
    exact ⟨by omega, hfirst⟩
  · exact Q.early hn
  · show m.worked + 2 * ((m.packets ++ [none]).take (m.packets.length + 1)).reduceOption.length
      + total WorkerPc.rank m.workers ≤ 2 * m.arrived.length + 3 * n
    have hrank := total_le WorkerPc.rank_le m.workers
    rw [Fintype.card_fin] at hrank
    rw [htake, hreduce, Q.early hn]
    omega

/-! ## The end -/

variable [Fintype C]

/-- What a caller has done so far. -/
def CallerPc.At (posted : Nat) (workers : Fin n → WorkerPc E) : CallerPc → Prop
  | .post i => posted = i ∧ i ≤ n
  | .join i => posted = n ∧ ∀ w : Fin n, w.val < i → workers w = .exited
  | .close => posted = n ∧ ∀ w, workers w = .exited
  | _ => True

/-- **The end.**  One caller closes the manager: it posts, it joins, and then it closes the handle. -/
structure Ending (m : Manager C n E) : Prop where
  closer : total CallerPc.closing m.callers + (!m.handleOpen).toNat = m.shutdown.toNat
  early : m.shutdown = false → m.posted = 0
  posted : m.posted ≤ n
  callers : ∀ c, (m.callers c).At m.posted m.workers
  closed : m.handleOpen = false → m.posted = n ∧ ∀ w, m.workers w = .exited
  patience : m.closes + total (CallerPc.patience n) m.callers ≤ (2 * n + 3) * m.shutdown.toNat

structure Kept (m : Manager C n E) : Prop where
  queue : Queue m
  ending : Ending m

omit [DecidableEq C] [Fintype C] in
theorem CallerPc.At.mono {posted : Nat} {workers workers' : Fin n → WorkerPc E} {pc : CallerPc}
    (h : pc.At posted workers) (hw : ∀ w, workers w = .exited → workers' w = .exited) :
    pc.At posted workers' := by
  cases pc with
  | idle | exchange | post i => exact h
  | join i => exact ⟨h.1, fun w hi => hw w (h.2 w hi)⟩
  | close => exact ⟨h.1, fun w => hw w (h.2 w)⟩

omit [Fintype C] in
/-- What a worker's step leaves alone. -/
theorem Turn.frame {m q : Manager C n E} {w : Fin n} {pc : WorkerPc E} (t : Turn m w q pc) :
    q.workers = m.workers ∧ q.callers = m.callers ∧ q.shutdown = m.shutdown ∧
      q.handleOpen = m.handleOpen ∧ q.posted = m.posted ∧ q.closes = m.closes := by
  cases t <;> exact ⟨rfl, rfl, rfl, rfl, rfl, rfl⟩

omit [Fintype C] in
theorem Turn.busy {m q : Manager C n E} {w : Fin n} {pc : WorkerPc E} (t : Turn m w q pc) :
    m.workers w ≠ .exited := by
  intro he
  cases t with
  | take h _ | stop h _ | delete h | repost h =>
    rw [h] at he
    cases he

/-- A worker's step keeps what is said about the end: who has left its loop takes no step. -/
theorem Ending.seat {m q : Manager C n E} {w : Fin n} {pc : WorkerPc E} (N : Ending m) (t : Turn m w q pc) :
    Ending (q.seat w pc) := by
  obtain ⟨hworkers, hcallers, hflag, hopen, hposted, hcloses⟩ := t.frame
  have hstays : ∀ v, m.workers v = .exited → update q.workers w pc v = .exited := by
    intro v hv
    have hne : v ≠ w := by
      rintro rfl
      exact t.busy hv
    rw [update_of_ne hne, hworkers, hv]
  refine ⟨?_, fun h => ?_, ?_, fun c => ?_, fun h => ?_, ?_⟩
  · show total _ q.callers + (!q.handleOpen).toNat = q.shutdown.toNat
    rw [hcallers, hflag, hopen]
    exact N.closer
  · show q.posted = 0
    rw [hposted]
    exact N.early (hflag ▸ h)
  · show q.posted ≤ n
    rw [hposted]
    exact N.posted
  · show (q.callers c).At q.posted (update q.workers w pc)
    rw [hcallers, hposted]
    exact (N.callers c).mono hstays
  · obtain ⟨hall, hexited⟩ := N.closed (hopen ▸ h)
    exact ⟨hposted.trans hall, fun v => hstays v (hexited v)⟩
  · show q.closes + total _ q.callers ≤ (2 * n + 3) * q.shutdown.toNat
    rw [hcloses, hcallers, hflag]
    exact N.patience

/-- Only one caller is on its way, and the handle is open until it closes it. -/
theorem Ending.alone {m : Manager C n E} (N : Ending m) {c : C} (hc : (m.callers c).closing = 1) :
    m.shutdown = true ∧ m.handleOpen = true ∧ ∀ d, d ≠ c → (m.callers d).closing = 0 := by
  have hle := le_total CallerPc.closing m.callers c
  have hcloser := N.closer
  have hone := Bool.toNat_le m.shutdown
  refine ⟨?_, ?_, fun d hdc => ?_⟩
  · cases hs : m.shutdown with
    | true => rfl
    | false =>
      rw [hs, Bool.toNat_false] at hcloser
      omega
  · cases ho : m.handleOpen with
    | true => rfl
    | false =>
      rw [ho] at hcloser
      simp only [Bool.not_false, Bool.toNat_true] at hcloser
      omega
  · have := add_le_total CallerPc.closing m.callers hdc
    omega

omit [DecidableEq C] [Fintype C] in
/-- Nothing is said about who is not on its way. -/
theorem CallerPc.At.of_closing {posted : Nat} {workers : Fin n → WorkerPc E} {pc : CallerPc}
    (h : pc.closing = 0) : pc.At posted workers := by
  cases pc with
  | idle | exchange => trivial
  | _ => cases h

/-- What is to be checked of a caller's step. -/
theorem Ending.of_put {m q : Manager C n E} {c : C} {pc : CallerPc} (N : Ending m)
    (hcallers : q.callers = m.callers) (hworkers : q.workers = m.workers) (hcloses : q.closes = m.closes)
    (hcloser : pc.closing + (!q.handleOpen).toNat + m.shutdown.toNat
      = (m.callers c).closing + (!m.handleOpen).toNat + q.shutdown.toNat)
    (hpatience : pc.patience n + (m.callers c).closing + (2 * n + 3) * m.shutdown.toNat
      ≤ (m.callers c).patience n + (2 * n + 3) * q.shutdown.toNat)
    (hearly : q.shutdown = false → q.posted = 0) (hposted : q.posted ≤ n)
    (hothers : ∀ d, d ≠ c → (m.callers d).At q.posted m.workers) (hat : pc.At q.posted m.workers)
    (hclosed : q.handleOpen = false → q.posted = n ∧ ∀ w, m.workers w = .exited) :
    Ending (q.put c pc) := by
  have hupdate := total_update CallerPc.closing m.callers c pc
  have hless := total_update (CallerPc.patience n) m.callers c pc
  have hone := N.closer
  have hbound := N.patience
  refine ⟨?_, hearly, hposted, fun d => ?_, fun h => ?_, ?_⟩
  · show total _ (update q.callers c pc) + (!q.handleOpen).toNat = q.shutdown.toNat
    rw [hcallers]
    omega
  · show (update q.callers c pc d).At q.posted q.workers
    rw [hcallers, hworkers]
    by_cases hdc : d = c
    · subst hdc
      rwa [update_self]
    · rw [update_of_ne hdc]
      exact hothers d hdc
  · show q.posted = n ∧ ∀ w, q.workers w = .exited
    rw [hworkers]
    exact hclosed h
  · show q.closes + (q.callers c).closing + total _ (update q.callers c pc) ≤ (2 * n + 3) * q.shutdown.toNat
    rw [hcloses, hcallers]
    omega

/-- A caller's step keeps what is said about the end. -/
theorem Ending.put {m q : Manager C n E} {c : C} {pc : CallerPc} (N : Ending m) (e : Errand m c q pc) :
    Ending (q.put c pc) := by
  have hall : ∀ d, d ≠ c → (m.callers d).At m.posted m.workers := fun d _ => N.callers d
  have hat := N.callers c
  cases e with
  | call h | refuse h =>
    exact N.of_put rfl rfl rfl (by rw [h]; rfl) (by rw [h]; exact Nat.le_refl _) N.early N.posted hall
      trivial N.closed
  | exchange h hs =>
    refine N.of_put rfl rfl rfl ?_ ?_ nofun N.posted hall ?_ N.closed
    · rw [h, hs]
      simp only [CallerPc.closing, Bool.toNat_true, Bool.toNat_false]
      omega
    · rw [h, hs]
      simp only [CallerPc.closing, CallerPc.patience, Bool.toNat_true, Bool.toNat_false]
      omega
    · exact ⟨N.early hs, Nat.zero_le n⟩
  | @post i h hi =>
    obtain ⟨hflag, hopen, halone⟩ := N.alone (c := c) (by rw [h]; rfl)
    rw [h] at hat
    obtain ⟨hposted, -⟩ := hat
    refine N.of_put rfl rfl rfl (by rw [h]; rfl) ?_ (fun hs => ?_) ?_ (fun d hdc => .of_closing (halone d hdc))
      ⟨by rw [hposted], hi⟩ (fun ho => ?_)
    · rw [h]
      simp only [CallerPc.closing, CallerPc.patience]
      omega
    · rw [hflag] at hs
      cases hs
    · show m.posted + 1 ≤ n
      omega
    · rw [hopen] at ho
      cases ho
  | @posted i h hi =>
    rw [h] at hat
    obtain ⟨hposted, hle⟩ := hat
    refine N.of_put rfl rfl rfl (by rw [h]; rfl) ?_ N.early N.posted hall
      ⟨by omega, fun w hw => absurd hw (Nat.not_lt_zero _)⟩ N.closed
    rw [h]
    simp only [CallerPc.closing, CallerPc.patience]
    omega
  | @join i h hi hw =>
    rw [h] at hat
    obtain ⟨hposted, hjoined⟩ := hat
    refine N.of_put rfl rfl rfl (by rw [h]; rfl) ?_ N.early N.posted hall ⟨hposted, fun v hv => ?_⟩ N.closed
    · rw [h]
      simp only [CallerPc.closing, CallerPc.patience]
      omega
    · rcases Nat.lt_succ_iff_lt_or_eq.mp hv with hlt | heq
      · exact hjoined v hlt
      · obtain rfl : v = ⟨i, hi⟩ := Fin.ext heq
        exact hw
  | @joined i h hi =>
    rw [h] at hat
    obtain ⟨hposted, hjoined⟩ := hat
    refine N.of_put rfl rfl rfl (by rw [h]; rfl) ?_ N.early N.posted hall
      ⟨hposted, fun w => hjoined w (Nat.lt_of_lt_of_le w.isLt hi)⟩ N.closed
    rw [h]
    simp only [CallerPc.closing, CallerPc.patience]
    omega
  | close h =>
    obtain ⟨-, hopen, -⟩ := N.alone (c := c) (by rw [h]; rfl)
    rw [h] at hat
    refine N.of_put rfl rfl rfl (by rw [h, hopen]; rfl) ?_ N.early N.posted hall trivial fun _ => hat
    rw [h]
    simp only [CallerPc.closing, CallerPc.patience]
    omega

/-! ## Every run -/

/-- **One step.** -/
theorem Kept.step {m m' : Manager C n E} {a : Act C n E} (K : Kept m) (hstep : m.step a = some m') :
    Kept m' := by
  obtain ⟨Q, N⟩ := K
  rcases Manager.step_cases hstep with ⟨e, -, rfl⟩ | ⟨c, q, pc, e, rfl⟩ | ⟨w, q, pc, t, rfl⟩
  · exact ⟨Q.complete e, ⟨N.closer, N.early, N.posted, N.callers, N.closed, N.patience⟩⟩
  · refine ⟨?_, N.put e⟩
    cases e with
    | @post i h hi =>
      have hat := N.callers c
      rw [h] at hat
      exact Q.post (by rw [hat.1]; exact hi)
    | _ =>
      exact ⟨Q.fifo, Q.balance, Q.ahead, Q.alive, Q.first, Q.last, Q.out, Q.deleted, Q.early, Q.energy⟩
  · refine ⟨?_, N.seat t⟩
    cases t with
    | take h hp => exact Q.take h hp
    | stop h hp => exact Q.stop h hp
    | delete h => exact Q.delete h
    | repost h => exact Q.repost h

theorem Kept.start : Kept ({} : Manager C n E) where
  queue := by
    have hrepost : total WorkerPc.atRepost ({} : Manager C n E).workers = 0 := total_eq_zero fun w => rfl
    have halive := total_le (f := WorkerPc.alive) (k := 1) (fun pc => by cases pc <;> simp [WorkerPc.alive])
      ({} : Manager C n E).workers
    have hrank := total_le WorkerPc.rank_le ({} : Manager C n E).workers
    rw [Fintype.card_fin] at halive hrank
    refine ⟨rfl, ?_, Nat.le_refl 0, ?_, nofun, fun h h' => ?_, fun w h => (by cases h), ?_, fun _ => rfl,
      fun _ => ?_⟩
    · rw [hrepost]
      rfl
    · show _ + 0 ≤ n + 0
      omega
    · have h : 0 = n := h
      omega
    · simp [WorkerPc.held]
    · show 0 + 2 * 0 + _ ≤ 2 * 0 + 3 * n
      omega
  ending := by
    have hzero : ∀ f : CallerPc → Nat, f .idle = 0 → total f ({} : Manager C n E).callers = 0 :=
      fun f hf => total_eq_zero fun _ => hf
    refine ⟨?_, fun _ => rfl, Nat.zero_le n, fun c => trivial, nofun, ?_⟩
    · rw [hzero _ rfl]
      rfl
    · rw [hzero _ rfl]
      exact Nat.zero_le _

/-- **The run lemma.** -/
theorem kept {m : Manager C n E} (h : Reachable (manager C n E) m) : Kept m := by
  apply h.invariant (I := Kept)
  · rintro _ rfl
    exact .start
  · rintro m m' - K ⟨a, hstep⟩
    exact K.step hstep

/-- **The completions.**  Each of them is taken by one worker, in the order in which they arrived, and its
    `OverlappedEx` is deleted once.  When a worker leaves its loop, everything is taken that had arrived before
    `Shutdown` posted its first packet; and nothing is taken that arrived after the last one. -/
theorem completions {m : Manager C n E} (h : Reachable (manager C n E) m) :
    m.arrived = m.taken ++ m.packets.reduceOption ∧
    (m.taken : Multiset E) = m.deleted + ∑ w, (m.workers w).held ∧
    (∀ w, m.workers w = .exited → m.arrived.take m.first <+: m.taken) ∧
    (0 < n → m.posted = n → m.taken <+: m.arrived.take m.last) := by
  have Q := (kept h).queue
  have htaken : m.taken <+: m.arrived := ⟨_, Q.fifo.symm⟩
  refine ⟨Q.fifo, Q.deleted, fun w hw => ?_, fun hn hposted => ?_⟩
  · obtain ⟨-, hfirst⟩ := Q.out w (by rw [hw]; rfl)
    exact List.prefix_of_prefix_length_le (List.take_prefix _ _) htaken
      ((List.length_take_le _ _).trans hfirst)
  · refine List.prefix_of_prefix_length_le htaken (List.take_prefix _ _) ?_
    have hlast := Q.last hposted hn
    rw [List.length_take]
    exact Nat.le_min.mpr ⟨by omega, htaken.length_le⟩

theorem step_next (m : Manager C n E) (a : Act C n E) (m' : Manager C n E) (h : m.step a = some m') :
    (manager C n E).next m m' := ⟨a, h⟩

/-- A completion before `Shutdown` and one after it; the worker takes the first and leaves. -/
def oneEach : List (Act Unit 1 Nat) :=
  .complete 7 :: .shutdown () :: List.replicate 3 (.caller ()) ++ .complete 8 ::
    List.replicate 4 (.worker ⟨0, Nat.one_pos⟩) ++ List.replicate 3 (.caller ())

theorem completions_one : ∃ m : Manager Unit 1 Nat, m.arrived = [7, 8] ∧ m.handleOpen = false ∧
    m.arrived.take m.first <+: m.taken ∧ m.taken <+: m.arrived.take m.last := by
  obtain ⟨m, hr, hp⟩ := exists_reachable_of_exec (M := manager Unit 1 Nat) rfl step_next oneEach
    (fun m => decide (m.arrived = [7, 8] ∧ m.handleOpen = false ∧ m.posted = 1 ∧ m.workers 0 = .exited))
    (by decide)
  obtain ⟨harrived, hclosed, hposted, hw⟩ := of_decide_eq_true hp
  obtain ⟨-, -, hfirst, hlast⟩ := completions hr
  exact ⟨m, harrived, hclosed, hfirst 0 hw, hlast Nat.one_pos hposted⟩

/-- The caller that closes the manager can go on, or the worker it waits for can. -/
theorem Kept.goes {m : Manager C n E} (K : Kept m) (c : C) (hc : (m.callers c).closing = 1) :
    (∃ m', m.callerStep c = some m') ∨ ∃ w m', m.callers c = .join w.val ∧ m.workerStep w = some m' := by
  have hat := K.ending.callers c
  rw [Manager.callerStep]
  cases hpc : m.callers c with
  | post i | close => exact .inl ⟨_, rfl⟩
  | join i =>
    rw [hpc] at hat
    dsimp only
    split
    · rename_i hi
      split
      · exact .inl ⟨_, rfl⟩
      · rename_i hw
        refine .inr ⟨⟨i, hi⟩, ?_⟩
        rw [Manager.workerStep]
        cases hpcw : m.workers ⟨i, hi⟩ with
        | wait =>
          -- the packets for the end that are left are enough for the workers that are
          have hpos := K.queue.ahead_pos hat.1 (w := ⟨i, hi⟩) (by rw [hpcw]; rfl)
          have hne : m.packets ≠ [] := by
            intro hnil
            rw [hnil, List.take_nil] at hpos
            exact Nat.lt_irrefl 0 hpos
          cases hp : m.packets with
          | nil => exact absurd hp hne
          | cons x packets => cases x <;> exact ⟨_, rfl, rfl⟩
        | handle e | repost => exact ⟨_, rfl, rfl⟩
        | exited => exact absurd (WorkerPc.isExited_iff.mpr hpcw) hw
    · exact .inl ⟨_, rfl⟩
  | idle | exchange =>
    rw [hpc] at hc
    cases hc

/-- **`Shutdown` ends.**  Once its last packet is posted the workers take a bounded number of steps, and it
    takes at most `2 n + 3` itself; until the handle is closed it can go on, or the worker it waits for can.
    When the handle is closed all workers have left their loops, and what they have not deleted is what was
    left in the queue. -/
theorem port_closes {m : Manager C n E} (h : Reachable (manager C n E) m) (hset : m.shutdown = true) :
    (m.posted = n → m.worked ≤ 2 * m.last + 3 * n) ∧ m.closes ≤ 2 * n + 3 ∧
    (m.handleOpen = true → ∃ c, (m.callers c).closing = 1 ∧ ((∃ m', m.callerStep c = some m') ∨
      ∃ w m', m.callers c = .join w.val ∧ m.workerStep w = some m')) ∧
    (m.handleOpen = false → (∀ w, m.workers w = .exited) ∧
      (m.arrived : Multiset E) = m.deleted + m.packets.reduceOption) := by
  have K := kept h
  refine ⟨fun hposted => ?_, ?_, fun hopen => ?_, fun hclosed => ?_⟩
  · have := K.queue.energy hposted
    omega
  · have := K.ending.patience
    rw [hset, Bool.toNat_true] at this
    omega
  · have hcloser := K.ending.closer
    rw [hset, hopen] at hcloser
    have hcloser : total CallerPc.closing m.callers = 1 := hcloser
    obtain ⟨c, hc⟩ := exists_of_total_pos (f := CallerPc.closing) (g := m.callers) (by omega)
    have hone := le_total CallerPc.closing m.callers c
    have hc : (m.callers c).closing = 1 := by omega
    exact ⟨c, hc, K.goes c hc⟩
  · obtain ⟨-, hexited⟩ := K.ending.closed hclosed
    refine ⟨hexited, ?_⟩
    have hnone : ∑ w, (m.workers w).held = 0 := Finset.sum_eq_zero fun w _ => by rw [hexited w]; rfl
    rw [K.queue.fifo, ← Multiset.coe_add, K.queue.deleted, hnone, add_zero]

theorem port_closes_one : ∃ m : Manager Unit 1 Nat, m.handleOpen = false ∧ m.arrived = [7, 8] ∧
    m.closes ≤ 5 ∧ (m.arrived : Multiset Nat) = m.deleted + m.packets.reduceOption := by
  obtain ⟨m, hr, hp⟩ := exists_reachable_of_exec (M := manager Unit 1 Nat) rfl step_next oneEach
    (fun m => decide (m.shutdown = true ∧ m.handleOpen = false ∧ m.arrived = [7, 8])) (by decide)
  obtain ⟨hset, hclosed, harrived⟩ := of_decide_eq_true hp
  obtain ⟨-, hcloses, -, hleft⟩ := port_closes hr hset
  exact ⟨m, hclosed, harrived, hcloses, (hleft hclosed).2⟩

end JunCore.CompletionPort
