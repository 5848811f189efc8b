/-
  `RingBuffer` as a bounded byte queue.

  Three things are put together here.  The single operations, `enqueue_eq`, `dequeue_eq` and
  `peek_eq`, become a simulation of the bounded queue of capacity 8191, so that any sequence of calls
  answers what the queue answers.  The size functions are read off the queue.  And `spans` lists
  the blocks of the buffer that the `memmove`s of a call touch, pointer and length, as the source
  computes them: no byte outside of `[begin, end)` is ever read or written.
-/
import JunCore.Lib.BoundedQueue
import JunCore.Common.RingBuffer

set_option linter.unusedVariables false

namespace JunCore

namespace RingBuffer

open Cyclic BoundedQueue

/-- A call of a member function, and what it gives back: `Enqueue` a count, `Dequeue` and `Peek` the
    bytes written to `dst` (their return value is the number of these). -/
def perform (rb : RingBuffer) : Op UInt8 → Reply UInt8 × RingBuffer
  | .enqueue src => (.count (rb.enqueue src).1, (rb.enqueue src).2)
  | .dequeue size => (.block (rb.dequeue size).1, (rb.dequeue size).2)
  | .peek size => (.block (rb.peek size), rb)
  | .clear => (.done, rb.clear)

/-! ## The memory a call touches -/

/-- The blocks `Enqueue` writes, when it is given `size` bytes. -/
def enqueueSpans (rb : RingBuffer) (size : Nat) : List (Nat × Nat) :=
  let size := if rb.getFreeSize < size then rb.getFreeSize else size
  let direct := rb.directEnqueueSize
  if size ≤ direct then [(rb.writePos, size)]
  else [(rb.writePos, direct), ((rb.moveRear direct).writePos, size - direct)]

/-- The blocks `Dequeue` reads. -/
def dequeueSpans (rb : RingBuffer) (size : Nat) : List (Nat × Nat) :=
  let size := if rb.getUseSize < size then rb.getUseSize else size
  let direct := rb.directDequeueSize
  if size ≤ direct then [(rb.readPos, size)]
  else [(rb.readPos, direct), ((rb.moveFront direct).readPos, size - direct)]

/-- The blocks `Peek` reads. -/
def peekSpans (rb : RingBuffer) (size : Nat) : List (Nat × Nat) :=
  let size := if rb.getUseSize < size then rb.getUseSize else size
  let direct := rb.directDequeueSize
  if size ≤ direct then [(rb.readPos, size)]
  else [(rb.readPos, direct), (rb.begin, size - direct)]

def spans (rb : RingBuffer) : Op UInt8 → List (Nat × Nat)
  | .enqueue src => rb.enqueueSpans src.length
  | .dequeue size => rb.dequeueSpans size
  | .peek size => rb.peekSpans size
  | .clear => []

/-- The block `w` lies inside of the allocation. -/
def Inside (rb : RingBuffer) (w : Nat × Nat) : Prop := rb.begin ≤ w.1 ∧ w.1 + w.2 ≤ rb.endPos

variable (rb : RingBuffer)

/-- The pieces of the data, as far as a call asks for them, end inside. -/
theorem inside_direct {k : Nat} (h : k ≤ rb.directDequeueSize) : rb.Inside (rb.readPos, k) := by
  have h₁ := rb.readOffset_lt
  have h₂ := rb.writeOffset_lt
  have h₃ := rb.readPos_offset
  obtain ⟨hle, hgt⟩ := rb.dequeueSizes
  show rb.begin ≤ rb.readPos ∧ rb.readPos + k ≤ rb.begin + 8192
  rcases Nat.lt_or_ge rb.writeOffset rb.readOffset with hw | hw
  · have := (hgt hw).1; omega
  · have := (hle hw).1; omega

/-- After the first piece of the data the second one starts at `begin`. -/
theorem moveFront_direct_readPos {k : Nat} (hk : ¬ k ≤ rb.directDequeueSize)
    (hle : k ≤ rb.getUseSize) : (rb.moveFront rb.directDequeueSize).readPos = rb.begin := by
  have hwrap := (rb.wrapped hk hle).1
  have hlt := rb.readOffset_lt
  have h₁ := rb.aligned
  have h₂ := rb.front_inside
  have h₃ : rb.readOffset = (rb.front - rb.begin + 1) % 8192 := rfl
  rw [readPos_offset]
  show rb.begin + (rb.begin + maskingBit (rb.front + rb.directDequeueSize) - rb.begin + 1) % 8192
    = rb.begin
  rw [maskingBit_eq]
  omega

/-- The same for the free bytes. -/
theorem moveRear_direct_writePos {k : Nat} (hk : ¬ k ≤ rb.directEnqueueSize)
    (hle : k ≤ rb.getFreeSize) : (rb.moveRear rb.directEnqueueSize).writePos = rb.begin := by
  obtain ⟨-, hcase⟩ := rb.enqueueSizes
  have hfree : rb.getFreeSize = rb.directEnqueueSize + rb.remainEnqueueSize := rfl
  have hlt := rb.writeOffset_lt
  rw [writePos_offset, writeOffset_moveRear]
  show rb.begin + (rb.writeOffset + rb.directEnqueueSize) % 8192 = rb.begin
  omega

theorem inside_second {k : Nat} (hk : ¬ k ≤ rb.directDequeueSize) (hle : k ≤ rb.getUseSize) :
    rb.Inside (rb.begin, k - rb.directDequeueSize) := by
  have h₁ := rb.writeOffset_lt
  have h₂ := (rb.wrapped hk hle).2
  show rb.begin ≤ rb.begin ∧ rb.begin + (k - rb.directDequeueSize) ≤ rb.begin + 8192
  omega

/-- **No access outside of the buffer**, call by call. -/
theorem spans_inside (op : Op UInt8) : ∀ w ∈ rb.spans op, rb.Inside w := by
  cases op with
  | enqueue src =>
    intro w hw
    have hw : w ∈ rb.enqueueSpans src.length := hw
    obtain ⟨k, hclip, hk⟩ : ∃ k, (if rb.getFreeSize < src.length then rb.getFreeSize else src.length)
        = k ∧ k ≤ rb.getFreeSize := by
      refine ⟨_, rfl, ?_⟩
      split <;> omega
    have h₁ := rb.writePos_offset
    have h₂ := rb.writeOffset_lt
    have h₃ := rb.enqueueSizes.1
    have h₄ := rb.front_inside
    simp only [enqueueSpans, hclip] at hw
    split at hw
    · obtain rfl := List.mem_singleton.mp hw
      show rb.begin ≤ rb.writePos ∧ rb.writePos + k ≤ rb.begin + 8192
      omega
    · rename_i hlong
      rw [rb.moveRear_direct_writePos hlong hk] at hw
      have hremain : rb.remainEnqueueSize ≤ 8192 := by
        unfold remainEnqueueSize
        split <;> omega
      have hfree : rb.getFreeSize = rb.directEnqueueSize + rb.remainEnqueueSize := rfl
      rcases List.mem_cons.mp hw with rfl | hw
      · show rb.begin ≤ rb.writePos ∧ rb.writePos + rb.directEnqueueSize ≤ rb.begin + 8192
        omega
      · obtain rfl := List.mem_singleton.mp hw
        show rb.begin ≤ rb.begin ∧ rb.begin + (k - rb.directEnqueueSize) ≤ rb.begin + 8192
        omega
  | dequeue size =>
    intro w hw
    have hw : w ∈ rb.dequeueSpans size := hw
    obtain ⟨k, hclip, hk, -, -⟩ := rb.clip size
    simp only [dequeueSpans, hclip] at hw
    split at hw
    · obtain rfl := List.mem_singleton.mp hw
      exact rb.inside_direct ‹_›
    · rename_i hlong
      rw [rb.moveFront_direct_readPos hlong hk] at hw
      rcases List.mem_cons.mp hw with rfl | hw
      · exact rb.inside_direct (Nat.le_refl _)
      · obtain rfl := List.mem_singleton.mp hw
        exact rb.inside_second hlong hk
  | peek size =>
    intro w hw
    have hw : w ∈ rb.peekSpans size := hw
    obtain ⟨k, hclip, hk, -, -⟩ := rb.clip size
    simp only [peekSpans, hclip] at hw
    split at hw
    · obtain rfl := List.mem_singleton.mp hw
      exact rb.inside_direct ‹_›
    · rename_i hlong
      rcases List.mem_cons.mp hw with rfl | hw
      · exact rb.inside_direct (Nat.le_refl _)
      · obtain rfl := List.mem_singleton.mp hw
        exact rb.inside_second hlong hk
  | clear =>
    intro w hw
    cases hw

/-- What `Dequeue` and `Peek` hand out is what stands in the blocks listed. -/
theorem reads_spans (size : Nat) :
    (rb.dequeue size).1 = (rb.dequeueSpans size).flatMap (fun w => readAt rb.mem w.1 w.2) ∧
      rb.peek size = (rb.peekSpans size).flatMap fun w => readAt rb.mem w.1 w.2 := by
  simp only [dequeue, dequeueSpans, peek, peekSpans]
  generalize (if rb.getUseSize < size then rb.getUseSize else size) = k
  by_cases hk : k ≤ rb.directDequeueSize
  · simp only [if_pos hk]
    constructor
    · show readAt rb.mem rb.readPos k = readAt rb.mem rb.readPos k ++ []
      rw [List.append_nil]
    · show readAt rb.mem rb.readPos k = readAt rb.mem rb.readPos k ++ []
      rw [List.append_nil]
  · simp only [if_neg hk]
    constructor
    · show _ ++ _ = _ ++ (_ ++ [])
      rw [List.append_nil]
      rfl
    · show _ ++ _ = _ ++ (_ ++ [])
      rw [List.append_nil]

/-- What `Enqueue` leaves alone: every byte outside of the blocks listed. -/
theorem writes_spans (src : List UInt8) {a : Nat}
    (h : ∀ w ∈ rb.enqueueSpans src.length, a < w.1 ∨ w.1 + w.2 ≤ a) :
    (rb.enqueue src).2.mem a = rb.mem a := by
  have hlen : (if rb.getFreeSize < src.length then src.take rb.getFreeSize else src).length
      = if rb.getFreeSize < src.length then rb.getFreeSize else src.length := by
    split
    · rw [List.length_take]; omega
    · rfl
  simp only [enqueueSpans, ← hlen] at h
  simp only [enqueue]
  generalize (if rb.getFreeSize < src.length then src.take rb.getFreeSize else src) = block at h ⊢
  split
  · rename_i hk
    rw [if_pos hk] at h
    exact writeAt_outside _ (h _ (List.mem_singleton.mpr rfl))
  · rename_i hk
    rw [if_neg hk] at h
    have hfirst : (block.take rb.directEnqueueSize).length = rb.directEnqueueSize := by
      rw [List.length_take]; omega
    show writeAt (writeAt rb.mem rb.writePos (block.take rb.directEnqueueSize))
      (rb.mustEnqueue (block.take rb.directEnqueueSize)).writePos (block.drop rb.directEnqueueSize) a
      = rb.mem a
    have hpos : (rb.mustEnqueue (block.take rb.directEnqueueSize)).writePos
        = (rb.moveRear rb.directEnqueueSize).writePos := by
      show ((rb.store rb.writePos _).moveRear (block.take rb.directEnqueueSize).length).writePos = _
      rw [hfirst]
      rfl
    have h₁ := h _ List.mem_cons_self
    have h₂ := h _ (List.mem_cons_of_mem _ List.mem_cons_self)
    rw [hpos, writeAt_outside _ (by rw [List.length_drop]; exact h₂),
      writeAt_outside _ (by rw [hfirst]; exact h₁)]

/-! ## The refinement -/

/-- One call does to the contents what the queue operation does, and answers the same. -/
theorem perform_refines (op : Op UInt8) :
    (rb.perform op).1 = (BoundedQueue.perform 8191 rb.contents op).1 ∧
      (rb.perform op).2.contents = (BoundedQueue.perform 8191 rb.contents op).2 := by
  have hfree : rb.getFreeSize = 8191 - rb.contents.length := by
    rw [length_contents, getFreeSize_eq]
  cases op with
  | enqueue src =>
    obtain ⟨hcount, hcontents⟩ := rb.enqueue_eq src
    rw [hfree] at hcount hcontents
    constructor
    · show Reply.count (rb.enqueue src).1 = _
      rw [hcount]
      rfl
    · exact hcontents
  | dequeue size =>
    obtain ⟨hbytes, hcontents⟩ := rb.dequeue_eq size
    constructor
    · show Reply.block (rb.dequeue size).1 = _
      rw [hbytes]
      rfl
    · exact hcontents
  | peek size =>
    constructor
    · show Reply.block (rb.peek size) = _
      rw [rb.peek_eq]
      rfl
    · rfl
  | clear => exact ⟨rfl, rb.contents_clear⟩

/-- No call moves the allocation. -/
theorem perform_begin (op : Op UInt8) : (rb.perform op).2.begin = rb.begin := by
  cases op with
  | enqueue src =>
    show (rb.enqueue src).2.begin = rb.begin
    simp only [enqueue]
    split <;> split <;> rfl
  | dequeue size =>
    show (rb.dequeue size).2.begin = rb.begin
    simp only [dequeue]
    split <;> split <;> rfl
  | peek size => rfl
  | clear => rfl

/-- The blocks touched by a sequence of calls. -/
def spansOf : List (Op UInt8) → RingBuffer → List (Nat × Nat)
  | [], _ => []
  | op :: ops, rb => rb.spans op ++ spansOf ops (rb.perform op).2

theorem spansOf_inside (ops : List (Op UInt8)) (rb : RingBuffer) :
    ∀ w ∈ spansOf ops rb, rb.Inside w := by
  induction ops generalizing rb with
  | nil =>
    intro w hw
    cases hw
  | cons op ops ih =>
    intro w hw
    rcases List.mem_append.mp hw with hw | hw
    · exact rb.spans_inside op w hw
    · have hbegin := rb.perform_begin op
      have h := ih _ w hw
      unfold Inside endPos at h ⊢
      rwa [hbegin] at h

/-- **The ring buffer is a bounded byte queue.**  After any sequence of calls on a new buffer, with
    any contents and sizes: every call has answered what the queue of capacity 8191 answers, the
    buffer stands for the same bytes as the queue, the size functions tell their number and the room
    left, and every block that was read or written lies between `begin` and `end`. -/
theorem refines_bounded_queue (m : Nat → UInt8) (b : Nat) (h : b % 8192 = 0)
    (ops : List (Op UInt8)) :
    (run perform ops (new m b h)).1 = (run (BoundedQueue.perform 8191) ops []).1 ∧
      (run perform ops (new m b h)).2.contents = (run (BoundedQueue.perform 8191) ops []).2 ∧
      (run perform ops (new m b h)).2.getUseSize
        = (run (BoundedQueue.perform 8191) ops []).2.length ∧
      (run perform ops (new m b h)).2.getUseSize + (run perform ops (new m b h)).2.getFreeSize
        = 8191 ∧
      ((run perform ops (new m b h)).2.empty = true ↔
        (run (BoundedQueue.perform 8191) ops []).2.length = 0) ∧
      ((run perform ops (new m b h)).2.full = true ↔
        (run (BoundedQueue.perform 8191) ops []).2.length = 8191) ∧
      ∀ w ∈ spansOf ops (new m b h), b ≤ w.1 ∧ w.1 + w.2 ≤ b + 8192 := by
  obtain ⟨hreplies, hcontents⟩ := run_refines (fun rb op => perform_refines rb op) ops (new m b h)
  rw [contents_new] at hreplies hcontents
  have huse := length_contents (run perform ops (new m b h)).2
  have hfree := getFreeSize_eq (run perform ops (new m b h)).2
  have hlt := getUseSize_lt (run perform ops (new m b h)).2
  rw [hcontents] at huse
  refine ⟨hreplies, hcontents, huse.symm, by omega, ?_, ?_, spansOf_inside ops (new m b h)⟩
  · rw [empty_iff, hcontents, List.length_eq_zero_iff]
  · rw [full_iff]
    omega

/-- Three bytes in, two looked at, one out. -/
theorem refines_bounded_queue_three :
    (run perform [.enqueue [1, 2, 3], .peek 2, .dequeue 1] (new (fun _ => 0) 0 rfl)).1
        = [.count 3, .block [1, 2], .block [1]] ∧
      (run perform [.enqueue [1, 2, 3], .peek 2, .dequeue 1] (new (fun _ => 0) 0 rfl)).2.contents
        = [2, 3] := by
  obtain ⟨hreplies, hcontents, -⟩ := refines_bounded_queue (fun _ => 0) 0 rfl
    [.enqueue [1, 2, 3], .peek 2, .dequeue 1]
  exact ⟨hreplies, hcontents⟩

end RingBuffer

end JunCore
