/-
  `Session::RecvAsync` and `HandleRecvComplete`: receiving without a copy.

  `RecvAsync` gives `WSARecv` the free bytes of the buffer as two windows, and the system writes what
  arrives across the one and then the other.  The completion handler only moves the rear.  `Enqueue`
  puts the same bytes in by two calls of `memmove`, with the same case distinction made a second time;
  in the end it is the same buffer, to the last byte of memory (`receive_eq_enqueue`).
-/
import JunCore.Common.ByteQueue
import Mathlib.Algebra.Ring.Nat

set_option linter.unusedVariables false

namespace JunCore.RingBuffer

/-- The `wsaBuf` of `RecvAsync`: where each window begins, and its size. -/
def wsaBuf (rb : RingBuffer) : List (Nat × Nat) :=
  [(rb.writePos, rb.directEnqueueSize), (rb.begin, rb.remainEnqueueSize)]

/-- The bytes `Dequeue` will read, in its two pieces. -/
def unread (rb : RingBuffer) : List (Nat × Nat) :=
  [(rb.readPos, rb.directDequeueSize), (rb.begin, rb.remainDequeueSize)]

/-- The blocks have no address in common. -/
def Apart (w v : Nat × Nat) : Prop := ∀ a, w.1 ≤ a → a < w.1 + w.2 → v.1 ≤ a → a < v.1 + v.2 → False

variable (rb : RingBuffer)

/-! ## The windows -/

theorem writePos_inside : rb.begin ≤ rb.writePos ∧ rb.writePos < rb.endPos := by
  have hpos := rb.writePos_offset
  have hlt := rb.writeOffset_lt
  show rb.begin ≤ rb.writePos ∧ rb.writePos < rb.begin + 8192
  omega

/-- The second window ends in front of the first one. -/
theorem remain_before : rb.remainEnqueueSize = 0 ∨ rb.begin + rb.remainEnqueueSize < rb.writePos := by
  have hfront := rb.front_inside
  unfold remainEnqueueSize
  split <;> omega

theorem windows_apart : Apart (rb.writePos, rb.directEnqueueSize) (rb.begin, rb.remainEnqueueSize) := by
  intro a hw _ _ hv
  have hbefore := rb.remain_before
  have hpos := rb.writePos_inside
  dsimp only at hw hv
  omega

theorem windows_inside : ∀ w ∈ rb.wsaBuf, rb.Inside w := by
  intro w hw
  have hpos := rb.writePos_inside
  have hfront := rb.front_inside
  rcases List.mem_cons.mp hw with rfl | hw
  · show rb.begin ≤ rb.writePos ∧ rb.writePos + rb.directEnqueueSize ≤ rb.begin + 8192
    unfold endPos at hpos
    unfold directEnqueueSize endPos
    split <;> omega
  · obtain rfl := List.mem_singleton.mp hw
    have hbefore := rb.remain_before
    show rb.begin ≤ rb.begin ∧ rb.begin + rb.remainEnqueueSize ≤ rb.begin + 8192
    unfold endPos at hpos
    omega

/-- `readPos` is the byte after `front`, or the first one. -/
theorem readPos_front : rb.readPos = rb.front + 1 ∨ rb.front + 1 = rb.endPos ∧ rb.readPos = rb.begin := by
  have hfront := rb.front_inside
  have haligned := rb.aligned
  rw [rb.readPos_eq, maskingBit_eq]
  unfold endPos
  omega

theorem windows_free : ∀ w ∈ rb.wsaBuf, ∀ v ∈ rb.unread, Apart w v := by
  intro w hw v hv a hwa haw hva hav
  have hread := rb.readPos_front
  have hpos := rb.writePos_inside
  have hfront := rb.front_inside
  unfold wsaBuf directEnqueueSize remainEnqueueSize at hw
  unfold unread directDequeueSize remainDequeueSize at hv
  unfold endPos at *
  rcases List.mem_cons.mp hw with rfl | hw
  · rcases List.mem_cons.mp hv with rfl | hv
    · dsimp only at *
      split at haw <;> split at hav <;> omega
    · obtain rfl := List.mem_singleton.mp hv
      dsimp only at *
      split at haw <;> split at hav <;> omega
  · obtain rfl := List.mem_singleton.mp hw
    rcases List.mem_cons.mp hv with rfl | hv
    · dsimp only at *
      split at haw <;> split at hav <;> omega
    · obtain rfl := List.mem_singleton.mp hv
      dsimp only at *
      split at haw <;> split at hav <;> omega

/-! ## The same buffer -/

/-- Two buffers with the same memory and the same `begin`, `front` and `rear` are the same. -/
theorem ext_pointers {a b : RingBuffer} (hmem : a.mem = b.mem) (hbegin : a.begin = b.begin)
    (hfront : a.front = b.front) (hrear : a.rear = b.rear) : a = b := by
  have hread : a.readPos = b.readPos := by rw [a.readPos_eq, b.readPos_eq, hbegin, hfront]
  have hwrite : a.writePos = b.writePos := by rw [a.writePos_eq, b.writePos_eq, hbegin, hrear]
  cases a
  cases b
  dsimp only at *
  subst hmem hbegin hfront hrear hread hwrite
  rfl

/-- Moving the rear twice. -/
theorem moveRear_add (m n : Nat) : ((rb.moveRear m).moveRear n).rear = (rb.moveRear (m + n)).rear := by
  have haligned := rb.aligned
  simp only [moveRear, maskingBit_eq]
  omega

/-- **A receive is an `Enqueue`.** -/
theorem receive_eq_enqueue {bytes : List UInt8} (h : bytes.length ≤ rb.getFreeSize) :
    (rb.fillWindows bytes).moveRear bytes.length = (rb.enqueue bytes).2 := by
  simp only [enqueue, if_neg (Nat.not_lt.mpr h)]
  split
  · rename_i hdirect
    refine ext_pointers ?_ rfl rfl rfl
    show Cyclic.writeAt (Cyclic.writeAt rb.mem rb.writePos (bytes.take rb.directEnqueueSize)) rb.begin
      (bytes.drop rb.directEnqueueSize) = Cyclic.writeAt rb.mem rb.writePos bytes
    rw [List.take_of_length_le hdirect, List.drop_of_length_le hdirect, Cyclic.writeAt_nil]
  · rename_i hlong
    have htake : (bytes.take rb.directEnqueueSize).length = rb.directEnqueueSize := by
      rw [List.length_take]
      omega
    have hdrop : (bytes.drop rb.directEnqueueSize).length = bytes.length - rb.directEnqueueSize :=
      List.length_drop
    refine ext_pointers ?_ rfl rfl ?_
    · -- after the first piece `Enqueue` goes on at `begin`
      have hsecond : (rb.mustEnqueue (bytes.take rb.directEnqueueSize)).writePos = rb.begin := by
        show ((rb.store rb.writePos _).moveRear (bytes.take rb.directEnqueueSize).length).writePos = _
        rw [htake]
        exact rb.moveRear_direct_writePos hlong h
      show Cyclic.writeAt (Cyclic.writeAt rb.mem rb.writePos _) rb.begin _
        = Cyclic.writeAt (Cyclic.writeAt rb.mem rb.writePos _)
          (rb.mustEnqueue (bytes.take rb.directEnqueueSize)).writePos _
      rw [hsecond]
    · show (rb.moveRear bytes.length).rear
        = ((rb.moveRear (bytes.take rb.directEnqueueSize).length).moveRear
          (bytes.drop rb.directEnqueueSize).length).rear
      rw [moveRear_add, htake, hdrop, Nat.add_sub_cancel' (by omega)]

/-- **The scatter receive is the copying one.**  In every state of the buffer the windows offered to
    `WSARecv` have no byte in common, lie in the buffer, contain no unread byte, and have the size
    `GetFreeSize()` together; and whatever arrives, of at most this size, leaves the buffer behind that
    `Enqueue` would have left, with the same answers to all calls to come. -/
theorem scatter_receive :
    Apart (rb.writePos, rb.directEnqueueSize) (rb.begin, rb.remainEnqueueSize) ∧
    (∀ w ∈ rb.wsaBuf, rb.Inside w ∧ ∀ v ∈ rb.unread, Apart w v) ∧
    (rb.wsaBuf.map (·.2)).sum = rb.getFreeSize ∧
    ∀ bytes : List UInt8, bytes.length ≤ rb.getFreeSize →
      (rb.enqueue bytes).1 = bytes.length ∧
      (rb.fillWindows bytes).moveRear bytes.length = (rb.enqueue bytes).2 ∧
      ∀ ops, BoundedQueue.run perform ops ((rb.fillWindows bytes).moveRear bytes.length)
        = BoundedQueue.run perform ops (rb.enqueue bytes).2 := by
  refine ⟨rb.windows_apart, fun w hw => ⟨rb.windows_inside w hw, rb.windows_free w hw⟩, rfl, ?_⟩
  intro bytes h
  have hsame := rb.receive_eq_enqueue h
  refine ⟨?_, hsame, fun ops => by rw [hsame]⟩
  rw [(rb.enqueue_eq bytes).1, Nat.min_eq_left h]

/-- Three bytes into a new buffer. -/
theorem scatter_receive_three :
    ([1, 2, 3] : List UInt8).length ≤ (new (fun _ => 0) 0 rfl).getFreeSize ∧
      ((new (fun _ => 0) 0 rfl).fillWindows [1, 2, 3]).moveRear 3
        = ((new (fun _ => 0) 0 rfl).enqueue [1, 2, 3]).2 :=
  ⟨by decide, ((scatter_receive (new (fun _ => 0) 0 rfl)).2.2.2 [1, 2, 3] (by decide)).2.1⟩

end JunCore.RingBuffer
