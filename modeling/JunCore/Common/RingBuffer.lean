/-
  `JunCommon/container/RingBuffer.h`, `RingBuffer.cpp`: a byte queue in 8192 bytes of memory.

  The buffer works with addresses, not with indices.  `_aligned_malloc(BUF_SIZE, BUF_SIZE)` puts
  `begin` at a multiple of 8192, so masking an address with `0x1fff` gives its offset, and every
  pointer is `begin + MASKING_BIT(..)`.  `front` and `rear` point one byte ahead of the data: the
  bytes in use are those from `readPos = front + 1` up to, but not including, `writePos = rear + 1`,
  and one byte is always free, so the capacity is 8191.

  The definitions follow the source pointer by pointer.  What the structure carries as proofs is
  what the constructor establishes and every member function keeps: the alignment, that `front` and
  `rear` are inside, and that `readPos` and `writePos` follow them.

  `contents` is the queue the buffer stands for.  The main results say that each operation does to
  it what a queue operation should: `peek_eq`, `dequeue_eq`, `enqueue_eq`, and `contents_receive`
  for bytes that the system writes into the free windows.
-/
import JunCore.Lib.Cyclic

set_option linter.unusedVariables false

namespace JunCore

open Cyclic

/-- `MASKING_BIT(n)`: the offset of an address in a buffer of `BUF_SIZE`, 8192, bytes. -/
def maskingBit (n : Nat) : Nat := 0x1fff &&& n

theorem maskingBit_eq (n : Nat) : maskingBit n = n % 8192 := by
  rw [maskingBit, Nat.and_comm]
  exact Nat.and_two_pow_sub_one_eq_mod n 13

structure RingBuffer where
  mem : Nat → UInt8
  begin : Nat
  front : Nat
  rear : Nat
  readPos : Nat
  writePos : Nat
  aligned : begin % 8192 = 0
  front_inside : begin ≤ front ∧ front < begin + 8192
  rear_inside : begin ≤ rear ∧ rear < begin + 8192
  readPos_eq : readPos = begin + maskingBit (front + 1)
  writePos_eq : writePos = begin + maskingBit (rear + 1)

namespace RingBuffer

/-! ## The member functions -/

/-- A pointer the buffer computes is inside of it. -/
theorem masked_inside (b n : Nat) : b ≤ b + maskingBit n ∧ b + maskingBit n < b + 8192 := by
  rw [maskingBit_eq]
  omega

/-- The constructor, for an allocation at `b` with arbitrary contents. -/
def new (m : Nat → UInt8) (b : Nat) (h : b % 8192 = 0) : RingBuffer where
  mem := m
  begin := b
  front := b
  rear := b
  readPos := b + 1
  writePos := b + 1
  aligned := h
  front_inside := by omega
  rear_inside := by omega
  readPos_eq := by rw [maskingBit_eq]; omega
  writePos_eq := by rw [maskingBit_eq]; omega

/-- `end`, the address behind the allocation. -/
def endPos (rb : RingBuffer) : Nat := rb.begin + 8192

def moveFront (rb : RingBuffer) (size : Nat) : RingBuffer :=
  { rb with
    front := rb.begin + maskingBit (rb.front + size)
    readPos := rb.begin + maskingBit (rb.begin + maskingBit (rb.front + size) + 1)
    front_inside := masked_inside _ _
    readPos_eq := rfl }

def moveRear (rb : RingBuffer) (size : Nat) : RingBuffer :=
  { rb with
    rear := rb.begin + maskingBit (rb.rear + size)
    writePos := rb.begin + maskingBit (rb.begin + maskingBit (rb.rear + size) + 1)
    rear_inside := masked_inside _ _
    writePos_eq := rfl }

/-- `memmove` into the buffer; no pointer moves. -/
def store (rb : RingBuffer) (p : Nat) (src : List UInt8) : RingBuffer :=
  { rb with mem := writeAt rb.mem p src }

def empty (rb : RingBuffer) : Bool := rb.front == rb.rear

def full (rb : RingBuffer) : Bool := rb.front == rb.writePos

def clear (rb : RingBuffer) : RingBuffer := new rb.mem rb.begin rb.aligned

def directEnqueueSize (rb : RingBuffer) : Nat :=
  if rb.front < rb.writePos then rb.endPos - rb.writePos else rb.front - rb.writePos

def remainEnqueueSize (rb : RingBuffer) : Nat :=
  if rb.writePos ≤ rb.front then 0 else rb.front - rb.begin

def directDequeueSize (rb : RingBuffer) : Nat :=
  if rb.writePos < rb.readPos then rb.endPos - rb.readPos else rb.writePos - rb.readPos

def remainDequeueSize (rb : RingBuffer) : Nat :=
  if rb.readPos ≤ rb.writePos then 0 else rb.writePos - rb.begin

def getFreeSize (rb : RingBuffer) : Nat := rb.directEnqueueSize + rb.remainEnqueueSize

def getUseSize (rb : RingBuffer) : Nat := rb.directDequeueSize + rb.remainDequeueSize

def mustEnqueue (rb : RingBuffer) (src : List UInt8) : RingBuffer :=
  (rb.store rb.writePos src).moveRear src.length

def mustDequeue (rb : RingBuffer) (size : Nat) : List UInt8 × RingBuffer :=
  (readAt rb.mem rb.readPos size, rb.moveFront size)

/-- `Enqueue`: how many bytes of `src` went in, and the buffer. -/
def enqueue (rb : RingBuffer) (src : List UInt8) : Nat × RingBuffer :=
  let src := if rb.getFreeSize < src.length then src.take rb.getFreeSize else src
  let direct := rb.directEnqueueSize
  if src.length ≤ direct then (src.length, rb.mustEnqueue src)
  else (src.length, (rb.mustEnqueue (src.take direct)).mustEnqueue (src.drop direct))

/-- `Dequeue`: the bytes written to `dst`, and the buffer. -/
def dequeue (rb : RingBuffer) (size : Nat) : List UInt8 × RingBuffer :=
  let size := if rb.getUseSize < size then rb.getUseSize else size
  let direct := rb.directDequeueSize
  if size ≤ direct then rb.mustDequeue size
  else
    let first := rb.mustDequeue direct
    let second := first.2.mustDequeue (size - direct)
    (first.1 ++ second.1, second.2)

/-- `Peek`: the bytes written to `dst`. -/
def peek (rb : RingBuffer) (size : Nat) : List UInt8 :=
  let size := if rb.getUseSize < size then rb.getUseSize else size
  let direct := rb.directDequeueSize
  if size ≤ direct then readAt rb.mem rb.readPos size
  else readAt rb.mem rb.readPos direct ++ readAt rb.mem rb.begin (size - direct)

/-- A scattered read by the system into the two free windows, `GetWritePos()` for
    `DirectEnqueueSize()` bytes and then `GetBeginPos()` for `RemainEnqueueSize()` bytes. -/
def fillWindows (rb : RingBuffer) (chunk : List UInt8) : RingBuffer :=
  (rb.store rb.writePos (chunk.take rb.directEnqueueSize)).store rb.begin
    (chunk.drop rb.directEnqueueSize)

/-! ## Offsets and sizes -/

variable (rb : RingBuffer)

/-- The offset of `readPos`. -/
def readOffset : Nat := (rb.front - rb.begin + 1) % 8192

/-- The offset of `writePos`. -/
def writeOffset : Nat := (rb.rear - rb.begin + 1) % 8192

theorem readPos_offset : rb.readPos = rb.begin + rb.readOffset := by
  have h₁ := rb.aligned
  have h₂ := rb.front_inside
  rw [rb.readPos_eq, maskingBit_eq, readOffset]
  omega

theorem writePos_offset : rb.writePos = rb.begin + rb.writeOffset := by
  have h₁ := rb.aligned
  have h₂ := rb.rear_inside
  rw [rb.writePos_eq, maskingBit_eq, writeOffset]
  omega

theorem readOffset_lt : rb.readOffset < 8192 := Nat.mod_lt _ (by omega)

theorem writeOffset_lt : rb.writeOffset < 8192 := Nat.mod_lt _ (by omega)

/-- The two pieces of the data. -/
theorem dequeueSizes : (rb.readOffset ≤ rb.writeOffset →
      rb.directDequeueSize = rb.writeOffset - rb.readOffset ∧ rb.remainDequeueSize = 0) ∧
    (rb.writeOffset < rb.readOffset →
      rb.directDequeueSize = 8192 - rb.readOffset ∧ rb.remainDequeueSize = rb.writeOffset) := by
  have h₁ := rb.readPos_offset
  have h₂ := rb.writePos_offset
  unfold directDequeueSize remainDequeueSize endPos
  constructor
  · intro h
    rw [if_neg (by omega), if_pos (by omega)]
    omega
  · intro h
    rw [if_pos (by omega), if_neg (by omega)]
    omega

theorem getUseSize_eq : rb.getUseSize = (rb.writeOffset + 8192 - rb.readOffset) % 8192 := by
  have h₁ := rb.readOffset_lt
  have h₂ := rb.writeOffset_lt
  obtain ⟨hle, hgt⟩ := rb.dequeueSizes
  rw [getUseSize]
  rcases Nat.lt_or_ge rb.writeOffset rb.readOffset with h | h
  · rw [(hgt h).1, (hgt h).2]; omega
  · rw [(hle h).1, (hle h).2]; omega

theorem getUseSize_lt : rb.getUseSize < 8192 := by
  rw [getUseSize_eq]
  exact Nat.mod_lt _ (by omega)

/-- The data end where the free bytes begin. -/
theorem use_offset : (rb.readOffset + rb.getUseSize) % 8192 = rb.writeOffset := by
  have h₁ := rb.readOffset_lt
  have h₂ := rb.writeOffset_lt
  rw [getUseSize_eq]
  omega

/-- The two free windows: the first runs to the end of the buffer unless it meets the data. -/
theorem enqueueSizes : rb.directEnqueueSize ≤ 8192 - rb.writeOffset ∧
    (rb.remainEnqueueSize = 0 ∨ rb.directEnqueueSize = 8192 - rb.writeOffset) := by
  have h₁ := rb.writePos_offset
  have h₂ := rb.writeOffset_lt
  have h₃ := rb.front_inside
  unfold directEnqueueSize remainEnqueueSize endPos
  split
  · rw [if_neg (by omega)]; omega
  · rw [if_pos (by omega)]; omega

/-- **One byte is never used**: free and used bytes are 8191 together. -/
theorem getFreeSize_eq : rb.getFreeSize = 8192 - 1 - rb.getUseSize := by
  have h₁ := rb.writePos_offset
  have h₂ := rb.writeOffset_lt
  have h₃ := rb.front_inside
  have h₄ := rb.readOffset_lt
  have h₅ : rb.readOffset = (rb.front - rb.begin + 1) % 8192 := rfl
  rw [getUseSize_eq, getFreeSize, directEnqueueSize, remainEnqueueSize, endPos]
  split
  · rw [if_neg (by omega)]; omega
  · rw [if_pos (by omega)]; omega

/-! ## The queue the buffer stands for -/

/-- The bytes in use, oldest first. -/
def contents : List UInt8 := window rb.mem rb.begin 8192 rb.readOffset rb.getUseSize

@[simp] theorem length_contents : rb.contents.length = rb.getUseSize := by simp [contents]

@[simp] theorem contents_new (m : Nat → UInt8) (b : Nat) (h : b % 8192 = 0) :
    (new m b h).contents = [] := by
  have huse : (new m b h).getUseSize = 0 := by
    rw [getUseSize_eq]
    simp [readOffset, writeOffset, new]
  simp [contents, huse, window]

@[simp] theorem contents_clear : rb.clear.contents = [] := contents_new _ _ _

theorem empty_iff : rb.empty = true ↔ rb.contents = [] := by
  have h₁ := rb.front_inside
  have h₂ := rb.rear_inside
  rw [← List.length_eq_zero_iff, length_contents, getUseSize_eq, readOffset, writeOffset, empty,
    beq_iff_eq]
  omega

theorem full_iff : rb.full = true ↔ rb.getFreeSize = 0 := by
  have h₁ := rb.front_inside
  have h₂ := rb.rear_inside
  have h₃ := rb.aligned
  rw [getFreeSize_eq, getUseSize_eq, readOffset, writeOffset, full, beq_iff_eq, rb.writePos_eq,
    maskingBit_eq]
  omega

/-- The bytes from `readPos` on, as far as they do not run over the end. -/
theorem readAt_readPos {n : Nat} (h : n ≤ rb.directDequeueSize) :
    readAt rb.mem rb.readPos n = rb.contents.take n := by
  have h₁ := rb.readOffset_lt
  have h₂ := rb.writeOffset_lt
  obtain ⟨hle, hgt⟩ := rb.dequeueSizes
  have hfit : rb.readOffset + n ≤ 8192 := by
    rcases Nat.lt_or_ge rb.writeOffset rb.readOffset with hw | hw
    · have := (hgt hw).1; omega
    · have := (hle hw).1; omega
  have huse : n ≤ rb.getUseSize := Nat.le_trans h (Nat.le_add_right _ _)
  rw [contents, take_window _ _ _ _ huse, rb.readPos_offset, window_eq_readAt _ _ hfit]

/-- Moving the front drops bytes. -/
theorem contents_moveFront {n : Nat} (h : n ≤ rb.getUseSize) :
    (rb.moveFront n).contents = rb.contents.drop n ∧
      (rb.moveFront n).getUseSize = rb.getUseSize - n := by
  have h₁ := rb.aligned
  have h₂ := rb.front_inside
  have h₃ := rb.getUseSize_lt
  have hread : (rb.moveFront n).readOffset = (rb.readOffset + n) % 8192 := by
    simp only [readOffset, moveFront, maskingBit_eq]
    omega
  have huse : (rb.moveFront n).getUseSize = rb.getUseSize - n := by
    have h₄ := rb.readOffset_lt
    have h₅ := rb.writeOffset_lt
    have hwrite : (rb.moveFront n).writeOffset = rb.writeOffset := rfl
    have hold := rb.getUseSize_eq
    rw [getUseSize_eq, hread, hwrite]
    omega
  refine ⟨?_, huse⟩
  rw [contents, huse, hread, contents, drop_window _ _ _ _ h]
  exact window_congr _ _ (Nat.mod_mod _ _) _

/-- `Dequeue` and `Peek` clip the size they are asked for to what there is. -/
theorem clip (n : Nat) : ∃ k, (if rb.getUseSize < n then rb.getUseSize else n) = k ∧
    k ≤ rb.getUseSize ∧ rb.contents.take k = rb.contents.take n ∧
    rb.contents.drop k = rb.contents.drop n := by
  split
  · have hlen : rb.contents.length ≤ n := by simp; omega
    refine ⟨_, rfl, Nat.le_refl _, ?_, ?_⟩
    · rw [List.take_of_length_le hlen, List.take_of_length_le (by simp)]
    · rw [List.drop_of_length_le hlen, List.drop_of_length_le (by simp)]
  · exact ⟨n, rfl, by omega, rfl, rfl⟩

/-- When the data run over the end, the first piece reaches it and the second starts at `begin`. -/
theorem wrapped {k : Nat} (hk : ¬ k ≤ rb.directDequeueSize) (hle : k ≤ rb.getUseSize) :
    rb.directDequeueSize = 8192 - rb.readOffset ∧ k - rb.directDequeueSize ≤ rb.writeOffset := by
  obtain ⟨hcase, hgt⟩ := rb.dequeueSizes
  have huse : rb.getUseSize = rb.directDequeueSize + rb.remainDequeueSize := rfl
  rcases Nat.lt_or_ge rb.writeOffset rb.readOffset with hw | hw
  · have h := hgt hw
    exact ⟨h.1, by omega⟩
  · have h := hcase hw
    omega

/-- **`Peek` shows the front of the queue.** -/
theorem peek_eq (n : Nat) : rb.peek n = rb.contents.take n := by
  obtain ⟨k, hclip, hle, htake, -⟩ := rb.clip n
  simp only [peek, hclip, ← htake]
  split
  · exact rb.readAt_readPos ‹_›
  · rename_i hk
    have h₁ := rb.readOffset_lt
    have h₂ := rb.writeOffset_lt
    obtain ⟨hdirect, hrest⟩ := rb.wrapped hk hle
    have hzero : (rb.readOffset + rb.directDequeueSize) % 8192 = 0 % 8192 := by omega
    rw [rb.readAt_readPos (Nat.le_refl _), contents, take_window _ _ _ _ (by omega),
      take_window _ _ _ _ hle, show k = rb.directDequeueSize + (k - rb.directDequeueSize) by omega,
      window_add, window_congr _ _ hzero, window_eq_readAt (s := 0) _ _ (by omega)]
    simp

/-- **`Dequeue` takes the front off the queue.** -/
theorem dequeue_eq (n : Nat) : (rb.dequeue n).1 = rb.contents.take n ∧
    (rb.dequeue n).2.contents = rb.contents.drop n := by
  obtain ⟨k, hclip, hle, htake, hdrop⟩ := rb.clip n
  simp only [dequeue, hclip, ← htake, ← hdrop]
  split
  · exact ⟨rb.readAt_readPos ‹_›, (rb.contents_moveFront hle).1⟩
  · rename_i hk
    obtain ⟨hdirect, hrest⟩ := rb.wrapped hk hle
    have hlt := rb.readOffset_lt
    -- after the first piece the data start at `begin`
    have hfirst := rb.contents_moveFront (n := rb.directDequeueSize) (by omega)
    have hread : (rb.moveFront rb.directDequeueSize).readOffset = 0 := by
      have h₁ := rb.aligned
      have h₂ := rb.front_inside
      have h₃ : rb.readOffset = (rb.front - rb.begin + 1) % 8192 := rfl
      simp only [readOffset, moveFront, maskingBit_eq]
      omega
    have hwrite : (rb.moveFront rb.directDequeueSize).writeOffset = rb.writeOffset := rfl
    have hsize : k - rb.directDequeueSize ≤ (rb.moveFront rb.directDequeueSize).directDequeueSize := by
      have := ((rb.moveFront rb.directDequeueSize).dequeueSizes.1 (by omega)).1
      omega
    constructor
    · show readAt rb.mem rb.readPos rb.directDequeueSize
        ++ readAt (rb.moveFront rb.directDequeueSize).mem (rb.moveFront rb.directDequeueSize).readPos
          (k - rb.directDequeueSize) = _
      rw [rb.readAt_readPos (Nat.le_refl _), readAt_readPos _ hsize, hfirst.1, ← List.take_add,
        Nat.add_sub_cancel' (by omega)]
    · show ((rb.moveFront rb.directDequeueSize).moveFront (k - rb.directDequeueSize)).contents = _
      rw [(contents_moveFront _ (by omega)).1, hfirst.1, List.drop_drop,
        Nat.add_sub_cancel' (by omega)]

/-! ## Bytes that come in -/

/-- Writing a block behind the data and moving the rear over it appends it. -/
theorem contents_of_written {rb rb' : RingBuffer} {src : List UInt8}
    (hfit : src.length ≤ rb.getFreeSize)
    (hmem : rb'.mem = scatter rb.mem rb.begin 8192 rb.writeOffset src)
    (hbegin : rb'.begin = rb.begin) (hread : rb'.readOffset = rb.readOffset)
    (hwrite : rb'.writeOffset = (rb.writeOffset + src.length) % 8192) :
    rb'.contents = rb.contents ++ src := by
  have h₁ := rb.readOffset_lt
  have h₂ := rb.writeOffset_lt
  have h₃ := rb.getUseSize_lt
  have h₄ := rb.use_offset
  rw [getFreeSize_eq] at hfit
  have huse : rb'.getUseSize = rb.getUseSize + src.length := by
    rw [getUseSize_eq, hwrite, hread]
    omega
  have hback : ∀ (m : Nat → UInt8) len, window m rb.begin 8192 (rb.readOffset + rb.getUseSize) len
      = window m rb.begin 8192 rb.writeOffset len :=
    fun m len => window_congr m rb.begin (by omega) len
  rw [contents, huse, hmem, hbegin, hread, window_add, window_scatter_before h₂ h₄ (by omega), hback,
    window_scatter h₂ (by omega)]
  rfl

theorem writeOffset_moveRear (n : Nat) :
    (rb.moveRear n).writeOffset = (rb.writeOffset + n) % 8192 := by
  have h₁ := rb.aligned
  have h₂ := rb.rear_inside
  simp only [writeOffset, moveRear, maskingBit_eq]
  omega

/-- Where the two free windows put a block is where it continues the data. -/
theorem fillWindows_mem {chunk : List UInt8} (h : chunk.length ≤ rb.getFreeSize) :
    (rb.fillWindows chunk).mem = scatter rb.mem rb.begin 8192 rb.writeOffset chunk := by
  obtain ⟨hle, hcase⟩ := rb.enqueueSizes
  show writeAt (writeAt rb.mem rb.writePos (chunk.take rb.directEnqueueSize)) rb.begin
    (chunk.drop rb.directEnqueueSize) = _
  rw [scatter, ← rb.writePos_offset]
  rcases hcase with hzero | hdirect
  · have hall : chunk.length ≤ rb.directEnqueueSize := by
      have : rb.getFreeSize = rb.directEnqueueSize + rb.remainEnqueueSize := rfl
      omega
    rw [List.take_of_length_le hall, List.drop_of_length_le hall,
      List.take_of_length_le (by omega), List.drop_of_length_le (by omega)]
  · rw [hdirect]

/-- **A completed receive appends to the queue**: the system has filled the windows, and
    `MoveRear` takes the bytes in. -/
theorem contents_receive {chunk : List UInt8} (h : chunk.length ≤ rb.getFreeSize) :
    ((rb.fillWindows chunk).moveRear chunk.length).contents = rb.contents ++ chunk := by
  refine contents_of_written h ?_ rfl rfl ?_
  · exact rb.fillWindows_mem h
  · exact writeOffset_moveRear _ _

theorem contents_mustEnqueue {src : List UInt8} (h : src.length ≤ rb.directEnqueueSize) :
    (rb.mustEnqueue src).contents = rb.contents ++ src := by
  have hle := rb.enqueueSizes.1
  refine contents_of_written (Nat.le_trans h (Nat.le_add_right _ _)) ?_ rfl rfl ?_
  · show writeAt rb.mem rb.writePos src = _
    rw [scatter, List.take_of_length_le (by omega), List.drop_of_length_le (by omega), writeAt_nil,
      ← rb.writePos_offset]
  · exact writeOffset_moveRear _ _

/-- **`Enqueue` appends what fits.** -/
theorem enqueue_eq (src : List UInt8) :
    (rb.enqueue src).1 = min src.length rb.getFreeSize ∧
      (rb.enqueue src).2.contents = rb.contents ++ src.take rb.getFreeSize := by
  have hclip : (if rb.getFreeSize < src.length then src.take rb.getFreeSize else src)
      = src.take rb.getFreeSize := by
    split
    · rfl
    · rw [List.take_of_length_le (by omega)]
  have hlen : (src.take rb.getFreeSize).length = min src.length rb.getFreeSize := by
    rw [List.length_take, Nat.min_comm]
  simp only [enqueue, hclip]
  split
  · rename_i hk
    exact ⟨hlen, rb.contents_mustEnqueue hk⟩
  · rename_i hk
    refine ⟨hlen, ?_⟩
    obtain ⟨hle, hcase⟩ := rb.enqueueSizes
    have hfree : rb.getFreeSize = rb.directEnqueueSize + rb.remainEnqueueSize := rfl
    have hdirect : rb.directEnqueueSize = 8192 - rb.writeOffset := by omega
    have hlt := rb.writeOffset_lt
    -- the first piece reaches the end, the second one starts at `begin`
    have hzero : (rb.mustEnqueue ((src.take rb.getFreeSize).take rb.directEnqueueSize)).writeOffset
        = 0 := by
      show (RingBuffer.moveRear _ _).writeOffset = 0
      rw [writeOffset_moveRear]
      show (rb.writeOffset + ((src.take rb.getFreeSize).take rb.directEnqueueSize).length) % 8192 = 0
      rw [List.length_take]
      omega
    refine contents_of_written (by rw [hlen]; omega) ?_ rfl rfl ?_
    · show writeAt (writeAt rb.mem rb.writePos _)
        (rb.mustEnqueue ((src.take rb.getFreeSize).take rb.directEnqueueSize)).writePos _ = _
      rw [writePos_offset (rb.mustEnqueue _), hzero, scatter, ← hdirect, rb.writePos_offset]
      rfl
    · show (RingBuffer.moveRear _ _).writeOffset = _
      rw [writeOffset_moveRear]
      show ((rb.mustEnqueue ((src.take rb.getFreeSize).take rb.directEnqueueSize)).writeOffset
        + ((src.take rb.getFreeSize).drop rb.directEnqueueSize).length) % 8192 = _
      rw [hzero, List.length_drop]
      omega

end RingBuffer

end JunCore
