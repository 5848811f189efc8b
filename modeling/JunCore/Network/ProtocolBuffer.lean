/-
  `JunCommon/network/ProtocolBuffer.h`, `ProtocolBuffer.cpp`: values of different types in one buffer.

  The buffer is one allocation and two pointers into it.  Each of the twelve `operator<<` and `Put_Data`
  copies the bytes of its argument to `write_pos` if they end at `end` at the latest, and each of the
  twelve `operator>>` and `Get_Data` copies bytes from `read_pos` if they end at `write_pos` at the latest;
  otherwise they run into a `throw;`.  Their bodies differ in the type of the argument only, so there is
  one definition for writing and one for reading, and a `Scalar` for each type.

  The object of a scalar type is given by its bits: two's complement for the integers, IEEE for `float` and
  `double`.  Its bytes are in memory in little-endian order, and a `long` has four of them.

  `format` makes a `Serial.Format` of the types, so that what a run of writes leaves in memory is a stream
  of items.  The run of the program keeps it (`Ordered`), for writes and reads in any order.
-/
import JunCore.Lib.Serial
import JunCore.Lib.Transition
import JunCore.Network.UnifiedPacketHeader

set_option linter.unusedVariables false

namespace JunCore.Network

open Cyclic Serial Transition

/-! ## The types -/

/-- The argument types of `operator<<` and `operator>>`. -/
inductive Scalar
  | char
  | unsignedChar
  | int
  | unsignedInt
  | long
  | unsignedLong
  | short
  | unsignedShort
  | float
  | double
  | longLong
  | unsignedLongLong
  deriving DecidableEq

def Scalar.sizeof : Scalar → Nat
  | char => 1
  | unsignedChar => 1
  | int => 4
  | unsignedInt => 4
  | long => 4
  | unsignedLong => 4
  | short => 2
  | unsignedShort => 2
  | float => 4
  | double => 8
  | longLong => 8
  | unsignedLongLong => 8

/-- The bits of an object. -/
abbrev Scalar.Object (t : Scalar) : Type := BitVec (8 * t.sizeof)

/-- The bytes of an object in memory. -/
def objectBytes {n : Nat} (data : BitVec (8 * n)) : List.Vector UInt8 n :=
  ⟨writeLE n data.toNat, length_writeLE n _⟩

/-- The object that has the bytes. -/
def objectOf {n : Nat} (bytes : List.Vector UInt8 n) : BitVec (8 * n) :=
  BitVec.ofNat (8 * n) (readLE bytes.toList)

theorem objectOf_objectBytes {n : Nat} (data : BitVec (8 * n)) : objectOf (objectBytes data) = data := by
  have hlt : data.toNat < 256 ^ n := by
    have h := data.isLt
    rwa [Nat.pow_mul] at h
  apply BitVec.eq_of_toNat_eq
  show BitVec.toNat (BitVec.ofNat (8 * n) (readLE (writeLE n data.toNat))) = data.toNat
  rw [readLE_writeLE hlt, BitVec.ofNat_toNat, BitVec.setWidth_eq]

/-! ## The member functions -/

/-- Addresses are numbers: an address plus an `int` is far from the end of the address space. -/
structure ProtocolBuffer where
  mem : Nat → UInt8
  begin : Nat
  endPos : Nat
  writePos : Nat
  readPos : Nat

/-- What a `throw;` does: it passes on the exception that is being handled, or ends the program. -/
inductive Thrown
  | rethrow
  deriving DecidableEq

namespace ProtocolBuffer

/-- A member function: it works on the buffer and may throw.  The buffer is what it is at the throw. -/
abbrev Member (α : Type) : Type := EStateM Thrown ProtocolBuffer α

/-- The constructor, for an allocation at `b` with arbitrary contents. -/
def new (m : Nat → UInt8) (b size : Nat) : ProtocolBuffer where
  mem := m
  begin := b
  endPos := b + size
  writePos := b
  readPos := b

def clear (b : ProtocolBuffer) : ProtocolBuffer :=
  { b with writePos := b.begin, readPos := b.begin }

def getFreeSize (b : ProtocolBuffer) : Nat := b.endPos - b.writePos

def getUseSize (b : ProtocolBuffer) : Nat := b.writePos - b.readPos

/-- The body of each `operator<<` and of `Put_Data`, for `n` bytes. -/
def write {n : Nat} (src : List.Vector UInt8 n) : Member Unit := do
  let b ← get
  if b.writePos + n ≤ b.endPos then
    set { b with mem := writeAt b.mem b.writePos src.toList, writePos := b.writePos + n }
  else
    throw .rethrow

/-- The body of each `operator>>` and of `Get_Data`, for `n` bytes. -/
def read (n : Nat) : Member (List.Vector UInt8 n) := do
  let b ← get
  if b.readPos + n ≤ b.writePos then
    set { b with readPos := b.readPos + n }
    return cellsAt b.mem b.readPos n
  else
    throw .rethrow

/-- `operator<<(const T& data)` -/
def insert (t : Scalar) (data : t.Object) : Member Unit := write (objectBytes data)

/-- `operator>>(T& data)`: what is in `data` then. -/
def extract (t : Scalar) : Member t.Object := do return objectOf (← read t.sizeof)

/-- `Put_Data`, for a size that is not negative: `src` is the `size` bytes there. -/
def putData (size : Nat) (src : List.Vector UInt8 size) : Member Unit := write src

/-- `Get_Data`, for a size that is not negative: what is at `dst` then. -/
def getData (size : Nat) : Member (List.Vector UInt8 size) := read size

/-! ## What writing and reading do -/

variable (b : ProtocolBuffer) {n : Nat}

theorem write_of_le (src : List.Vector UInt8 n) (h : b.writePos + n ≤ b.endPos) :
    write src b = .ok () { b with
      mem := writeAt b.mem b.writePos src.toList, writePos := b.writePos + n } := by
  show (if b.writePos + n ≤ b.endPos then _ else _ : Member Unit) b = _
  rw [if_pos h]
  rfl

theorem write_of_lt (src : List.Vector UInt8 n) (h : b.endPos < b.writePos + n) :
    write src b = .error .rethrow b := by
  show (if b.writePos + n ≤ b.endPos then _ else _ : Member Unit) b = _
  rw [if_neg (by omega)]
  rfl

theorem read_of_le (h : b.readPos + n ≤ b.writePos) :
    read n b = .ok (cellsAt b.mem b.readPos n) { b with readPos := b.readPos + n } := by
  show (if b.readPos + n ≤ b.writePos then _ else _ : Member (List.Vector UInt8 n)) b = _
  rw [if_pos h]
  rfl

theorem read_of_lt (h : b.writePos < b.readPos + n) : read n b = .error .rethrow b := by
  show (if b.readPos + n ≤ b.writePos then _ else _ : Member (List.Vector UInt8 n)) b = _
  rw [if_neg (by omega)]
  rfl

/-! ## Kinds of values -/

/-- What one write puts into the buffer, and one read takes out of it. -/
inductive Kind
  | scalar (t : Scalar)
  | data (size : Nat)
  deriving DecidableEq

def Kind.Value : Kind → Type
  | scalar t => t.Object
  | data size => List.Vector UInt8 size

def Kind.size : Kind → Nat
  | scalar t => t.sizeof
  | data size => size

/-- How the values lie in the buffer. -/
def format : Format UInt8 where
  Kind := Kind
  Value := Kind.Value
  size := Kind.size
  encode
    | .scalar _, data => objectBytes data
    | .data _, src => src
  decode
    | .scalar _, bytes => objectOf bytes
    | .data _, bytes => bytes
  decode_encode
    | .scalar _, data => objectOf_objectBytes data
    | .data _, _ => rfl

abbrev Item : Type := format.Item

/-- The call that writes an item. -/
def put : Item → Member Unit
  | ⟨.scalar t, data⟩ => insert t data
  | ⟨.data size, src⟩ => putData size src

/-- The call that reads a value. -/
def take : (k : Kind) → Member k.Value
  | .scalar t => extract t
  | .data size => getData size

theorem put_of_le (i : Item) (h : b.writePos + i.kind.size ≤ b.endPos) :
    put i b = .ok () { b with
      mem := writeAt b.mem b.writePos (cells i), writePos := b.writePos + i.kind.size } := by
  obtain ⟨k, v⟩ := i
  cases k with
  | scalar t => exact write_of_le b (objectBytes v) h
  | data size => exact write_of_le b v h

theorem put_of_lt (i : Item) (h : b.endPos < b.writePos + i.kind.size) :
    put i b = .error .rethrow b := by
  obtain ⟨k, v⟩ := i
  cases k with
  | scalar t => exact write_of_lt b (objectBytes v) h
  | data size => exact write_of_lt b v h

theorem take_of_le (k : Kind) (h : b.readPos + k.size ≤ b.writePos) :
    take k b = .ok (format.decode k (cellsAt b.mem b.readPos k.size))
      { b with readPos := b.readPos + k.size } := by
  cases k with
  | scalar t =>
    have hread := read_of_le b (n := t.sizeof) h
    show EStateM.bind (read t.sizeof) _ b = _
    rw [EStateM.bind, hread]
    rfl
  | data size => exact read_of_le b h

theorem take_of_lt (k : Kind) (h : b.writePos < b.readPos + k.size) :
    take k b = .error .rethrow b := by
  cases k with
  | scalar t =>
    have hread := read_of_lt b (n := t.sizeof) h
    show EStateM.bind (read t.sizeof) _ b = _
    rw [EStateM.bind, hread]
    rfl
  | data size => exact read_of_lt b h

/-! ## Runs -/

/-- The buffer, what was written since the last `Clear`, and what the reads returned since then. -/
structure State where
  buf : ProtocolBuffer
  written : List Item := []
  returned : List Item := []

inductive Event
  | put (i : Item)
  | take (k : Kind)
  | clear

/-- The kind of the oldest item that has not been read. -/
def State.next (s : State) : Option Kind := (s.written[s.returned.length]?).map Format.Item.kind

/-- One call.  A read is for the item whose turn it is, or it is one that throws. -/
def step (s : State) : Event → Option State
  | .put i =>
    match put i s.buf with
    | .ok _ b => some { s with buf := b, written := s.written ++ [i] }
    | .error _ b => some { s with buf := b }
  | .take k =>
    match take k s.buf with
    | .ok v b => if s.next = some k then some { s with buf := b, returned := s.returned ++ [⟨k, v⟩] } else none
    | .error _ b => some { s with buf := b }
  | .clear => some { buf := s.buf.clear }

/-- The runs of a buffer of `size` bytes. -/
def system (size : Nat) : System State where
  init s := ∃ m b, s = { buf := new m b size }
  next s s' := ∃ e, step s e = some s'

/-- The buffer is a queue of the items written and not read, in the order of the writes. -/
structure Ordered (size : Nat) (s : State) : Prop where
  returned_prefix : s.returned <+: s.written
  endPos_eq : s.buf.endPos = s.buf.begin + size
  readPos_eq : s.buf.readPos = s.buf.begin + (stream s.returned).length
  writePos_eq : s.buf.writePos = s.buf.begin + (stream s.written).length
  writePos_le : s.buf.writePos ≤ s.buf.endPos
  holds : Holds s.buf.mem s.buf.begin s.written

namespace Ordered

variable {size : Nat} {s : State}

theorem readPos_le (O : Ordered size s) : s.buf.readPos ≤ s.buf.writePos := by
  obtain ⟨rest, hrest⟩ := O.returned_prefix
  rw [O.readPos_eq, O.writePos_eq, ← hrest, length_stream_append]
  omega

/-- The next item is all there. -/
theorem next_le (O : Ordered size s) {i : Item} {rest : List Item}
    (h : s.written = s.returned ++ i :: rest) : s.buf.readPos + i.kind.size ≤ s.buf.writePos := by
  have hstream := length_stream_append s.returned (i :: rest)
  have hitem : (stream (i :: rest)).length = i.kind.size + (stream rest).length := length_stream_cons i rest
  rw [O.readPos_eq, O.writePos_eq, h]
  omega

/-- A read for the next item gives it. -/
theorem take_next (O : Ordered size s) {i : Item} {rest : List Item}
    (h : s.written = s.returned ++ i :: rest) :
    take i.kind s.buf = .ok i.value { s.buf with readPos := s.buf.readPos + i.kind.size } := by
  have hholds : Holds s.buf.mem s.buf.begin (s.returned ++ i :: rest) := h ▸ O.holds
  have hvalue : format.decode i.kind (cellsAt s.buf.mem s.buf.readPos i.kind.size) = i.value := by
    rw [O.readPos_eq]
    exact hholds.read_next
  rw [take_of_le s.buf i.kind (O.next_le h), hvalue]

/-- The item whose turn it is. -/
theorem next_eq (O : Ordered size s) {k : Kind} (h : s.next = some k) :
    ∃ i rest, s.written = s.returned ++ i :: rest ∧ i.kind = k := by
  obtain ⟨rest, hrest⟩ := O.returned_prefix
  rw [State.next, ← hrest, List.getElem?_append_right (Nat.le_refl _), Nat.sub_self] at h
  cases rest with
  | nil => cases h
  | cons i rest => exact ⟨i, rest, hrest.symm, Option.some.inj h⟩

theorem new (m : Nat → UInt8) (b size : Nat) : Ordered size { buf := new m b size } where
  returned_prefix := List.nil_prefix
  endPos_eq := rfl
  readPos_eq := rfl
  writePos_eq := rfl
  writePos_le := Nat.le_add_right b size
  holds := holds_nil m b

theorem put (O : Ordered size s) (i : Item) (h : s.buf.writePos + i.kind.size ≤ s.buf.endPos) :
    Ordered size { s with
      buf := { s.buf with
        mem := writeAt s.buf.mem s.buf.writePos (cells i), writePos := s.buf.writePos + i.kind.size }
      written := s.written ++ [i] } where
  returned_prefix := O.returned_prefix.trans (List.prefix_append _ _)
  endPos_eq := O.endPos_eq
  readPos_eq := O.readPos_eq
  writePos_eq := by
    show s.buf.writePos + i.kind.size = _
    rw [length_stream_snoc, O.writePos_eq, Nat.add_assoc]
    rfl
  writePos_le := h
  holds := by
    show Holds (writeAt s.buf.mem s.buf.writePos (cells i)) s.buf.begin (s.written ++ [i])
    rw [O.writePos_eq]
    exact O.holds.append i

theorem take (O : Ordered size s) {i : Item} {rest : List Item}
    (h : s.written = s.returned ++ i :: rest) :
    Ordered size { s with
      buf := { s.buf with readPos := s.buf.readPos + i.kind.size }
      returned := s.returned ++ [i] } where
  returned_prefix := ⟨rest, by rw [h, List.append_assoc]; rfl⟩
  endPos_eq := O.endPos_eq
  readPos_eq := by
    show s.buf.readPos + i.kind.size = _
    rw [length_stream_snoc, O.readPos_eq, Nat.add_assoc]
    rfl
  writePos_eq := O.writePos_eq
  writePos_le := O.writePos_le
  holds := O.holds

theorem clear (O : Ordered size s) : Ordered size { buf := s.buf.clear } where
  returned_prefix := List.nil_prefix
  endPos_eq := O.endPos_eq
  readPos_eq := rfl
  writePos_eq := rfl
  writePos_le := by
    show s.buf.begin ≤ s.buf.endPos
    rw [O.endPos_eq]
    exact Nat.le_add_right _ _
  holds := holds_nil _ _

end Ordered

/-- One call keeps the order. -/
theorem ordered_step {size : Nat} {s s' : State} {e : Event} (O : Ordered size s)
    (h : step s e = some s') : Ordered size s' := by
  cases e with
  | put i =>
    rw [step] at h
    by_cases hfits : s.buf.writePos + i.kind.size ≤ s.buf.endPos
    · rw [put_of_le s.buf i hfits] at h
      obtain rfl := Option.some.inj h
      exact O.put i hfits
    · rw [put_of_lt s.buf i (by omega)] at h
      obtain rfl := Option.some.inj h
      exact O
  | take k =>
    rw [step] at h
    by_cases hfits : s.buf.readPos + k.size ≤ s.buf.writePos
    · by_cases hnext : s.next = some k
      · obtain ⟨i, rest, hi, rfl⟩ := O.next_eq hnext
        rw [O.take_next hi] at h
        simp only [hnext, if_true] at h
        obtain rfl := Option.some.inj h
        exact O.take hi
      · rw [take_of_le s.buf k hfits] at h
        simp only [hnext, if_false] at h
        cases h
    · rw [take_of_lt s.buf k (by omega)] at h
      obtain rfl := Option.some.inj h
      exact O
  | clear =>
    obtain rfl := Option.some.inj h
    exact O.clear

theorem ordered_of_reachable {size : Nat} {s : State} (h : Reachable (system size) s) :
    Ordered size s := by
  refine h.invariant ?_ ?_
  · rintro s ⟨m, b, rfl⟩
    exact Ordered.new m b size
  · rintro s s' _ O ⟨e, he⟩
    exact ordered_step O he

/-! ## The queue -/

/-- A typed FIFO of `size` bytes: the reads so far returned what was written, in that order; the pointers
    are in order; a call that fits does what it should, and one that does not changes nothing. -/
structure Fifo (size : Nat) (s : State) : Prop where
  order : s.returned <+: s.written
  bounds : s.buf.begin ≤ s.buf.readPos ∧ s.buf.readPos ≤ s.buf.writePos ∧ s.buf.writePos ≤ s.buf.endPos
  free : s.buf.getFreeSize + (stream s.written).length = size
  used : s.buf.getUseSize + (stream s.returned).length = (stream s.written).length
  put_fits : ∀ i, i.kind.size ≤ s.buf.getFreeSize → put i s.buf = .ok () { s.buf with
    mem := writeAt s.buf.mem s.buf.writePos (cells i), writePos := s.buf.writePos + i.kind.size }
  put_throws : ∀ i, s.buf.getFreeSize < i.kind.size → put i s.buf = .error .rethrow s.buf
  take_next : ∀ i rest, s.written = s.returned ++ i :: rest →
    take i.kind s.buf = .ok i.value { s.buf with readPos := s.buf.readPos + i.kind.size }
  take_throws : ∀ k, s.buf.getUseSize < k.size → take k s.buf = .error .rethrow s.buf

theorem fifo_of_ordered {size : Nat} {s : State} (O : Ordered size s) : Fifo size s := by
  have hread := O.readPos_eq
  have hwrite := O.writePos_eq
  have hle := O.readPos_le
  have hend := O.endPos_eq
  have hroom := O.writePos_le
  refine
    { order := O.returned_prefix
      bounds := ⟨by omega, hle, hroom⟩
      free := by rw [getFreeSize]; omega
      used := by rw [getUseSize]; omega
      put_fits := ?_
      put_throws := ?_
      take_next := fun i rest h => O.take_next h
      take_throws := ?_ }
  · intro i h
    rw [getFreeSize] at h
    exact put_of_le s.buf i (by omega)
  · intro i h
    rw [getFreeSize] at h
    exact put_of_lt s.buf i (by omega)
  · intro k h
    rw [getUseSize] at h
    exact take_of_lt s.buf k (by omega)

/-- **A typed FIFO.**  For every size of the buffer, whatever is written and read, in any order, as long as
    the reads ask for the types and sizes in the order of the writes. -/
theorem fifo_of_reachable {size : Nat} {s : State} (h : Reachable (system size) s) : Fifo size s :=
  fifo_of_ordered (ordered_of_reachable h)

/-- Seven of eight bytes are written, a `double` does not fit any more, and both values are read; then
    there is no `char` left. -/
def twoItems : List Event :=
  [.put ⟨.scalar .int, BitVec.ofNat 32 0xfffffffe⟩, .put ⟨.data 3, ⟨[7, 8, 9], rfl⟩⟩, .take (.scalar .int),
    .put ⟨.scalar .double, BitVec.ofNat 64 1⟩, .take (.data 3), .take (.scalar .char)]

theorem fifo_of_twoItems : ∃ s, Reachable (system 8) s ∧ Fifo 8 s ∧ s.returned.length = 2 := by
  have hinit : (system 8).init { buf := new (fun _ => 0) 4096 8 } := ⟨_, _, rfl⟩
  have hstep : ∀ s e s', step s e = some s' → (system 8).next s s' := fun _ e _ he => ⟨e, he⟩
  obtain ⟨s, hr, hp⟩ := exists_reachable_of_exec hinit hstep twoItems
    (fun s => decide (s.returned.length = 2)) (by decide)
  exact ⟨s, hr, fifo_of_reachable hr, of_decide_eq_true hp⟩

end ProtocolBuffer

end JunCore.Network
