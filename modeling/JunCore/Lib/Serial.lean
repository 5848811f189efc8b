/-
  Values of several kinds, written one behind the other into a memory and read back in order.

  A `Format` says, for each kind of value, how many cells such a value takes and how it is turned into
  cells and back.  The cells do not say which kind they are: a reader has to ask for the kinds in the
  order in which they were written.

  `Holds m p l` says that the memory has the items `l` from `p` on.  A new item may be written behind
  them (`Holds.append`), and behind a front of the items, at the place the front's cells end, the next
  item can be read (`Holds.read_next`).
-/
import JunCore.Lib.Cyclic
import Mathlib.Data.Vector.Defs

set_option linter.unusedVariables false

namespace Serial

open Cyclic

/-- How the values of each kind are laid out in cells of type `B`. -/
structure Format (B : Type) where
  Kind : Type
  Value : Kind → Type
  size : Kind → Nat
  encode : (k : Kind) → Value k → List.Vector B (size k)
  decode : (k : Kind) → List.Vector B (size k) → Value k
  decode_encode : ∀ k v, decode k (encode k v) = v

/-- A value with its kind. -/
structure Format.Item {B : Type} (F : Format B) where
  kind : F.Kind
  value : F.Value kind

/-- The `n` cells from `p` on. -/
def cellsAt {B : Type} (m : Nat → B) (p n : Nat) : List.Vector B n := ⟨readAt m p n, length_readAt m p n⟩

variable {B : Type} {F : Format B}

/-- The cells of an item. -/
def cells (i : F.Item) : List B := (F.encode i.kind i.value).toList

@[simp] theorem length_cells (i : F.Item) : (cells i).length = F.size i.kind :=
  List.Vector.toList_length _

/-- The cells of the items of a list, one behind the other. -/
def stream (l : List F.Item) : List B := l.flatMap cells

@[simp] theorem stream_nil : stream (F := F) [] = [] := rfl

@[simp] theorem stream_cons (i : F.Item) (l : List F.Item) : stream (i :: l) = cells i ++ stream l :=
  List.flatMap_cons

@[simp] theorem stream_append (l l' : List F.Item) : stream (l ++ l') = stream l ++ stream l' :=
  List.flatMap_append

theorem length_stream_cons (i : F.Item) (l : List F.Item) :
    (stream (i :: l)).length = F.size i.kind + (stream l).length := by
  rw [stream_cons, List.length_append, length_cells]

theorem length_stream_append (l l' : List F.Item) :
    (stream (l ++ l')).length = (stream l).length + (stream l').length := by
  rw [stream_append, List.length_append]

/-- One more item takes the cells of its kind. -/
theorem length_stream_snoc (l : List F.Item) (i : F.Item) :
    (stream (l ++ [i])).length = (stream l).length + F.size i.kind := by
  rw [length_stream_append, length_stream_cons, stream_nil, List.length_nil, Nat.add_zero]

/-- The memory has the items `l` from `p` on. -/
def Holds (m : Nat → B) (p : Nat) (l : List F.Item) : Prop :=
  readAt m p (stream l).length = stream l

theorem holds_nil (m : Nat → B) (p : Nat) : Holds (F := F) m p [] := rfl

variable {m : Nat → B} {p : Nat} {l l' : List F.Item}

theorem holds_append : Holds m p (l ++ l') ↔ Holds m p l ∧ Holds m (p + (stream l).length) l' := by
  unfold Holds
  rw [length_stream_append, stream_append, readAt_add]
  constructor
  · intro h
    exact List.append_inj h (length_readAt _ _ _)
  · rintro ⟨h, h'⟩
    rw [h, h']

/-- An item is written behind the others. -/
theorem Holds.append (h : Holds m p l) (i : F.Item) :
    Holds (writeAt m (p + (stream l).length) (cells i)) p (l ++ [i]) := by
  rw [holds_append]
  constructor
  · unfold Holds
    rw [readAt_writeAt_before m _ (Nat.le_refl _)]
    exact h
  · unfold Holds
    rw [stream_cons, stream_nil, List.append_nil]
    exact readAt_writeAt m _ _

/-- **The reading rule.**  Behind the cells of a front there is the next item. -/
theorem Holds.read_next {i : F.Item} (h : Holds m p (l ++ i :: l')) :
    F.decode i.kind (cellsAt m (p + (stream l).length) (F.size i.kind)) = i.value := by
  have hnext : Holds m (p + (stream l).length) ([i] ++ l') := (holds_append.mp h).2
  have hone : Holds m (p + (stream l).length) [i] := (holds_append.mp hnext).1
  unfold Holds at hone
  rw [stream_cons, stream_nil, List.append_nil, length_cells] at hone
  have hcells : cellsAt m (p + (stream l).length) (F.size i.kind) = F.encode i.kind i.value :=
    Subtype.ext hone
  rw [hcells, F.decode_encode]

end Serial
