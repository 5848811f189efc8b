/-
  Blocks of places that are lent out.

  A block is taken, its places are lent one by one and come back one by one, and when all of them are
  back the block is returned and may be taken again.  What happens to the blocks is a list of events, the
  newest first; `life` is where a block is after them, or none if it has been treated wrongly: a place
  lent twice, one that comes back without being out, a block returned too early, twice, or not at all
  before it is taken again.

  Nothing here names a program.  A program records its events, and shows that every block has a `life`.
-/
import Mathlib.Data.List.Nodup
import Mathlib.Data.List.Range
import Mathlib.Data.List.Perm.Subperm

namespace Leases

inductive Event (B : Type)
  | taken (b : B)
  | lent (b : B) (i : Nat)
  | back (b : B) (i : Nat)
  | returned (b : B)
  deriving DecidableEq

variable {B : Type}

def Event.block : Event B → B
  | .taken b | .lent b _ | .back b _ | .returned b => b

/-- A block is not in use; or it is, with the places that were lent and those of them that are back. -/
inductive Life
  | pooled
  | used (lent back : List Nat)
  deriving DecidableEq

def Life.next (size : Nat) : Life → Event B → Option Life
  | .pooled, .taken _ => some (.used [] [])
  | .used lent back, .lent _ i => if i < size ∧ i ∉ lent then some (.used (i :: lent) back) else none
  | .used lent back, .back _ i => if i ∈ lent ∧ i ∉ back then some (.used lent (i :: back)) else none
  | .used lent back, .returned _ => if ∀ i < size, i ∈ lent ∧ i ∈ back then some .pooled else none
  | _, _ => none

theorem Life.next_lent {size i : Nat} {lent back : List Nat} {b : B} (hi : i < size) (hnew : i ∉ lent) :
    (Life.used lent back).next size (.lent b i) = some (.used (i :: lent) back) := if_pos ⟨hi, hnew⟩

theorem Life.next_back {size i : Nat} {lent back : List Nat} {b : B} (hi : i ∈ lent) (hout : i ∉ back) :
    (Life.used lent back).next size (.back b i) = some (.used lent (i :: back)) := if_pos ⟨hi, hout⟩

theorem Life.next_returned {size : Nat} {lent back : List Nat} {b : B} (h : ∀ i < size, i ∈ lent ∧ i ∈ back) :
    (Life.used lent back).next size (.returned b) = some .pooled := if_pos h

/-- Where a block is after the events. -/
def life [DecidableEq B] (size : Nat) (b : B) : List (Event B) → Option Life
  | [] => some .pooled
  | e :: events => if e.block = b then (life size b events).bind (·.next size e) else life size b events

/-! ## What a life says -/

/-- Every place is lent once and comes back once. -/
structure Lawful (size : Nat) (lent back : List Nat) : Prop where
  lentOnce : lent.Nodup
  backOnce : back.Nodup
  sub : back ⊆ lent
  inside : ∀ i ∈ lent, i < size

def Life.Lawful (size : Nat) : Life → Prop
  | .pooled => True
  | .used lent back => Leases.Lawful size lent back

namespace Lawful

variable {size : Nat} {lent back : List Nat}

theorem lend (L : Lawful size lent back) {i : Nat} (hi : i < size) (hnew : i ∉ lent) :
    Lawful size (i :: lent) back where
  lentOnce := List.nodup_cons.mpr ⟨hnew, L.lentOnce⟩
  backOnce := L.backOnce
  sub j hj := List.mem_cons_of_mem _ (L.sub hj)
  inside j hj := by
    rcases List.mem_cons.mp hj with rfl | hj
    · exact hi
    · exact L.inside j hj

theorem giveBack (L : Lawful size lent back) {i : Nat} (hi : i ∈ lent) (hout : i ∉ back) :
    Lawful size lent (i :: back) where
  lentOnce := L.lentOnce
  backOnce := List.nodup_cons.mpr ⟨hout, L.backOnce⟩
  sub j hj := by
    rcases List.mem_cons.mp hj with rfl | hj
    · exact hi
    · exact L.sub hj
  inside := L.inside

theorem subperm (L : Lawful size lent back) : back.Subperm (List.range size) :=
  L.backOnce.subperm fun i hi => List.mem_range.mpr (L.inside i (L.sub hi))

/-- As many places back as there are: all of them are. -/
theorem all (L : Lawful size lent back) (h : back.length = size) : ∀ i < size, i ∈ lent ∧ i ∈ back := by
  have hperm : back.Perm (List.range size) := L.subperm.perm_of_length_le (by rw [h, List.length_range])
  intro i hi
  have hback : i ∈ back := hperm.mem_iff.mpr (List.mem_range.mpr hi)
  exact ⟨L.sub hback, hback⟩

end Lawful

theorem Life.Lawful.next {size : Nat} {l l' : Life} {e : Event B} (L : l.Lawful size)
    (h : l.next size e = some l') : l'.Lawful size := by
  cases l with
  | pooled =>
    cases e with
    | taken b =>
      obtain rfl := Option.some.inj h
      exact ⟨.nil, .nil, List.Subset.refl _, fun i hi => by cases hi⟩
    | lent b i => cases h
    | back b i => cases h
    | returned b => cases h
  | used lent back =>
    cases e with
    | taken b => cases h
    | lent b i =>
      rw [Life.next] at h
      split at h
      · rename_i hok
        obtain rfl := Option.some.inj h
        exact L.lend hok.1 hok.2
      · cases h
    | back b i =>
      rw [Life.next] at h
      split at h
      · rename_i hok
        obtain rfl := Option.some.inj h
        exact L.giveBack hok.1 hok.2
      · cases h
    | returned b =>
      rw [Life.next] at h
      split at h
      · obtain rfl := Option.some.inj h
        trivial
      · cases h

section

variable [DecidableEq B] {size : Nat} {b : B} {e : Event B} {events : List (Event B)}

theorem life_of_ne (h : e.block ≠ b) : life size b (e :: events) = life size b events := if_neg h

theorem life_of_eq (h : e.block = b) {l : Life} (hl : life size b events = some l) :
    life size b (e :: events) = l.next size e := by
  rw [life, if_pos h, hl]
  rfl

theorem life_lawful {l : Life} (h : life size b events = some l) : l.Lawful size := by
  induction events generalizing l with
  | nil =>
    obtain rfl := Option.some.inj h
    trivial
  | cons e events ih =>
    rw [life] at h
    split at h
    · obtain ⟨l₀, hl₀, hnext⟩ := Option.bind_eq_some_iff.mp h
      exact (ih hl₀).next hnext
    · exact ih h

end

end Leases
