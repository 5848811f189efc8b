/-
  Singly linked lists in a memory.

  A memory of nodes is a function `next`: the node behind each node, or `none`.  `Chain next p l`
  says that whoever starts at `p` and follows `next` visits exactly the nodes of `l`, in this order,
  and then comes to an end.  Since `next` is a function there is at most one such list, and it cannot
  visit a node twice: a chain that ends has no cycle.

  The rules are those that a program which relinks nodes needs: a chain does not depend on nodes
  it does not visit (`Chain.congr`), hanging a second chain behind the last node appends it
  (`Chain.hang`), and stepping over the first node leaves the rest (`Chain.tail`).
-/
import Mathlib.Data.List.Nodup
import Mathlib.Logic.Function.Basic

set_option linter.unusedVariables false

namespace Linked

open Function

variable {A : Type*} {next next' : A → Option A} {p : Option A} {l : List A}

/-- Following `next` from `p` visits the nodes of `l` one after the other, and then ends. -/
def Chain (next : A → Option A) : Option A → List A → Prop
  | p, [] => p = none
  | p, a :: l => p = some a ∧ Chain next (next a) l

namespace Chain

/-- Where a chain starts is the first node of it. -/
theorem head {a : A} (h : Chain next (some a) l) : ∃ l', l = a :: l' ∧ Chain next (next a) l' := by
  cases l with
  | nil => exact absurd h (by simp [Chain])
  | cons b l =>
    obtain ⟨hb, hl⟩ := h
    cases hb
    exact ⟨l, rfl, hl⟩

theorem mem_head {a : A} (h : Chain next (some a) l) : a ∈ l := by
  obtain ⟨l', rfl, -⟩ := h.head
  exact List.mem_cons_self

/-- There is only one way to follow a chain. -/
theorem unique {l' : List A} (h : Chain next p l) (h' : Chain next p l') : l = l' := by
  induction l generalizing p l' with
  | nil =>
    have hp : p = none := h
    subst hp
    cases l' with
    | nil => rfl
    | cons b l' => exact absurd h'.1 (by simp)
  | cons a l ih =>
    obtain ⟨rfl, hl⟩ := h
    obtain ⟨l'', rfl, hl'⟩ := h'.head
    rw [ih hl hl']

/-- A chain can be entered at any of its nodes. -/
theorem suffix {a : A} {l₁ l₂ : List A} (h : Chain next p (l₁ ++ a :: l₂)) :
    Chain next (some a) (a :: l₂) := by
  induction l₁ generalizing p with
  | nil => exact ⟨rfl, h.2⟩
  | cons b l₁ ih => exact ih h.2

/-- **No cycle**: a chain visits no node twice. -/
theorem nodup (h : Chain next p l) : l.Nodup := by
  induction l generalizing p with
  | nil => exact List.nodup_nil
  | cons a l ih =>
    refine List.nodup_cons.mpr ⟨?_, ih h.2⟩
    intro ha
    obtain ⟨l₁, l₂, hsplit⟩ := List.append_of_mem ha
    -- the rest after the first visit is the rest after the second
    have hsecond : Chain next (next a) l₂ := by
      have hrest := h.2
      rw [hsplit] at hrest
      exact hrest.suffix.2
    have heq := h.2.unique hsecond
    have hlen := congrArg List.length hsplit
    rw [heq, List.length_append, List.length_cons] at hlen
    omega

/-- Behind a node of the chain comes the next one of the list. -/
theorem next_getElem {a : A} {i : Nat} (h : Chain next p l) (hi : l[i]? = some a) :
    next a = l[i + 1]? := by
  induction l generalizing p i with
  | nil => simp at hi
  | cons b l ih =>
    cases i with
    | succ i => exact ih h.2 hi
    | zero =>
      have hb : b = a := by simpa using hi
      subst hb
      cases l with
      | nil => exact h.2
      | cons c l => exact h.2.1

/-- A node of the chain with nothing behind it is the last one. -/
theorem last {a : A} (h : Chain next p l) (ha : a ∈ l) (hnone : next a = none) :
    ∃ l', l = l' ++ [a] := by
  obtain ⟨l₁, l₂, rfl⟩ := List.append_of_mem ha
  obtain ⟨-, hrest⟩ := h.suffix
  rw [hnone] at hrest
  cases l₂ with
  | nil => exact ⟨l₁, rfl⟩
  | cons b l₂ => exact absurd hrest.1 (by simp)

/-- A chain depends on the nodes it visits only. -/
theorem congr (h : Chain next p l) (hsame : ∀ a ∈ l, next' a = next a) : Chain next' p l := by
  induction l generalizing p with
  | nil => exact h
  | cons a l ih =>
    refine ⟨h.1, ?_⟩
    rw [hsame a List.mem_cons_self]
    exact ih h.2 fun b hb => hsame b (List.mem_cons_of_mem _ hb)

/-- Writing to a node that is not on the chain. -/
theorem update [DecidableEq A] {a : A} {v : Option A} (h : Chain next p l) (ha : a ∉ l) :
    Chain (update next a v) p l := by
  refine h.congr fun b hb => ?_
  have hne : b ≠ a := by
    rintro rfl
    exact ha hb
  rw [update_of_ne hne]

/-- A node that is all there is. -/
theorem single {a : A} (h : next a = none) : Chain next (some a) [a] := ⟨rfl, h⟩

/-- **Hanging** the chain that starts at `b` behind the last node `a`. -/
theorem hang [DecidableEq A] {a b : A} {m : List A} (h : Chain next p l) (ha : a ∈ l)
    (hnone : next a = none) (hm : Chain next (some b) m) (hdisj : ∀ c ∈ l, c ∉ m) :
    Chain (Function.update next a (some b)) p (l ++ m) := by
  have hm' : Chain (Function.update next a (some b)) (some b) m := hm.update (hdisj a ha)
  obtain ⟨l', rfl⟩ := h.last ha hnone
  have hnodup := h.nodup
  clear hdisj ha
  induction l' generalizing p with
  | nil =>
    refine ⟨h.1, ?_⟩
    rw [update_self]
    exact hm'
  | cons c l' ih =>
    have hne : c ≠ a := by
      rintro rfl
      exact (List.nodup_cons.mp hnodup).1 (List.mem_append_right _ List.mem_cons_self)
    refine ⟨h.1, ?_⟩
    rw [update_of_ne hne]
    exact ih h.2 (List.nodup_cons.mp hnodup).2

end Chain

end Linked
