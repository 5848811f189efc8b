/-
  Sums over the elements of a list that pass a check, and sums by age.

  `weigh f p l` adds up `f x` over the elements `x` of `l` with `p x`.  When every element carries a
  stamp and the clock shows `now`, the elements whose age is `i` make up the bucket `i`, and the first
  `n` buckets together hold the elements that are less than `n` old (`sum_buckets`).
-/
import Mathlib.Algebra.Ring.Nat
import Mathlib.Algebra.BigOperators.Group.List.Basic
import Mathlib.Order.Basic

namespace Buckets

variable {α : Type*} {f : α → Nat} {p q : α → Prop} [DecidablePred p] [DecidablePred q] {l : List α}

/-- What the elements that pass the check weigh together. -/
def weigh (f : α → Nat) (p : α → Prop) [DecidablePred p] (l : List α) : Nat :=
  ((l.filter fun x => p x).map f).sum

@[simp] theorem weigh_nil : weigh f p [] = 0 := rfl

@[simp] theorem weigh_cons (x : α) (l : List α) :
    weigh f p (x :: l) = (if p x then f x else 0) + weigh f p l := by
  by_cases h : p x <;> simp [weigh, h]

@[simp] theorem weigh_append (l l' : List α) : weigh f p (l ++ l') = weigh f p l + weigh f p l' := by
  simp [weigh]

theorem weigh_congr (h : ∀ x ∈ l, p x ↔ q x) : weigh f p l = weigh f q l := by
  have hfilter : (l.filter fun x => p x) = l.filter fun x => q x :=
    List.filter_congr fun x hx => by simp [h x hx]
  rw [weigh, weigh, hfilter]

theorem weigh_eq_zero (h : ∀ x ∈ l, ¬ p x) : weigh f p l = 0 := by
  have hfilter : (l.filter fun x => p x) = [] := List.filter_eq_nil_iff.2 fun x hx => by simp [h x hx]
  rw [weigh, hfilter]
  rfl

/-- A weaker check, counted by what else it lets pass. -/
theorem weigh_mono (h : ∀ x ∈ l, f x ≠ 0 → p x → q x) : weigh f p l ≤ weigh f q l := by
  induction l with
  | nil => exact Nat.le_refl _
  | cons x l ih =>
    have hrest := ih fun y hy => h y (List.mem_cons_of_mem x hy)
    have hfirst := h x List.mem_cons_self
    rw [weigh_cons, weigh_cons]
    split <;> split
    · omega
    · rename_i hp hq
      have hzero : f x = 0 := Classical.by_contradiction fun hne => hq (hfirst hne hp)
      omega
    · omega
    · omega

/-- One element that only the weaker check lets pass makes the difference. -/
theorem weigh_lt (h : ∀ x ∈ l, p x → q x) {y : α} (hy : y ∈ l) (hq : q y) (hp : ¬ p y) (hf : f y ≠ 0) :
    weigh f p l < weigh f q l := by
  obtain ⟨before, after, rfl⟩ := List.append_of_mem hy
  have hbefore : weigh f p before ≤ weigh f q before :=
    weigh_mono fun x hx _ => h x (List.mem_append_left _ hx)
  have hafter : weigh f p after ≤ weigh f q after :=
    weigh_mono fun x hx _ => h x (List.mem_append_right _ (List.mem_cons_of_mem y hx))
  rw [weigh_append, weigh_append, weigh_cons, weigh_cons, if_neg hp, if_pos hq]
  omega

/-- Two checks that nothing passes both. -/
theorem weigh_or {r : α → Prop} [DecidablePred r] (h : ∀ x, r x ↔ p x ∨ q x) (hdisjoint : ∀ x, p x → ¬ q x)
    (l : List α) : weigh f r l = weigh f p l + weigh f q l := by
  induction l with
  | nil => rfl
  | cons x l ih =>
    have hr := h x
    have hpq := hdisjoint x
    rw [weigh_cons, weigh_cons, weigh_cons, ih]
    by_cases hp : p x
    · rw [if_pos hp, if_pos (hr.2 (.inl hp)), if_neg (hpq hp)]
      omega
    · by_cases hq : q x
      · rw [if_neg hp, if_pos (hr.2 (.inr hq)), if_pos hq]
        omega
      · rw [if_neg hp, if_neg hq, if_neg fun hx => (hr.1 hx).elim hp hq]
        omega

/-- **Sums by age**: the first `n` buckets hold what is less than `n` old. -/
theorem sum_buckets {stamp : α → Nat} {now : Nat} (h : ∀ x ∈ l, stamp x ≤ now) (n : Nat) :
    ((List.range n).map fun i => weigh f (fun x => now = stamp x + i) l).sum =
      weigh f (fun x => now < stamp x + n) l := by
  induction n with
  | zero =>
    symm
    exact weigh_eq_zero fun x hx => by have := h x hx; omega
  | succ n ih =>
    have hsplit := weigh_or (f := f) (r := fun x => now < stamp x + (n + 1))
      (p := fun x => now < stamp x + n) (q := fun x => now = stamp x + n)
      (fun x => by omega) (fun x hx => by omega) l
    rw [List.range_succ, List.map_append, List.sum_append, ih, hsplit]
    simp

end Buckets
