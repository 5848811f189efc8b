/-
  Counting over a finite family of agents.

  A protocol invariant of the form "the number of agents in such a phase is at most one" is a sum
  `∑ i, f (g i)`, where `g i` is the local state of agent `i` and `f` says how much it counts.
  A step changes one agent's local state, so what an invariant proof needs is how the sum moves
  under `Function.update`, and what a bound on the sum says about single agents.

  Where there is no end to the agents, `tally` counts those that pass a check, as long as only finitely
  many do.
-/
import Mathlib.Algebra.BigOperators.Group.Finset.Piecewise
import Mathlib.Algebra.Order.BigOperators.Group.Finset
import Mathlib.Data.Fintype.BigOperators
import Mathlib.Data.Set.Card
import Mathlib.Tactic.Abel

namespace Counting

variable {ι α : Type*}

/-! ## Agents without end -/

/-- How many agents pass the check `p`. -/
noncomputable def tally (p : α → Bool) (g : ι → α) : Nat := {i | p (g i) = true}.ncard

theorem finite_update [DecidableEq ι] {p : α → Bool} {g : ι → α} (hfin : {i | p (g i) = true}.Finite)
    (i : ι) (x : α) : {j | p (Function.update g i x j) = true}.Finite := by
  refine (hfin.insert i).subset fun j hj => ?_
  by_cases h : j = i
  · exact .inl h
  · exact .inr (by simpa [h] using hj)

theorem tally_update [DecidableEq ι] {p : α → Bool} {g : ι → α} (hfin : {i | p (g i) = true}.Finite)
    (i : ι) (x : α) :
    tally p (Function.update g i x) + (p (g i)).toNat = tally p g + (p x).toNat := by
  -- without `i`, both count the same agents
  have hsplit : ∀ g' : ι → α, (∀ j, j ≠ i → g' j = g j) → {j | p (g' j) = true}.Finite →
      tally p g' = ({j | p (g j) = true} \ {i}).ncard + (p (g' i)).toNat := by
    intro g' hsame hfin'
    have hrest : {j | p (g' j) = true} \ {i} = {j | p (g j) = true} \ {i} := by
      ext j
      constructor
      · intro h
        exact ⟨by simpa [hsame j h.2] using h.1, h.2⟩
      · intro h
        exact ⟨by simpa [hsame j h.2] using h.1, h.2⟩
    rw [← hrest]
    cases hi : p (g' i) with
    | true => exact (Set.ncard_sdiff_singleton_add_one (s := {j | p (g' j) = true}) hi hfin').symm
    | false =>
      rw [Set.sdiff_singleton_eq_self (by simp [hi])]
      rfl
  have hnew := hsplit (Function.update g i x) (fun j hj => Function.update_of_ne hj x g)
    (finite_update hfin i x)
  have hold := hsplit g (fun j _ => rfl) hfin
  rw [Function.update_self] at hnew
  omega

theorem tally_none {p : α → Bool} {g : ι → α} (h : ∀ i, p (g i) = false) : tally p g = 0 := by
  have hempty : {i | p (g i) = true} = ∅ := by
    ext i
    simp [h i]
  rw [tally, hempty, Set.ncard_empty]

/-- Agents that pass `r` pass exactly one of `p` and `q`, and nobody else passes one. -/
theorem tally_add {p q r : α → Bool} {g : ι → α} (hp : {i | p (g i) = true}.Finite)
    (hq : {i | q (g i) = true}.Finite) (h : ∀ i, (r (g i)).toNat = (p (g i)).toNat + (q (g i)).toNat) :
    tally r g = tally p g + tally q g := by
  have hunion : {i | r (g i) = true} = {i | p (g i) = true} ∪ {i | q (g i) = true} := by
    ext i
    have := h i
    cases hr : r (g i) <;> cases hp : p (g i) <;> cases hq : q (g i) <;> simp_all
  rw [tally, hunion, Set.ncard_union_eq _ hp hq]
  · rfl
  · rw [Set.disjoint_left]
    intro i hpi hqi
    have := h i
    rw [show p (g i) = true from hpi, show q (g i) = true from hqi] at this
    cases hr : r (g i) <;> simp [hr] at this

/-! ## Finitely many agents -/

/-- **Changing one agent's state** trades what the old state counted for what the new one does, if the
    agent is among those that are counted. -/
theorem sum_update_of_mem {M : Type*} [AddCommMonoid M] [DecidableEq ι] {S : Finset ι} (f : α → M)
    (g : ι → α) {i : ι} (hi : i ∈ S) (x : α) :
    ∑ j ∈ S, f (Function.update g i x j) + f (g i) = ∑ j ∈ S, f (g j) + f x := by
  have h : (fun j => f (Function.update g i x j)) = Function.update (fun j => f (g j)) i (f x) := by
    funext j
    by_cases hj : j = i
    · subst hj; simp
    · simp [hj]
  have hsplit := Finset.add_sum_erase S (fun j => f (g j)) hi
  rw [h, Finset.sum_update_of_mem hi, ← hsplit, Finset.sdiff_singleton_eq_erase]
  abel

variable [Fintype ι]

theorem sum_update {M : Type*} [AddCommMonoid M] [DecidableEq ι] (f : α → M) (g : ι → α) (i : ι)
    (x : α) : ∑ j, f (Function.update g i x j) + f (g i) = ∑ j, f (g j) + f x :=
  sum_update_of_mem f g (Finset.mem_univ i) x

/-- How much the family `g` counts in total, when a local state `x` counts `f x`. -/
def total (f : α → Nat) (g : ι → α) : Nat := ∑ i, f (g i)

theorem total_update [DecidableEq ι] (f : α → Nat) (g : ι → α) (i : ι) (x : α) :
    total f (Function.update g i x) + f (g i) = total f g + f x := sum_update f g i x

/-- An agent counts no more than the total. -/
theorem le_total (f : α → Nat) (g : ι → α) (i : ι) : f (g i) ≤ total f g :=
  Finset.single_le_sum (f := fun j => f (g j)) (fun _ _ => Nat.zero_le _) (Finset.mem_univ i)

/-- Counting less of every agent makes a smaller total. -/
theorem total_mono {f f' : α → Nat} (h : ∀ x, f x ≤ f' x) (g : ι → α) : total f g ≤ total f' g :=
  Finset.sum_le_sum fun i _ => h (g i)

/-- If nobody counts more than `k`, the total is at most `k` for each. -/
theorem total_le {f : α → Nat} {k : Nat} (h : ∀ x, f x ≤ k) (g : ι → α) :
    total f g ≤ k * Fintype.card ι := by
  have hsum := Finset.sum_le_card_nsmul Finset.univ (fun i => f (g i)) k fun i _ => h (g i)
  rw [Finset.card_univ, nsmul_eq_mul, mul_comm] at hsum
  exact hsum

/-- Two different agents together count no more than the total. -/
theorem add_le_total (f : α → Nat) (g : ι → α) {i j : ι} (h : i ≠ j) :
    f (g i) + f (g j) ≤ total f g := by
  classical
  unfold total
  rw [← Finset.add_sum_erase Finset.univ (fun k => f (g k)) (Finset.mem_univ i)]
  have hj : j ∈ Finset.univ.erase i := Finset.mem_erase.mpr ⟨h.symm, Finset.mem_univ j⟩
  have := Finset.single_le_sum (f := fun k => f (g k)) (fun _ _ => Nat.zero_le _) hj
  omega

/-- Something counts as soon as the total is positive. -/
theorem exists_of_total_pos {f : α → Nat} {g : ι → α} (h : 0 < total f g) : ∃ i, 0 < f (g i) := by
  obtain ⟨i, -, hi⟩ := Finset.exists_ne_zero_of_sum_ne_zero (Nat.pos_iff_ne_zero.mp h)
  exact ⟨i, Nat.pos_of_ne_zero hi⟩

/-- A family in which nothing counts has total zero. -/
theorem total_eq_zero {f : α → Nat} {g : ι → α} (h : ∀ i, f (g i) = 0) : total f g = 0 :=
  Finset.sum_eq_zero fun i _ => h i

/-- When only agent `i` counts, the total is what it counts. -/
theorem total_eq_single {f : α → Nat} {g : ι → α} (i : ι) (h : ∀ j, j ≠ i → f (g j) = 0) :
    total f g = f (g i) :=
  Finset.sum_eq_single i (fun j _ hj => h j hj) fun hi => absurd (Finset.mem_univ i) hi

/-- A family in which at most one agent counts, and that one at most one. -/
theorem total_le_one {f : α → Nat} {g : ι → α} (hle : ∀ i, f (g i) ≤ 1)
    (h : ∀ i j, 0 < f (g i) → 0 < f (g j) → i = j) : total f g ≤ 1 := by
  by_cases hex : ∃ i, 0 < f (g i)
  · obtain ⟨i, hi⟩ := hex
    rw [total_eq_single i fun j hne => Nat.eq_zero_of_not_pos fun hj => hne (h j i hj hi)]
    exact hle i
  · rw [total_eq_zero fun i => Nat.eq_zero_of_not_pos fun hi => hex ⟨i, hi⟩]
    exact Nat.zero_le 1

end Counting
