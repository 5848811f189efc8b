/-
  Steps of a limited length towards a fixed goal, in a real normed space.

  `toward s q p` is the point that is reached from `p` with one step of length `s` towards `q`; a step that
  would go beyond `q` ends there.  Such a step takes `s` off the distance, as far as there is so much
  (`dist_toward`), and stays on the segment to `q`; so do any number of them (`dist_iterate_toward`,
  `iterate_toward_mem_segment`).
-/
import Mathlib.Analysis.Convex.Basic
import Mathlib.Analysis.Normed.Affine.AddTorsor

set_option linter.unusedVariables false

namespace Approach

open AffineMap

/-- The part of the way that a step covers. -/
theorem part_mem {s d : ℝ} (hs : 0 ≤ s) (hd : 0 ≤ d) : min s d / d ∈ Set.Icc (0 : ℝ) 1 :=
  ⟨div_nonneg (le_min hs hd) hd, div_le_one_of_le₀ (min_le_right s d) hd⟩

variable {E : Type*} [NormedAddCommGroup E] [NormedSpace ℝ E]

/-- One step from `p` towards `q`. -/
noncomputable def toward (s : ℝ) (q p : E) : E := lineMap p q (min s (dist p q) / dist p q)

variable {s : ℝ} {p q : E}

/-- At the goal there is no step to take. -/
theorem toward_self (s : ℝ) (q : E) : toward s q q = q := by
  rw [toward, lineMap_same_apply]

theorem dist_toward (hs : 0 ≤ s) : dist (toward s q p) q = max 0 (dist p q - s) := by
  rcases eq_or_ne p q with rfl | hne
  · rw [toward_self, dist_self, zero_sub]
    exact (max_eq_left (by linarith)).symm
  · have hd : 0 < dist p q := dist_pos.mpr hne
    have hpart := (part_mem hs hd.le).2
    rw [toward, dist_lineMap_right, Real.norm_of_nonneg (by linarith), sub_mul, one_mul,
      div_mul_cancel₀ _ hd.ne']
    rcases le_total s (dist p q) with h | h
    · rw [min_eq_left h, max_eq_right (by linarith)]
    · rw [min_eq_right h, sub_self, max_eq_left (by linarith)]

theorem toward_mem_segment (hs : 0 ≤ s) : toward s q p ∈ segment ℝ p q :=
  lineMap_mem_segment ℝ p q (part_mem hs dist_nonneg)

/-- Several steps stay on the segment. -/
theorem iterate_toward_mem_segment (hs : 0 ≤ s) (k : Nat) : (toward s q)^[k] p ∈ segment ℝ p q := by
  induction k with
  | zero => exact left_mem_segment ℝ p q
  | succ k ih =>
    rw [Function.iterate_succ_apply']
    have hsub : segment ℝ ((toward s q)^[k] p) q ⊆ segment ℝ p q :=
      (convex_segment p q).segment_subset ih (right_mem_segment ℝ p q)
    exact hsub (toward_mem_segment hs)

/-- **The distance law.**  Each step takes its length off the distance, until nothing is left. -/
theorem dist_iterate_toward (hs : 0 ≤ s) (k : Nat) :
    dist ((toward s q)^[k] p) q = max 0 (dist p q - k * s) := by
  induction k with
  | zero =>
    rw [Function.iterate_zero_apply, Nat.cast_zero, zero_mul, sub_zero]
    exact (max_eq_right dist_nonneg).symm
  | succ k ih =>
    rw [Function.iterate_succ_apply', dist_toward hs, ih, Nat.cast_succ, add_mul, one_mul]
    rcases le_total 0 (dist p q - k * s) with h | h
    · rw [max_eq_right h, sub_sub]
    · rw [max_eq_left h, max_eq_left (by linarith), max_eq_left (by linarith)]

end Approach
