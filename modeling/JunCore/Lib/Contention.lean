/-
  Amortised bounds for agents that set each other back.

  Nothing here names a program.  An agent works off a call in steps; now and then one of them gets its way,
  and the others have to repeat some of theirs.  Each agent has a potential: the steps it is from the end
  of its call, and something put aside for those it sets back.  If an agent that gets its way can pay for
  all of them (`setback`), each step lowers the sum, and the steps of a run are bounded by its calls
  (`exec_bound`), whatever the interleaving.
-/
import JunCore.Lib.Transition
import Mathlib.Algebra.BigOperators.Ring.Finset
import Mathlib.Algebra.Order.BigOperators.Group.Finset
import Mathlib.Data.Fintype.BigOperators

namespace Contention

open Transition

universe u v

variable {S : Type u} {E : Type v} {ι : Type*} [Fintype ι] [DecidableEq ι]

/-- **The bound**: `B` for each call. -/
theorem exec_bound {step : S → E → Option S} (I : S → Prop) (Φ : S → Nat) (calls steps : E → Nat) (B : Nat)
    (hstep : ∀ s e s', I s → step s e = some s' → I s' ∧ steps e + Φ s' ≤ Φ s + B * calls e) :
    ∀ (es : List E) {s s' : S}, I s → exec step es s = some s' →
      (es.map steps).sum + Φ s' ≤ Φ s + B * (es.map calls).sum
  | [], s, s', _, h => by
    obtain rfl : s = s' := by simpa [exec] using h
    simp
  | e :: es, s, s', hI, h => by
    rw [exec, Option.bind_eq_some_iff] at h
    obtain ⟨s₁, h₁, h₂⟩ := h
    obtain ⟨hI₁, hle⟩ := hstep s e s₁ hI h₁
    have hrest := exec_bound I Φ calls steps B hstep es hI₁ h₂
    rw [List.map_cons, List.map_cons, List.sum_cons, List.sum_cons, Nat.mul_add]
    omega

/-- **Setting back.**  Agent `i` has put aside `b` for each agent; it gets its way, the others are set back
    by no more than that, and it is `a` nearer to its end. -/
theorem setback {f f' : ι → Nat} (i : ι) {a b : Nat} (hi : f' i + b * Fintype.card ι + a ≤ f i)
    (hothers : ∀ j, j ≠ i → f' j ≤ f j + b) : ∑ j, f' j + a ≤ ∑ j, f j := by
  have hsum : ∑ j ∈ Finset.univ.erase i, f' j ≤ ∑ j ∈ Finset.univ.erase i, (f j + b) :=
    Finset.sum_le_sum fun j hj => hothers j (Finset.ne_of_mem_erase hj)
  rw [Finset.sum_add_distrib, Finset.sum_const_nat (m := b) fun _ _ => rfl, mul_comm] at hsum
  have hcard : (Finset.univ.erase i).card ≤ Fintype.card ι := Finset.card_erase_le
  have hle : b * (Finset.univ.erase i).card ≤ b * Fintype.card ι := Nat.mul_le_mul_left b hcard
  rw [← Finset.add_sum_erase Finset.univ f' (Finset.mem_univ i),
    ← Finset.add_sum_erase Finset.univ f (Finset.mem_univ i)]
  omega

/-- A step that concerns nobody else. -/
theorem alone {f f' : ι → Nat} (i : ι) {a b : Nat} (hi : f' i + a ≤ f i + b)
    (hothers : ∀ j, j ≠ i → f' j ≤ f j) : ∑ j, f' j + a ≤ ∑ j, f j + b := by
  have hsum : ∑ j ∈ Finset.univ.erase i, f' j ≤ ∑ j ∈ Finset.univ.erase i, f j :=
    Finset.sum_le_sum fun j hj => hothers j (Finset.ne_of_mem_erase hj)
  rw [← Finset.add_sum_erase Finset.univ f' (Finset.mem_univ i),
    ← Finset.add_sum_erase Finset.univ f (Finset.mem_univ i)]
  omega

end Contention
