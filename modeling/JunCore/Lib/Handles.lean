/-
  Handles: values under which a system keeps what it has opened.

  A value stands for one thing at a time, and once that is closed the system may give the value to
  another.  So a holder may use its value as long as it is the one the value stands for; if each
  holder closes what it holds once and forgets the value, every close meets the thing it is meant for
  (`Holds`).  A holder that closes twice may meet somebody else's.
-/
import Mathlib.Logic.Function.Basic

namespace Handles

open Function

variable {H K : Type} [DecidableEq H] [DecidableEq K]

/-- The system opens something new under a value. -/
def give (table : H → Option K) (v : H) (k : K) : H → Option K := update table v (some k)

/-- It closes what is open under a value, if anything is. -/
def close (table : H → Option K) (v : H) : H → Option K := update table v none

/-- The value that each holder has stands for what it holds. -/
def Holds (table : H → Option K) (value : K → Option H) : Prop :=
  ∀ k v, value k = some v → table v = some k

variable {table : H → Option K} {value : K → Option H} {k : K} {v : H}

/-- A new holder, under a value that stood for nothing. -/
theorem Holds.give (h : Holds table value) (hfree : table v = none) :
    Holds (give table v k) (update value k (some v)) := by
  intro j u hu
  by_cases hj : j = k
  · subst hj
    rw [update_self] at hu
    obtain rfl : v = u := Option.some.inj hu
    exact update_self v _ _
  · rw [update_of_ne hj] at hu
    have hne : u ≠ v := by
      rintro rfl
      rw [h j u hu] at hfree
      cases hfree
    exact (update_of_ne hne _ _).trans (h j u hu)

/-- A holder closes what it holds, and nobody else notices. -/
theorem Holds.close (h : Holds table value) (hk : value k = some v) :
    Holds (close table v) (update value k none) := by
  intro j u hu
  by_cases hj : j = k
  · subst hj
    rw [update_self] at hu
    cases hu
  · rw [update_of_ne hj] at hu
    have hne : u ≠ v := by
      rintro rfl
      exact hj (Option.some.inj ((h j u hu).symm.trans (h k u hk)))
    exact (update_of_ne hne _ _).trans (h j u hu)

end Handles
