/-
  Custody: where each thing is, told by the thing and told by its holder.

  A table gives every thing its place.  An agent that can carry one thing at a time says what it carries,
  a list says what is on it; `Carried` and `Listed` state that this and the table agree.  So no thing is
  in two hands, none is on a list twice, and what is on a list is in no hand.  When a thing goes from one
  place to another, the table is updated there, and each side follows by one of the rules below.
-/
import Mathlib.Logic.Function.Basic
import Mathlib.Data.List.Nodup

namespace Custody

open Function

variable {T A W : Type} {has : T → Option A} {place : A → W} {hand : T → W} {a : A} {w : W} {l : List A}

/-- Agent `t` carries `a` exactly if the place of `a` is `hand t`. -/
def Carried (has : T → Option A) (place : A → W) (hand : T → W) : Prop := ∀ t a, has t = some a ↔ place a = hand t

/-- The list is what the place `w` holds, without repetition. -/
structure Listed (l : List A) (place : A → W) (w : W) : Prop where
  nodup : l.Nodup
  mem : ∀ a, a ∈ l ↔ place a = w

/-- An agent that goes on with the same thing. -/
theorem Carried.keep {X : Type} [DecidableEq T] {p : X → Option A} {xs : T → X} (h : Carried (p ∘ xs) place hand)
    {t : T} {x : X} (hx : p x = p (xs t)) : Carried (p ∘ update xs t x) place hand := by
  rw [comp_update, hx]
  exact (update_eq_self t (p ∘ xs)).symm ▸ h

theorem Carried.place_eq {X : Type} {p : X → Option A} {xs : T → X} (h : Carried (p ∘ xs) place hand) {t : T}
    {x : X} (hx : xs t = x) (hhas : p x = some a) : place a = hand t := (h t a).mp ((congrArg p hx).trans hhas)

/-- Things that move between other places. -/
theorem Carried.congr (h : Carried has place hand) {place' : A → W}
    (hsame : ∀ a t, place' a = hand t ↔ place a = hand t) : Carried has place' hand := fun t a => (h t a).trans (hsame a t).symm

theorem Listed.congr (h : Listed l place w) {place' : A → W} (hsame : ∀ a, place' a = w ↔ place a = w) :
    Listed l place' w := ⟨h.nodup, fun a => (h.mem a).trans (hsame a).symm⟩

variable [DecidableEq A]

/-- Something comes to no hand, from no hand. -/
theorem Carried.other (h : Carried has place hand) (hold : ∀ u, place a ≠ hand u) (hnew : ∀ u, w ≠ hand u) :
    Carried has (update place a w) hand := by
  intro t b
  by_cases hb : b = a
  · subst hb
    rw [update_self]
    exact iff_of_false (fun hhas => hold t ((h t b).mp hhas)) (hnew t)
  · rw [update_of_ne hb]
    exact h t b

theorem Carried.take [DecidableEq T] (h : Carried has place hand) (hinj : Injective hand) {t : T}
    (hfree : has t = none) (hold : ∀ u, place a ≠ hand u) :
    Carried (update has t (some a)) (update place a (hand t)) hand := by
  intro u b
  by_cases hu : u = t
  · subst hu
    rw [update_self]
    by_cases hb : b = a
    · subst hb
      rw [update_self]
      exact iff_of_true rfl rfl
    · rw [update_of_ne hb, ← h u b, hfree]
      exact iff_of_false (fun hsome => hb (Option.some.inj hsome).symm) nofun
  · rw [update_of_ne hu]
    by_cases hb : b = a
    · subst hb
      rw [update_self]
      exact iff_of_false (fun hhas => hold u ((h u b).mp hhas)) fun hsame => hu (hinj hsame).symm
    · rw [update_of_ne hb]
      exact h u b

theorem Carried.leave [DecidableEq T] (h : Carried has place hand) (hinj : Injective hand) {t : T}
    (hhas : has t = some a) (hnew : ∀ u, w ≠ hand u) :
    Carried (update has t none) (update place a w) hand := by
  intro u b
  have hb : b ≠ a → (place b = hand t → False) := fun hne hplace =>
    hne (Option.some.inj (((h t b).mpr hplace).symm.trans hhas))
  by_cases hu : u = t
  · subst hu
    rw [update_self]
    refine iff_of_false nofun ?_
    by_cases hba : b = a
    · subst hba
      rw [update_self]
      exact hnew u
    · rw [update_of_ne hba]
      exact hb hba
  · rw [update_of_ne hu]
    by_cases hba : b = a
    · subst hba
      rw [update_self]
      refine iff_of_false (fun hother => hu ?_) (hnew u)
      exact hinj (((h u b).mp hother).symm.trans ((h t b).mp hhas))
    · rw [update_of_ne hba]
      exact h u b

/-- The same for agents that have it in their state. -/
theorem Carried.pick {X : Type} [DecidableEq T] {p : X → Option A} {xs : T → X} (h : Carried (p ∘ xs) place hand)
    (hinj : Injective hand) {t : T} {x : X} (hx : p x = some a) (hfree : p (xs t) = none)
    (hold : ∀ u, place a ≠ hand u) : Carried (p ∘ update xs t x) (update place a (hand t)) hand := by
  rw [comp_update, hx]
  exact h.take hinj hfree hold

theorem Carried.drop {X : Type} [DecidableEq T] {p : X → Option A} {xs : T → X} (h : Carried (p ∘ xs) place hand)
    (hinj : Injective hand) {t : T} {x : X} (hx : p x = none) (hhas : p (xs t) = some a)
    (hnew : ∀ u, w ≠ hand u) : Carried (p ∘ update xs t x) (update place a w) hand := by
  rw [comp_update, hx]
  exact h.leave hinj hhas hnew

theorem Listed.other (h : Listed l place w) {w' : W} (hold : place a ≠ w) (hnew : w' ≠ w) :
    Listed l (update place a w') w := by
  refine ⟨h.nodup, fun b => ?_⟩
  by_cases hb : b = a
  · subst hb
    rw [update_self]
    exact iff_of_false (fun hmem => hold ((h.mem b).mp hmem)) hnew
  · rw [update_of_ne hb]
    exact h.mem b

theorem Listed.push (h : Listed l place w) (hold : place a ≠ w) : Listed (a :: l) (update place a w) w := by
  refine ⟨List.nodup_cons.mpr ⟨fun hmem => hold ((h.mem a).mp hmem), h.nodup⟩, fun b => ?_⟩
  by_cases hb : b = a
  · subst hb
    rw [update_self]
    exact iff_of_true List.mem_cons_self rfl
  · rw [update_of_ne hb, ← h.mem b, List.mem_cons]
    exact ⟨fun hmem => hmem.resolve_left hb, .inr⟩

theorem Listed.erase [BEq A] [LawfulBEq A] (h : Listed l place w) {w' : W} (hmem : a ∈ l) (hnew : w' ≠ w) :
    Listed (l.erase a) (update place a w') w := by
  refine ⟨h.nodup.erase a, fun b => ?_⟩
  rw [h.nodup.mem_erase_iff]
  by_cases hb : b = a
  · subst hb
    rw [update_self]
    exact iff_of_false (fun hand => hand.1 rfl) hnew
  · rw [update_of_ne hb, ← h.mem b]
    exact ⟨fun hand => hand.2, fun hmem => ⟨hb, hmem⟩⟩

end Custody
