/-
  Transition systems: runs, invariants, projections and replayed traces.

  Everything in this file is about an arbitrary state type `S`; no program is named.  A program
  enters as an initial-state predicate and a step relation, or as an executable `step` over an
  event type.  Four tools come out of it:

  * `Reachable.invariant` — the induction over runs, done once: a property that holds initially
    and survives each step holds in every reachable state;
  * `System.guard` — the same system with only the steps that meet a side condition, which is how
    "in every run whose steps all meet the condition" is written down;
  * `Projection.reachable` — a function that maps steps to steps (or to nothing) maps runs to runs,
    so an invariant proved for a small system carries back to a big one;
  * `exec` — the replay of a list of events, with `reachable_of_exec` to turn a concrete schedule
    into a reachable state.
-/
import Mathlib.Logic.Function.Basic

namespace Transition

universe u v

variable {S : Type u} {S' : Type v}

/-! ## Systems and their reachable states -/

/-- A transition system: the states a run may start in, and the steps it may take. -/
structure System (S : Type u) where
  init : S → Prop
  next : S → S → Prop

/-- The states some finite run of `M` ends in. -/
inductive Reachable (M : System S) : S → Prop
  | start {s : S} : M.init s → Reachable M s
  | step {s s' : S} : Reachable M s → M.next s s' → Reachable M s'

/-- **The invariant rule.**  The step case may use that the state it starts from is reachable, so
    invariants proved earlier are available to later ones. -/
theorem Reachable.invariant {M : System S} {I : S → Prop} (hinit : ∀ s, M.init s → I s)
    (hstep : ∀ s s', Reachable M s → I s → M.next s s' → I s') :
    ∀ {s}, Reachable M s → I s := by
  intro s h
  induction h with
  | start h0 => exact hinit _ h0
  | step hr hn ih => exact hstep _ _ hr ih hn

/-- The same steps, from one state on. -/
def System.after (M : System S) (s : S) : System S where
  init s' := s' = s
  next := M.next

theorem Reachable.trans {M : System S} {s s' : S} (h : Reachable M s)
    (h' : Reachable (M.after s) s') : Reachable M s' := by
  induction h' with
  | start h0 => rwa [show _ = s from h0]
  | step _ hn ih => exact .step ih hn

/-! ## Side conditions on steps -/

/-- `M.guard G`: the system that only takes the steps of `M` which meet `G`. -/
def System.guard (M : System S) (G : S → S → Prop) : System S where
  init := M.init
  next s s' := M.next s s' ∧ G s s'

theorem Reachable.of_guard {M : System S} {G : S → S → Prop} {s : S}
    (h : Reachable (M.guard G) s) : Reachable M s := by
  induction h with
  | start h0 => exact .start h0
  | step _ hn ih => exact .step ih hn.1

theorem Reachable.mono {M : System S} {G H : S → S → Prop} (hGH : ∀ s s', G s s' → H s s') {s : S}
    (h : Reachable (M.guard G) s) : Reachable (M.guard H) s := by
  induction h with
  | start h0 => exact .start h0
  | step _ hn ih => exact .step ih ⟨hn.1, hGH _ _ hn.2⟩

/-- A side condition that every step meets is none. -/
theorem Reachable.guarded {M : System S} {G : S → S → Prop} (hG : ∀ s s', M.next s s' → G s s')
    {s : S} (h : Reachable M s) : Reachable (M.guard G) s := by
  induction h with
  | start h0 => exact .start h0
  | step _ hn ih => exact .step ih ⟨hn, hG _ _ hn⟩

/-! ## Projections -/

/-- `f` projects `M` onto `N`: runs start in corresponding states, and a step of `M` is a step of
    `N` or changes nothing that `f` shows. -/
structure Projection (M : System S) (N : System S') (f : S → S') : Prop where
  init : ∀ s, M.init s → N.init (f s)
  next : ∀ s s', M.next s s' → f s' = f s ∨ N.next (f s) (f s')

theorem Projection.reachable {M : System S} {N : System S'} {f : S → S'}
    (P : Projection M N f) : ∀ {s}, Reachable M s → Reachable N (f s) := by
  intro s h
  induction h with
  | start h0 => exact .start (P.init _ h0)
  | step _ hn ih =>
    rcases P.next _ _ hn with h | h
    · rw [h]; exact ih
    · exact .step ih h

/-- A projection stays one when both sides are guarded, provided the guard of `M` implies that of
    `N` on what the projection shows. -/
theorem Projection.guard {M : System S} {N : System S'} {f : S → S'} (P : Projection M N f)
    {G : S → S → Prop} {H : S' → S' → Prop} (hG : ∀ s s', G s s' → H (f s) (f s')) :
    Projection (M.guard G) (N.guard H) f where
  init := P.init
  next s s' h := (P.next s s' h.1).imp id fun hn => ⟨hn, hG s s' h.2⟩

/-- One projection behind the other. -/
theorem Projection.comp {S'' : Type*} {M : System S} {N : System S'} {N' : System S''} {f : S → S'}
    {g : S' → S''} (P : Projection M N f) (Q : Projection N N' g) :
    Projection M N' fun s => g (f s) where
  init s h := Q.init _ (P.init s h)
  next s s' h := by
    rcases P.next s s' h with h | h
    · exact .inl (congrArg g h)
    · exact Q.next _ _ h

/-! ## Replaying a schedule -/

variable {E : Type v}

/-- Take the steps of a list of events in order; `none` as soon as one is not enabled. -/
def exec (step : S → E → Option S) : List E → S → Option S
  | [], s => some s
  | e :: es, s => (step s e).bind (exec step es)

theorem reachable_of_exec {M : System S} {step : S → E → Option S}
    (hstep : ∀ s e s', step s e = some s' → M.next s s') :
    ∀ (es : List E) {s s' : S}, Reachable M s → exec step es s = some s' → Reachable M s'
  | [], s, s', hr, h => by
    obtain rfl : s = s' := by simpa [exec] using h
    exact hr
  | e :: es, s, s', hr, h => by
    rw [exec, Option.bind_eq_some_iff] at h
    obtain ⟨s₁, h₁, h₂⟩ := h
    exact reachable_of_exec hstep es (.step hr (hstep s e s₁ h₁)) h₂

/-- A schedule whose last state passes the check `p` leads to a reachable state that does. -/
theorem exists_reachable_of_exec {M : System S} {step : S → E → Option S} {s₀ : S}
    (hinit : M.init s₀) (hstep : ∀ s e s', step s e = some s' → M.next s s') (es : List E)
    (p : S → Bool) (h : (exec step es s₀).any p = true) : ∃ s, Reachable M s ∧ p s = true := by
  cases hr : exec step es s₀ with
  | none => rw [hr] at h; exact absurd h (by simp)
  | some s =>
    rw [hr] at h
    exact ⟨s, reachable_of_exec hstep es (.start hinit) hr, by simpa using h⟩

/-- The step function that takes only the steps which pass the check `g`. -/
def gate (step : S → E → Option S) (g : S → S → Bool) (s : S) (e : E) : Option S :=
  (step s e).filter (g s)

/-- A gated step is a step of the guarded system. -/
theorem next_of_gate {M : System S} {step : S → E → Option S} {G : S → S → Prop} {g : S → S → Bool}
    (hstep : ∀ s e s', step s e = some s' → M.next s s') (hg : ∀ s s', g s s' = true → G s s')
    (s : S) (e : E) (s' : S) (h : gate step g s e = some s') : (M.guard G).next s s' := by
  rw [gate, Option.filter_eq_some_iff] at h
  exact ⟨hstep s e s' h.1, hg s s' h.2⟩

/-- The same, with a side condition that can be checked itself. -/
theorem next_of_decide {M : System S} {step : S → E → Option S} {G : S → S → Prop}
    [∀ s s', Decidable (G s s')] (hstep : ∀ s e s', step s e = some s' → M.next s s') (s : S) (e : E)
    (s' : S) (h : gate step (fun s s' => decide (G s s')) s e = some s') : (M.guard G).next s s' :=
  next_of_gate hstep (fun _ _ h => of_decide_eq_true h) s e s' h

end Transition
