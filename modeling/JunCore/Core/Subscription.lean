/-
  `JunCore/core/Event.h`, `Subscription`: the token that `Subscribe` returns.

  A token keeps the erase action of its subscription, the closure `[this, id]` with a raw pointer to the
  event.  The action runs when the token is unsubscribed, destroyed, or assigned to; a move takes it to
  another token, and `Detach` drops it.  Tokens and events come and go in any order, one operation after
  the other.

  An action is always in one place: in one token, run, or dropped (`Sound`).  So it runs once at most, and
  it meets its own handler or none.  What the source does not see to is that the event is still there: a
  token that outlives its event erases from an event that has been destroyed (`orphaned`).
-/
import JunCore.Core.Event
import Mathlib.Logic.Function.Basic

set_option linter.unusedVariables false
set_option linter.unusedSectionVars false

namespace JunCore.Core

open Transition Function

variable {E K H : Type}

/-! ## Tokens and events -/

/-- `[this, id]() { m_handlers.erase(id); }` -/
structure EraseAction (E : Type) where
  event : E
  id : Nat
  deriving DecidableEq

/-- `m_unsubscribe`; `none` is `nullptr`. -/
abbrev Subscription (E : Type) := Option (EraseAction E)

inductive Lifetime (α : Type)
  | unborn
  | alive (x : α)
  | destroyed

def Lifetime.isAlive {α : Type} : Lifetime α → Bool
  | .alive _ => true
  | _ => false

/-- Those of the events and tokens that exist, and what has happened: no operation reads the lists. -/
structure Objects (E K H : Type) where
  events : E → Lifetime (Event H)
  tokens : K → Option (Subscription E)
  /-- the calls of `Subscribe` -/
  created : List (EraseAction E × H) := []
  /-- the actions that have run -/
  runs : List (EraseAction E) := []
  /-- those that did so when their event had been destroyed -/
  dangling : List (EraseAction E) := []
  detached : List (EraseAction E) := []
  /-- the subscriptions that a `Clear` has removed -/
  cleared : List (EraseAction E) := []

inductive Operation (E K H : Type)
  | newEvent (e : E)
  | destroyEvent (e : E)
  | clear (e : E)
  | subscribe (e : E) (k : K) (handler : H)
  | construct (k : K)
  | moveConstruct (k other : K)
  | moveAssign (k other : K)
  | unsubscribe (k : K)
  | detach (k : K)
  | destroy (k : K)

namespace Objects

variable [DecidableEq E] [DecidableEq K]

/-- `m_unsubscribe()` -/
def run (s : Objects E K H) (x : EraseAction E) : Objects E K H :=
  match s.events x.event with
  | .alive ev => { s with
      events := update s.events x.event (.alive (ev.erase x.id))
      runs := x :: s.runs }
  | _ => { s with runs := x :: s.runs, dangling := x :: s.dangling }

def setToken (s : Objects E K H) (k : K) (m : Option (Subscription E)) : Objects E K H :=
  { s with tokens := update s.tokens k m }

def unsubscribe (s : Objects E K H) (k : K) : Objects E K H :=
  match s.tokens k with
  | some (some x) => (s.run x).setToken k (some none)
  | _ => s

/-- `m_unsubscribe = std::move(other.m_unsubscribe); other.m_unsubscribe = nullptr;` -/
def moveFrom (s : Objects E K H) (k other : K) : Objects E K H :=
  (s.setToken k (s.tokens other)).setToken other (some none)

def step (s : Objects E K H) : Operation E K H → Option (Objects E K H)
  | .newEvent e =>
    match s.events e with
    | .unborn => some { s with events := update s.events e (.alive {}) }
    | _ => none
  | .destroyEvent e =>
    match s.events e with
    | .alive _ => some { s with events := update s.events e .destroyed }
    | _ => none
  | .clear e =>
    match s.events e with
    | .alive ev => some { s with
        events := update s.events e (.alive ev.clear)
        cleared := ev.handlers.map (fun p => ⟨e, p.1⟩) ++ s.cleared }
    | _ => none
  | .subscribe e k handler =>
    match s.events e, s.tokens k with
    | .alive ev, none => some { s with
        events := update s.events e (.alive (ev.subscribe handler).1)
        tokens := update s.tokens k (some (some ⟨e, (ev.subscribe handler).2⟩))
        created := (⟨e, (ev.subscribe handler).2⟩, handler) :: s.created }
    | _, _ => none
  | .construct k =>
    match s.tokens k with
    | none => some (s.setToken k (some none))
    | some _ => none
  | .moveConstruct k other =>
    match s.tokens k, s.tokens other with
    | none, some _ => some (s.moveFrom k other)
    | _, _ => none
  | .moveAssign k other =>
    match s.tokens k, s.tokens other with
    | some _, some _ => if k = other then some s else some ((s.unsubscribe k).moveFrom k other)
    | _, _ => none
  | .unsubscribe k =>
    match s.tokens k with
    | some _ => some (s.unsubscribe k)
    | none => none
  | .detach k =>
    match s.tokens k with
    | some m => some { s.setToken k (some none) with detached := m.toList ++ s.detached }
    | none => none
  | .destroy k =>
    match s.tokens k with
    | some _ => some ((s.unsubscribe k).setToken k none)
    | none => none

/-- No event and no token yet. -/
def start : Objects E K H := ⟨fun _ => .unborn, fun _ => none, [], [], [], [], []⟩

def system (E K H : Type) [DecidableEq E] [DecidableEq K] : System (Objects E K H) where
  init s := s = start
  next s s' := ∃ o, s.step o = some s'

end Objects

/-! ## What is to hold -/

/-- The token on which the operation calls `Unsubscribe`. -/
def Operation.unsubscribes [DecidableEq K] : Operation E K H → Option K
  | .unsubscribe k | .destroy k => some k
  | .moveAssign k other => if k = other then none else some k
  | _ => none

namespace Objects

variable [DecidableEq E] [DecidableEq K]

/-- `Unsubscribe` is called on a token without an action, or while the event is there. -/
def Careful (s : Objects E K H) (o : Operation E K H) : Prop :=
  ∀ k x, o.unsubscribes = some k → s.tokens k = some (some x) → (s.events x.event).isAlive = true

/-- The runs in which this is so. -/
def careful (E K H : Type) [DecidableEq E] [DecidableEq K] : System (Objects E K H) where
  init s := s = start
  next s s' := ∃ o, s.Careful o ∧ s.step o = some s'

/-- An action that runs removes the handler it was made for, or nothing. -/
def OwnOnly (s s' : Objects E K H) : Prop :=
  ∀ x, s'.runs = x :: s.runs → ∀ e ev ev', s.events e = .alive ev → s'.events e = .alive ev' →
    ∀ p ∈ ev.handlers, p ∉ ev'.handlers → ⟨e, p.1⟩ = x ∧ (x, p.2) ∈ s.created ∧ ∀ h, (x, h) ∈ s.created → h = p.2

end Objects

/-! ## Where the actions are -/

/-- Every action is in one token, or has run once, or was detached. -/
structure Placed (names : List (EraseAction E)) (tokens : K → Option (Subscription E))
    (runs detached : List (EraseAction E)) : Prop where
  place : ∀ x, x ∈ names ↔ (∃ k, tokens k = some (some x)) ∨ x ∈ runs ∨ x ∈ detached
  token : ∀ k x, tokens k = some (some x) →
    x ∉ runs ∧ x ∉ detached ∧ ∀ k', tokens k' = some (some x) → k' = k
  once : runs.Nodup
  apart : ∀ x ∈ runs, x ∉ detached

section

variable {names : List (EraseAction E)} {tokens tokens' : K → Option (Subscription E)}
  {runs detached : List (EraseAction E)} {k other : K} {x : EraseAction E}

/-- The tokens have changed places. -/
theorem Placed.swap (P : Placed names tokens runs detached)
    (hto : ∀ k x, tokens' k = some (some x) → ∃ j, tokens j = some (some x) ∧
      ∀ k', tokens' k' = some (some x) → k' = k)
    (hof : ∀ k x, tokens k = some (some x) → ∃ j, tokens' j = some (some x)) :
    Placed names tokens' runs detached := by
  refine ⟨fun x => ?_, fun k x hk => ?_, P.once, P.apart⟩
  · rw [P.place x]
    refine or_congr_left ⟨?_, ?_⟩
    · rintro ⟨k, hk⟩
      exact hof k x hk
    · rintro ⟨k, hk⟩
      obtain ⟨j, hj, -⟩ := hto k x hk
      exact ⟨j, hj⟩
  · obtain ⟨j, hj, hone⟩ := hto k x hk
    obtain ⟨hruns, hdetached, -⟩ := P.token j x hj
    exact ⟨hruns, hdetached, hone⟩

variable [DecidableEq K]

theorem token_update {m : Option (Subscription E)} {k' : K} :
    update tokens k m k' = some (some x) ↔ k' = k ∧ m = some (some x) ∨ k' ≠ k ∧ tokens k' = some (some x) := by
  rw [update_apply]
  split
  · simp [*]
  · simp [*]

/-- A token that has no action gets none. -/
theorem Placed.empty (P : Placed names tokens runs detached) (hk : ∀ x, tokens k ≠ some (some x))
    {m : Option (Subscription E)} (hm : ∀ x, m ≠ some (some x)) : Placed names (update tokens k m) runs detached := by
  refine P.swap (fun j x hj => ?_) fun j x hj => ⟨j, ?_⟩
  · rcases token_update.mp hj with ⟨-, h⟩ | ⟨hne, h⟩
    · exact absurd h (hm x)
    · refine ⟨j, h, fun k' hk' => ?_⟩
      rcases token_update.mp hk' with ⟨-, h'⟩ | ⟨-, h'⟩
      · exact absurd h' (hm x)
      · exact (P.token j x h).2.2 k' h'
  · refine token_update.mpr (.inr ⟨?_, hj⟩)
    rintro rfl
    exact hk x hj

/-- A token that has no action takes that of another one. -/
theorem Placed.move (P : Placed names tokens runs detached) (hne : k ≠ other) (hk : ∀ x, tokens k ≠ some (some x)) :
    Placed names (update (update tokens k (tokens other)) other (some none)) runs detached := by
  have hmoved : ∀ {j x}, update (update tokens k (tokens other)) other (some none) j = some (some x) ↔
      j = k ∧ tokens other = some (some x) ∨ j ≠ k ∧ j ≠ other ∧ tokens j = some (some x) := by
    intro j x
    rw [token_update, token_update]
    constructor
    · rintro (⟨-, h⟩ | ⟨h₁, h | h⟩)
      · cases h
      · exact .inl h
      · exact .inr ⟨h.1, h₁, h.2⟩
    · rintro (⟨rfl, h⟩ | ⟨h₁, h₂, h⟩)
      · exact .inr ⟨hne, .inl ⟨rfl, h⟩⟩
      · exact .inr ⟨h₂, .inr ⟨h₁, h⟩⟩
  refine P.swap (fun j x hj => ?_) fun j x hj => ?_
  · rcases hmoved.mp hj with ⟨rfl, h⟩ | ⟨h₁, h₂, h⟩
    · refine ⟨other, h, fun k' hk' => ?_⟩
      rcases hmoved.mp hk' with ⟨rfl, -⟩ | ⟨-, h', h''⟩
      · rfl
      · exact absurd ((P.token other x h).2.2 k' h'') h'
    · refine ⟨j, h, fun k' hk' => ?_⟩
      rcases hmoved.mp hk' with ⟨rfl, h'⟩ | ⟨-, -, h'⟩
      · exact absurd ((P.token other x h').2.2 j h) h₂
      · exact (P.token j x h).2.2 k' h'
  · by_cases hjo : j = other
    · subst hjo
      exact ⟨k, hmoved.mpr (.inl ⟨rfl, hj⟩)⟩
    · refine ⟨j, hmoved.mpr (.inr ⟨?_, hjo, hj⟩)⟩
      rintro rfl
      exact hk x hj

/-- An action leaves its token, to be run or dropped. -/
theorem Placed.leave (P : Placed names tokens runs detached) (hx : tokens k = some (some x))
    {runs' detached' : List (EraseAction E)}
    (h : runs' = x :: runs ∧ detached' = detached ∨ runs' = runs ∧ detached' = x :: detached) :
    Placed names (update tokens k (some none)) runs' detached' := by
  obtain ⟨hruns, hdetached, hone⟩ := P.token k x hx
  have hrest : ∀ {j y}, update tokens k (some none) j = some (some y) ↔ tokens j = some (some y) ∧ y ≠ x := by
    intro j y
    rw [token_update]
    constructor
    · rintro (⟨-, hy⟩ | ⟨hj, hy⟩)
      · cases hy
      · refine ⟨hy, ?_⟩
        rintro rfl
        exact hj (hone j hy)
    · rintro ⟨h, hne⟩
      refine .inr ⟨?_, h⟩
      rintro rfl
      rw [hx] at h
      exact hne (Option.some.inj (Option.some.inj h)).symm
  have hgone : ∀ y, (y ∈ runs' ∨ y ∈ detached') ↔ y = x ∨ y ∈ runs ∨ y ∈ detached := by
    intro y
    rcases h with ⟨rfl, rfl⟩ | ⟨rfl, rfl⟩
    · rw [List.mem_cons, or_assoc]
    · rw [List.mem_cons, or_left_comm]
  refine ⟨fun y => ?_, fun j y hj => ?_, ?_, ?_⟩
  · rw [P.place y, hgone]
    by_cases hy : y = x
    · subst hy
      exact iff_of_true (.inl ⟨k, hx⟩) (.inr (.inl rfl))
    · simp only [hrest, hy, ne_eq, not_false_eq_true, and_true, false_or]
  · obtain ⟨hj, hne⟩ := hrest.mp hj
    obtain ⟨h₁, h₂, h₃⟩ := P.token j y hj
    have hnot : ¬ (y ∈ runs' ∨ y ∈ detached') := by
      rw [hgone]
      rintro (h | h | h)
      · exact hne h
      · exact h₁ h
      · exact h₂ h
    exact ⟨fun h => hnot (.inl h), fun h => hnot (.inr h), fun k' hk' => h₃ k' (hrest.mp hk').1⟩
  · rcases h with ⟨rfl, -⟩ | ⟨rfl, -⟩
    · exact List.nodup_cons.mpr ⟨hruns, P.once⟩
    · exact P.once
  · intro y hy
    rcases h with ⟨rfl, rfl⟩ | ⟨rfl, rfl⟩
    · rcases List.mem_cons.mp hy with rfl | hy
      · exact hdetached
      · exact P.apart y hy
    · rw [List.mem_cons, not_or]
      refine ⟨?_, P.apart y hy⟩
      rintro rfl
      exact hruns hy

/-- A new subscription. -/
theorem Placed.subscribe (P : Placed names tokens runs detached) (hk : tokens k = none) (hx : x ∉ names) :
    Placed (x :: names) (update tokens k (some (some x))) runs detached := by
  rw [P.place, not_or, not_or, not_exists] at hx
  obtain ⟨hnone, hruns, hdetached⟩ := hx
  refine ⟨fun y => ?_, fun j y hj => ?_, P.once, P.apart⟩
  · rw [List.mem_cons, P.place y, ← or_assoc]
    refine or_congr_left ⟨?_, ?_⟩
    · rintro (rfl | ⟨j, hj⟩)
      · exact ⟨k, update_self ..⟩
      · refine ⟨j, token_update.mpr (.inr ⟨?_, hj⟩)⟩
        rintro rfl
        rw [hk] at hj
        cases hj
    · rintro ⟨j, hj⟩
      rcases token_update.mp hj with ⟨-, h⟩ | ⟨-, h⟩
      · exact .inl (Option.some.inj (Option.some.inj h)).symm
      · exact .inr ⟨j, h⟩
  · rcases token_update.mp hj with ⟨rfl, h⟩ | ⟨hne, h⟩
    · obtain rfl := Option.some.inj (Option.some.inj h)
      refine ⟨hruns, hdetached, fun k' hk' => ?_⟩
      rcases token_update.mp hk' with ⟨h', -⟩ | ⟨-, h'⟩
      · exact h'
      · exact absurd h' (hnone k')
    · obtain ⟨h₁, h₂, h₃⟩ := P.token j y h
      refine ⟨h₁, h₂, fun k' hk' => ?_⟩
      rcases token_update.mp hk' with ⟨-, h'⟩ | ⟨-, h'⟩
      · obtain rfl := Option.some.inj (Option.some.inj h')
        exact absurd h (hnone j)
      · exact h₃ k' h'

end

/-! ## Which handlers an event has -/

/-- An event has the handlers subscribed to it whose actions have not run, but for those cleared. -/
structure Listed (events : E → Lifetime (Event H)) (created : List (EraseAction E × H))
    (runs cleared : List (EraseAction E)) : Prop where
  ordered : ∀ e ev, events e = .alive ev → ev.Ordered
  born : ∀ p ∈ created, events p.1.event ≠ .unborn
  below : ∀ p ∈ created, ∀ ev, events p.1.event = .alive ev → p.1.id < ev.nextId
  named : (created.map Prod.fst).Nodup
  handlers : ∀ e ev, events e = .alive ev → ∀ p, p ∈ ev.handlers ↔
    (⟨e, p.1⟩, p.2) ∈ created ∧ ⟨e, p.1⟩ ∉ runs ∧ ⟨e, p.1⟩ ∉ cleared
  known : ∀ x, x ∈ runs ∨ x ∈ cleared → x ∈ created.map Prod.fst

section

variable [DecidableEq E] {events : E → Lifetime (Event H)} {created : List (EraseAction E × H)}
  {runs cleared : List (EraseAction E)} {e : E} {ev ev' : Event H} {x : EraseAction E}

theorem event_update {l : Lifetime (Event H)} {e' : E} :
    update events e l e' = .alive ev' ↔ e' = e ∧ l = .alive ev' ∨ e' ≠ e ∧ events e' = .alive ev' := by
  rw [update_apply]
  split
  · simp [*]
  · simp [*]

theorem Listed.newEvent (L : Listed events created runs cleared) (he : events e = .unborn) :
    Listed (update events e (.alive {})) created runs cleared := by
  -- nobody has subscribed to it
  have hother : ∀ p ∈ created, p.1.event ≠ e := by
    rintro p hp rfl
    exact L.born p hp he
  refine ⟨fun e' ev' h => ?_, fun p hp => ?_, fun p hp ev' h => ?_, L.named, fun e' ev' h p => ?_, L.known⟩
  · rcases event_update.mp h with ⟨-, h⟩ | ⟨-, h⟩
    · obtain rfl := Lifetime.alive.inj h
      exact .new
    · exact L.ordered e' ev' h
  · rw [update_of_ne (hother p hp)]
    exact L.born p hp
  · rcases event_update.mp h with ⟨heq, -⟩ | ⟨-, h⟩
    · exact absurd heq (hother p hp)
    · exact L.below p hp ev' h
  · rcases event_update.mp h with ⟨rfl, h'⟩ | ⟨-, h⟩
    · obtain rfl := Lifetime.alive.inj h'
      refine iff_of_false List.not_mem_nil ?_
      rintro ⟨hp, -⟩
      exact hother _ hp rfl
    · exact L.handlers e' ev' h p

theorem Listed.destroyEvent (L : Listed events created runs cleared) :
    Listed (update events e .destroyed) created runs cleared := by
  have hold : ∀ {e' ev'}, update events e .destroyed e' = .alive ev' → events e' = .alive ev' := by
    intro e' ev' h
    rcases event_update.mp h with ⟨-, h⟩ | ⟨-, h⟩
    · cases h
    · exact h
  refine ⟨fun e' ev' h => L.ordered e' ev' (hold h), fun p hp => ?_, fun p hp ev' h => L.below p hp ev' (hold h),
    L.named, fun e' ev' h => L.handlers e' ev' (hold h), L.known⟩
  rw [update_apply]
  split
  · simp
  · exact L.born p hp

/-- An event loses some of its handlers, and the lists say why. -/
theorem Listed.shrink (L : Listed events created runs cleared) (he : events e = .alive ev)
    (ho : ev'.Ordered) (hid : ev'.nextId = ev.nextId) {runs' cleared' : List (EraseAction E)}
    (hgone : ∀ p, p ∈ ev'.handlers ↔ p ∈ ev.handlers ∧ ⟨e, p.1⟩ ∉ runs' ∧ ⟨e, p.1⟩ ∉ cleared')
    (hruns : ∀ x, x ∈ runs' ↔ x ∈ runs ∨ x ∈ runs' ∧ x.event = e ∧ x ∈ created.map Prod.fst)
    (hcleared : ∀ x, x ∈ cleared' ↔ x ∈ cleared ∨ x ∈ cleared' ∧ x.event = e ∧ x ∈ created.map Prod.fst) :
    Listed (update events e (.alive ev')) created runs' cleared' := by
  refine ⟨fun e' ev'' h => ?_, fun p hp => ?_, fun p hp ev'' h => ?_, L.named, fun e' ev'' h p => ?_,
    fun x hx => ?_⟩
  · rcases event_update.mp h with ⟨-, h⟩ | ⟨-, h⟩
    · obtain rfl := Lifetime.alive.inj h
      exact ho
    · exact L.ordered e' ev'' h
  · rw [update_apply]
    split
    · simp
    · exact L.born p hp
  · rcases event_update.mp h with ⟨heq, h⟩ | ⟨-, h⟩
    · obtain rfl := Lifetime.alive.inj h
      rw [hid]
      exact L.below p hp ev (heq ▸ he)
    · exact L.below p hp ev'' h
  · rcases event_update.mp h with ⟨rfl, h'⟩ | ⟨hne, h⟩
    · obtain rfl := Lifetime.alive.inj h'
      rw [hgone, L.handlers e' ev he p]
      constructor
      · rintro ⟨⟨hp, -, -⟩, hr, hc⟩
        exact ⟨hp, hr, hc⟩
      · rintro ⟨hp, hr, hc⟩
        exact ⟨⟨hp, fun h => hr ((hruns _).mpr (.inl h)), fun h => hc ((hcleared _).mpr (.inl h))⟩, hr, hc⟩
    · have hr : (⟨e', p.1⟩ : EraseAction E) ∈ runs' ↔ ⟨e', p.1⟩ ∈ runs := by
        rw [hruns]
        exact or_iff_left fun h => hne h.2.1
      have hc : (⟨e', p.1⟩ : EraseAction E) ∈ cleared' ↔ ⟨e', p.1⟩ ∈ cleared := by
        rw [hcleared]
        exact or_iff_left fun h => hne h.2.1
      rw [L.handlers e' ev'' h p, hr, hc]
  · rcases hx with hx | hx
    · rcases (hruns x).mp hx with h | h
      · exact L.known x (.inl h)
      · exact h.2.2
    · rcases (hcleared x).mp hx with h | h
      · exact L.known x (.inr h)
      · exact h.2.2

theorem Listed.clear (L : Listed events created runs cleared) (he : events e = .alive ev) :
    Listed (update events e (.alive ev.clear)) created runs (ev.handlers.map (fun p => ⟨e, p.1⟩) ++ cleared) := by
  refine L.shrink he (.clear _) rfl (fun p => ?_) (fun x => ?_) fun x => ?_
  · refine iff_of_false List.not_mem_nil ?_
    rintro ⟨hp, -, hc⟩
    exact hc (List.mem_append_left _ (List.mem_map.mpr ⟨p, hp, rfl⟩))
  · exact ⟨fun h => .inl h, fun h => h.elim (fun h => h) fun h => h.1⟩
  · constructor
    · intro hx
      rcases List.mem_append.mp hx with h | h
      · obtain ⟨p, hp, rfl⟩ := List.mem_map.mp h
        have hcreated := ((L.handlers e ev he p).mp hp).1
        exact .inr ⟨hx, rfl, List.mem_map.mpr ⟨_, hcreated, rfl⟩⟩
      · exact .inl h
    · rintro (h | h)
      · exact List.mem_append_right _ h
      · exact h.1

/-- An action runs while its event is there. -/
theorem Listed.run (L : Listed events created runs cleared) (he : events x.event = .alive ev)
    (hx : x ∈ created.map Prod.fst) :
    Listed (update events x.event (.alive (ev.erase x.id))) created (x :: runs) cleared := by
  obtain ⟨e, id⟩ := x
  refine L.shrink he ((L.ordered e ev he).erase id) rfl (fun p => ?_) (fun y => ?_) fun y => ?_
  · rw [Event.mem_erase, List.mem_cons, not_or]
    constructor
    · rintro ⟨hp, hne⟩
      obtain ⟨-, hr, hc⟩ := (L.handlers e ev he p).mp hp
      exact ⟨hp, ⟨fun heq => hne (EraseAction.mk.inj heq).2, hr⟩, hc⟩
    · rintro ⟨hp, ⟨hne, -⟩, -⟩
      exact ⟨hp, fun heq => hne (congrArg (EraseAction.mk e) heq)⟩
  · constructor
    · intro hy
      rcases List.mem_cons.mp hy with rfl | h
      · exact .inr ⟨hy, rfl, hx⟩
      · exact .inl h
    · rintro (h | h)
      · exact List.mem_cons_of_mem _ h
      · exact h.1
  · exact ⟨fun h => .inl h, fun h => h.elim (fun h => h) fun h => h.1⟩

/-- An action runs when its event is gone. -/
theorem Listed.runGone (L : Listed events created runs cleared) (he : ∀ ev, events x.event ≠ .alive ev)
    (hx : x ∈ created.map Prod.fst) : Listed events created (x :: runs) cleared := by
  refine ⟨L.ordered, L.born, L.below, L.named, fun e ev h p => ?_, fun y hy => ?_⟩
  · have hne : (⟨e, p.1⟩ : EraseAction E) ≠ x := by
      rintro rfl
      exact he ev h
    rw [L.handlers e ev h p, List.mem_cons, not_or]
    simp only [hne, not_false_eq_true, true_and]
  · rw [List.mem_cons, or_assoc] at hy
    rcases hy with rfl | hy
    · exact hx
    · exact L.known y hy

theorem Listed.new_name (L : Listed events created runs cleared) (he : events e = .alive ev) :
    ⟨e, ev.nextId⟩ ∉ created.map Prod.fst := by
  intro hmem
  obtain ⟨p, hp, heq⟩ := List.mem_map.mp hmem
  have hlt := L.below p hp ev (by rw [heq]; exact he)
  rw [heq] at hlt
  exact Nat.lt_irrefl _ hlt

theorem Listed.subscribe (L : Listed events created runs cleared) (he : events e = .alive ev) (handler : H) :
    Listed (update events e (.alive (ev.subscribe handler).1)) ((⟨e, ev.nextId⟩, handler) :: created) runs
      cleared := by
  have hnew := L.new_name he
  have ho := L.ordered e ev he
  refine ⟨fun e' ev' h => ?_, fun p hp => ?_, fun p hp ev' h => ?_, List.nodup_cons.mpr ⟨hnew, L.named⟩,
    fun e' ev' h p => ?_, fun x hx => List.mem_cons_of_mem _ (L.known x hx)⟩
  · rcases event_update.mp h with ⟨-, h⟩ | ⟨-, h⟩
    · obtain rfl := Lifetime.alive.inj h
      exact ho.subscribe handler
    · exact L.ordered e' ev' h
  · rw [update_apply]
    split
    · simp
    · rename_i hne
      rcases List.mem_cons.mp hp with rfl | hp
      · exact absurd rfl hne
      · exact L.born p hp
  · rcases event_update.mp h with ⟨heq, h⟩ | ⟨hne, h⟩
    · obtain rfl := Lifetime.alive.inj h
      show p.1.id < ev.nextId + 1
      rcases List.mem_cons.mp hp with rfl | hp
      · exact Nat.lt_succ_self _
      · have hlt := L.below p hp ev (heq ▸ he)
        omega
    · rcases List.mem_cons.mp hp with rfl | hp
      · exact absurd rfl hne
      · exact L.below p hp ev' h
  · rcases event_update.mp h with ⟨rfl, h'⟩ | ⟨hne, h⟩
    · obtain rfl := Lifetime.alive.inj h'
      rw [ho.subscribe_handlers, List.mem_append, List.mem_singleton, L.handlers e' ev he p, List.mem_cons]
      constructor
      · rintro (⟨hp, hr, hc⟩ | rfl)
        · exact ⟨.inr hp, hr, hc⟩
        · exact ⟨.inl rfl, fun h => hnew (L.known _ (.inl h)), fun h => hnew (L.known _ (.inr h))⟩
      · rintro ⟨heq | hp, hr, hc⟩
        · right
          obtain ⟨h₁, h₂⟩ := Prod.mk.inj heq
          exact Prod.ext (EraseAction.mk.inj h₁).2 h₂
        · exact .inl ⟨hp, hr, hc⟩
    · rw [L.handlers e' ev' h p, List.mem_cons]
      have hold : ((⟨e', p.1⟩, p.2) : EraseAction E × H) ≠ (⟨e, ev.nextId⟩, handler) := by
        intro heq
        exact hne (EraseAction.mk.inj (Prod.mk.inj heq).1).1
      simp only [hold, false_or]

end

/-! ## Runs -/

namespace Objects

variable [DecidableEq E] [DecidableEq K]

structure Sound (s : Objects E K H) : Prop where
  placed : Placed (s.created.map Prod.fst) s.tokens s.runs s.detached
  listed : Listed s.events s.created s.runs s.cleared

variable {s s' : Objects E K H} {k other : K} {x : EraseAction E}

theorem unsubscribe_tokens (s : Objects E K H) (k : K) (x : EraseAction E) :
    (s.unsubscribe k).tokens k ≠ some (some x) := by
  unfold unsubscribe
  split
  · simp [setToken]
  · rename_i h
    exact h x

theorem run_created (s : Objects E K H) (x : EraseAction E) : (s.run x).created = s.created := by
  unfold run
  split <;> rfl

theorem run_runs (s : Objects E K H) (x : EraseAction E) : (s.run x).runs = x :: s.runs := by
  unfold run
  split <;> rfl

theorem run_cleared (s : Objects E K H) (x : EraseAction E) : (s.run x).cleared = s.cleared := by
  unfold run
  split <;> rfl

theorem run_tokens (s : Objects E K H) (x : EraseAction E) : (s.run x).tokens = s.tokens := by
  unfold run
  split <;> rfl

theorem run_detached (s : Objects E K H) (x : EraseAction E) : (s.run x).detached = s.detached := by
  unfold run
  split <;> rfl

/-- **`Unsubscribe`.** -/
theorem Sound.unsubscribe (S : s.Sound) (k : K) : (s.unsubscribe k).Sound := by
  unfold Objects.unsubscribe
  split
  · rename_i x hx
    have hname : x ∈ s.created.map Prod.fst := (S.placed.place x).mpr (.inl ⟨k, hx⟩)
    constructor
    · show Placed ((s.run x).created.map Prod.fst) (update (s.run x).tokens k (some none)) (s.run x).runs (s.run x).detached
      rw [run_created, run_runs, run_tokens, run_detached]
      exact S.placed.leave hx (.inl ⟨rfl, rfl⟩)
    · show Listed (s.run x).events (s.run x).created (s.run x).runs (s.run x).cleared
      rw [run_created, run_runs, run_cleared]
      unfold run
      split
      · exact S.listed.run ‹_› hname
      · rename_i hgone
        exact S.listed.runGone hgone hname
  · exact S

theorem Sound.moveFrom (S : s.Sound) (hne : k ≠ other) (hk : ∀ x, s.tokens k ≠ some (some x)) :
    (s.moveFrom k other).Sound := ⟨S.placed.move hne hk, S.listed⟩

theorem Sound.step (S : s.Sound) {o : Operation E K H} (h : s.step o = some s') : s'.Sound := by
  cases o with
  | newEvent e =>
    simp only [Objects.step] at h
    split at h
    · obtain rfl := Option.some.inj h
      exact ⟨S.placed, S.listed.newEvent ‹_›⟩
    · cases h
  | destroyEvent e =>
    simp only [Objects.step] at h
    split at h
    · obtain rfl := Option.some.inj h
      exact ⟨S.placed, S.listed.destroyEvent⟩
    · cases h
  | clear e =>
    simp only [Objects.step] at h
    split at h
    · obtain rfl := Option.some.inj h
      exact ⟨S.placed, S.listed.clear ‹_›⟩
    · cases h
  | subscribe e k handler =>
    simp only [Objects.step] at h
    split at h
    · obtain rfl := Option.some.inj h
      rename_i he hk
      exact ⟨S.placed.subscribe hk (S.listed.new_name he), S.listed.subscribe he handler⟩
    · cases h
  | construct k =>
    simp only [Objects.step] at h
    split at h
    · obtain rfl := Option.some.inj h
      exact ⟨S.placed.empty (by simp [*]) (by simp), S.listed⟩
    · cases h
  | moveConstruct k other =>
    simp only [Objects.step] at h
    split at h
    · obtain rfl := Option.some.inj h
      rename_i hk hother
      refine S.moveFrom ?_ (by simp [hk])
      rintro rfl
      rw [hk] at hother
      cases hother
    · cases h
  | moveAssign k other =>
    simp only [Objects.step] at h
    split at h
    · split at h
      · obtain rfl := Option.some.inj h
        exact S
      · obtain rfl := Option.some.inj h
        exact (S.unsubscribe k).moveFrom ‹_› (unsubscribe_tokens s k)
    · cases h
  | unsubscribe k =>
    simp only [Objects.step] at h
    split at h
    · obtain rfl := Option.some.inj h
      exact S.unsubscribe k
    · cases h
  | detach k =>
    simp only [Objects.step] at h
    split at h
    · obtain rfl := Option.some.inj h
      rename_i m hk
      cases m with
      | none => exact ⟨S.placed.empty (by simp [hk]) (by simp), S.listed⟩
      | some x => exact ⟨S.placed.leave hk (.inr ⟨rfl, rfl⟩), S.listed⟩
    · cases h
  | destroy k =>
    simp only [Objects.step] at h
    split at h
    · obtain rfl := Option.some.inj h
      have U := S.unsubscribe k
      exact ⟨U.placed.empty (unsubscribe_tokens s k) (by simp), U.listed⟩
    · cases h

theorem sound (h : Reachable (system E K H) s) : s.Sound := by
  apply h.invariant (I := Sound)
  · rintro s rfl
    exact ⟨⟨by simp [start], by simp [start], List.nodup_nil, by simp [start]⟩,
      ⟨by simp [start], by simp [start], by simp [start], List.nodup_nil, by simp [start], by simp [start]⟩⟩
  · rintro s s' - S ⟨o, ho⟩
    exact S.step ho

/-! ## The action that an operation runs -/

def ran (s : Objects E K H) (o : Operation E K H) : Option (EraseAction E) :=
  o.unsubscribes.bind fun k => (s.tokens k).join

/-- What an operation may do to the events and to the history of the actions: that of `run`, or nothing. -/
def Runs (s s' : Objects E K H) : Option (EraseAction E) → Prop
  | some x => s'.events = (s.run x).events ∧ s'.runs = (s.run x).runs ∧ s'.dangling = (s.run x).dangling
  | none => s'.runs = s.runs ∧ s'.dangling = s.dangling

theorem unsubscribe_runs (s : Objects E K H) (k : K) : s.Runs (s.unsubscribe k) (s.tokens k).join := by
  cases hk : s.tokens k with
  | none => simp [Objects.unsubscribe, Runs, hk]
  | some m =>
    cases m with
    | none => simp [Objects.unsubscribe, Runs, hk]
    | some x => simp [Objects.unsubscribe, Runs, hk, setToken]

theorem Runs.congr {s'' : Objects E K H} {r : Option (EraseAction E)} (h : s.Runs s' r)
    (he : s''.events = s'.events) (hr : s''.runs = s'.runs) (hd : s''.dangling = s'.dangling) : s.Runs s'' r := by
  cases r with
  | none => exact ⟨hr.trans h.1, hd.trans h.2⟩
  | some x => exact ⟨he.trans h.1, hr.trans h.2.1, hd.trans h.2.2⟩

theorem step_runs {o : Operation E K H} (h : s.step o = some s') : s.Runs s' (s.ran o) := by
  cases o with
  | moveAssign k other =>
    simp only [Objects.step] at h
    split at h
    · rename_i hk hother
      split at h
      · obtain rfl := Option.some.inj h
        rw [ran, Operation.unsubscribes, if_pos ‹_›]
        exact ⟨rfl, rfl⟩
      · obtain rfl := Option.some.inj h
        rw [ran, Operation.unsubscribes, if_neg ‹_›]
        exact (unsubscribe_runs s k).congr rfl rfl rfl
    · cases h
  | unsubscribe k | destroy k =>
    simp only [Objects.step] at h
    split at h
    · obtain rfl := Option.some.inj h
      exact (unsubscribe_runs s k).congr rfl rfl rfl
    · cases h
  | _ =>
    simp only [Objects.step] at h
    split at h
    · obtain rfl := Option.some.inj h
      exact ⟨rfl, rfl⟩
    · cases h

theorem Sound.own (S : s.Sound) {o : Operation E K H} (h : s.step o = some s') : s.OwnOnly s' := by
  intro x hx e ev ev' he he' p hp hgone
  have hruns := step_runs h
  -- the operation has run an action, so that is the one
  cases hr : s.ran o with
  | none =>
    rw [hr] at hruns
    rw [hruns.1] at hx
    exact absurd hx (List.cons_ne_self x s.runs).symm
  | some y =>
    rw [hr] at hruns
    rw [hruns.2.1, run_runs] at hx
    obtain rfl := (List.cons.inj hx).1
    have hy : ⟨e, p.1⟩ = y := by
      have hevents := hruns.1
      unfold run at hevents
      split at hevents
      · rename_i ev'' hy
        rw [hevents] at he'
        rcases event_update.mp he' with ⟨rfl, heq⟩ | ⟨hne, heq⟩
        · obtain rfl := Lifetime.alive.inj heq
          obtain rfl := Lifetime.alive.inj (he.symm.trans hy)
          rw [Event.mem_erase, not_and_not_right] at hgone
          exact congrArg (EraseAction.mk y.event) (hgone hp)
        · obtain rfl := Lifetime.alive.inj (he.symm.trans heq)
          exact absurd hp hgone
      · rw [hevents] at he'
        obtain rfl := Lifetime.alive.inj (he.symm.trans he')
        exact absurd hp hgone
    have hcreated := ((S.listed.handlers e ev he p).mp hp).1
    rw [hy] at hcreated
    refine ⟨hy, hcreated, fun handler hh => ?_⟩
    exact (Prod.mk.inj (List.inj_on_of_nodup_map S.listed.named hh hcreated rfl)).2

end Objects

end JunCore.Core
