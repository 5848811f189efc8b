/-
  `JunCore/core/Event.h`, `Event`: handlers under ids, and what `Invoke` makes of them while they change.

  `Invoke` walks through a copy of the handlers, and looks each of them up again when its turn comes.  A
  handler may do to its event what it likes: subscribe another handler, unsubscribe itself or others,
  clear the event, or invoke it again, which walks through a copy of its own.  So a state has a stack of
  calls of `Invoke`, the innermost first, and whichever code is running at the top decides what comes
  next: that is every program for the handlers, in every order of the copies.

  `m_nextId` has 64 bits and counts the subscriptions; it is a natural number here.  The arguments that
  `Invoke` passes on are left out.
-/
import JunCore.Lib.Precedence
import JunCore.Lib.Transition
import Mathlib.Data.List.Perm.Basic

set_option linter.unusedVariables false
set_option linter.unusedSectionVars false

namespace JunCore.Core

open Transition Precedence

variable {H : Type}

/-! ## The event -/

structure Event (H : Type) where
  /-- `m_handlers` -/
  handlers : List (Nat × H) := []
  /-- `m_nextId` -/
  nextId : Nat := 0

namespace Event

/-- `m_handlers.contains(id)` -/
def contains (e : Event H) (id : Nat) : Bool := e.handlers.any fun p => p.1 == id

/-- `m_handlers.erase(id)` -/
def erase (e : Event H) (id : Nat) : Event H :=
  { e with handlers := e.handlers.filter fun p => p.1 != id }

/-- `m_handlers[id] = std::move(handler)` -/
def set (e : Event H) (id : Nat) (handler : H) : Event H :=
  { e with handlers := (e.erase id).handlers ++ [(id, handler)] }

/-- The id is what the token that it returns knows. -/
def subscribe (e : Event H) (handler : H) : Event H × Nat :=
  ({ e.set e.nextId handler with nextId := e.nextId + 1 }, e.nextId)

def clear (e : Event H) : Event H := { e with handlers := [] }

/-- The handlers have different ids, all given out. -/
structure Ordered (e : Event H) : Prop where
  below : ∀ p ∈ e.handlers, p.1 < e.nextId
  nodup : (e.handlers.map Prod.fst).Nodup

theorem contains_iff {e : Event H} {id : Nat} : e.contains id = true ↔ ∃ p ∈ e.handlers, p.1 = id := by
  simp [contains]

theorem mem_erase {e : Event H} {id : Nat} {p : Nat × H} :
    p ∈ (e.erase id).handlers ↔ p ∈ e.handlers ∧ p.1 ≠ id := by
  simp [erase]

theorem Ordered.eq_of_id {e : Event H} (O : e.Ordered) {p q : Nat × H} (hp : p ∈ e.handlers)
    (hq : q ∈ e.handlers) (h : p.1 = q.1) : p = q :=
  List.inj_on_of_nodup_map O.nodup hp hq h

/-- Nothing is overwritten. -/
theorem Ordered.subscribe_handlers {e : Event H} (O : e.Ordered) (handler : H) :
    (e.subscribe handler).1.handlers = e.handlers ++ [(e.nextId, handler)] := by
  have hfilter : e.handlers.filter (fun p => p.1 != e.nextId) = e.handlers := by
    refine List.filter_eq_self.mpr fun p hp => ?_
    have hlt := O.below p hp
    exact bne_iff_ne.mpr (by omega)
  show e.handlers.filter (fun p => p.1 != e.nextId) ++ _ = _
  rw [hfilter]

theorem Ordered.subscribe {e : Event H} (O : e.Ordered) (handler : H) : (e.subscribe handler).1.Ordered := by
  constructor
  · intro p hp
    rw [O.subscribe_handlers, List.mem_append, List.mem_singleton] at hp
    show p.1 < e.nextId + 1
    rcases hp with hp | rfl
    · have hlt := O.below p hp
      omega
    · exact Nat.lt_succ_self _
  · rw [O.subscribe_handlers, List.map_append, List.nodup_append]
    refine ⟨O.nodup, List.nodup_singleton _, ?_⟩
    intro id hid id' hid' heq
    obtain ⟨p, hp, rfl⟩ := List.mem_map.mp hid
    have hlt := O.below p hp
    rw [List.map_singleton, List.mem_singleton] at hid'
    have hnew : id' = e.nextId := hid'
    omega

theorem Ordered.erase {e : Event H} (O : e.Ordered) (id : Nat) : (e.erase id).Ordered where
  below p hp := O.below p (mem_erase.mp hp).1
  nodup := O.nodup.sublist (List.filter_sublist.map Prod.fst)

theorem Ordered.clear (e : Event H) : e.clear.Ordered := ⟨by simp [Event.clear], by simp [Event.clear]⟩

theorem Ordered.new : ({} : Event H).Ordered := ⟨by simp, by simp⟩

end Event

/-! ## `Invoke` and the code that runs in between -/

/-- A call of `Invoke`: its number, what is left of `handlersCopy`, and whether a handler of it is
    running. -/
structure Frame (H : Type) where
  call : Nat
  rest : List (Nat × H)
  running : Bool

/-- What the log keeps. -/
inductive Entry (H : Type)
  | subscribed (p : Nat × H)
  | erased (id : Nat)
  | cleared
  /-- `Invoke` has made its copy -/
  | started (k : Nat)
  /-- the turn of a handler has come: whether it is called -/
  | turn (k : Nat) (p : Nat × H) (called : Bool)
  /-- `Invoke` returns -/
  | ended (k : Nat)
  deriving DecidableEq

structure Invocations (H : Type) where
  event : Event H := {}
  frames : List (Frame H) := []
  log : List (Entry H) := []

/-- What the code at the top does next: `order` is the order of the copy.  `go` ends a handler, or goes on
    with the loop. -/
inductive Act (H : Type)
  | subscribe (handler : H)
  | unsubscribe (id : Nat)
  | clear
  | invoke (order : List (Nat × H))
  | go

namespace Invocations

/-- A handler, or the code around all the calls, is running. -/
def acting (s : Invocations H) : Bool :=
  match s.frames with
  | [] => true
  | f :: _ => f.running

variable [DecidableEq H]

def step (s : Invocations H) : Act H → Option (Invocations H)
  | .subscribe handler =>
    if s.acting then
      some { s with
        event := (s.event.subscribe handler).1
        log := s.log ++ [.subscribed ((s.event.subscribe handler).2, handler)] }
    else none
  | .unsubscribe id =>
    if s.acting then some { s with event := s.event.erase id, log := s.log ++ [.erased id] } else none
  | .clear =>
    if s.acting then some { s with event := s.event.clear, log := s.log ++ [.cleared] } else none
  | .invoke order =>
    if s.acting ∧ order.Perm s.event.handlers then
      some { s with
        frames := ⟨s.log.length, order, false⟩ :: s.frames
        log := s.log ++ [.started s.log.length] }
    else none
  | .go =>
    match s.frames with
    | [] => none
    | ⟨k, rest, true⟩ :: fs => some { s with frames := ⟨k, rest, false⟩ :: fs }
    | ⟨k, [], false⟩ :: fs => some { s with frames := fs, log := s.log ++ [.ended k] }
    | ⟨k, p :: rest, false⟩ :: fs =>
      some { s with
        frames := ⟨k, rest, s.event.contains p.1⟩ :: fs
        log := s.log ++ [.turn k p (s.event.contains p.1)] }

/-- All programs for the handlers of a new event, and for the code that invokes it. -/
def system (H : Type) [DecidableEq H] : System (Invocations H) where
  init s := s = {}
  next s s' := ∃ a, s.step a = some s'

end Invocations

/-! ## What is to hold -/

/-- Who is subscribed after what the log tells. -/
def Entry.apply (l : List (Nat × H)) : Entry H → List (Nat × H)
  | .subscribed p => l ++ [p]
  | .erased id => l.filter fun p => p.1 != id
  | .cleared => []
  | _ => l

def subscribers (log : List (Entry H)) : List (Nat × H) := log.foldl Entry.apply []

/-- **Re-entrant `Invoke`.**  A turn is of a handler that was subscribed when the call started, and has
    had no turn in this call; it is called just if it is subscribed now.  A call that returns has given a
    turn to every handler that was subscribed when it started. -/
def Fair (log : List (Entry H)) : Entry H → Prop
  | .turn k p called => log[k]? = some (.started k) ∧ p ∈ subscribers (log.take k) ∧
      (∀ b, .turn k p b ∉ log) ∧ (called = true ↔ p ∈ subscribers log)
  | .ended k => log[k]? = some (.started k) ∧ ∀ p ∈ subscribers (log.take k), ∃ b, .turn k p b ∈ log
  | .started k => k = log.length
  | _ => True

/-! ## What a call of `Invoke` knows -/

theorem subscribers_snoc (log : List (Entry H)) (x : Entry H) :
    subscribers (log ++ [x]) = x.apply (subscribers log) := by
  simp [subscribers]

def Entry.turnOf (k : Nat) : Entry H → Option (Nat × H)
  | .turn k' p _ => if k' = k then some p else none
  | _ => none

/-- The handlers that have had a turn in call `k`. -/
def turned (k : Nat) (log : List (Entry H)) : List (Nat × H) := log.filterMap (Entry.turnOf k)

theorem turned_snoc (k : Nat) (log : List (Entry H)) (x : Entry H) :
    turned k (log ++ [x]) = turned k log ++ (x.turnOf k).toList := by
  rw [turned, List.filterMap_append, turned]
  cases h : x.turnOf k <;> simp [h]

theorem mem_turned {k : Nat} {log : List (Entry H)} {p : Nat × H} :
    p ∈ turned k log ↔ ∃ b, .turn k p b ∈ log := by
  rw [turned, List.mem_filterMap]
  constructor
  · rintro ⟨x, hx, hp⟩
    cases x with
    | turn k' q b =>
      by_cases hk : k' = k
      · subst hk
        simp only [Entry.turnOf, if_true, Option.some.injEq] at hp
        exact ⟨b, hp ▸ hx⟩
      · simp [Entry.turnOf, hk] at hp
    | _ => cases hp
  · rintro ⟨b, hb⟩
    exact ⟨_, hb, by simp [Entry.turnOf]⟩

/-- The copy is what was subscribed at the start, part of it has had its turn, and an id in the rest of
    it has not been given to another handler. -/
structure Frame.Sound (e : Event H) (log : List (Entry H)) (f : Frame H) : Prop where
  started : log[f.call]? = some (.started f.call)
  copy : (turned f.call log ++ f.rest).Perm (subscribers (log.take f.call))
  nodup : (turned f.call log ++ f.rest).Nodup
  below : ∀ p ∈ f.rest, p.1 < e.nextId
  same : ∀ p ∈ f.rest, ∀ q ∈ e.handlers, q.1 = p.1 → q = p

section

variable {e e' : Event H} {log : List (Entry H)} {f : Frame H}

theorem Frame.Sound.call_lt (S : f.Sound e log) : f.call < log.length :=
  (List.getElem?_eq_some_iff.mp S.started).1

/-- **A call is not disturbed** by what others do: ids that are new to the event are new to the copy. -/
theorem Frame.Sound.later (S : f.Sound e log) (hid : e.nextId ≤ e'.nextId)
    (hnew : ∀ q ∈ e'.handlers, q ∈ e.handlers ∨ e.nextId ≤ q.1) {x : Entry H}
    (hx : x.turnOf f.call = none) : f.Sound e' (log ++ [x]) := by
  have hlt := S.call_lt
  have hturned : turned f.call (log ++ [x]) = turned f.call log := by
    rw [turned_snoc, hx]
    exact List.append_nil _
  refine ⟨?_, ?_, by rw [hturned]; exact S.nodup, ?_, ?_⟩
  · rw [List.getElem?_append_left hlt]
    exact S.started
  · rw [hturned, List.take_append_of_le_length (Nat.le_of_lt hlt)]
    exact S.copy
  · intro p hp
    exact Nat.lt_of_lt_of_le (S.below p hp) hid
  · intro p hp q hq heq
    rcases hnew q hq with hold | hge
    · exact S.same p hp q hold heq
    · have hlt := S.below p hp
      omega

end

namespace Invocations

/-- **The invariant.** -/
structure Sound (s : Invocations H) : Prop where
  ordered : s.event.Ordered
  log : subscribers s.log = s.event.handlers
  fair : Justified Fair s.log
  frames : ∀ f ∈ s.frames, f.Sound s.event s.log
  calls : (s.frames.map Frame.call).Nodup

variable {s : Invocations H}

/-- The code at the top subscribes, unsubscribes or clears. -/
theorem Sound.change (S : s.Sound) {e : Event H} {x : Entry H} (ho : e.Ordered)
    (hhandlers : x.apply s.event.handlers = e.handlers) (hid : s.event.nextId ≤ e.nextId)
    (hnew : ∀ q ∈ e.handlers, q ∈ s.event.handlers ∨ s.event.nextId ≤ q.1)
    (hx : ∀ k, x.turnOf k = none) (hfair : Fair s.log x) :
    Sound { s with event := e, log := s.log ++ [x] } where
  ordered := ho
  log := by rw [subscribers_snoc, S.log, hhandlers]
  fair := S.fair.snoc hfair
  frames f hf := (S.frames f hf).later hid hnew (hx _)
  calls := S.calls

/-- `Invoke` is called. -/
theorem Sound.invoke (S : s.Sound) {order : List (Nat × H)} (hperm : order.Perm s.event.handlers) :
    Sound { s with
      frames := ⟨s.log.length, order, false⟩ :: s.frames
      log := s.log ++ [.started s.log.length] } := by
  have hturned : turned s.log.length (s.log ++ [Entry.started s.log.length]) = [] := by
    rw [List.eq_nil_iff_forall_not_mem]
    intro p hp
    obtain ⟨b, hb⟩ := mem_turned.mp hp
    rw [List.mem_append, List.mem_singleton] at hb
    rcases hb with hb | hb
    · -- a turn that is in the log has its call before it
      obtain ⟨l₁, l₂, heq⟩ := List.append_of_mem hb
      have hfair := S.fair l₁ _ ⟨l₂, by rw [List.append_assoc]; exact heq.symm⟩
      have hlt := (List.getElem?_eq_some_iff.mp hfair.1).1
      rw [heq, List.length_append] at hlt
      omega
    · cases hb
  refine ⟨S.ordered, ?_, S.fair.snoc rfl, ?_, ?_⟩
  · rw [subscribers_snoc, S.log]
    rfl
  · intro f hf
    rcases List.mem_cons.mp hf with rfl | hf
    · constructor
      · show (s.log ++ [Entry.started s.log.length])[s.log.length]? = some (.started s.log.length)
        simp
      · show (turned s.log.length (s.log ++ [Entry.started s.log.length]) ++ order).Perm
          (subscribers ((s.log ++ [Entry.started s.log.length]).take s.log.length))
        rw [hturned, List.take_left, S.log]
        exact hperm
      · show (turned s.log.length (s.log ++ [Entry.started s.log.length]) ++ order).Nodup
        rw [hturned]
        exact hperm.nodup_iff.mpr (List.Nodup.of_map Prod.fst S.ordered.nodup)
      · intro p hp
        exact S.ordered.below p (hperm.mem_iff.mp hp)
      · intro p hp q hq heq
        exact S.ordered.eq_of_id hq (hperm.mem_iff.mp hp) heq
    · exact (S.frames f hf).later (Nat.le_refl _) (fun q hq => .inl hq) rfl
  · rw [List.map_cons, List.nodup_cons]
    refine ⟨fun hmem => ?_, S.calls⟩
    obtain ⟨f, hf, hcall⟩ := List.mem_map.mp hmem
    have hlt := (S.frames f hf).call_lt
    have hcall : f.call = s.log.length := hcall
    omega

/-- The turn of a handler comes. -/
theorem Sound.turn (S : s.Sound) {k : Nat} {p : Nat × H} {rest : List (Nat × H)} {fs : List (Frame H)}
    (h : s.frames = ⟨k, p :: rest, false⟩ :: fs) :
    Sound { s with
      frames := ⟨k, rest, s.event.contains p.1⟩ :: fs
      log := s.log ++ [.turn k p (s.event.contains p.1)] } := by
  have hcalls := S.calls
  have hframes := S.frames
  rw [h] at hcalls hframes
  rw [List.map_cons, List.nodup_cons] at hcalls
  have F := hframes _ List.mem_cons_self
  have hlt : k < s.log.length := F.call_lt
  have hmem : p ∈ turned k s.log ++ p :: rest := List.mem_append_right _ List.mem_cons_self
  have hnone : ∀ b, .turn k p b ∉ s.log := by
    intro b hb
    have hdisjoint := (List.nodup_append.mp F.nodup).2.2
    exact hdisjoint p (mem_turned.mpr ⟨b, hb⟩) p List.mem_cons_self rfl
  have hcalled : s.event.contains p.1 = true ↔ p ∈ subscribers s.log := by
    rw [Event.contains_iff, S.log]
    constructor
    · rintro ⟨q, hq, heq⟩
      obtain rfl := F.same p List.mem_cons_self q hq heq
      exact hq
    · intro hp
      exact ⟨p, hp, rfl⟩
  have hturned : turned k (s.log ++ [Entry.turn k p (s.event.contains p.1)]) = turned k s.log ++ [p] := by
    rw [turned_snoc, Entry.turnOf, if_pos rfl]
    rfl
  refine ⟨S.ordered, ?_, S.fair.snoc ⟨F.started, F.copy.mem_iff.mp hmem, hnone, hcalled⟩, ?_, ?_⟩
  · rw [subscribers_snoc, S.log]
    rfl
  · intro f hf
    rcases List.mem_cons.mp hf with rfl | hf
    · constructor
      · show (s.log ++ [Entry.turn k p (s.event.contains p.1)])[k]? = some (.started k)
        rw [List.getElem?_append_left hlt]
        exact F.started
      · show (turned k (s.log ++ [Entry.turn k p (s.event.contains p.1)]) ++ rest).Perm _
        rw [hturned, List.append_assoc, List.take_append_of_le_length (Nat.le_of_lt hlt)]
        exact F.copy
      · show (turned k (s.log ++ [Entry.turn k p (s.event.contains p.1)]) ++ rest).Nodup
        rw [hturned, List.append_assoc]
        exact F.nodup
      · intro q hq
        exact F.below q (List.mem_cons_of_mem _ hq)
      · intro q hq
        exact F.same q (List.mem_cons_of_mem _ hq)
    · refine (hframes f (List.mem_cons_of_mem _ hf)).later (Nat.le_refl _) (fun q hq => .inl hq) ?_
      have hne : k ≠ f.call := fun heq => hcalls.1 (List.mem_map.mpr ⟨f, hf, heq.symm⟩)
      rw [Entry.turnOf, if_neg hne]
  · rw [List.map_cons, List.nodup_cons]
    exact hcalls

/-- `Invoke` returns. -/
theorem Sound.ended (S : s.Sound) {k : Nat} {fs : List (Frame H)} (h : s.frames = ⟨k, [], false⟩ :: fs) :
    Sound { s with frames := fs, log := s.log ++ [.ended k] } := by
  have hcalls := S.calls
  have hframes := S.frames
  rw [h] at hcalls hframes
  have F := hframes _ List.mem_cons_self
  refine ⟨S.ordered, ?_, S.fair.snoc ⟨F.started, fun p hp => ?_⟩, ?_, hcalls.of_cons⟩
  · rw [subscribers_snoc, S.log]
    rfl
  · have hperm := F.copy
    rw [List.append_nil] at hperm
    exact mem_turned.mp (hperm.mem_iff.mpr hp)
  · intro f hf
    exact (hframes f (List.mem_cons_of_mem _ hf)).later (Nat.le_refl _) (fun q hq => .inl hq) rfl

variable [DecidableEq H]

theorem Sound.step (S : s.Sound) {a : Act H} {s' : Invocations H} (h : s.step a = some s') : s'.Sound := by
  cases a with
  | subscribe handler =>
    obtain ⟨-, rfl⟩ := Option.ite_some_none_eq_some.mp h
    refine S.change (S.ordered.subscribe handler) (S.ordered.subscribe_handlers handler).symm
      (Nat.le_succ _) (fun q hq => ?_) (fun k => rfl) trivial
    rw [S.ordered.subscribe_handlers, List.mem_append, List.mem_singleton] at hq
    rcases hq with hq | rfl
    · exact .inl hq
    · exact .inr (Nat.le_refl _)
  | unsubscribe id =>
    obtain ⟨-, rfl⟩ := Option.ite_some_none_eq_some.mp h
    exact S.change (S.ordered.erase id) rfl (Nat.le_refl _) (fun q hq => .inl (Event.mem_erase.mp hq).1)
      (fun k => rfl) trivial
  | clear =>
    obtain ⟨-, rfl⟩ := Option.ite_some_none_eq_some.mp h
    exact S.change (.clear _) rfl (Nat.le_refl _) (fun q hq => absurd hq List.not_mem_nil) (fun k => rfl)
      trivial
  | invoke order =>
    obtain ⟨hact, rfl⟩ := Option.ite_some_none_eq_some.mp h
    exact S.invoke hact.2
  | go =>
    cases hf : s.frames with
    | nil => simp [Invocations.step, hf] at h
    | cons f fs =>
      obtain ⟨k, rest, running⟩ := f
      cases running with
      | true =>
        simp only [Invocations.step, hf, Option.some.injEq] at h
        subst h
        -- only the handler has returned
        have hframes := S.frames
        have hcalls := S.calls
        rw [hf] at hframes hcalls
        refine ⟨S.ordered, S.log, S.fair, fun f hmem => ?_, hcalls⟩
        rcases List.mem_cons.mp hmem with rfl | hmem
        · have F := hframes _ List.mem_cons_self
          exact ⟨F.started, F.copy, F.nodup, F.below, F.same⟩
        · exact hframes f (List.mem_cons_of_mem _ hmem)
      | false =>
        cases rest with
        | nil =>
          simp only [Invocations.step, hf, Option.some.injEq] at h
          subst h
          exact S.ended hf
        | cons p rest =>
          simp only [Invocations.step, hf, Option.some.injEq] at h
          subst h
          exact S.turn hf

theorem sound (h : Reachable (system H) s) : s.Sound := by
  apply h.invariant (I := Sound)
  · rintro s rfl
    exact ⟨.new, rfl, justified_nil, by simp, by simp⟩
  · rintro s s' - S ⟨a, ha⟩
    exact S.step ha

end Invocations

end JunCore.Core
