/-
  The actor guarantee of the job system: one owner at a time.

  `m_processing` is a token.  While it is `true` for an unmarked object, the object is in exactly
  one of three places:

  * it sits in one `JobThread` queue, the one `m_pJobThread` names;
  * one `Flush` is draining it, up to its `store(false)` or its hand-over;
  * one thread has won the CAS and is on its way to register it.

  While it is `false` the object is in none of them.  `View.tokens` counts the places, and `Owned`
  is the invariant: the count, what it has to do with the flag, and what each place knows about
  `m_pJobThread` and the deletion mark.  A marked object keeps the flag and gives up the place, so
  nothing ever brings it back into a queue.

  The proof is one lemma per kind of step of `View.Step`.  The count moves by `tokens_post`,
  `tokens_take` and `tokens_flush`; the rest is what a step leaves alone.
-/
import JunCore.Lib.Counting
import JunCore.Logic.JobThread

set_option linter.unusedVariables false
set_option linter.unusedSectionVars false

namespace JunCore.Logic

open Transition Function Counting

variable {T P O J W K : Type} [DecidableEq T] [DecidableEq P] [DecidableEq O]

/-! ## Where an object can be -/

/-- Between the CAS (or the decision to hand over) and the link into the new queue. -/
def RegPC.pending : RegPC T → Nat
  | .count _ => 0
  | _ => 1

/-- A `Flush` that is draining the object: it has neither stored `false` nor handed it over. -/
def Phase.draining : Phase T O J → Nat
  | .flushLoadMarked | .loadOldThread | .jobDequeue _ | .jobDequeueFail _ | .jobUnlink _
  | .jobStart _ _ | .running _ _ _ | .afterJob _ | .checkThread _ | .storeFalse => 1
  | .handOver r => r.pending
  | _ => 0

/-- A re-check that has won the CAS and not yet registered the object. -/
def Phase.registering : Phase T O J → Nat
  | .reRegister r => r.pending
  | _ => 0

/-- A `PostJob` that has won the CAS and not yet registered the object. -/
def PostCall.registering (f : PostCall T J) : Nat :=
  match f.pc with
  | .register _ r => r.pending
  | _ => 0

/-- The part of `Flush` after `store(false)`. -/
def Phase.lingering : Phase T O J → Prop
  | .loadCount | .recheckCas | .reRegister _ => True
  | _ => False

def drains (x : Option (Phase T O J)) : Nat := x.elim 0 Phase.draining
def reRegisters (x : Option (Phase T O J)) : Nat := x.elim 0 Phase.registering
def registers (x : Option (PostCall T J)) : Nat := x.elim 0 PostCall.registering

@[simp] theorem drains_none : drains (none : Option (Phase T O J)) = 0 := rfl
@[simp] theorem drains_some (ph : Phase T O J) : drains (some ph) = ph.draining := rfl
@[simp] theorem reRegisters_none : reRegisters (none : Option (Phase T O J)) = 0 := rfl
@[simp] theorem reRegisters_some (ph : Phase T O J) : reRegisters (some ph) = ph.registering := rfl
@[simp] theorem registers_none : registers (none : Option (PostCall T J)) = 0 := rfl
@[simp] theorem registers_some (f : PostCall T J) : registers (some f) = f.registering := rfl

/-- How many links into a `JobThread` queue a step performs. -/
def linked : Option (QueueOp T) → Nat
  | some (.link _) => 1
  | _ => 0

namespace View

variable [Fintype T] [Fintype P]

/-- How often the object sits in `JobThread` queues. -/
def queuedCount (v : View T P O J) : Nat := total id v.queued

/-- How many `Flush` calls are draining the object. -/
def flushCount (v : View T P O J) : Nat := total drains v.loop

/-- How many threads are between a successful CAS and the registration of the object. -/
def registerCount (v : View T P O J) : Nat := total reRegisters v.loop + total registers v.frame

/-- The number of places the object is in. -/
def tokens (v : View T P O J) : Nat := v.queuedCount + v.flushCount + v.registerCount

/-! ## How the count moves -/

theorem queuedCount_applyQueueOp (queued : T → Nat) (q : Option (QueueOp T)) :
    total id (applyQueueOp queued q) = total id queued + linked q := by
  match q with
  | none => rfl
  | some (.link t) =>
    have := total_update id queued t (queued t + 1)
    simp only [id] at this
    simp only [applyQueueOp, linked]
    omega
  | some (.count t) => rfl

theorem tokens_enter {v : View T P O J} {a : T ⊕ P} (h : v.frame a = none) (j : J) :
    (v.enter a j).tokens = v.tokens := by
  have := total_update registers v.frame a (some (.enter j))
  simp only [h, registers_none, registers_some, PostCall.registering, PostCall.enter] at this
  simp only [tokens, queuedCount, flushCount, registerCount, enter, PostCall.enter]
  omega

theorem tokens_post {v : View T P O J} {a : T ⊕ P} {f : PostCall T J} (h : v.frame a = some f) :
    (v.post a f).tokens + f.registering
      = v.tokens + registers (postStep v.cell f).2.1 + linked (postStep v.cell f).2.2 := by
  have h₁ := total_update registers v.frame a (postStep v.cell f).2.1
  have h₂ := queuedCount_applyQueueOp v.queued (postStep v.cell f).2.2
  simp only [h, registers_some] at h₁
  simp only [tokens, queuedCount, flushCount, registerCount, post]
  omega

theorem tokens_take {v : View T P O J} {t : T} (h : v.loop t = none) (hq : 0 < v.queued t) :
    (v.take t).tokens = v.tokens := by
  have h₁ := total_update id v.queued t (v.queued t - 1)
  have h₂ := total_update drains v.loop t (some .flushLoadMarked)
  have h₃ := total_update reRegisters v.loop t (some .flushLoadMarked)
  simp only [h, id, drains_none, drains_some, reRegisters_none, reRegisters_some, Phase.draining,
    Phase.registering] at h₁ h₂ h₃
  simp only [tokens, queuedCount, flushCount, registerCount, take]
  omega

theorem tokens_flush {v : View T P O J} {t : T} {ph : Phase T O J} (h : v.loop t = some ph)
    (is : List (Instr T O J)) :
    (v.flush t is ph).tokens + (ph.draining + ph.registering)
      = v.tokens + (drains (flushStep is v.cell ph).phase
        + reRegisters (flushStep is v.cell ph).phase) + linked (flushStep is v.cell ph).queueOp := by
  have h₁ := total_update drains v.loop t (flushStep is v.cell ph).phase
  have h₂ := total_update reRegisters v.loop t (flushStep is v.cell ph).phase
  have h₃ := queuedCount_applyQueueOp v.queued (flushStep is v.cell ph).queueOp
  simp only [h, drains_some, reRegisters_some] at h₁ h₂
  simp only [tokens, queuedCount, flushCount, registerCount, flush]
  omega

/-! ## What a place says about the object -/

theorem registers_le_tokens (v : View T P O J) (a : T ⊕ P) : registers (v.frame a) ≤ v.tokens := by
  have := le_total registers v.frame a
  simp only [tokens, queuedCount, flushCount, registerCount] at *
  omega

theorem drains_le_tokens (v : View T P O J) (t : T) :
    drains (v.loop t) + reRegisters (v.loop t) ≤ v.tokens := by
  have h₁ := le_total drains v.loop t
  have h₂ := le_total reRegisters v.loop t
  simp only [tokens, queuedCount, flushCount, registerCount]
  omega

/-- A draining thread and anything else that holds the object are two places. -/
theorem two_places (v : View T P O J) (h : v.tokens ≤ 1) {t : T} (ht : 0 < drains (v.loop t)) :
    (∀ t', v.queued t' = 0) ∧ (∀ a, registers (v.frame a) = 0) ∧
      (∀ t', reRegisters (v.loop t') = 0) ∧ (∀ t', t' ≠ t → drains (v.loop t') = 0) := by
  have h₀ := le_total drains v.loop t
  refine ⟨?_, ?_, ?_, ?_⟩
  · intro t'
    have := le_total id v.queued t'
    simp only [tokens, queuedCount, flushCount, registerCount, id] at *
    omega
  · intro a
    have := le_total registers v.frame a
    simp only [tokens, queuedCount, flushCount, registerCount] at *
    omega
  · intro t'
    have := le_total reRegisters v.loop t'
    simp only [tokens, queuedCount, flushCount, registerCount] at *
    omega
  · intro t' hne
    have := add_le_total drains v.loop hne
    simp only [tokens, queuedCount, flushCount, registerCount] at *
    omega

end View

/-! ## What a step does to the token

  One statement for `PostJob` and one for `Flush`: whether the flag moves, and how the weight of
  the program counter is traded for a place in a queue. -/

theorem postStep_token (c : Cell T J) (f : PostCall T J) :
    (postStep c f).1.processing = c.processing ∧
        registers (postStep c f).2.1 + linked (postStep c f).2.2 = f.registering ∨
      c.processing = false ∧ (postStep c f).1.processing = true ∧
        registers (postStep c f).2.1 + linked (postStep c f).2.2 = f.registering + 1 := by
  obtain ⟨j, pc⟩ := f
  cases pc with
  | loadMarked => left; simp only [postStep]; split <;> exact ⟨rfl, rfl⟩
  | link => exact .inl ⟨rfl, rfl⟩
  | count n => exact .inl ⟨rfl, rfl⟩
  | cas n =>
    cases hp : c.processing with
    | true => left; simp [postStep, hp, linked, PostCall.registering]
    | false => right; simp [postStep, hp, linked, PostCall.registering, RegPC.pending]
  | register n r => cases r <;> exact .inl ⟨rfl, rfl⟩

/-- `PostJob` writes neither `m_pJobThread` nor the mark. -/
theorem postStep_keeps (c : Cell T J) (f : PostCall T J) :
    (postStep c f).1.jobThread = c.jobThread ∧
      (postStep c f).1.markedForDelete = c.markedForDelete := by
  obtain ⟨j, pc⟩ := f
  cases pc with
  | loadMarked => simp only [postStep]; split <;> exact ⟨rfl, rfl⟩
  | link => exact ⟨rfl, rfl⟩
  | count n => exact ⟨rfl, rfl⟩
  | cas n => simp only [postStep]; split <;> exact ⟨rfl, rfl⟩
  | register n r => cases r <;> exact ⟨rfl, rfl⟩

/-- The weight of the phase of a thread that has the object in hand. -/
def held (x : Option (Phase T O J)) : Nat := drains x + reRegisters x

/-- The four things a step of `Flush` can do to the token: nothing, give it back (`store(false)`),
    win it again (the re-check), or drop it for good on a marked object. -/
theorem flushStep_token (is : List (Instr T O J)) (c : Cell T J) (ph : Phase T O J) :
    (flushStep is c ph).cell.processing = c.processing ∧
        held (flushStep is c ph).phase + linked (flushStep is c ph).queueOp = held (some ph) ∨
      ph = .storeFalse ∧ (flushStep is c ph).cell.processing = false ∧
        held (flushStep is c ph).phase + linked (flushStep is c ph).queueOp = 0 ∨
      ph = .recheckCas ∧ c.processing = false ∧ (flushStep is c ph).cell.processing = true ∧
        held (flushStep is c ph).phase + linked (flushStep is c ph).queueOp = 1 ∨
      c.markedForDelete = true ∧ (flushStep is c ph).cell = c ∧ held (some ph) = 1 ∧
        held (flushStep is c ph).phase + linked (flushStep is c ph).queueOp = 0 := by
  cases ph with
  | flushLoadMarked | afterJob old =>
    cases hm : c.markedForDelete <;>
      simp [flushStep, hm, held, linked, Phase.draining, Phase.registering]
  | loadOldThread | jobStart old e | jobDequeueFail old =>
    exact .inl ⟨rfl, rfl⟩
  | jobDequeue old => left; refine ⟨rfl, ?_⟩; simp only [flushStep]; split <;> rfl
  | jobUnlink old =>
    left
    cases hq : c.jobQueue.items <;>
      simp [flushStep, hq, held, linked, Phase.draining, Phase.registering]
  | running old n is' =>
    cases is' using Instr.list_cases with
    | nil | setJobThread t rest | markForDelete rest | postJob o j rest => exact .inl ⟨rfl, rfl⟩
  | checkThread old =>
    left; refine ⟨rfl, ?_⟩; simp only [flushStep]; split <;> rfl
  | handOver r | reRegister r => cases r <;> exact .inl ⟨rfl, rfl⟩
  | storeFalse => exact .inr (.inl ⟨rfl, rfl, rfl⟩)
  | loadCount => left; refine ⟨rfl, ?_⟩; simp only [flushStep]; split <;> rfl
  | recheckCas =>
    cases hp : c.processing with
    | true => left; simp [flushStep, hp, held, linked, Phase.draining, Phase.registering]
    | false =>
      right; right; left
      simp [flushStep, hp, held, linked, Phase.draining, Phase.registering, RegPC.pending]
  | checkMarked => left; refine ⟨rfl, ?_⟩; simp only [flushStep]; split <;> rfl
  | delete => exact .inl ⟨rfl, rfl⟩

/-- `Flush` writes `m_pJobThread` and the mark only from inside a job. -/
theorem flushStep_keeps (is : List (Instr T O J)) (c : Cell T J) (ph : Phase T O J)
    (h : ∀ old n is', ph ≠ .running old n is') :
    (flushStep is c ph).cell.jobThread = c.jobThread ∧
      (flushStep is c ph).cell.markedForDelete = c.markedForDelete := by
  cases ph with
  | running old n is' => exact absurd rfl (h old n is')
  | jobUnlink old => simp only [flushStep]; split <;> exact ⟨rfl, rfl⟩
  | recheckCas => simp only [flushStep]; split <;> exact ⟨rfl, rfl⟩
  | _ => exact ⟨rfl, rfl⟩

/-! ## The invariant -/

/-- What thread `t` knows about the object in each phase: whom `m_pJobThread` names (`thread`), and
    that nobody has `marked` the object unless the job now running did.  After a hand-over (`count`)
    and at the final test nothing is known any more: the object belongs to someone else. -/
def Phase.sound (t thread : T) (marked : Bool) : Phase T O J → Prop
  | .flushLoadMarked | .loadOldThread | .storeFalse | .loadCount | .recheckCas
  | .reRegister .loadThread | .reRegister (.count _) => thread = t ∧ marked = false
  | .jobDequeue old | .jobDequeueFail old | .jobUnlink old | .jobStart old _ =>
      old = t ∧ thread = t ∧ marked = false
  | .running old _ _ | .afterJob old => old = t
  | .checkThread old => old = t ∧ marked = false
  | .handOver .loadThread => marked = false
  | .handOver (.link t') => thread = t' ∧ marked = false
  | .reRegister (.link t') => thread = t' ∧ thread = t ∧ marked = false
  | .handOver (.count _) | .checkMarked => True
  | .delete => marked = true

/-- The same for a `PostJob` that has won the CAS. -/
def PostCall.sound (thread : T) (marked : Bool) (f : PostCall T J) : Prop :=
  match f.pc with
  | .register _ .loadThread => marked = false
  | .register _ (.link t) => thread = t ∧ marked = false
  | _ => True

/-! ## What a step leads to knowing -/

/-- After the CAS, `PostJob` knows the object is unmarked and reads a stable `m_pJobThread`. -/
theorem sound_postStep {c : Cell T J} {f : PostCall T J}
    (hs : f.sound c.jobThread c.markedForDelete)
    (hm : c.markedForDelete = true → c.processing = true) :
    (∀ f', (postStep c f).2.1 = some f' → f'.sound c.jobThread c.markedForDelete) ∧
      (∀ t, (postStep c f).2.2 = some (.link t) → c.jobThread = t ∧ c.markedForDelete = false) := by
  obtain ⟨j, pc⟩ := f
  cases pc with
  | loadMarked =>
    constructor
    · intro f' hf'
      simp only [postStep] at hf'
      split at hf' <;> cases hf'
      trivial
    · intro t ht
      simp only [postStep] at ht
      split at ht <;> cases ht
  | link | count n =>
    constructor
    · intro f' hf'; cases hf'; trivial
    · intro t ht; cases ht
  | cas n =>
    cases hp : c.processing with
    | true => simp [postStep, hp]
    | false =>
      have hu : c.markedForDelete = false := by
        by_contra hne
        rw [hm (by simpa using hne)] at hp
        cases hp
      simp [postStep, hp, PostCall.sound, hu]
  | register n r =>
    cases r with
    | loadThread =>
      constructor
      · intro f' hf'; cases hf'; exact ⟨rfl, hs⟩
      · intro t ht; cases ht
    | link t' =>
      constructor
      · intro f' hf'; cases hf'; trivial
      · intro t ht; cases ht; exact hs
    | count t' =>
      constructor
      · intro f' hf'; cases hf'
      · intro t ht; cases ht

/-- A step with the object in hand leads to a phase that knows what it has to, and links the object
    only into the queue of the thread `m_pJobThread` names. -/
theorem sound_flushStep (is : List (Instr T O J)) {c : Cell T J} {t : T} {ph : Phase T O J}
    (hs : ph.sound t c.jobThread c.markedForDelete) :
    (∀ ph', (flushStep is c ph).phase = some ph' →
        ph'.sound t (flushStep is c ph).cell.jobThread (flushStep is c ph).cell.markedForDelete) ∧
      (∀ t', (flushStep is c ph).queueOp = some (.link t') →
        c.jobThread = t' ∧ c.markedForDelete = false) := by
  cases ph with
  | flushLoadMarked | jobDequeue old | afterJob old | loadCount | checkMarked =>
    -- a test: both ways out
    constructor
    · intro ph' h
      simp only [flushStep, Option.some.injEq] at h
      simp only [Phase.sound] at hs
      split at h <;> cases h <;> simp_all [flushStep, Phase.sound]
    · intro t' h
      cases h
  | loadOldThread | jobDequeueFail old | jobStart old e | storeFalse | delete =>
    constructor
    · intro ph' h
      cases h
      all_goals simp_all [flushStep, Phase.sound]
    · intro t' h
      cases h
  | jobUnlink old =>
    cases hq : c.jobQueue.items <;> simp_all [flushStep, Phase.sound]
  | running old n is' =>
    cases is' using Instr.list_cases with
    | nil | setJobThread t rest | markForDelete rest | postJob o j rest =>
      simp_all [flushStep, Phase.sound]
  | checkThread old =>
    by_cases hne : c.jobThread = old <;> simp_all [flushStep, Phase.sound]
  | handOver r => cases r <;> simp_all [flushStep, Phase.sound, RegPC.step]
  | reRegister r =>
    cases r with
    | loadThread | count t' => simp_all [flushStep, Phase.sound, RegPC.step]
    | link t' =>
      obtain ⟨rfl, rfl, hm⟩ := hs
      simp [flushStep, Phase.sound, RegPC.step, hm]
  | recheckCas =>
    cases hp : c.processing <;> simp_all [flushStep, Phase.sound]

/-- A thread gets past `store(false)` only through that store. -/
theorem lingering_flushStep (is : List (Instr T O J)) (c : Cell T J) {ph ph' : Phase T O J}
    (h : (flushStep is c ph).phase = some ph') (hl : ph'.lingering) :
    ph.lingering ∨ ph = .storeFalse := by
  cases ph with
  | storeFalse => exact .inr rfl
  | loadCount | recheckCas | reRegister r => exact .inl trivial
  | running old n is' =>
    cases is' using Instr.list_cases with
    | nil | setJobThread t rest | markForDelete rest | postJob o j rest =>
      cases h; exact hl.elim
  | handOver r => cases r <;> (cases h; exact hl.elim)
  | flushLoadMarked | jobDequeue old | afterJob old | checkThread old | checkMarked
  | jobUnlink old =>
    simp only [flushStep] at h
    split at h <;> cases h <;> exact hl.elim
  | loadOldThread | jobDequeueFail old | jobStart old e => cases h; exact hl.elim
  | delete => cases h

/-- No step with the object in hand starts to drain it; only `take` does. -/
theorem drains_flushStep (is : List (Instr T O J)) (c : Cell T J) (ph : Phase T O J) :
    drains (flushStep is c ph).phase ≤ ph.draining := by
  cases ph with
  | jobUnlink old => simp only [flushStep]; split <;> exact Nat.le_refl _
  | running old n is' =>
    cases is' using Instr.list_cases with
    | nil | setJobThread t rest | markForDelete rest | postJob o j rest =>
      exact Nat.le_refl _
  | handOver r | reRegister r => cases r <;> simp [flushStep, RegPC.step, Phase.draining, RegPC.pending]
  | recheckCas => simp only [flushStep]; split <;> exact Nat.le_refl _
  | flushLoadMarked | jobDequeue old | afterJob old | checkThread old | loadCount | checkMarked =>
    simp only [flushStep]; split <;> simp [Phase.draining, RegPC.pending]
  | loadOldThread | jobDequeueFail old | jobStart old e | storeFalse | delete =>
    simp [flushStep, Phase.draining]

/-- A mark is never taken back. -/
theorem marked_flushStep (is : List (Instr T O J)) (c : Cell T J) (ph : Phase T O J)
    (h : c.markedForDelete = true) : (flushStep is c ph).cell.markedForDelete = true := by
  by_cases hr : ∃ old n is', ph = .running old n is'
  · obtain ⟨old, n, is', rfl⟩ := hr
    cases is' using Instr.list_cases with
    | nil | setJobThread t rest | markForDelete rest | postJob o j rest =>
      simp [flushStep, h]
  · have := (flushStep_keeps is c ph fun old n is' he => hr ⟨old, n, is', he⟩).2
    rw [this, h]

theorem unmarked_of_flushStep {is : List (Instr T O J)} {c : Cell T J} {ph : Phase T O J}
    (h : (flushStep is c ph).cell.markedForDelete = false) : c.markedForDelete = false := by
  by_contra hm
  rw [marked_flushStep is c ph (by simpa using hm)] at h
  cases h

/-- A phase that neither holds the object nor lingers knows nothing a job could change. -/
theorem sound_of_idle {t thread thread' : T} {marked marked' : Bool} {ph : Phase T O J}
    (hd : ph.draining = 0) (hl : ¬ ph.lingering) (hm : marked = true → marked' = true)
    (hs : ph.sound t thread marked) : ph.sound t thread' marked' := by
  cases ph with
  | handOver r =>
    cases r with
    | loadThread | link t' => cases hd
    | count t' => trivial
  | checkMarked => trivial
  | delete => exact hm hs
  | loadCount | recheckCas | reRegister r => exact (hl trivial).elim
  | _ => cases hd

theorem call_sound_of_idle {thread : T} {marked : Bool} {f : PostCall T J}
    (h : f.registering = 0) : f.sound thread marked := by
  obtain ⟨j, pc⟩ := f
  cases pc with
  | register n r =>
    cases r with
    | loadThread | link t => cases h
    | count t => trivial
  | _ => trivial

/-! ## Ownership -/

variable [Fintype T] [Fintype P]

/-- **The ownership invariant** of one object. -/
structure Owned (v : View T P O J) : Prop where
  le_one : v.tokens ≤ 1
  idle : v.cell.processing = false → v.tokens = 0
  busy : v.cell.processing = true → v.cell.markedForDelete = false → v.tokens = 1
  marked : v.cell.markedForDelete = true → v.cell.processing = true
  queued : ∀ t, 0 < v.queued t → v.cell.jobThread = t ∧ v.cell.markedForDelete = false
  loop : ∀ t ph, v.loop t = some ph → ph.sound t v.cell.jobThread v.cell.markedForDelete
  frame : ∀ a f, v.frame a = some f → f.sound v.cell.jobThread v.cell.markedForDelete
  /-- while somebody is past `store(false)`, nobody drains -/
  apart : ∀ t t' ph, v.loop t = some ph → ph.lingering → drains (v.loop t') = 0

namespace Owned

theorem initial (t : T) : Owned (View.initial t : View T P O J) where
  le_one := by
    simp [View.tokens, View.queuedCount, View.flushCount, View.registerCount, View.initial, total]
  idle _ := by
    simp [View.tokens, View.queuedCount, View.flushCount, View.registerCount, View.initial, total]
  busy h := by cases h
  marked h := by cases h
  queued t h := absurd h (Nat.lt_irrefl 0)
  loop t ph h := by cases h
  frame a f h := by cases h
  apart t t' ph h := by cases h

/-- Entering `PostJob` takes no token. -/
theorem enter {v : View T P O J} (I : Owned v) {a : T ⊕ P} (h : v.frame a = none) (j : J) :
    Owned (v.enter a j) where
  le_one := by rw [View.tokens_enter h]; exact I.le_one
  idle hp := by rw [View.tokens_enter h]; exact I.idle hp
  busy hp hm := by rw [View.tokens_enter h]; exact I.busy hp hm
  marked := I.marked
  queued := I.queued
  loop := I.loop
  frame a' f hf := by
    by_cases ha : a' = a
    · subst ha
      obtain rfl : PostCall.enter j = f := by simpa [View.enter] using hf
      trivial
    · exact I.frame a' f (by simpa [View.enter, ha] using hf)
  apart := I.apart

/-- One step inside `PostJob`. -/
theorem post {v : View T P O J} (I : Owned v) {a : T ⊕ P} {f : PostCall T J}
    (h : v.frame a = some f) : Owned (v.post a f) := by
  have htok := View.tokens_post h
  have hle := v.registers_le_tokens a
  rw [h, registers_some] at hle
  obtain ⟨hj, hm⟩ := postStep_keeps v.cell f
  obtain ⟨hsound, hlink⟩ := sound_postStep (I.frame a f h) I.marked
  -- the CAS is the only step that makes a token, and it needs the flag to be down
  have hone : (v.post a f).tokens ≤ 1 ∧
      ((v.post a f).cell.processing = false → (v.post a f).tokens = 0) ∧
      ((v.post a f).cell.processing = true → v.cell.markedForDelete = false →
        (v.post a f).tokens = 1) ∧
      (v.cell.processing = true → (v.post a f).cell.processing = true) := by
    have h₁ := I.le_one
    rcases postStep_token v.cell f with ⟨hp, hw⟩ | ⟨hp, hp', hw⟩
    · have hp' : (v.post a f).cell.processing = v.cell.processing := hp
      rw [hp']
      refine ⟨by omega, fun hf => ?_, fun ht hu => ?_, id⟩
      · have := I.idle hf; omega
      · have := I.busy ht hu; omega
    · have h₀ := I.idle hp
      have hp' : (v.post a f).cell.processing = true := hp'
      refine ⟨by omega, fun hf => ?_, fun _ _ => by omega, fun _ => hp'⟩
      rw [hp'] at hf; cases hf
  exact {
    le_one := hone.1
    idle := hone.2.1
    busy := fun hp hu => hone.2.2.1 hp (hm ▸ hu)
    marked := fun hmk => hone.2.2.2 (I.marked (hm ▸ hmk))
    queued := by
      intro t ht
      show (postStep v.cell f).1.jobThread = t ∧ (postStep v.cell f).1.markedForDelete = false
      rw [hj, hm]
      simp only [View.post] at ht
      cases hq : (postStep v.cell f).2.2 with
      | none => exact I.queued t (by simpa [View.applyQueueOp, hq] using ht)
      | some q =>
        cases q with
        | count t' => exact I.queued t (by simpa [View.applyQueueOp, hq] using ht)
        | link t' =>
          by_cases heq : t = t'
          · subst heq; exact hlink t hq
          · exact I.queued t (by simpa [View.applyQueueOp, hq, heq] using ht)
    loop := by
      intro t ph hl
      show ph.sound t (postStep v.cell f).1.jobThread (postStep v.cell f).1.markedForDelete
      rw [hj, hm]
      exact I.loop t ph hl
    frame := by
      intro a' f' hf'
      show f'.sound (postStep v.cell f).1.jobThread (postStep v.cell f).1.markedForDelete
      rw [hj, hm]
      by_cases ha : a' = a
      · subst ha; exact hsound f' (by simpa [View.post] using hf')
      · exact I.frame a' f' (by simpa [View.post, ha] using hf')
    apart := I.apart }

/-- Taking the object out of a queue: the place moves from the queue into the hand. -/
theorem take {v : View T P O J} (I : Owned v) {t : T} (h : v.loop t = none)
    (hq : 0 < v.queued t) : Owned (v.take t) := by
  have htok := View.tokens_take h hq
  obtain ⟨hj, hu⟩ := I.queued t hq
  exact {
    le_one := by rw [htok]; exact I.le_one
    idle := fun hp => by rw [htok]; exact I.idle hp
    busy := fun hp hm => by rw [htok]; exact I.busy hp hm
    marked := I.marked
    queued := by
      intro t' ht'
      by_cases heq : t' = t
      · subst heq; exact ⟨hj, hu⟩
      · exact I.queued t' (by simpa [View.take, heq] using ht')
    loop := by
      intro t' ph hl
      by_cases heq : t' = t
      · subst heq
        obtain rfl : Phase.flushLoadMarked = ph := by simpa [View.take] using hl
        exact ⟨hj, hu⟩
      · exact I.loop t' ph (by simpa [View.take, heq] using hl)
    frame := I.frame
    apart := by
      intro t₁ t₂ ph hl hling
      by_cases h₁ : t₁ = t
      · subst h₁
        obtain rfl : Phase.flushLoadMarked = ph := by simpa [View.take] using hl
        exact hling.elim
      · have hl₁ : v.loop t₁ = some ph := by simpa [View.take, h₁] using hl
        by_cases h₂ : t₂ = t
        · -- a lingering thread is the one `m_pJobThread` names, which is `t`, which is not busy
          exfalso
          apply h₁
          have hs := I.loop t₁ ph hl₁
          rw [← hj]
          cases ph with
          | loadCount | recheckCas => exact hs.1.symm
          | reRegister r =>
            cases r with
            | loadThread | count t' => exact hs.1.symm
            | link t' => exact hs.2.1.symm
          | _ => exact hling.elim
        · have := I.apart t₁ t₂ ph hl₁ hling
          simpa [View.take, h₂] using this }

/-- **What the others know survives a step of thread `t`.**  A job may rewrite `m_pJobThread` or
    set the mark, but then nobody else is in a place to care. -/
theorem others_flush {v : View T P O J} (I : Owned v) {t : T} {ph : Phase T O J}
    (h : v.loop t = some ph) (is : List (Instr T O J)) :
    (∀ t' ph', t' ≠ t → v.loop t' = some ph' → ph'.sound t'
        (flushStep is v.cell ph).cell.jobThread (flushStep is v.cell ph).cell.markedForDelete) ∧
      (∀ a f, v.frame a = some f → f.sound
        (flushStep is v.cell ph).cell.jobThread (flushStep is v.cell ph).cell.markedForDelete) ∧
      (∀ t', 0 < v.queued t' → (flushStep is v.cell ph).cell.jobThread = t' ∧
        (flushStep is v.cell ph).cell.markedForDelete = false) := by
  by_cases hr : ∃ old n is', ph = .running old n is'
  · obtain ⟨old, n, is', rfl⟩ := hr
    have hd : drains (v.loop t) = 1 := by rw [h]; rfl
    obtain ⟨hq, hf, -, hl⟩ := v.two_places I.le_one (t := t) (by omega)
    refine ⟨?_, ?_, ?_⟩
    · intro t' ph' hne hl'
      have hd' := hl t' hne
      rw [hl', drains_some] at hd'
      have hapart : ¬ ph'.lingering := by
        intro hling
        have := I.apart t' t ph' hl' hling
        omega
      exact sound_of_idle hd' hapart (marked_flushStep is v.cell _) (I.loop t' ph' hl')
    · intro a f ha
      have hf' := hf a
      rw [ha, registers_some] at hf'
      exact call_sound_of_idle hf'
    · intro t' hpos
      have := hq t'
      omega
  · obtain ⟨hj, hm⟩ := flushStep_keeps is v.cell ph fun old n is' he => hr ⟨old, n, is', he⟩
    rw [hj, hm]
    exact ⟨fun t' ph' _ hl' => I.loop t' ph' hl', I.frame, I.queued⟩

/-- The token half of the invariant after a step with the object in hand. -/
theorem token_flush {v : View T P O J} (I : Owned v) {t : T} {ph : Phase T O J}
    (h : v.loop t = some ph) (is : List (Instr T O J)) :
    (v.flush t is ph).tokens ≤ 1 ∧
      ((v.flush t is ph).cell.processing = false → (v.flush t is ph).tokens = 0) ∧
      ((v.flush t is ph).cell.processing = true → (v.flush t is ph).cell.markedForDelete = false →
        (v.flush t is ph).tokens = 1) ∧
      ((v.flush t is ph).cell.markedForDelete = true →
        (v.flush t is ph).cell.processing = true) := by
  have htok := View.tokens_flush h is
  have hle := v.drains_le_tokens t
  have h₁ := I.le_one
  have hsound := I.loop t ph h
  simp only [h, drains_some, reRegisters_some] at hle
  show (v.flush t is ph).tokens ≤ 1 ∧
      ((flushStep is v.cell ph).cell.processing = false → (v.flush t is ph).tokens = 0) ∧
      ((flushStep is v.cell ph).cell.processing = true →
        (flushStep is v.cell ph).cell.markedForDelete = false → (v.flush t is ph).tokens = 1) ∧
      ((flushStep is v.cell ph).cell.markedForDelete = true →
        (flushStep is v.cell ph).cell.processing = true)
  rcases flushStep_token is v.cell ph with ⟨hp, hw⟩ | ⟨rfl, hp, hw⟩ | ⟨rfl, hp, hp', hw⟩ |
    ⟨hm, hc, hw, hw'⟩ <;> simp only [held, drains_some, reRegisters_some] at hw
  · have hsame : (v.flush t is ph).tokens = v.tokens := by omega
    rw [hsame, hp]
    refine ⟨h₁, I.idle, fun ht hu => I.busy ht (unmarked_of_flushStep hu), fun hm' => ?_⟩
    by_cases hr : ∃ old n is', ph = .running old n is'
    · -- a running job holds the token, so the flag is up when it sets the mark
      obtain ⟨old, n, is', rfl⟩ := hr
      by_contra hne
      have := I.idle (by simpa using hne)
      simp only [Phase.draining, Phase.registering] at hle
      omega
    · have hkeep := (flushStep_keeps is v.cell ph fun old n is' he => hr ⟨old, n, is', he⟩).2
      exact I.marked (hkeep ▸ hm')
  · have hu : v.cell.markedForDelete = false := hsound.2
    simp only [Phase.draining, Phase.registering] at htok
    refine ⟨by omega, fun _ => by omega, fun ht => ?_, fun hm' => ?_⟩
    · rw [hp] at ht; cases ht
    · rw [show (flushStep is v.cell .storeFalse).cell.markedForDelete = v.cell.markedForDelete from
        rfl, hu] at hm'
      cases hm'
  · have h₀ := I.idle hp
    simp only [Phase.draining, Phase.registering] at htok
    refine ⟨by omega, fun hf => ?_, fun _ _ => by omega, fun _ => hp'⟩
    rw [hp'] at hf; cases hf
  · simp only [held] at hw'
    rw [hc, I.marked hm]
    refine ⟨by omega, fun hf => (by cases hf), fun _ hu => ?_, fun _ => rfl⟩
    rw [hm] at hu; cases hu

/-- One step of a `JobThread` with the object in hand. -/
theorem flush {v : View T P O J} (I : Owned v) {t : T} {ph : Phase T O J}
    (h : v.loop t = some ph) (is : List (Instr T O J)) : Owned (v.flush t is ph) := by
  obtain ⟨hself, hlink⟩ := sound_flushStep is (I.loop t ph h)
  obtain ⟨hloop, hframe, hqueued⟩ := others_flush I h is
  obtain ⟨hle₁, hidle, hbusy, hmarked⟩ := token_flush I h is
  exact {
    le_one := hle₁
    idle := hidle
    busy := hbusy
    marked := hmarked
    queued := by
      intro t' ht'
      simp only [View.flush] at ht'
      cases hq : (flushStep is v.cell ph).queueOp with
      | none => exact hqueued t' (by simpa [View.applyQueueOp, hq] using ht')
      | some q =>
        cases q with
        | count t₂ => exact hqueued t' (by simpa [View.applyQueueOp, hq] using ht')
        | link t₂ =>
          by_cases heq : t' = t₂
          · -- only the registration links, and it touches neither member
            subst heq
            have hnot : ∀ old n is', ph ≠ .running old n is' := by
              rintro old n is' rfl
              cases is' using Instr.list_cases with
              | nil | setJobThread t rest | markForDelete rest | postJob o j rest => cases hq
            obtain ⟨hj, hm⟩ := flushStep_keeps is v.cell ph hnot
            have hl := hlink t' hq
            exact ⟨hj ▸ hl.1, hm ▸ hl.2⟩
          · exact hqueued t' (by simpa [View.applyQueueOp, hq, heq] using ht')
    loop := by
      intro t' ph' hl
      by_cases heq : t' = t
      · subst heq; exact hself ph' (by simpa [View.flush] using hl)
      · exact hloop t' ph' heq (by simpa [View.flush, heq] using hl)
    frame := hframe
    apart := by
      intro t₁ t₂ ph₁ hl hling
      -- it is enough that nobody but `t` drains, and that `t` does not drain afterwards
      suffices hs : (∀ t', t' ≠ t → drains (v.loop t') = 0) ∧
          drains (flushStep is v.cell ph).phase = 0 by
        by_cases h₂ : t₂ = t
        · subst h₂; simpa [View.flush] using hs.2
        · simpa [View.flush, h₂] using hs.1 t₂ h₂
      have hnext := drains_flushStep is v.cell ph
      have hfrom : ∀ t', ∀ ph', v.loop t' = some ph' → ph'.lingering →
          (∀ t', t' ≠ t → drains (v.loop t') = 0) ∧
            drains (flushStep is v.cell ph).phase = 0 := by
        intro t' ph' hl' hling'
        have ht := I.apart t' t ph' hl' hling'
        rw [h, drains_some] at ht
        exact ⟨fun t'' _ => I.apart t' t'' ph' hl' hling', by omega⟩
      by_cases h₁ : t₁ = t
      · subst h₁
        have hl' : (flushStep is v.cell ph).phase = some ph₁ := by simpa [View.flush] using hl
        rcases lingering_flushStep is v.cell hl' hling with hph | rfl
        · exact hfrom t₁ ph h hph
        · exact ⟨(v.two_places I.le_one (t := t₁) (by rw [h]; exact Nat.one_pos)).2.2.2, rfl⟩
      · exact hfrom t₁ ph₁ (by simpa [View.flush, h₁] using hl) hling }

/-- **The step lemma**: ownership survives every step of the object's life. -/
theorem step {v v' : View T P O J} (I : Owned v) (h : View.Step v v') : Owned v' := by
  cases h with
  | enter a j h => exact I.enter h j
  | post a f h => exact I.post h
  | take t h hq => exact I.take h hq
  | flush t is ph h => exact I.flush h is
  | selfCall t is ph j h hf _ => exact (I.flush h is).enter hf j

end Owned

/-- Two threads that drain the object are one. -/
theorem Owned.one_drain {s : Sys T P O J W} {o : O} (I : Owned (s.view o)) {t t' : T}
    {ph ph' : Phase T O J} (hl : s.loops t = .busy o ph) (hl' : s.loops t' = .busy o ph')
    (hd : 0 < ph.draining) (hd' : 0 < ph'.draining) : t' = t := by
  by_contra hne
  have hv := view_loop_eq_some.mpr hl
  have := (View.two_places _ I.le_one (t := t) (by rw [hv]; exact hd)).2.2.2 t' hne
  rw [view_loop_eq_some.mpr hl', drains_some] at this
  omega

/-- **The run lemma**: an object is owned properly all its life, ... -/
theorem Owned.of_reachable {t : T} {v : View T P O J} (h : Reachable (View.system t) v) :
    Owned v := by
  apply h.invariant (I := Owned)
  · rintro v rfl
    exact .initial t
  · intro v v' _ I hs
    exact I.step hs

/-- ... so every object is in every reachable state of the system. -/
theorem owned_reachable {prog : Program T O J W K} {s : Sys T P O J W}
    (h : Reachable (prog.system P) s) (o : O) : Owned (s.view o) :=
  .of_reachable (view_reachable h o)

end JunCore.Logic
