/-
  The two phases of `JunCommon/synchronization/OnceInitializer.h`, as `TestWSAInitialization` runs them: each
  of some threads calls `Initialize`, all at once; when all calls have returned, each thread that was told
  that there is a resource calls `Cleanup`, again all at once.

  `init_func` runs once, and all calls agree on what came of it; `cleanup_func` runs once
  (`once_phases`).  While one call runs `init_func` the others wait for it, and nobody waits in vain: what
  is left to do, the turns of the waiting loops aside, never grows, and somebody can always do some of it.

  The count is an `int`.  It shows how many calls there were up to 2 ^ 31 - 1 of them (`count_overflows`).
-/
import JunCore.Common.OnceInitializer

set_option linter.unusedVariables false
set_option linter.unusedSectionVars false

namespace JunCore.OnceInitializer

open Transition Function Counting

variable {T : Type} [DecidableEq T] [Fintype T]

/-! ## The phases -/

/-- The threads of `OnceInitializer`, who has called `Initialize`, how often `init_func` was run (with
    success or without), and whether the second phase has begun. -/
structure Phases (T : Type) where
  sys : Sys T := {}
  called : T → Bool := fun _ => false
  runs : Nat := 0
  second : Bool := false

/-- A thread makes its call in this phase; it goes on with it, and `ok` is what `init_func` does if it runs;
    the second phase begins. -/
inductive PhaseAct (T : Type)
  | call (t : T)
  | advance (t : T) (ok : Bool)
  | turn

/-- All calls of `Initialize` have been made and have returned. -/
def Phases.Returned (s : Phases T) : Prop := ∀ t, s.called t = true ∧ (s.sys.callers t).pc = .idle

instance (s : Phases T) : Decidable s.Returned := inferInstanceAs (Decidable (∀ t, _ = true ∧ _ = PC.idle))

def Phases.step (s : Phases T) : PhaseAct T → Option (Phases T)
  | .call t =>
    if s.second then (s.sys.step (t, .callCleanup)).map fun sys' => { s with sys := sys' }
    else if s.called t then none
    else (s.sys.step (t, .callInitialize)).map fun sys' =>
      { s with sys := sys', called := update s.called t true }
  | .advance t ok =>
    (s.sys.step (t, .advance ok)).map fun sys' =>
      { s with sys := sys', runs := s.runs + if (s.sys.callers t).pc = .initFunc then 1 else 0 }
  | .turn => if s.second = false ∧ s.Returned then some { s with second := true } else none

def phases (T : Type) [DecidableEq T] [Fintype T] : System (Phases T) where
  init s := s = {}
  next s s' := ∃ a, s.step a = some s'

/-! ## What is left to do -/

/-- What a thread has still to do, the turns of its waiting loop not counted. -/
def PC.left : PC → Nat
  | .loadState => 11
  | .compareExchange => 10
  | .initFunc => 9
  | .storeInitialized | .storeFailed => 8
  | .notifyWaiters | .waitLoad => 7
  | .giveUp => 5
  | .fetchSub => 3
  | .cleanupFunc => 2
  | .storeNotInitialized => 1
  | .idle => 0

/-- With its calls to come. -/
def Caller.left (called : Bool) (c : Caller) : Nat :=
  c.pc.left + 4 * c.held + if called then 0 else 12

def Phases.left (s : Phases T) : Nat := ∑ t, (s.sys.callers t).left (s.called t)

/-! ## What the threads know -/

/-- What a thread knows of the state. -/
def Caller.Knows (second called : Bool) (state : InitState) (c : Caller) : Prop :=
  if second then
    called = true ∧
      match c.pc with
      | .idle => c.held ≤ 1
      | .fetchSub | .cleanupFunc | .storeNotInitialized => c.held = 0
      | _ => False
  else
    match c.pc with
    | .idle =>
      if called then c.held = 1 ∧ state = .initialized ∨ c.held = 0 ∧ state = .failed else c.held = 0
    | .loadState | .compareExchange => called = true ∧ c.held = 0
    | .initFunc | .storeInitialized | .storeFailed => called = true ∧ c.held = 0 ∧ state = .initializing
    | .notifyWaiters => called = true ∧ c.held = 0 ∧ state = .initialized
    | .waitLoad => called = true ∧ c.held = 0 ∧ state ≠ .notInitialized
    | .giveUp => called = true ∧ c.held = 0 ∧ state = .failed
    | .fetchSub | .cleanupFunc | .storeNotInitialized => False

/-- The invariant of the phases. -/
structure Phased (s : Phases T) : Prop where
  knows : ∀ t, (s.sys.callers t).Knows s.second (s.called t) s.sys.shared.state
  runs : s.second = false → s.runs + total (Caller.atPC .initFunc .initFunc) s.sys.callers =
    if s.sys.shared.state = .notInitialized then 0 else 1
  once : s.second = true → s.runs = 1
  cleanups : s.second = false → s.sys.shared.cleanups = 0
  inits : s.second = true → s.sys.shared.inits ≤ 1
  sweeping : s.second = true → s.sys.shared.inits = 1 → s.sys.shared.state = .notInitialized ∨
    0 < total Caller.users s.sys.callers + total (Caller.atPC .cleanupFunc .cleanupFunc) s.sys.callers +
      total (Caller.atPC .storeNotInitialized .storeNotInitialized) s.sys.callers

/-! ## What the steps do -/

section

variable {g g' : Shared} {c c' d : Caller} {called called' : Bool}

theorem Caller.step_callInitialize (h : c.step g .callInitialize = some (g', c')) :
    c.pc = .idle ∧ g' = { g with referenceCount := g.referenceCount + 1 } ∧ c' = { c with pc := .loadState } := by
  cases hpc : c.pc <;> simp only [Caller.step, hpc, Option.some.injEq, Prod.mk.injEq, reduceCtorEq] at h
  exact ⟨rfl, h.1.symm, h.2.symm⟩

theorem Caller.step_callCleanup (h : c.step g .callCleanup = some (g', c')) :
    ∃ n, c = ⟨.idle, n + 1⟩ ∧ g' = g ∧ c' = ⟨.fetchSub, n⟩ := by
  obtain ⟨pc, n⟩ := c
  cases pc <;> cases n <;> simp only [Caller.step, Option.some.injEq, Prod.mk.injEq, reduceCtorEq] at h
  exact ⟨_, rfl, h.1.symm, h.2.symm⟩

/-- Who is not the last one has not read 1. -/
theorem Caller.step_notLast {ok : Bool} (h : c.step g (.advance ok) = some (g', c')) (hpc : c.pc = .fetchSub)
    (hidle : c'.pc = .idle) : g.referenceCount ≠ 1 := by
  simp only [Caller.step, hpc, Option.some.injEq, Prod.mk.injEq] at h
  obtain ⟨-, rfl⟩ := h
  intro hone
  simp [hone] at hidle

theorem Caller.step_not_idle {ok : Bool} (h : c.step g (.advance ok) = some (g', c')) : c.pc ≠ .idle := by
  intro hpc
  simp [Caller.step, hpc] at h

/-- Who goes on knows the state it leaves behind. -/
theorem Caller.Knows.advance {second ok : Bool} (K : c.Knows second called g.state)
    (h : c.step g (.advance ok) = some (g', c')) : c'.Knows second called g'.state := by
  have hidle := Caller.step_not_idle h
  cases Caller.step_moves h with
  | enter n | leave n => exact absurd rfl hidle
  | take n hl hg | refuse n hl hg =>
    rcases looking_cases hl with rfl | rfl <;> cases second <;> simp_all [Caller.Knows]
  | lose n =>
    have hg : g.state ≠ .notInitialized := fun hg => by simp [Caller.step, hg] at h
    cases second <;> simp_all [Caller.Knows]
  | _ => cases second <;> simp_all [Caller.Knows]

/-- Where `init_func` and what follows it are run. -/
def PC.initializes : PC → Bool
  | .initFunc | .storeInitialized | .storeFailed => true
  | _ => false

/-- The others know the state too: only one of them all is running `init_func`. -/
theorem Caller.Knows.other {second called'' : Bool} (K : d.Knows second called'' g.state) (M : c.Moves g g' c')
    (hc : c.Knows second called g.state)
    (hone : c.pc.initializes = true → d.pc.initializes = false) : d.Knows second called'' g'.state := by
  obtain ⟨pc, n⟩ := d
  cases M with
  | win m hg => cases second <;> cases pc <;> simp_all [Caller.Knows]
  | publish m | publishFailure m =>
    cases second <;> cases pc <;> simp_all [Caller.Knows, PC.initializes]
  | reset m => cases second <;> cases pc <;> simp_all [Caller.Knows]
  | _ => exact K

theorem Caller.Knows.counts_le {second : Bool} {state : InitState} (K : c.Knows second called state) :
    c.counts ≤ 1 := by
  obtain ⟨pc, n⟩ := c
  cases second <;> cases pc <;> simp_all [Caller.Knows, Caller.counts, PC.counted]
  split at K <;> omega

/-- In the second phase whoever is counted is a user. -/
theorem Caller.Knows.counts_eq {state : InitState} (K : c.Knows true called state) : c.counts = c.users := by
  obtain ⟨pc, n⟩ := c
  cases pc <;> simp_all [Caller.Knows, Caller.counts, Caller.users, PC.counted]

end

/-! ## One step -/

/-- The runs of `init_func`, in the first phase: `n` threads run it before the step, `n'` after it. -/
theorem Caller.Knows.runs_advance {g g' : Shared} {c c' : Caller} {called ok : Bool} {runs n n' : Nat}
    (K : c.Knows false called g.state) (h : c.step g (.advance ok) = some (g', c'))
    (hn : Shifts (Caller.atPC .initFunc .initFunc) c c' n n')
    (hruns : runs + n = if g.state = .notInitialized then 0 else 1) :
    (runs + if c.pc = .initFunc then 1 else 0) + n' = if g'.state = .notInitialized then 0 else 1 := by
  have hidle := Caller.step_not_idle h
  simp only [Shifts, Caller.atPC, or_self] at hn
  cases Caller.step_moves h with
  | enter m | leave m => exact absurd rfl hidle
  | take m hl hg | refuse m hl hg =>
    rcases looking_cases hl with rfl | rfl <;> simp only [reduceCtorEq, if_false] at hn ⊢ <;> omega
  | win m hg =>
    simp only [hg, reduceCtorEq, if_true, if_false] at hn hruns ⊢
    omega
  | last m hrc | notLast m | clean m | reset m => simp [Caller.Knows] at K
  | publish m | publishFailure m =>
    simp only [Caller.Knows, Bool.false_eq_true, if_false] at K
    simp only [K.2.2, reduceCtorEq, if_false] at *
    omega
  | _ =>
    simp only [reduceCtorEq, if_true, if_false] at *
    omega

/-- In the first phase nothing is cleaned up. -/
theorem Caller.Knows.cleanups_advance {g g' : Shared} {c c' : Caller} {called ok : Bool}
    (K : c.Knows false called g.state) (h : c.step g (.advance ok) = some (g', c')) :
    g'.cleanups = g.cleanups := by
  cases Caller.step_moves h with
  | last m hrc | notLast m | clean m | reset m => simp [Caller.Knows] at K
  | _ => rfl

/-- In the second phase nothing is initialised, and somebody is left until the state is reset. -/
theorem Caller.Knows.sweeping_advance {g g' : Shared} {c c' : Caller} {called ok : Bool} {u s n u' s' n' : Nat}
    (K : c.Knows true called g.state) (h : c.step g (.advance ok) = some (g', c'))
    (hu : Shifts Caller.users c c' u u') (hs : Shifts (Caller.atPC .cleanupFunc .cleanupFunc) c c' s s')
    (hn : Shifts (Caller.atPC .storeNotInitialized .storeNotInitialized) c c' n n')
    (hcount : u = 1 → g.referenceCount = 1) :
    c.pc ≠ .initFunc ∧ g'.inits = g.inits ∧
      (g.state = .notInitialized ∨ 0 < u + s + n → g'.state = .notInitialized ∨ 0 < u' + s' + n') := by
  have hidle := Caller.step_not_idle h
  simp only [Shifts, Caller.users, Caller.atPC, or_self] at hu hs hn
  cases Caller.step_moves h with
  | enter m | leave m => exact absurd rfl hidle
  | last m hrc =>
    refine ⟨by simp, rfl, fun _ => .inr ?_⟩
    simp only [reduceCtorEq, if_true, if_false] at *
    omega
  | notLast m =>
    -- who has not read 1 leaves somebody behind
    have hread := Caller.step_notLast h rfl rfl
    have hne : u ≠ 1 := fun hone => hread (hcount hone)
    refine ⟨by simp, rfl, fun _ => .inr ?_⟩
    simp only [reduceCtorEq, if_false] at hu hs hn ⊢
    omega
  | clean m =>
    refine ⟨by simp, rfl, fun _ => .inr ?_⟩
    simp only [if_true, reduceCtorEq, if_false] at hu hs hn ⊢
    omega
  | reset m => exact ⟨by simp, rfl, fun _ => .inl rfl⟩
  | take m hl hg | refuse m hl hg => rcases looking_cases hl with rfl | rfl <;> simp [Caller.Knows] at K
  | _ => simp [Caller.Knows] at K

/-! ## Every run -/

section

variable {s s' : Phases T}

/-- One call for each thread. -/
theorem Phased.counts_le (P : Phased s) : total Caller.counts s.sys.callers ≤ Fintype.card T := by
  have h := Finset.sum_le_card_nsmul Finset.univ (fun t => (s.sys.callers t).counts) 1
    fun t _ => (P.knows t).counts_le
  rw [total]
  simpa using h

/-- `Cleanup` never meets `Initialize`, and who reads 1 is the last one. -/
theorem Phased.careful (P : Phased s) (R : Reachable ((onceInitializer T).guard Careful) s.sys)
    (hn : Fintype.card T < 2 ^ 31) {sys' : Sys T} (hnext : (onceInitializer T).next s.sys sys') :
    Careful s.sys sys' := by
  refine ⟨fun t hlook _ u => ?_, lastOne_of_few R.of_guard (P.counts_le.trans (by omega)) hnext⟩
  have hsecond : s.second = false := by
    have K := P.knows t
    cases hsecond : s.second with
    | false => rfl
    | true => rcases looking_cases hlook with hpc | hpc <;> simp [Caller.Knows, hsecond, hpc] at K
  have K := P.knows u
  cases hpc : (s.sys.callers u).pc <;> simp_all [Caller.Knows, PC.cleaning]

/-- Nobody else runs `init_func` or tells what came of it. -/
theorem Phased.alone (P : Phased s) (S : s.sys.Sound) {t u : T} (hne : u ≠ t)
    (h : (s.sys.callers t).pc.initializes = true) : (s.sys.callers u).pc.initializes = false := by
  by_contra hu
  -- who initializes is trying or has succeeded
  have hsplit : total (fun c : Caller => c.pc.initializes.toNat) s.sys.callers =
      total (Caller.atPC .initFunc .storeFailed) s.sys.callers +
        total (Caller.atPC .storeInitialized .storeInitialized) s.sys.callers := by
    rw [total, total, total, ← Finset.sum_add_distrib]
    refine Finset.sum_congr rfl fun v _ => ?_
    cases hpc : (s.sys.callers v).pc <;> simp [Caller.atPC, hpc, PC.initializes]
  have hone : total (fun c : Caller => c.pc.initializes.toNat) s.sys.callers ≤ 1 := by
    unfold Sys.Sound OnceInitializer.Sound at S
    cases hg : s.sys.shared.state <;> simp only [hg] at S <;> omega
  have htwo := add_le_total (fun c : Caller => c.pc.initializes.toNat) s.sys.callers hne
  simp only [h, Bool.not_eq_false _ ▸ hu, Bool.toNat_true] at htwo
  omega

/-- All calls of `Initialize` have returned: what came of them. -/
theorem Phased.returned (P : Phased s) (S : s.sys.Sound) (hsecond : s.second = false) (hreturned : s.Returned)
    (t₀ : T) :
    s.runs = 1 ∧
      (s.sys.shared.inits = 1 ∧ s.sys.shared.state = .initialized ∧ (∀ t, (s.sys.callers t).held = 1) ∨
        s.sys.shared.inits = 0 ∧ s.sys.shared.state = .failed ∧ ∀ t, (s.sys.callers t).held = 0) := by
  have hknows : ∀ t, (s.sys.callers t).held = 1 ∧ s.sys.shared.state = .initialized ∨
      (s.sys.callers t).held = 0 ∧ s.sys.shared.state = .failed := by
    intro t
    have K := P.knows t
    simpa [Caller.Knows, hsecond, (hreturned t).1, (hreturned t).2] using K
  have hnowhere : ∀ pc pc' : PC, pc ≠ .idle → pc' ≠ .idle → total (Caller.atPC pc pc') s.sys.callers = 0 := by
    intro pc pc' hne hne'
    refine total_eq_zero fun t => if_neg ?_
    rw [(hreturned t).2]
    rintro (h | h)
    · exact hne h.symm
    · exact hne' h.symm
  have hruns := P.runs hsecond
  have hcleanups := P.cleanups hsecond
  have hsound := S
  unfold Sys.Sound OnceInitializer.Sound at hsound
  rw [hnowhere _ _ (by simp) (by simp)] at hruns
  rw [hnowhere _ _ (by simp) (by simp), hnowhere _ _ (by simp) (by simp), hnowhere _ _ (by simp) (by simp),
    hnowhere _ _ (by simp) (by simp)] at hsound
  rcases hknows t₀ with ⟨-, hstate⟩ | ⟨-, hstate⟩
  · simp only [hstate, reduceCtorEq, if_false] at hruns hsound hknows
    exact ⟨hruns, .inl ⟨by omega, hstate, fun t => by simpa using hknows t⟩⟩
  · simp only [hstate, reduceCtorEq, if_false] at hruns hsound hknows
    exact ⟨hruns, .inr ⟨by omega, hstate, fun t => by simpa using hknows t⟩⟩

/-- A call of `Initialize`. -/
theorem Phased.initialize (P : Phased s) {t : T} {sys' : Sys T} (hsecond : s.second = false)
    (hcalled : s.called t = false) (h : s.sys.step (t, .callInitialize) = some sys') :
    Phased { s with sys := sys', called := update s.called t true } := by
  obtain ⟨g, c, hc, rfl⟩ := Sys.step_cases h
  obtain ⟨hpc, rfl, rfl⟩ := Caller.step_callInitialize hc
  have hn := shifts_total (Caller.atPC .initFunc .initFunc) s.sys.callers t { s.sys.callers t with pc := .loadState }
  have hno : ∀ h : s.second = true, False := fun h => by simp [hsecond] at h
  refine ⟨fun u => ?_, fun _ => ?_, fun h => (hno h).elim, P.cleanups, fun h => (hno h).elim, fun h => (hno h).elim⟩
  · have K := P.knows u
    by_cases hu : u = t
    · subst hu
      simp only [update_self]
      simp only [Caller.Knows, hsecond, hpc, hcalled, Bool.false_eq_true, if_false] at K ⊢
      exact ⟨trivial, K⟩
    · simpa only [update_of_ne hu] using K
  · have hruns := P.runs hsecond
    simp only [Shifts, Caller.atPC, hpc, reduceCtorEq, or_self, if_false, Nat.add_zero] at hn
    show s.runs + total (Caller.atPC .initFunc .initFunc) (update s.sys.callers t _) =
      if s.sys.shared.state = .notInitialized then 0 else 1
    rw [hn.1]
    exact hruns

/-- A call of `Cleanup`. -/
theorem Phased.cleanup (P : Phased s) {t : T} {sys' : Sys T} (hsecond : s.second = true)
    (h : s.sys.step (t, .callCleanup) = some sys') : Phased { s with sys := sys' } := by
  obtain ⟨g, c, hc, rfl⟩ := Sys.step_cases h
  obtain ⟨n, hcaller, rfl, rfl⟩ := Caller.step_callCleanup hc
  have hno : ∀ h : s.second = false, False := fun h => by simp [hsecond] at h
  have hcaller : s.sys.callers t = ⟨.idle, n + 1⟩ := hcaller
  refine ⟨fun u => ?_, fun h => (hno h).elim, P.once, fun h => (hno h).elim, P.inits, fun _ hinits => ?_⟩
  · have K := P.knows u
    by_cases hu : u = t
    · subst hu
      simp only [update_self]
      simp only [hcaller, Caller.Knows, hsecond, if_true] at K ⊢
      exact ⟨K.1, by omega⟩
    · simpa only [update_of_ne hu] using K
  · have hu := shifts_total Caller.users s.sys.callers t ⟨.fetchSub, n⟩
    have hs := shifts_total (Caller.atPC .cleanupFunc .cleanupFunc) s.sys.callers t ⟨.fetchSub, n⟩
    have hn := shifts_total (Caller.atPC .storeNotInitialized .storeNotInitialized) s.sys.callers t ⟨.fetchSub, n⟩
    simp only [Shifts, hcaller, Caller.users, Caller.atPC, reduceCtorEq, or_self, if_false] at hu hs hn
    refine (P.sweeping hsecond hinits).imp id fun hpos => ?_
    dsimp only at hpos ⊢
    omega

/-- **A step of a call.** -/
theorem Phased.advance (P : Phased s) (R : Reachable (onceInitializer T) s.sys) (S : s.sys.Sound) {t : T}
    {ok : Bool} {sys' : Sys T} (hcard : Fintype.card T < 2 ^ 31)
    (h : s.sys.step (t, .advance ok) = some sys') :
    Phased { s with sys := sys', runs := s.runs + if (s.sys.callers t).pc = .initFunc then 1 else 0 } := by
  obtain ⟨g, c, hc, rfl⟩ := Sys.step_cases h
  have K := P.knows t
  have hknows : ∀ u, (update s.sys.callers t c u).Knows s.second (s.called u) g.state := by
    intro u
    by_cases hu : u = t
    · subst hu
      rw [update_self]
      exact K.advance hc
    · rw [update_of_ne hu]
      exact (P.knows u).other (Caller.step_moves hc) K (P.alone S hu)
  cases hsecond : s.second with
  | false =>
    have hno : ∀ h : s.second = true, False := fun h => by simp [hsecond] at h
    rw [hsecond] at K
    refine ⟨hsecond ▸ hknows, fun _ => ?_, fun h => (by cases h), fun _ => ?_, fun h => (by cases h),
      fun h => (by cases h)⟩
    · exact K.runs_advance hc (shifts_total ..) (P.runs hsecond)
    · exact (K.cleanups_advance hc).trans (P.cleanups hsecond)
  | true =>
    rw [hsecond] at K
    -- in this phase the count is that of the users
    have hcount : total Caller.users s.sys.callers = 1 → s.sys.shared.referenceCount = 1 := by
      intro hone
      have hsame : total Caller.counts s.sys.callers = total Caller.users s.sys.callers :=
        Finset.sum_congr rfl fun u _ => (hsecond ▸ P.knows u : Caller.Knows true _ _ _).counts_eq
      rw [count_reachable R, hsame, hone]
      rfl
    obtain ⟨hpc, hinits, hsweeping⟩ := K.sweeping_advance hc (shifts_total ..) (shifts_total ..) (shifts_total ..) hcount
    refine ⟨hsecond ▸ hknows, fun h => (by cases h), fun _ => ?_, fun h => (by cases h), fun _ => ?_,
      fun _ hone => hsweeping (P.sweeping hsecond (hinits ▸ hone))⟩
    · simp only [if_neg hpc]
      exact P.once hsecond
    · exact hinits ▸ P.inits hsecond

/-- The second phase begins. -/
theorem Phased.turn (P : Phased s) (S : s.sys.Sound) (hsecond : s.second = false) (hreturned : s.Returned)
    (t₀ : T) : Phased { s with second := true } := by
  obtain ⟨hruns, hwhat⟩ := P.returned S hsecond hreturned t₀
  refine ⟨fun t => ?_, fun h => (by cases h), fun _ => hruns, fun h => (by cases h), fun _ => ?_, fun _ hone => ?_⟩
  · refine ⟨(hreturned t).1, ?_⟩
    simp only [(hreturned t).2]
    rcases hwhat with ⟨-, -, hheld⟩ | ⟨-, -, hheld⟩ <;> rw [hheld t]
    exact Nat.zero_le _
  · rcases hwhat with ⟨hinits, -, -⟩ | ⟨hinits, -, -⟩ <;> simp [hinits]
  · right
    rcases hwhat with ⟨-, -, hheld⟩ | ⟨hinits, -, -⟩
    · have huser := (held_le_users _).trans (le_total Caller.users s.sys.callers t₀)
      rw [hheld t₀] at huser
      dsimp only
      omega
    · simp only [hinits] at hone
      omega

theorem Phased.start : Phased ({} : Phases T) := by
  refine ⟨fun t => rfl, fun _ => ?_, fun h => (by cases h), fun _ => rfl, fun h => (by cases h), fun h => (by cases h)⟩
  have hzero : total (Caller.atPC .initFunc .initFunc) (fun _ : T => ({} : Caller)) = 0 :=
    total_eq_zero fun _ => rfl
  show 0 + total (Caller.atPC .initFunc .initFunc) (fun _ : T => ({} : Caller)) = 0
  rw [hzero]

/-- **Every run of the phases** is a careful run of the threads. -/
theorem phased (h : Reachable (phases T) s) (hcard : Fintype.card T < 2 ^ 31) (t₀ : T) :
    Phased s ∧ Reachable ((onceInitializer T).guard Careful) s.sys := by
  induction h with
  | start h0 =>
    obtain rfl := h0
    exact ⟨.start, .start rfl⟩
  | step hr hn ih =>
    rename_i s s'
    obtain ⟨P, R⟩ := ih
    obtain ⟨a, ha⟩ := hn
    -- a step of a thread is a careful one
    have hgo : ∀ {e sys'}, s.sys.step e = some sys' → Reachable ((onceInitializer T).guard Careful) sys' :=
      fun h => .step R ⟨⟨_, h⟩, P.careful R hcard ⟨_, h⟩⟩
    cases a with
    | call t =>
      cases hsecond : s.second with
      | true =>
        simp only [Phases.step, hsecond, if_true, Option.map_eq_some_iff] at ha
        obtain ⟨sys', hstep, rfl⟩ := ha
        exact ⟨hsecond ▸ P.cleanup hsecond hstep, hgo hstep⟩
      | false =>
        simp only [Phases.step, hsecond, Bool.false_eq_true, if_false] at ha
        split at ha
        · cases ha
        · rename_i hcalled
          obtain ⟨sys', hstep, rfl⟩ := Option.map_eq_some_iff.mp ha
          exact ⟨hsecond ▸ P.initialize hsecond (by simpa using hcalled) hstep, hgo hstep⟩
    | advance t ok =>
      obtain ⟨sys', hstep, rfl⟩ := Option.map_eq_some_iff.mp ha
      exact ⟨P.advance R.of_guard (sound_reachable R) hcard hstep, hgo hstep⟩
    | turn =>
      obtain ⟨⟨hsecond, hreturned⟩, heq⟩ := Option.ite_none_right_eq_some.mp ha
      obtain rfl := Option.some.inj heq
      exact ⟨P.turn (sound_reachable R) hsecond hreturned t₀, R⟩

/-! ## Nobody waits in vain -/

/-- An operation leaves less to do, unless it is a turn of the waiting loop. -/
theorem Caller.Moves.left_lt {g g' : Shared} {c c' : Caller} (M : c.Moves g g' c') (called : Bool)
    (hidle : c.pc ≠ .idle) : c'.left called < c.left called ∨ c.pc = .waitLoad ∧ c' = c := by
  cases M with
  | enter n | leave n => exact absurd rfl hidle
  | spin n => exact .inr ⟨rfl, rfl⟩
  | take n hl hg | refuse n hl hg =>
    left
    rcases looking_cases hl with rfl | rfl <;> simp only [Caller.left, PC.left] <;> omega
  | _ =>
    left
    simp only [Caller.left, PC.left]
    omega

theorem left_update (callers : T → Caller) (called : T → Bool) {t : T} {c : Caller} :
    (c.left (called t) ≤ (callers t).left (called t) →
      ∑ u, (update callers t c u).left (called u) ≤ ∑ u, (callers u).left (called u)) ∧
    (c.left (called t) < (callers t).left (called t) →
      ∑ u, (update callers t c u).left (called u) < ∑ u, (callers u).left (called u)) := by
  have hle : c.left (called t) ≤ (callers t).left (called t) →
      ∀ u ∈ Finset.univ, (update callers t c u).left (called u) ≤ (callers u).left (called u) := by
    intro h u _
    by_cases hu : u = t
    · subst hu
      rwa [update_self]
    · rw [update_of_ne hu]
  refine ⟨fun h => Finset.sum_le_sum (hle h), fun h => Finset.sum_lt_sum (hle h.le) ⟨t, Finset.mem_univ t, ?_⟩⟩
  rwa [update_self]

/-- No step leaves more to do. -/
theorem left_le {a : PhaseAct T} (h : s.step a = some s') : s'.left ≤ s.left := by
  cases a with
  | call t =>
    simp only [Phases.step] at h
    split at h
    · obtain ⟨sys', hstep, rfl⟩ := Option.map_eq_some_iff.mp h
      obtain ⟨g, c, hc, rfl⟩ := Sys.step_cases hstep
      obtain ⟨n, hcaller, rfl, rfl⟩ := Caller.step_callCleanup hc
      refine (left_update s.sys.callers s.called).1 ?_
      rw [show s.sys.callers t = ⟨.idle, n + 1⟩ from hcaller]
      simp only [Caller.left, PC.left]
      omega
    · split at h
      · cases h
      · rename_i hcalled
        obtain ⟨sys', hstep, rfl⟩ := Option.map_eq_some_iff.mp h
        obtain ⟨g, c, hc, rfl⟩ := Sys.step_cases hstep
        obtain ⟨hpc, rfl, rfl⟩ := Caller.step_callInitialize hc
        refine Finset.sum_le_sum fun u _ => ?_
        dsimp only
        by_cases hu : u = t
        · subst hu
          simp only [update_self, Caller.left, show (s.sys.callers u).pc = .idle from hpc, PC.left, hcalled,
            Bool.false_eq_true, if_true, if_false]
          omega
        · rw [update_of_ne hu, update_of_ne hu]
  | advance t ok =>
    obtain ⟨sys', hstep, rfl⟩ := Option.map_eq_some_iff.mp h
    obtain ⟨g, c, hc, rfl⟩ := Sys.step_cases hstep
    refine (left_update s.sys.callers s.called).1 ?_
    rcases (Caller.step_moves hc).left_lt (s.called t) (Caller.step_not_idle hc) with hlt | ⟨-, rfl⟩
    · exact hlt.le
    · exact Nat.le_refl _
  | turn =>
    obtain ⟨-, heq⟩ := Option.ite_none_right_eq_some.mp h
    obtain rfl := Option.some.inj heq
    exact Nat.le_refl _

/-- Who is in a call can go on. -/
theorem Caller.step_of_call {g : Shared} {c : Caller} (h : c.pc ≠ .idle) :
    ∃ r, c.step g (.advance true) = some r := by
  cases hpc : c.pc with
  | idle => exact absurd hpc h
  | compareExchange =>
    simp only [Caller.step, hpc]
    split <;> exact ⟨_, rfl⟩
  | _ => exact ⟨_, by simp only [Caller.step, hpc]; rfl⟩

/-- Who waits while the state is published goes on. -/
theorem Caller.step_published {g g' : Shared} {c c' : Caller} (h : c.step g (.advance true) = some (g', c'))
    (hpc : c.pc = .waitLoad) (hg : g.state = .initialized ∨ g.state = .failed) : c' ≠ c := by
  simp only [Caller.step, hpc, Caller.look, Option.some.injEq, Prod.mk.injEq] at h
  obtain ⟨-, rfl⟩ := h
  intro heq
  have := congrArg Caller.pc heq
  rcases hg with hg | hg <;> simp [hg, hpc] at this

/-- **Somebody can always do some of it**: while a call has not returned, there is a step that leaves less
    to do. -/
theorem Phased.progress (P : Phased s) (S : s.sys.Sound) {t : T} (ht : (s.sys.callers t).pc ≠ .idle) :
    ∃ a s', s.step a = some s' ∧ s'.left < s.left := by
  have hgo : ∀ u : T, (s.sys.callers u).pc ≠ .idle →
      ((s.sys.callers u).pc = .waitLoad → s.sys.shared.state = .initialized ∨ s.sys.shared.state = .failed) →
      ∃ a s', s.step a = some s' ∧ s'.left < s.left := by
    intro u hu hpublished
    obtain ⟨⟨g, c⟩, hc⟩ := Caller.step_of_call (g := s.sys.shared) hu
    have hstep : s.sys.step (u, .advance true) = some ⟨g, update s.sys.callers u c⟩ := by
      rw [Sys.step, hc]
      rfl
    refine ⟨.advance u true, _, by rw [Phases.step, hstep]; rfl, ?_⟩
    refine (left_update s.sys.callers s.called).2 ?_
    rcases (Caller.step_moves hc).left_lt (s.called u) hu with hlt | ⟨hwait, hsame⟩
    · exact hlt
    · exact absurd hsame (Caller.step_published hc hwait (hpublished hwait))
  by_cases hother : ∃ u, (s.sys.callers u).pc ≠ .idle ∧ (s.sys.callers u).pc ≠ .waitLoad
  · obtain ⟨u, hu, hwait⟩ := hother
    exact hgo u hu fun h => absurd h hwait
  · -- all wait, so nobody is initialising
    have hall : ∀ u, (s.sys.callers u).pc = .idle ∨ (s.sys.callers u).pc = .waitLoad := by
      intro u
      by_contra hu
      exact hother ⟨u, fun h => hu (.inl h), fun h => hu (.inr h)⟩
    refine hgo t ht fun hwait => ?_
    have K := P.knows t
    have hnowhere : ∀ pc pc' : PC, pc ≠ .idle ∧ pc ≠ .waitLoad → pc' ≠ .idle ∧ pc' ≠ .waitLoad →
        total (Caller.atPC pc pc') s.sys.callers = 0 := by
      intro pc pc' hpc hpc'
      refine total_eq_zero fun u => if_neg ?_
      rcases hall u with h | h <;> rw [h]
      · exact fun h => h.elim (fun h => hpc.1 h.symm) fun h => hpc'.1 h.symm
      · exact fun h => h.elim (fun h => hpc.2 h.symm) fun h => hpc'.2 h.symm
    have hsound := S
    unfold Sys.Sound OnceInitializer.Sound at hsound
    rw [hnowhere .initFunc .storeFailed (by simp) (by simp),
      hnowhere .storeInitialized .storeInitialized (by simp) (by simp)] at hsound
    cases hstate : s.sys.shared.state with
    | initialized => exact .inl rfl
    | failed => exact .inr rfl
    | notInitialized =>
      cases hsecond : s.second <;> simp [Caller.Knows, hsecond, hwait, hstate] at K
    | initializing =>
      simp only [hstate] at hsound
      omega

/-! ## Once -/

theorem toInt_count {b : Int32} {n : Nat} (h : b = Int32.ofNat n) (hn : n < 2 ^ 31) : b.toInt = n := by
  rw [h, Int32.toInt_ofNat_of_lt hn]

/-- **`OnceInitializer` runs each phase once.**  For any finite number of threads that an `int` can count, and
    any interleaving.  When all calls of `Initialize` have returned, `init_func` has been run once; either
    it succeeded and all calls returned true, or it failed and none did.  When all calls of `Cleanup` have
    returned after a success, `cleanup_func` has been run once.  And while a call has not returned, there is
    a step that leaves less to do, and none that leaves more. -/
theorem once_phases (h : Reachable (phases T) s) (hpos : 0 < Fintype.card T) (hcard : Fintype.card T < 2 ^ 31) :
    (s.second = false → s.Returned → s.runs = 1 ∧
      (s.sys.shared.inits = 1 ∧ (∀ t, (s.sys.callers t).held = 1) ∧ s.sys.shared.state = .initialized ∧
          s.sys.shared.referenceCount.toInt = Fintype.card T ∨
        s.sys.shared.inits = 0 ∧ (∀ t, (s.sys.callers t).held = 0) ∧ s.sys.shared.state = .failed ∧
          s.sys.shared.referenceCount.toInt = 0)) ∧
    (s.second = true → s.sys.shared.inits = 1 → (∀ t, s.sys.callers t = ⟨.idle, 0⟩) →
      s.sys.shared.cleanups = 1 ∧ s.sys.shared.state = .notInitialized ∧ s.sys.shared.referenceCount.toInt = 0) ∧
    (∀ a s', s.step a = some s' → s'.left ≤ s.left) ∧
    ((∃ t, (s.sys.callers t).pc ≠ .idle) → ∃ a s', s.step a = some s' ∧ s'.left < s.left) := by
  obtain ⟨t₀⟩ : Nonempty T := Fintype.card_pos_iff.mp hpos
  obtain ⟨P, R⟩ := phased h hcard t₀
  have S := sound_reachable R
  have hcount := toInt_count (count_reachable R.of_guard) (lt_of_le_of_lt P.counts_le hcard)
  refine ⟨fun hsecond hreturned => ?_, fun hsecond hinits hdone => ?_, fun a s' => left_le, fun ⟨t, ht⟩ => P.progress S ht⟩
  · obtain ⟨hruns, hwhat⟩ := P.returned S hsecond hreturned t₀
    have hheld : total Caller.counts s.sys.callers = ∑ t, (s.sys.callers t).held :=
      Finset.sum_congr rfl fun t _ => by simp [Caller.counts, (hreturned t).2, PC.counted]
    refine ⟨hruns, hwhat.imp (fun h => ⟨h.1, h.2.2, h.2.1, ?_⟩) fun h => ⟨h.1, h.2.2, h.2.1, ?_⟩⟩
    · rw [hcount, hheld, Finset.sum_congr rfl fun t _ => h.2.2 t]
      simp
    · rw [hcount, hheld, Finset.sum_congr rfl fun t _ => h.2.2 t]
      simp
  · have hzero : ∀ f : Caller → Nat, f ⟨.idle, 0⟩ = 0 → total f s.sys.callers = 0 :=
      fun f hf => total_eq_zero fun t => by rw [hdone t, hf]
    have hsweeping := P.sweeping hsecond hinits
    rw [hzero _ rfl, hzero _ rfl, hzero _ rfl] at hsweeping
    have hstate : s.sys.shared.state = .notInitialized := hsweeping.resolve_right (by omega)
    have hsound := S
    unfold Sys.Sound OnceInitializer.Sound at hsound
    simp only [hstate] at hsound
    refine ⟨by omega, hstate, ?_⟩
    rw [hcount, hzero _ rfl]
    rfl

end

/-! ## Two threads, and too many -/

theorem phases_next (s : Phases T) (a : PhaseAct T) (s' : Phases T) (h : s.step a = some s') :
    (phases T).next s s' := ⟨a, h⟩

/-- Thread `false` has to wait for `true`; then both clean up. -/
theorem once_phases_two : ∃ s : Phases Bool, Reachable (phases Bool) s ∧ s.second = true ∧ s.runs = 1 ∧
    s.sys.shared.cleanups = 1 ∧ s.sys.shared.state = .notInitialized ∧ s.sys.shared.referenceCount.toInt = 0 := by
  have hinit : (phases Bool).init {} := rfl
  obtain ⟨s, hr, hp⟩ := exists_reachable_of_exec hinit phases_next
    ([.call true, .call false, .advance true true, .advance false true, .advance true true, .advance false true,
      .advance false true, .advance true true, .advance true true, .advance true true, .advance false true, .turn,
      .call false, .call true, .advance false true, .advance true true, .advance true true, .advance true true])
    (fun s => decide (s.second = true ∧ s.runs = 1 ∧ s.sys.shared.inits = 1 ∧
      ∀ t, (s.sys.callers t).pc = .idle ∧ (s.sys.callers t).held = 0)) (by decide)
  obtain ⟨hsecond, hruns, hinits, hdone⟩ := of_decide_eq_true hp
  have hcallers : ∀ t, s.sys.callers t = ⟨.idle, 0⟩ := by
    intro t
    obtain ⟨hpc, hheld⟩ := hdone t
    generalize s.sys.callers t = c at hpc hheld
    obtain ⟨pc, held⟩ := c
    obtain rfl : pc = .idle := hpc
    obtain rfl : held = 0 := hheld
    rfl
  have hphase := (once_phases hr (by decide) (by decide)).2.1 hsecond hinits hcallers
  exact ⟨s, hr, hsecond, hruns, hphase⟩

/-- The calls of the threads in `F` have returned true, and the others have not begun. -/
def told (F : Finset T) : Phases T where
  sys.shared := { state := .initialized, referenceCount := Int32.ofNat F.card, inits := 1 }
  sys.callers t := if t ∈ F then ⟨.idle, 1⟩ else {}
  called t := decide (t ∈ F)
  runs := 1

theorem told_reachable {F : Finset T} (hF : F.Nonempty) : Reachable (phases T) (told F) := by
  induction hF using Finset.Nonempty.cons_induction with
  | singleton t =>
    have hrun : exec Phases.step (.call t :: List.replicate 5 (.advance t true)) ({} : Phases T) = some {
        sys.shared := { state := .initialized, referenceCount := 1, inits := 1 }
        sys.callers := update (fun _ => {}) t ⟨.idle, 1⟩
        called := update (fun _ => false) t true
        runs := 1 } := by
      simp [exec, Phases.step, Sys.step, Caller.step, Caller.look]
    have htold : told {t} = {
        sys.shared := { state := .initialized, referenceCount := 1, inits := 1 }
        sys.callers := update (fun _ => {}) t ⟨.idle, 1⟩
        called := update (fun _ => false) t true
        runs := 1 } := by
      simp only [told, Finset.card_singleton, Finset.mem_singleton, Phases.mk.injEq, Sys.mk.injEq]
      refine ⟨⟨rfl, ?_⟩, ?_, trivial, trivial⟩
      · funext u
        rw [update_apply]
      · funext u
        by_cases hu : u = t <;> simp [hu]
    rw [htold]
    exact reachable_of_exec phases_next _ (.start rfl) hrun
  | cons t F ht hF ih =>
    have hrun : exec Phases.step [.call t, .advance t true] (told F) = some { told F with
        sys.shared := { (told F).sys.shared with referenceCount := (told F).sys.shared.referenceCount + 1 }
        sys.callers := update (told F).sys.callers t ⟨.idle, 1⟩
        called := update (told F).called t true } := by
      simp [exec, Phases.step, Sys.step, Caller.step, Caller.look, told, ht]
    have htold : told (Finset.cons t F ht) = { told F with
        sys.shared := { (told F).sys.shared with referenceCount := (told F).sys.shared.referenceCount + 1 }
        sys.callers := update (told F).sys.callers t ⟨.idle, 1⟩
        called := update (told F).called t true } := by
      simp only [told, Finset.card_cons, Finset.mem_cons, Phases.mk.injEq, Sys.mk.injEq, Shared.mk.injEq]
      refine ⟨⟨⟨trivial, Int32.ofNat_add .., trivial, trivial⟩, ?_⟩, ?_, trivial, trivial⟩
      · funext u
        by_cases hu : u = t <;> simp [hu]
      · funext u
        by_cases hu : u = t <;> simp [hu]
    rw [htold]
    exact reachable_of_exec phases_next _ ih hrun

/-- **The count overflows**: 2 ^ 31 calls of `Initialize` return true, and the count is not 2 ^ 31. -/
theorem count_overflows : ∃ s : Phases (Fin (2 ^ 31)), Reachable (phases _) s ∧ s.second = false ∧ s.Returned ∧
    (∀ t, (s.sys.callers t).held = 1) ∧ s.sys.shared.referenceCount.toInt ≠ 2 ^ 31 := by
  have hmem : ∀ t : Fin (2 ^ 31), t ∈ Finset.univ := Finset.mem_univ
  refine ⟨told Finset.univ, told_reachable ⟨⟨0, by omega⟩, hmem _⟩, rfl, fun t => ⟨?_, ?_⟩, fun t => ?_, ?_⟩
  · simp [told]
  · simp [told]
  · simp [told]
  · simp only [told, Finset.card_univ, Fintype.card_fin]
    decide

end JunCore.OnceInitializer
