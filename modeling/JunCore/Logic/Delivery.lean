/-
  What the agents owe each other.

  A job, and an API call, is a list of `PostJob`s made one after the other.  `Sys.owed` is what an
  agent still has to put into a queue: the job of the call it is inside of, unless that is linked
  already, and then what its instructions, or the rest of its API call, will post.  Every step
  either leaves this alone, delivers (or loses to a marked object) the first job an agent owes, or
  lets an agent that owes nothing take on a new list: `Effect` is that case analysis, with what
  happens to the game state beside it.

  An invariant about which jobs enter which queue, and in what order, is then a statement about
  `owed` and `entered`; the steps of `PostJob` and `Flush` are not looked at again.
-/
import JunCore.Logic.Order

set_option linter.unusedVariables false
set_option linter.unusedSectionVars false

namespace JunCore.Logic

open Transition Function

variable {T P O J W K : Type}

/-! ## Debts -/

/-- The `PostJob`s among a list of instructions. -/
def postsOf : List (Instr T O J) → List (O × J)
  | [] => []
  | .postJob o j :: is => (o, j) :: postsOf is
  | _ :: is => postsOf is

/-- The `PostJob`s a job still has to make. -/
def Phase.posts : Option (Phase T O J) → List (O × J)
  | some (.running _ _ is) => postsOf is
  | _ => []

def LoopPC.posts : LoopPC T O J → List (O × J)
  | .busy _ ph => Phase.posts (some ph)
  | _ => []

/-- The job of a `PostJob` call that has not linked it yet. -/
def unlinked : Option (O × PostCall T J) → List (O × J)
  | some (o, ⟨j, .loadMarked⟩) | some (o, ⟨j, .link⟩) => [(o, j)]
  | _ => []

/-- What an agent still has to put into a queue, first things first. -/
def Sys.owed (s : Sys T P O J W) : T ⊕ P → List (O × J)
  | .inl t => unlinked (s.frames (.inl t)) ++ (s.loops t).posts
  | .inr p => unlinked (s.frames (.inr p)) ++ s.todo p

def Sys.entered (s : Sys T P O J W) (o : O) : List J := (s.cells o).entered

def Sys.started (s : Sys T P O J W) (o : O) : List Nat := (s.cells o).started

/-- A step of `Flush` that calls no job hands the posts of the running job on to the call. -/
theorem posts_flushStep [DecidableEq T] (is : List (Instr T O J)) (c : Cell T J) {ph : Phase T O J}
    (h : ∀ old e, ph ≠ .jobStart old e) :
    (flushStep is c ph).call.toList ++ Phase.posts (flushStep is c ph).phase
      = Phase.posts (some ph) := by
  cases ph with
  | jobStart old e => exact absurd rfl (h old e)
  | running old n is' =>
    cases is' using Instr.list_cases with
    | nil | setJobThread t rest | markForDelete rest | postJob o j rest => rfl
  | jobUnlink old => cases hq : c.jobQueue.items <;> simp [flushStep, hq, Phase.posts]
  | recheckCas => cases hp : c.processing <;> simp [flushStep, hp, Phase.posts]
  | handOver r | reRegister r => cases r <;> rfl
  | flushLoadMarked | jobDequeue old | afterJob old | checkThread old | loadCount | checkMarked =>
    simp only [flushStep]
    split <;> rfl
  | loadOldThread | jobDequeueFail old | storeFalse | delete => rfl

theorem started_flushStep [DecidableEq T] [DecidableEq O] (is : List (Instr T O J)) (c : Cell T J)
    {ph : Phase T O J} (h : ∀ old e, ph ≠ .jobStart old e) :
    (flushStep is c ph).cell.started = c.started := by
  rcases ledger_flushStep is c ph with ⟨hl, -⟩ | ⟨old, e, rest, -, -, hr⟩ | ⟨old, e, rfl, -⟩ |
    ⟨old, n, rest, -, hr⟩ | ⟨old, n, -, hr⟩ | ⟨-, hr⟩
  · rw [hl]
  · rw [hr]
  · exact absurd rfl (h old e)
  · rw [hr]
  · rw [hr]
  · rw [hr]

/-! ## The effect of a step -/

section Effects

variable [DecidableEq T] [DecidableEq P] [DecidableEq O]

/-- **What a step does to the debts, the queues' histories and the game state.** -/
inductive Effect (prog : Program T O J W K) (s s' : Sys T P O J W) : Prop
  /-- nothing -/
  | quiet : s'.owed = s.owed → s'.entered = s.entered → s'.started = s.started →
      s'.world = s.world → Effect prog s s'
  /-- agent `a` links the first job it owes -/
  | delivered (a o j rest) : s.owed a = (o, j) :: rest → s'.owed = update s.owed a rest →
      s'.entered = update s.entered o (s.entered o ++ [j]) → s'.started = s.started →
      s'.world = s.world → Effect prog s s'
  /-- the first job agent `a` owes is refused -/
  | refused (a o j rest) : s.owed a = (o, j) :: rest → s'.owed = update s.owed a rest →
      (s.cells o).markedForDelete = true → s'.entered = s.entered → s'.started = s.started →
      s'.world = s.world → Effect prog s s'
  /-- thread `t` calls a job -/
  | called (t o old e) : s.loops t = .busy o (.jobStart old e) → s.owed (.inl t) = [] →
      s'.owed = update s.owed (.inl t) (postsOf (prog.body e.job o s.world).2) →
      s'.entered = s.entered → s'.started = update s.started o (s.started o ++ [e.ticket]) →
      s'.loops = update s.loops t (.busy o (.running old e.ticket (prog.body e.job o s.world).2)) →
      s'.world = (prog.body e.job o s.world).1 → Effect prog s s'
  /-- caller `p` makes an API call -/
  | request (p k) : s.owed (.inr p) = [] → s'.owed = update s.owed (.inr p) (prog.posts k) →
      s'.entered = s.entered → s'.started = s.started → s'.world = s.world → Effect prog s s'

/-- Debts agree when they agree agent by agent. -/
theorem owed_ext {s : Sys T P O J W} {g : T ⊕ P → List (O × J)} (hl : ∀ t, s.owed (.inl t) = g (.inl t))
    (hr : ∀ p, s.owed (.inr p) = g (.inr p)) : s.owed = g := by
  funext a
  cases a with
  | inl t => exact hl t
  | inr p => exact hr p

/-- A step inside `PostJob` changes only the debts of its agent. -/
theorem owed_postStep (s : Sys T P O J W) (a : T ⊕ P) (o : O) (f : PostCall T J)
    (hf : s.frames a = some (o, f)) : ∃ tail, s.owed a = unlinked (some (o, f)) ++ tail ∧
      (s.postStep a o f).owed
        = update s.owed a (unlinked ((postStep (s.cells o) f).2.1.map (o, ·)) ++ tail) := by
  cases a with
  | inl t =>
    refine ⟨(s.loops t).posts, by rw [Sys.owed, hf], ?_⟩
    apply owed_ext
    · intro t'
      by_cases ht : t' = t
      · subst ht; simp [Sys.owed, Sys.postStep]
      · simp [Sys.owed, Sys.postStep, ht]
    · intro p
      simp [Sys.owed, Sys.postStep]
  | inr p =>
    refine ⟨s.todo p, by rw [Sys.owed, hf], ?_⟩
    apply owed_ext
    · intro t
      simp [Sys.owed, Sys.postStep]
    · intro p'
      by_cases hp : p' = p
      · subst hp; simp [Sys.owed, Sys.postStep]
      · simp [Sys.owed, Sys.postStep, hp]

theorem history_postStep (s : Sys T P O J W) (a : T ⊕ P) (o : O) (f : PostCall T J) :
    (s.postStep a o f).entered = update s.entered o (postStep (s.cells o) f).1.entered ∧
      (s.postStep a o f).started = update s.started o (postStep (s.cells o) f).1.started := by
  constructor
  · exact comp_update (fun c : Cell T J => c.entered) s.cells o _
  · exact comp_update (fun c : Cell T J => c.started) s.cells o _

/-- An update that changes nothing. -/
theorem update_same {α : Type} {β : Type} [DecidableEq α] {g : α → β} {a : α} {b : β} (h : b = g a) :
    update g a b = g := by
  rw [h, update_eq_self]

theorem effect_postStep (prog : Program T O J W K) (s : Sys T P O J W) {a : T ⊕ P} {o : O}
    {f : PostCall T J} (hf : s.frames a = some (o, f)) : Effect prog s (s.postStep a o f) := by
  obtain ⟨tail, hold, hnew⟩ := owed_postStep s a o f hf
  obtain ⟨hent, hsta⟩ := history_postStep s a o f
  -- a step that neither links nor gives up
  have hquiet : unlinked ((postStep (s.cells o) f).2.1.map (o, ·)) = unlinked (some (o, f)) →
      (postStep (s.cells o) f).1.entered = s.entered o →
      (postStep (s.cells o) f).1.started = s.started o → Effect prog s (s.postStep a o f) := by
    intro h₁ h₂ h₃
    refine .quiet ?_ (hent.trans (update_same h₂)) (hsta.trans (update_same h₃)) rfl
    rw [hnew, h₁]
    exact update_same hold.symm
  obtain ⟨j, pc⟩ := f
  cases pc with
  | loadMarked =>
    cases hm : (s.cells o).markedForDelete with
    | true =>
      refine .refused a o j tail hold ?_ hm (hent.trans (update_same ?_))
        (hsta.trans (update_same ?_)) rfl
      · rw [hnew]; simp [postStep, hm, unlinked]
      · simp [postStep, hm, Sys.entered]
      · simp [postStep, hm, Sys.started]
    | false =>
      refine hquiet ?_ ?_ ?_
      · simp [postStep, hm, unlinked]
      · simp [postStep, hm, Sys.entered]
      · simp [postStep, hm, Sys.started]
  | link =>
    exact .delivered a o j tail hold hnew hent (hsta.trans (update_same rfl)) rfl
  | count n => exact hquiet rfl rfl rfl
  | cas n =>
    cases hp : (s.cells o).processing with
    | true | false =>
      refine hquiet ?_ ?_ ?_
      · simp [postStep, hp, unlinked]
      · simp [postStep, hp, Sys.entered]
      · simp [postStep, hp, Sys.started]
  | register n r => cases r <;> exact hquiet rfl rfl rfl

theorem effect_flushStep (prog : Program T O J W K) (s : Sys T P O J W) {t : T} {o : O}
    {ph : Phase T O J} (hl : s.loops t = .busy o ph) (hf : s.frames (.inl t) = none) :
    Effect prog s (s.flushStep prog t o ph) := by
  have hold : s.owed (.inl t) = Phase.posts (some ph) := by simp [Sys.owed, hf, unlinked, hl, LoopPC.posts]
  have howed : (s.flushStep prog t o ph).owed = update s.owed (.inl t)
      ((flushStep (prog.start s.world o ph).2 (s.cells o) ph).call.toList
        ++ Phase.posts (flushStep (prog.start s.world o ph).2 (s.cells o) ph).phase) := by
    apply owed_ext
    · intro t'
      by_cases ht : t' = t
      · subst ht
        rw [update_self]
        cases hc : (flushStep (prog.start s.world o ph).2 (s.cells o) ph).call <;>
          cases hp : (flushStep (prog.start s.world o ph).2 (s.cells o) ph).phase <;>
          simp [Sys.owed, Sys.flushStep, hc, hp, hf, unlinked, LoopPC.posts, PostCall.enter, Phase.posts]
      · cases hc : (flushStep (prog.start s.world o ph).2 (s.cells o) ph).call <;>
          simp [Sys.owed, Sys.flushStep, hc, ht]
    · intro p
      cases hc : (flushStep (prog.start s.world o ph).2 (s.cells o) ph).call <;>
        simp [Sys.owed, Sys.flushStep, hc]
  have hent : (s.flushStep prog t o ph).entered = s.entered :=
    comp_update_eq_self (fun c : Cell T J => c.entered) s.cells o _ (entered_flushStep _ _ _)
  have hsta : (s.flushStep prog t o ph).started = update s.started o
      (flushStep (prog.start s.world o ph).2 (s.cells o) ph).cell.started :=
    comp_update (fun c : Cell T J => c.started) s.cells o _
  by_cases hj : ∃ old e, ph = .jobStart old e
  · obtain ⟨old, e, rfl⟩ := hj
    exact .called t o old e hl hold howed hent hsta rfl rfl
  · have hne : ∀ old e, ph ≠ .jobStart old e := fun old e he => hj ⟨old, e, he⟩
    refine .quiet ?_ hent (hsta.trans (update_same (started_flushStep _ _ hne))) ?_
    · rw [howed, posts_flushStep _ _ hne]
      exact update_same hold.symm
    · cases ph with
      | jobStart old e => exact absurd rfl (hne old e)
      | _ => rfl

theorem effect_loopStep (prog : Program T O J W K) (s : Sys T P O J W) {t : T}
    (hf : s.frames (.inl t) = none) : Effect prog s (s.loopStep prog t) := by
  -- outside of an iteration nothing is owed
  have hidle : ∀ (q : T → LFQueue O) l, l.posts = (s.loops t).posts →
      Effect prog s { s with queues := q, loops := update s.loops t l } := by
    intro q l h
    refine .quiet (owed_ext (fun t' => ?_) fun p => rfl) rfl rfl rfl
    by_cases ht : t' = t
    · subst ht; simp [Sys.owed, h]
    · simp [Sys.owed, ht]
  cases hl : s.loops t with
  | dequeue =>
    simp only [Sys.loopStep, hl]
    exact hidle _ _ (by rw [hl]; split <;> rfl)
  | dequeueFail =>
    simp only [Sys.loopStep, hl]
    exact hidle _ _ (by rw [hl]; rfl)
  | dequeueUnlink =>
    simp only [Sys.loopStep, hl]
    cases hq : (s.queues t).items with
    | nil => exact .quiet rfl rfl rfl rfl
    | cons o rest => exact hidle _ _ (by rw [hl]; rfl)
  | busy o ph =>
    simp only [Sys.loopStep, hl]
    exact effect_flushStep prog s hl hf

/-- **The inversion of `step` for debts.** -/
theorem effect_of_step {prog : Program T O J W K} {s s' : Sys T P O J W} {e : Event T P K}
    (h : step prog s e = some s') : Effect prog s s' := by
  rcases step_cases h with ⟨p, k, hf, htodo, rfl⟩ | ⟨a, o, f, hf, rfl⟩ | ⟨t, hf, rfl⟩ |
    ⟨p, o, j, rest, hf, htodo, rfl⟩
  · refine .request p k (by simp [Sys.owed, hf, htodo, unlinked]) ?_ rfl rfl rfl
    refine owed_ext (fun t => rfl) fun p' => ?_
    by_cases hp : p' = p
    · subst hp; simp [Sys.owed, hf, unlinked]
    · simp [Sys.owed, hp]
  · exact effect_postStep prog s hf
  · exact effect_loopStep prog s hf
  · refine .quiet (owed_ext (fun t => by simp [Sys.owed]) fun p' => ?_) rfl rfl rfl
    by_cases hp : p' = p
    · subst hp; simp [Sys.owed, hf, htodo, unlinked, PostCall.enter]
    · simp [Sys.owed, hp]

/-- A debt is an old one, or taken on in this step. -/
theorem owed_of_step {prog : Program T O J W K} {s s' : Sys T P O J W} {e : Event T P K}
    (h : step prog s e = some s') {a : T ⊕ P} {x : O × J} (hx : x ∈ s'.owed a) :
    x ∈ s.owed a ∨
      (∃ t o old e, a = .inl t ∧ s.loops t = .busy o (.jobStart old e) ∧
        s'.loops t = .busy o (.running old e.ticket (prog.body e.job o s.world).2) ∧
        s'.world = (prog.body e.job o s.world).1 ∧ x ∈ postsOf (prog.body e.job o s.world).2) ∨
      ∃ p k, a = .inr p ∧ x ∈ prog.posts k := by
  have hold : ∀ a' c rest, s.owed a' = c :: rest → s'.owed = update s.owed a' rest →
      x ∈ s.owed a := by
    intro a' c rest h₁ h₂
    rw [h₂] at hx
    by_cases ha : a = a'
    · subst ha
      rw [update_self] at hx
      rw [h₁]; exact List.mem_cons_of_mem _ hx
    · rwa [update_of_ne ha] at hx
  cases effect_of_step h with
  | quiet howed _ _ _ => left; rwa [howed] at hx
  | delivered a' o j rest hcons howed _ _ _ => exact .inl (hold a' _ rest hcons howed)
  | refused a' o j rest hcons howed _ _ _ _ => exact .inl (hold a' _ rest hcons howed)
  | called t o old e' hl _ howed _ _ hloops hw =>
    rw [howed] at hx
    by_cases ha : a = .inl t
    · subst ha
      rw [update_self] at hx
      exact .inr (.inl ⟨t, o, old, e', rfl, hl, by rw [hloops, update_self], hw, hx⟩)
    · left; rwa [update_of_ne ha] at hx
  | request p k _ howed _ _ _ =>
    rw [howed] at hx
    by_cases ha : a = .inr p
    · subst ha
      rw [update_self] at hx
      exact .inr (.inr ⟨p, k, rfl, hx⟩)
    · left; rwa [update_of_ne ha] at hx

/-- A job enters because somebody owed it first. -/
theorem entered_of_step {prog : Program T O J W K} {s s' : Sys T P O J W} {e : Event T P K}
    (h : step prog s e = some s') (o : O) : s'.entered o = s.entered o ∨
      ∃ a j, (o, j) ∈ s.owed a ∧ s'.entered o = s.entered o ++ [j] := by
  cases effect_of_step h with
  | quiet _ hent _ _ => exact .inl (congrFun hent o)
  | refused a o' j rest _ _ _ hent _ _ => exact .inl (congrFun hent o)
  | called t o' old e' _ _ _ hent _ _ _ => exact .inl (congrFun hent o)
  | request p k _ _ hent _ _ => exact .inl (congrFun hent o)
  | delivered a o' j rest hcons _ hent _ _ =>
    rw [hent]
    by_cases ho : o = o'
    · subst ho
      exact .inr ⟨a, j, by rw [hcons]; exact List.mem_cons_self, update_self ..⟩
    · exact .inl (update_of_ne ho ..)

/-- The jobs called so far stay called. -/
theorem started_of_step {prog : Program T O J W K} {s s' : Sys T P O J W} {e : Event T P K}
    (h : step prog s e = some s') (o : O) : (s.started o).length ≤ (s'.started o).length := by
  cases effect_of_step h with
  | quiet _ _ hsta _ | refused _ _ _ _ _ _ _ _ hsta _ | request _ _ _ _ _ hsta _
  | delivered _ _ _ _ _ _ _ hsta _ => rw [hsta]
  | called t o' old e' _ _ _ _ hsta _ _ =>
    rw [hsta]
    by_cases ho : o = o'
    · subst ho; simp
    · rw [update_of_ne ho]

/-! ## A running job -/

/-- Only a thread's own step moves it. -/
theorem loop_of_step {prog : Program T O J W K} {s s' : Sys T P O J W} {e : Event T P K}
    (h : step prog s e = some s') (t : T) :
    s'.loops t = s.loops t ∨ s.frames (.inl t) = none ∧ s' = s.loopStep prog t := by
  rcases step_cases h with ⟨p, k, -, -, rfl⟩ | ⟨a, o, f, -, rfl⟩ | ⟨t', hf, rfl⟩ |
    ⟨p, o, j, rest, -, -, rfl⟩
  · exact .inl rfl
  · exact .inl rfl
  · by_cases ht : t = t'
    · subst ht; exact .inr ⟨hf, rfl⟩
    · left
      cases hs : s.loops t' with
      | dequeueUnlink =>
        simp only [Sys.loopStep, hs]
        split
        · rfl
        · simp [ht]
      | dequeue | dequeueFail | busy o ph => simp [Sys.loopStep, hs, Sys.flushStep, ht]
  · exact .inl rfl

/-- A thread comes to a phase from a phase, unless it has just taken the object. -/
theorem busy_of_loopStep {prog : Program T O J W K} {s : Sys T P O J W} {t : T} {o : O}
    {ph' : Phase T O J} (hl : (s.loopStep prog t).loops t = .busy o ph') :
    ph' = .flushLoadMarked ∨ ∃ ph, s.loops t = .busy o ph ∧
      (flushStep (prog.start s.world o ph).2 (s.cells o) ph).phase = some ph' := by
  cases hs : s.loops t with
  | dequeue =>
    simp only [Sys.loopStep, hs, update_self] at hl
    split at hl <;> cases hl
  | dequeueFail =>
    simp only [Sys.loopStep, hs, update_self] at hl
    cases hl
  | dequeueUnlink =>
    cases hq : (s.queues t).items with
    | nil => simp [Sys.loopStep, hs, hq] at hl
    | cons o' rest =>
      left
      simp only [Sys.loopStep, hs, hq, update_self] at hl
      cases hl; rfl
  | busy o' ph =>
    right
    simp only [Sys.loopStep, hs, Sys.flushStep, update_self] at hl
    cases hp : (flushStep (prog.start s.world o' ph).2 (s.cells o') ph).phase with
    | none => rw [hp] at hl; cases hl
    | some ph₂ => rw [hp] at hl; cases hl; exact ⟨ph, rfl, hp⟩

/-- `Flush` is inside a job because it called the job or did one of its instructions. -/
theorem running_of_flushStep {is is' : List (Instr T O J)} {c : Cell T J} {ph : Phase T O J} {old : T}
    {n : Nat} (h : (flushStep is c ph).phase = some (.running old n is')) :
    (∃ i, ph = .running old n (i :: is')) ∨ ∃ e, ph = .jobStart old e ∧ is' = is := by
  cases ph with
  | running old' n' is₂ =>
    cases is₂ using Instr.list_cases with
    | nil => cases h
    | setJobThread t rest | markForDelete rest | postJob o j rest =>
      cases h; exact .inl ⟨_, rfl⟩
  | jobStart old' e => cases h; exact .inr ⟨e, rfl, rfl⟩
  | jobUnlink old' => cases hq : c.jobQueue.items <;> simp [flushStep, hq] at h
  | recheckCas => cases hp : c.processing <;> simp [flushStep, hp] at h
  | handOver r | reRegister r => cases r <;> cases h
  | flushLoadMarked | jobDequeue old' | afterJob old' | checkThread old' | loadCount
  | checkMarked =>
    simp only [flushStep] at h
    split at h <;> cases h
  | loadOldThread | jobDequeueFail old' | storeFalse | delete => cases h

/-- The step from `s` to `s'` calls the job `j` on `o`. -/
def Calls (s s' : Sys T P O J W) (o : O) (j : J) : Prop :=
  ∃ t old e, s.loops t = .busy o (.jobStart old e) ∧ e.job = j ∧ s'.loops t ≠ s.loops t

/-- Calling a job changes the game state as its body says. -/
theorem world_of_calls {prog : Program T O J W K} {s s' : Sys T P O J W} {e : Event T P K}
    (h : step prog s e = some s') {o : O} {j : J} (hc : Calls s s' o j) :
    s'.world = (prog.body j o s.world).1 := by
  obtain ⟨t, old, e', hl, rfl, hne⟩ := hc
  rcases loop_of_step h t with hsame | ⟨-, rfl⟩
  · exact absurd hsame hne
  · simp [Sys.loopStep, hl, Sys.flushStep, Program.start]

/-- The game state changes only when a job is called. -/
theorem world_of_step {prog : Program T O J W K} {s s' : Sys T P O J W} {e : Event T P K}
    (h : step prog s e = some s') : s'.world = s.world ∨
      ∃ t o old e, s.loops t = .busy o (.jobStart old e) ∧
        s'.loops t = .busy o (.running old e.ticket (prog.body e.job o s.world).2) ∧
        s'.world = (prog.body e.job o s.world).1 ∧ Calls s s' o e.job := by
  cases effect_of_step h with
  | quiet _ _ _ hw => exact .inl hw
  | delivered a o j rest _ _ _ _ hw => exact .inl hw
  | refused a o j rest _ _ _ _ _ hw => exact .inl hw
  | request p k _ _ _ _ hw => exact .inl hw
  | called t o old e hl _ _ _ _ hloops hw =>
    have hnew : s'.loops t = .busy o (.running old e.ticket (prog.body e.job o s.world).2) := by
      rw [hloops, update_self]
    exact .inr ⟨t, o, old, e, hl, hnew, hw, t, old, e, hl, rfl, by rw [hnew, hl]; simp⟩

/-- How a thread got to where it is in a running job: it was there, it did one instruction, or it
    called the job in this step. -/
theorem running_of_step {prog : Program T O J W K} {s s' : Sys T P O J W} {e : Event T P K}
    (h : step prog s e = some s') {t : T} {o : O} {old : T} {n : Nat} {is : List (Instr T O J)}
    (hl : s'.loops t = .busy o (.running old n is)) :
    s.loops t = .busy o (.running old n is) ∨
      (∃ i, s.loops t = .busy o (.running old n (i :: is))) ∨
      ∃ e, s.loops t = .busy o (.jobStart old e) ∧ is = (prog.body e.job o s.world).2 := by
  rcases loop_of_step h t with hsame | ⟨-, rfl⟩
  · exact .inl (hsame ▸ hl)
  · rcases busy_of_loopStep hl with hp | ⟨ph, hph, hnext⟩
    · cases hp
    · rcases running_of_flushStep hnext with ⟨i, rfl⟩ | ⟨e', rfl, his⟩
      · exact .inr (.inl ⟨i, hph⟩)
      · exact .inr (.inr ⟨e', hph, his⟩)

/-- A thread inside a job stays there for this step, or does the next instruction. -/
theorem step_of_running {prog : Program T O J W K} {s s' : Sys T P O J W} {e : Event T P K}
    (h : step prog s e = some s') {t : T} {o : O} {old : T} {n : Nat} {i : Instr T O J}
    {is : List (Instr T O J)} (hl : s.loops t = .busy o (.running old n (i :: is))) :
    s'.loops t = .busy o (.running old n (i :: is)) ∨
      s'.loops t = .busy o (.running old n is) ∧
        (i = .markForDelete → (s'.cells o).markedForDelete = true) := by
  rcases loop_of_step h t with hsame | ⟨-, rfl⟩
  · exact .inl (hsame.trans hl)
  · right
    cases i with
    | setJobThread t' | postJob o' j =>
      exact ⟨by simp [Sys.loopStep, hl, Sys.flushStep, flushStep], fun hi => by cases hi⟩
    | markForDelete => simp [Sys.loopStep, hl, Sys.flushStep, flushStep]

/-- While it owes something, a thread inside a job stays inside it. -/
theorem running_of_owed {prog : Program T O J W K} {s s' : Sys T P O J W} {e : Event T P K}
    (h : step prog s e = some s') {t : T} {o : O} {old : T} {n : Nat} {is : List (Instr T O J)}
    (hl : s.loops t = .busy o (.running old n is)) (howed : s.owed (.inl t) ≠ []) :
    ∃ is', s'.loops t = .busy o (.running old n is') := by
  cases is with
  | nil =>
    rcases loop_of_step h t with hsame | ⟨hf, -⟩
    · exact ⟨[], hsame.trans hl⟩
    · exact absurd (by simp [Sys.owed, hf, hl, unlinked, LoopPC.posts, Phase.posts, postsOf]) howed
  | cons i rest =>
    rcases step_of_running h hl with hsame | ⟨hnext, -⟩
    · exact ⟨i :: rest, hsame⟩
    · exact ⟨rest, hnext⟩

/-- A mark stays. -/
theorem View.Step.marked {v v' : View T P O J} (h : View.Step v v')
    (hm : v.cell.markedForDelete = true) : v'.cell.markedForDelete = true := by
  cases h with
  | enter a j _ => exact hm
  | post a f _ => exact ((postStep_keeps _ f).2).trans hm
  | take t _ _ => exact hm
  | flush t is ph _ => exact marked_flushStep is _ ph hm
  | selfCall t is ph j _ _ _ => exact marked_flushStep is _ ph hm

theorem marked_of_step {prog : Program T O J W K} {s s' : Sys T P O J W} {e : Event T P K}
    (h : step prog s e = some s') {o : O} (hm : (s.cells o).markedForDelete = true) :
    (s'.cells o).markedForDelete = true := by
  rcases view_step h o with hv | hv
  · have := congrArg (fun v => v.cell.markedForDelete) hv
    exact this.trans hm
  · exact hv.marked hm

/-- A step that moves thread `t` with `o` in hand leaves every other object alone. -/
theorem cells_of_loopStep {prog : Program T O J W K} {s : Sys T P O J W} {t : T} {o o' : O}
    {ph : Phase T O J} (hl : s.loops t = .busy o ph) (ho : o' ≠ o) :
    (s.loopStep prog t).cells o' = s.cells o' := by
  simp [Sys.loopStep, hl, Sys.flushStep, ho]

/-- **The inversion of `step` for one object.**  It is changed by a step inside of a `PostJob` on it, or
    by a thread that has it in hand. -/
theorem cell_of_step {prog : Program T O J W K} {s s' : Sys T P O J W} {e : Event T P K}
    (h : step prog s e = some s') (o : O) : s'.cells o = s.cells o ∨
      (∃ a f, s.frames a = some (o, f) ∧ s'.cells o = (postStep (s.cells o) f).1) ∨
      ∃ t ph, s.loops t = .busy o ph ∧ s.frames (.inl t) = none ∧ s' = s.loopStep prog t ∧
        s'.cells o = (flushStep (prog.start s.world o ph).2 (s.cells o) ph).cell := by
  rcases step_cases h with ⟨p, k, -, -, rfl⟩ | ⟨a, o', f, hf, rfl⟩ | ⟨t, hf, rfl⟩ |
    ⟨p, o', j, rest, -, -, rfl⟩
  · exact .inl rfl
  · by_cases ho : o = o'
    · subst ho
      exact .inr (.inl ⟨a, f, hf, by simp [Sys.postStep]⟩)
    · exact .inl (by simp [Sys.postStep, ho])
  · cases hs : s.loops t with
    | dequeue | dequeueFail => exact .inl (by simp [Sys.loopStep, hs])
    | dequeueUnlink =>
      left
      simp only [Sys.loopStep, hs]
      split <;> rfl
    | busy o' ph =>
      by_cases ho : o = o'
      · subst ho
        exact .inr (.inr ⟨t, ph, hs, hf, rfl, by simp [Sys.loopStep, hs, Sys.flushStep]⟩)
      · exact .inl (cells_of_loopStep hs ho)
  · exact .inl rfl

/-- What `PostJob` leaves alone, and `Flush` outside of a job, is changed by a running job only. -/
theorem keeps_of_step {β : Type} {g : Cell T J → β} (hpost : ∀ c f, g (postStep c f).1 = g c)
    (hflush : ∀ is c ph, (∀ old n is', ph ≠ .running old n is') →
      g (flushStep (O := O) is c ph).cell = g c)
    {prog : Program T O J W K} {s s' : Sys T P O J W} {e : Event T P K}
    (h : step prog s e = some s') (o : O) : g (s'.cells o) = g (s.cells o) ∨
      ∃ t old n is, s.loops t = .busy o (.running old n is) ∧ s.frames (.inl t) = none ∧
        s' = s.loopStep prog t ∧ s'.cells o = (flushStep (O := O) [] (s.cells o) (.running old n is)).cell := by
  rcases cell_of_step h o with hc | ⟨a, f, -, hc⟩ | ⟨t, ph, hl, hf, hs, hc⟩
  · exact .inl (by rw [hc])
  · exact .inl (by rw [hc, hpost])
  · by_cases hr : ∃ old n is, ph = .running old n is
    · obtain ⟨old, n, is, rfl⟩ := hr
      exact .inr ⟨t, old, n, is, hl, hf, hs, hc⟩
    · refine .inl ?_
      rw [hc]
      exact hflush _ _ ph fun old n is he => hr ⟨old, n, is, he⟩

/-- The object is deleted by a thread at that statement. -/
theorem delete_of_step {prog : Program T O J W K} {s s' : Sys T P O J W} {e : Event T P K}
    (h : step prog s e = some s') {o : O} (hd : (s'.cells o).deletes ≠ (s.cells o).deletes) :
    ∃ t, s.loops t = .busy o .delete ∧ s' = s.loopStep prog t := by
  rcases cell_of_step h o with hc | ⟨a, f, -, hc⟩ | ⟨t, ph, hl, -, hs, hc⟩
  · exact absurd (by rw [hc]) hd
  · exact absurd (by rw [hc, deletes_postStep]) hd
  · rcases deletes_flushStep (prog.start s.world o ph).2 (s.cells o) ph with hsame | ⟨rfl, -, -⟩
    · exact absurd (by rw [hc, hsame]) hd
    · exact ⟨t, hl, hs⟩

/-- The mark is set by a thread at that instruction. -/
theorem mark_of_step {prog : Program T O J W K} {s s' : Sys T P O J W} {e : Event T P K}
    (h : step prog s e = some s') {o : O} (hu : (s.cells o).markedForDelete = false)
    (hm : (s'.cells o).markedForDelete = true) :
    ∃ t old n is, s.loops t = .busy o (.running old n (.markForDelete :: is)) ∧
      s.frames (.inl t) = none := by
  rcases keeps_of_step (g := fun c => c.markedForDelete) (fun c f => (postStep_keeps c f).2)
    (fun is c ph hr => (flushStep_keeps is c ph hr).2) h o with hc | ⟨t, old, n, is, hl, hf, -, hc⟩
  · rw [hc, hu] at hm
    cases hm
  · cases is using Instr.list_cases with
    | markForDelete rest => exact ⟨t, old, n, rest, hl, hf⟩
    | nil | setJobThread t' rest | postJob o' j rest =>
      rw [hc] at hm
      rw [show (s.cells o).markedForDelete = true from hm] at hu
      cases hu

/-- `m_pJobThread` is written by a thread at that instruction. -/
theorem thread_of_step {prog : Program T O J W K} {s s' : Sys T P O J W} {e : Event T P K}
    (h : step prog s e = some s') (o : O) : (s'.cells o).jobThread = (s.cells o).jobThread ∨
      ∃ t old n is, s.loops t = .busy o (.running old n (.setJobThread (s'.cells o).jobThread :: is)) := by
  rcases keeps_of_step (g := fun c => c.jobThread) (fun c f => (postStep_keeps c f).1)
    (fun is c ph hr => (flushStep_keeps is c ph hr).1) h o with hc | ⟨t, old, n, is, hl, -, -, hc⟩
  · exact .inl hc
  · cases is using Instr.list_cases with
    | setJobThread t' rest => exact .inr ⟨t, old, n, rest, by rw [hc]; exact hl⟩
    | nil | markForDelete rest | postJob o' j rest => exact .inl (by rw [hc]; rfl)

/-! ## The jobs called so far -/

/-- The jobs of an object that were called, in order. -/
def Sys.calledJobs (s : Sys T P O J W) (o : O) : List J := (s.entered o).take (s.started o).length

/-- A step that calls a job of the object adds to what was started. -/
theorem started_of_calls {prog : Program T O J W K} {s s' : Sys T P O J W} {e : Event T P K}
    (h : step prog s e = some s') {o : O} {j : J} (hc : Calls s s' o j) :
    (s'.started o).length = (s.started o).length + 1 := by
  obtain ⟨t, old, e', hl, -, hne⟩ := hc
  rcases loop_of_step h t with hsame | ⟨-, rfl⟩
  · exact absurd hsame hne
  · simp [Sys.started, Sys.loopStep, hl, Sys.flushStep, flushStep]

variable [Fintype T] [Fintype P]

/-- **The inversion of `step` for the jobs called.**  A step calls none, or one. -/
theorem call_of_step {prog : Program T O J W K} {s s' : Sys T P O J W} {e : Event T P K}
    (hr : Reachable (prog.system P) s) (h : step prog s e = some s') :
    (s'.calledJobs = s.calledJobs ∧ s'.world = s.world ∧ ∀ o j, ¬ Calls s s' o j) ∨
    ∃ t o old e', s.loops t = .busy o (.jobStart old e') ∧
      s'.loops = update s.loops t (.busy o (.running old e'.ticket (prog.body e'.job o s.world).2)) ∧
      s'.calledJobs = update s.calledJobs o (s.calledJobs o ++ [e'.job]) ∧
      s'.world = (prog.body e'.job o s.world).1 := by
  have hidle : s'.started = s.started → ∀ o j, ¬ Calls s s' o j := by
    intro hsta o j hc
    have := started_of_calls h hc
    rw [hsta] at this
    omega
  have hsame : s'.entered = s.entered → s'.started = s.started → s'.calledJobs = s.calledJobs := by
    intro hent hsta
    funext o
    rw [Sys.calledJobs, Sys.calledJobs, hent, hsta]
  cases effect_of_step h with
  | quiet _ hent hsta hw | refused _ _ _ _ _ _ _ hent hsta hw | request _ _ _ _ hent hsta hw =>
    exact .inl ⟨hsame hent hsta, hw, hidle hsta⟩
  | delivered a o j rest _ _ hent hsta hw =>
    refine .inl ⟨?_, hw, hidle hsta⟩
    funext o'
    rw [Sys.calledJobs, Sys.calledJobs, hent, hsta]
    by_cases ho : o' = o
    · subst ho
      have hbound : (s.started o').length ≤ (s.entered o').length :=
        le_trans (Nat.le_add_right _ _) (inOrder_reachable hr o').progress.bound
      rw [update_self, List.take_append_of_le_length hbound]
    · rw [update_of_ne ho]
  | called t o old e' hl _ _ hent hsta hloops hw =>
    refine .inr ⟨t, o, old, e', hl, hloops, ?_, hw⟩
    funext o'
    rw [Sys.calledJobs, hent, hsta]
    by_cases ho : o' = o
    · subst ho
      have hnext : (s.entered o')[(s.started o').length]? = some e'.job := (next_job hr hl).2
      rw [update_self, update_self, List.length_append, List.length_singleton, List.take_add_one,
        hnext, Option.toList_some]
      rfl
    · rw [update_of_ne ho, update_of_ne ho]
      rfl

/-- The one job a step calls. -/
theorem call_unique {s s' : Sys T P O J W} {t : T} {o o' : O} {old : T} {e' : Entry J} {j : J}
    {x : LoopPC T O J} (hl : s.loops t = .busy o (.jobStart old e'))
    (hloops : s'.loops = update s.loops t x) (hc : Calls s s' o' j) : o' = o ∧ j = e'.job := by
  obtain ⟨t', old', e₂, hl', rfl, hne⟩ := hc
  by_cases ht : t' = t
  · subst ht
    rw [hl] at hl'
    cases hl'
    exact ⟨rfl, rfl⟩
  · rw [hloops, update_of_ne ht] at hne
    exact absurd rfl hne

end Effects

end JunCore.Logic
