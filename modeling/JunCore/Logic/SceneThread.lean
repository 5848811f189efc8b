/-
  `GameObject::MoveToScene`, `ExitScene`, `Destroy`: which thread modifies a scene.

  `Enter` and `Exit` write the list of a scene without a lock; what keeps them apart is that all of
  them are meant to run on the thread the scene belongs to.  A job runs on the thread `m_pJobThread`
  names.  So an `Exit` is on the right thread as long as the object's own pointer and its scene agree
  (`Berthed.home`).  An `Enter` is there when the thread set last is that of its scene: `MoveToScene`
  sets it in a first job and enters in a second one, and relies on nothing coming in between.

  `berth` is the thread that the jobs called so far have set last.  `Berthed` follows it through a
  run; the rest is reading off.
-/
import JunCore.Logic.Scene

set_option linter.unusedVariables false
set_option linter.unusedSectionVars false

namespace JunCore.Logic

open Transition Function

variable {T P S U : Type} [DecidableEq T] [DecidableEq P] [DecidableEq S]

/-! ## The scenes a job modifies -/

/-- The scene whose `Enter` or `Exit` a job calls, when it is called on the object. -/
def GameJob.touches (w : World S) (obj : Nat) : GameJob S U → Option S
  | .enter sc => some sc
  | .leave newScene => if w.scene obj = some newScene then none else w.scene obj
  | .exitScene | .destroy => w.scene obj
  | _ => none

/-- No other list changes. -/
theorem touches_of_objects {game : Game T S U} {j : GameJob S U} {w : World S} {obj : Nat} {sc : S}
    (h : (game.body j (.object obj) w).1.objects sc ≠ w.objects sc) : j.touches w obj = some sc := by
  have hleave : (w.leave obj).objects sc ≠ w.objects sc → w.scene obj = some sc := by
    intro hne
    cases hs : w.scene obj with
    | none => simp [World.leave, hs] at hne
    | some sc' =>
      by_cases heq : sc = sc'
      · rw [heq]
      · simp [World.leave, hs, World.exit, heq] at hne
  cases j with
  | enter sc' =>
    by_cases heq : sc = sc'
    · rw [GameJob.touches, heq]
    · simp [Game.body, World.enter, heq] at h
  | leave newScene =>
    simp only [Game.body] at h
    split at h
    · exact absurd rfl h
    · rename_i hne
      rw [GameJob.touches, if_neg hne]
      exact hleave h
  | exitScene | destroy => exact hleave h
  | register obj' | unregister sn | postTo sn u | user u => exact absurd rfl h

/-- The step does not call a job of the object, or calls it on the thread of each scene it modifies. -/
def OnSceneThread (game : Game T S U) (obj : Nat)
    (s s' : Sys T P ObjRef (GameJob S U) (World S)) : Prop :=
  ∀ t old e sc, s.loops t = .busy (.object obj) (.jobStart old e) → s'.loops t ≠ s.loops t →
    e.job.touches s.world obj = some sc → t = game.thread sc

/-! ## The thread set last -/

/-- The thread of an object after a job, if it was `t` before. -/
def GameJob.bound (game : Game T S U) (t : T) : GameJob S U → T
  | .leave newScene => game.thread newScene
  | _ => t

/-- The thread that these jobs of an object set last. -/
def Game.berth (game : Game T S U) (obj : Nat) (l : List (GameJob S U)) : T :=
  l.foldl (GameJob.bound game) (game.thread (game.birth obj))

theorem berth_append (game : Game T S U) (obj : Nat) (l : List (GameJob S U)) (j : GameJob S U) :
    game.berth obj (l ++ [j]) = j.bound game (game.berth obj l) := by simp [Game.berth]

/-- Only the first job of `MoveToScene` sets a thread. -/
theorem body_setJobThread {game : Game T S U} {j : GameJob S U} {o : ObjRef} {w : World S} {t : T}
    (h : .setJobThread t ∈ (game.body j o w).2) : ∃ obj newScene, o = .object obj ∧ j = .leave newScene ∧
      w.scene obj ≠ some newScene ∧ (game.body j o w).2 = [.setJobThread (game.thread newScene)] := by
  cases o with
  | manager =>
    cases j with
    | postTo sn u =>
      simp only [Game.body] at h
      split at h <;> simp at h
    | enter sc | leave sc | exitScene | destroy | register obj | unregister sn | user u => cases h
  | object obj =>
    cases j with
    | leave newScene =>
      by_cases hs : w.scene obj = some newScene
      · simp [Game.body, hs] at h
      · exact ⟨obj, newScene, rfl, rfl, hs, by simp [Game.body, hs]⟩
    | enter sc | user u | destroy => simp [Game.body] at h
    | exitScene | register obj' | unregister sn | postTo sn u => cases h

/-- Where the object is after a job of its own. -/
theorem scene_body (game : Game T S U) (j : GameJob S U) (obj : Nat) (w : World S) {sc : S}
    (h : (game.body j (.object obj) w).1.scene obj = some sc) :
    j = .enter sc ∨ (∀ sc', j ≠ .enter sc') ∧ w.scene obj = some sc ∧
      ∀ newScene, j = .leave newScene → newScene = sc := by
  have hleave : (w.leave obj).scene obj = none := by
    cases hs : w.scene obj with
    | none => simp [World.leave, hs]
    | some sc' => simp [World.leave, hs, World.exit]
  cases j with
  | enter sc' =>
    left
    have : sc' = sc := by simpa [Game.body, World.enter] using h
    rw [this]
  | leave newScene =>
    right
    by_cases hs : w.scene obj = some newScene
    · have hsc : w.scene obj = some sc := by simpa [Game.body, hs] using h
      refine ⟨fun sc' hj => ?_, hsc, fun n hn => ?_⟩
      · cases hj
      cases hn
      rw [hs] at hsc
      exact Option.some.inj hsc
    · simp [Game.body, hs, hleave] at h
  | exitScene =>
    rw [show (game.body .exitScene (.object obj) w).1 = w.leave obj from rfl, hleave] at h
    cases h
  | destroy =>
    rw [show (game.body .destroy (.object obj) w).1.scene = (w.leave obj).scene from rfl, hleave] at h
    cases h
  | register obj' | unregister sn | postTo sn u | user u =>
    exact .inr ⟨fun sc' hj => by (cases hj), h, fun n hn => by (cases hn)⟩

/-- A job of another object does not move this one. -/
theorem scene_body_other (game : Game T S U) (j : GameJob S U) (w : World S) {o : ObjRef} {obj : Nat}
    (h : o ≠ .object obj) : (game.body j o w).1.scene obj = w.scene obj := by
  cases o with
  | manager => cases j <;> rfl
  | object obj' =>
    have hne : obj ≠ obj' := fun heq => h (by rw [heq])
    have hleave : (w.leave obj').scene obj = w.scene obj := by
      cases hs : w.scene obj' <;> simp [World.leave, hs, World.exit, hne]
    cases j with
    | enter sc => simp [Game.body, World.enter, hne]
    | leave newScene =>
      simp only [Game.body]
      split
      · rfl
      · exact hleave
    | exitScene | destroy => exact hleave
    | register obj' | unregister sn | postTo sn u | user u => rfl

/-! ## Where an object is, and where its jobs run -/

/-- **Side condition.**  When an `Enter` job of the object is called, the thread set last is that of
    the scene: the last `MoveToScene` before it whose first job was called leads to a scene of that
    thread, and if there was none, the object was constructed there. -/
def EntersInTurn (game : Game T S U) (obj : Nat)
    (s s' : Sys T P ObjRef (GameJob S U) (World S)) : Prop :=
  ∀ sc, Calls s s' (.object obj) (.enter sc) →
    game.berth obj (s.calledJobs (.object obj)) = game.thread sc

/-- **The object, its scene and its thread.** -/
structure Berthed (game : Game T S U) (obj : Nat)
    (s : Sys T P ObjRef (GameJob S U) (World S)) : Prop where
  /-- the scene the object is in belongs to the thread set last -/
  home : ∀ sc, s.world.scene obj = some sc →
    game.thread sc = game.berth obj (s.calledJobs (.object obj))
  /-- `m_pJobThread` names that thread, or the job now running is about to set it -/
  named : (s.cells (.object obj)).jobThread = game.berth obj (s.calledJobs (.object obj)) ∨
    ∃ t old n, s.loops t = .busy (.object obj)
      (.running old n [.setJobThread (game.berth obj (s.calledJobs (.object obj)))])
  moves : ∀ t old n is t', s.loops t = .busy (.object obj) (.running old n is) →
    .setJobThread t' ∈ is → is = [.setJobThread (game.berth obj (s.calledJobs (.object obj)))]

variable [Fintype T] [Fintype P]

namespace Berthed

variable {game : Game T S U} {obj : Nat} {s s' : Sys T P ObjRef (GameJob S U) (World S)}
  {e : Event T P (Call S U)}

/-- A thread about to call a job of the object is the one set last. -/
theorem thread_eq (B : Berthed game obj s) (hr : Reachable (game.program.system P) s) {t old : T}
    {e' : Entry (GameJob S U)} (hl : s.loops t = .busy (.object obj) (.jobStart old e')) :
    t = game.berth obj (s.calledJobs (.object obj)) := by
  have I := owned_reachable hr (.object obj)
  have hthread : (s.cells (.object obj)).jobThread = t := (I.loop t _ (view_loop_eq_some.mpr hl)).2.1
  rcases B.named with heq | ⟨t', old', n, hl'⟩
  · rw [← heq, hthread]
  · -- two threads would drain the object
    obtain rfl := I.one_drain hl hl' Nat.one_pos Nat.one_pos
    rw [hl] at hl'
    cases hl'

/-- A step that calls no job of the object. -/
theorem quiet (B : Berthed game obj s) (h : step game.program s e = some s')
    (hcalled : s'.calledJobs (.object obj) = s.calledJobs (.object obj))
    (hscene : s'.world.scene obj = s.world.scene obj)
    (hidle : ∀ j, ¬ Calls s s' (.object obj) j) : Berthed game obj s' := by
  -- a thread inside a job of the object was there before
  have hrunning : ∀ t old n is, s'.loops t = .busy (.object obj) (.running old n is) →
      s.loops t = .busy (.object obj) (.running old n is) ∨
        ∃ i, s.loops t = .busy (.object obj) (.running old n (i :: is)) := by
    intro t old n is hl
    rcases running_of_step h hl with hsame | hprev | ⟨e', hstart, -⟩
    · exact .inl hsame
    · exact .inr hprev
    · exact absurd ⟨t, old, e', hstart, rfl, by rw [hl, hstart]; simp⟩ (hidle e'.job)
  constructor
  · rw [hcalled, hscene]
    exact B.home
  · rw [hcalled]
    rcases thread_of_step h (.object obj) with hsame | ⟨t, old, n, is, hl⟩
    · rcases B.named with heq | ⟨t, old, n, hl⟩
      · exact .inl (hsame.trans heq)
      · rcases loop_of_step h t with hkeep | ⟨-, hs⟩
        · exact .inr ⟨t, old, n, hkeep.trans hl⟩
        · left
          rw [hs]
          simp [Sys.loopStep, hl, Sys.flushStep, flushStep]
    · left
      have hone := B.moves t old n _ _ hl List.mem_cons_self
      simpa using (List.cons.inj hone).1
  · rw [hcalled]
    intro t old n is t' hl hmem
    rcases hrunning t old n is hl with hsame | ⟨i, hprev⟩
    · exact B.moves t old n is t' hsame hmem
    · have hone := B.moves t old n _ t' hprev (List.mem_cons_of_mem i hmem)
      rw [(List.cons.inj hone).2] at hmem
      cases hmem

/-- A step that calls a job of the object. -/
theorem call (B : Berthed game obj s) (hr : Reachable (game.program.system P) s)
    (h : step game.program s e = some s') {t old : T} {e' : Entry (GameJob S U)}
    (hl : s.loops t = .busy (.object obj) (.jobStart old e'))
    (hloops : s'.loops = update s.loops t (.busy (.object obj)
      (.running old e'.ticket (game.body e'.job (.object obj) s.world).2)))
    (hcalled : s'.calledJobs (.object obj) = s.calledJobs (.object obj) ++ [e'.job])
    (hw : s'.world = (game.body e'.job (.object obj) s.world).1)
    (hturn : ∀ sc, e'.job = .enter sc →
      game.berth obj (s.calledJobs (.object obj)) = game.thread sc) : Berthed game obj s' := by
  have I := owned_reachable hr (.object obj)
  have ht := B.thread_eq hr hl
  have hnew : s'.loops t = .busy (.object obj)
      (.running old e'.ticket (game.body e'.job (.object obj) s.world).2) := by
    rw [hloops, update_self]
  -- nobody else is inside a job of the object
  have hsole : ∀ u old' n is, s'.loops u = .busy (.object obj) (.running old' n is) → u = t := by
    intro u old' n is hu
    by_contra hne
    rw [hloops, update_of_ne hne] at hu
    exact hne (I.one_drain hl hu Nat.one_pos Nat.one_pos)
  have hmoves : ∀ t', .setJobThread t' ∈ (game.body e'.job (.object obj) s.world).2 →
      (game.body e'.job (.object obj) s.world).2
        = [.setJobThread (game.berth obj (s'.calledJobs (.object obj)))] := by
    intro t' hmem
    obtain ⟨obj', newScene, -, hj, -, hbody⟩ := body_setJobThread hmem
    rw [hbody, hcalled, berth_append, hj]
    rfl
  constructor
  · intro sc hsc
    rw [hw] at hsc
    rw [hcalled, berth_append]
    rcases scene_body game e'.job obj s.world hsc with hj | ⟨hne, hold, hleave⟩
    · rw [hj]
      exact (hturn sc hj).symm
    · have hhome := B.home sc hold
      cases hj : e'.job with
      | leave newScene => rw [hleave newScene hj]; rfl
      | enter sc' => exact absurd hj (hne sc')
      | _ => exact hhome
  · have hsame : (s'.cells (.object obj)).jobThread = (s.cells (.object obj)).jobThread := by
      rcases thread_of_step h (.object obj) with hsame | ⟨u, old', n, is, hu⟩
      · exact hsame
      · obtain rfl := I.one_drain hl hu Nat.one_pos Nat.one_pos
        rw [hl] at hu
        cases hu
    have hthread : (s.cells (.object obj)).jobThread = t := (I.loop t _ (view_loop_eq_some.mpr hl)).2.1
    by_cases hex : ∃ t', .setJobThread t' ∈ (game.body e'.job (.object obj) s.world).2
    · obtain ⟨t', hmem⟩ := hex
      right
      refine ⟨t, old, e'.ticket, ?_⟩
      rw [hnew, ← hmoves t' hmem]
    · left
      rw [hsame, hthread, hcalled, berth_append, ht]
      -- a first job of `MoveToScene` that sets no thread finds the object in the scene
      cases hj : e'.job with
      | leave newScene =>
        by_cases hs : s.world.scene obj = some newScene
        · exact (B.home newScene hs).symm
        · exact absurd ⟨game.thread newScene, by rw [hj]; simp [Game.body, hs]⟩ hex
      | _ => rfl
  · intro u old' n is t' hu hmem
    obtain rfl := hsole u old' n is hu
    rw [hnew] at hu
    cases hu
    exact hmoves t' hmem

/-- **The step lemma.** -/
theorem step (B : Berthed game obj s) (hr : Reachable (game.program.system P) s)
    (h : Logic.step game.program s e = some s') (hg : EntersInTurn game obj s s') :
    Berthed game obj s' := by
  rcases call_of_step hr h with ⟨hcalled, hw, hidle⟩ | ⟨t, o, old, e', hl, hloops, hcalled, hw⟩
  · exact B.quiet h (by rw [hcalled]) (by rw [hw]) fun j => hidle _ j
  · by_cases ho : o = .object obj
    · subst ho
      refine B.call hr h hl hloops (by rw [hcalled, update_self]) hw fun sc hj => hg sc ?_
      exact ⟨t, old, e', hl, hj, by rw [hloops, update_self, hl]; simp⟩
    · refine B.quiet h (by rw [hcalled, update_of_ne (Ne.symm ho)]) ?_ fun j hc => ?_
      · rw [hw]
        exact scene_body_other game e'.job s.world ho
      · exact ho (call_unique hl hloops hc).1.symm

end Berthed

/-- **Scenes are modified on their own thread**, as long as nothing comes between the two jobs of a
    `MoveToScene`.  In every run in which each `Enter` job of the object is called in turn, each
    `Enter` and each `Exit` of it runs on the thread of the scene; and a step outside of the
    condition runs an `Enter` on another one. -/
theorem scene_stays_on_thread {game : Game T S U} (obj : Nat)
    {s : Sys T P ObjRef (GameJob S U) (World S)}
    (h : Reachable ((game.program.system P).guard (EntersInTurn game obj)) s) :
    ∀ s', (game.program.system P).next s s' →
      (OnSceneThread game obj s s' ↔ EntersInTurn game obj s s') := by
  have B : Berthed game obj s := by
    apply h.invariant (I := Berthed game obj)
    · rintro s rfl
      constructor
      · intro sc hsc
        rw [← Option.some.inj hsc]
        rfl
      · exact .inl rfl
      · intro t old n is t' hl
        cases hl
    · rintro s s' hr B ⟨⟨e, hstep⟩, hg⟩
      exact B.step hr.of_guard hstep hg
  rintro s' ⟨e, hstep⟩
  constructor
  · rintro hon sc ⟨t, old, e', hl, hj, hne⟩
    rw [← B.thread_eq h.of_guard hl]
    exact hon t old e' sc hl hne (by rw [hj]; rfl)
  · intro hturn t old e' sc hl hne htouch
    have ht := B.thread_eq h.of_guard hl
    have hhome : s.world.scene obj = some sc → t = game.thread sc := fun hsc => ht.trans (B.home sc hsc).symm
    cases hj : e'.job with
    | enter sc' =>
      rw [hj] at htouch
      cases htouch
      exact ht.trans (hturn sc ⟨t, old, e', hl, hj, hne⟩)
    | leave newScene =>
      rw [hj, GameJob.touches] at htouch
      split at htouch
      · cases htouch
      · exact hhome htouch
    | exitScene | destroy =>
      rw [hj] at htouch
      exact hhome htouch
    | register obj' | unregister sn | postTo sn u | user u =>
      rw [hj] at htouch
      cases htouch

/-! ## Two threads -/

namespace Towns

inductive Thread
  | core
  | square
  | field
  deriving DecidableEq

instance : Fintype Thread := ⟨{.core, .square, .field}, fun t => by cases t <;> simp⟩

end Towns

/-- The two scenes of the village, on a thread each. -/
def towns : Game Towns.Thread Village.Scene Unit where
  core := .core
  thread
    | .square => .square
    | .field => .field
  birth _ := .square
  script _ _ _ := []

namespace Towns

abbrev State := Sys Thread Bool ObjRef (GameJob Village.Scene Unit) (World Village.Scene)

abbrev Schedule := List (Event Thread Bool (Call Village.Scene Unit))

/-- Caller `p` gets `n` steps. -/
def go (p : Bool) (n : Nat) : Schedule := List.replicate n (.agent (.inr p))

/-- Caller `p` makes a call and gets `n` steps. -/
def call (p : Bool) (k : Call Village.Scene Unit) (n : Nat) : Schedule := .call p k :: go p n

/-- Thread `t` gets `n` steps. -/
def run (t : Thread) (n : Nat) : Schedule := List.replicate n (.agent (.inl t))

end Towns

/-- Whether every thread about to call an `Enter` of object 0 does so in turn. -/
def Towns.inTurn (s s' : Towns.State) : Bool :=
  [Towns.Thread.core, .square, .field].all fun t => match s.loops t with
    | .busy (.object 0) (.jobStart _ ⟨_, .enter sc⟩) =>
      towns.berth 0 (s.calledJobs (.object 0)) == towns.thread sc
    | _ => true

theorem Towns.inTurn_spec (s s' : Towns.State) (h : Towns.inTurn s s' = true) :
    EntersInTurn towns 0 s s' := by
  rintro sc ⟨t, old, e, hl, hj, -⟩
  have ht := List.all_eq_true.mp h t (by cases t <;> simp)
  obtain ⟨n, j⟩ := e
  obtain rfl : j = .enter sc := hj
  rw [hl] at ht
  simpa using ht

/-- Object 0 is created in the square and moves to the field, which is on another thread. -/
theorem scene_stays_on_thread_towns : ∃ s : Towns.State,
    Reachable ((towns.program.system Bool).guard (EntersInTurn towns 0)) s ∧
      s.world.objects .field = [0] ∧ (s.cells (.object 0)).jobThread = .field ∧
      ∀ s', (towns.program.system Bool).next s s' →
        (OnSceneThread towns 0 s s' ↔ EntersInTurn towns 0 s s') := by
  obtain ⟨s, hr, hp⟩ := exists_reachable_of_exec (M := (towns.program.system Bool).guard (EntersInTurn towns 0))
    rfl (next_of_gate Program.next_of_step Towns.inTurn_spec)
    (Towns.call false (.create 0) 8 ++ Towns.call false (.moveToScene 0 (some .field)) 10 ++
      Towns.run .square 29 ++ Towns.run .field 7)
    (fun s => s.world.objects .field == [0] && (s.cells (.object 0)).jobThread == .field) (by decide)
  rw [Bool.and_eq_true, beq_iff_eq, beq_iff_eq] at hp
  exact ⟨s, hr, hp.1, hp.2, scene_stays_on_thread 0 hr⟩

/-- About to call `field->Enter` on object 0. -/
def Towns.atField : LoopPC Towns.Thread ObjRef (GameJob Village.Scene Unit) → Bool
  | .busy (.object 0) (.jobStart _ ⟨_, .enter .field⟩) => true
  | _ => false

theorem Towns.eq_of_atField {l : LoopPC Towns.Thread ObjRef (GameJob Village.Scene Unit)}
    (h : Towns.atField l = true) : ∃ old n, l = .busy (.object 0) (.jobStart old ⟨n, .enter .field⟩) := by
  unfold Towns.atField at h
  split at h
  · exact ⟨_, _, rfl⟩
  · cases h

/-- **A scene is entered on a strange thread.**  Two callers move object 0, one to the field and one to
    the square, and their jobs enter its queue in turns: leave for the field, leave for the square,
    enter the field.  The second job has set the thread back, so the third one, which appends to
    the field's list, runs on the thread of the square. -/
theorem entered_on_a_strange_thread : ∃ s s' : Towns.State, Reachable (towns.program.system Bool) s ∧
    (towns.program.system Bool).next s s' ∧ Calls s s' (.object 0) (.enter .field) ∧
      s'.loops .square ≠ s.loops .square ∧ ¬ OnSceneThread towns 0 s s' := by
  obtain ⟨s, hr, hp⟩ := exists_reachable_of_exec (M := towns.program.system Bool) rfl Program.next_of_step
    (Towns.call false (.create 0) 8 ++ Towns.call false (.moveToScene 0 (some .field)) 5 ++
      Towns.call true (.moveToScene 0 (some .square)) 5 ++ Towns.go false 5 ++ Towns.run .square 29 ++
      Towns.run .field 15 ++ Towns.run .square 6)
    (fun s => (s.frames (.inl .square)).isNone && Towns.atField (s.loops .square)) (by decide)
  rw [Bool.and_eq_true, Option.isNone_iff_eq_none] at hp
  obtain ⟨hf, hp⟩ := hp
  obtain ⟨old, n, hl⟩ := Towns.eq_of_atField hp
  have hne : (s.loopStep towns.program .square).loops .square ≠ s.loops .square := by
    simp [Sys.loopStep, hl, Sys.flushStep, flushStep]
  refine ⟨s, s.loopStep towns.program .square, hr, ⟨.agent (.inl .square), by simp [step, hf]⟩,
    ⟨.square, old, _, hl, rfl, hne⟩, hne, fun hon => ?_⟩
  cases hon .square old _ .field hl hne rfl

end JunCore.Logic
