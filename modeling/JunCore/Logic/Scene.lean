/-
  `JunCore/logic/GameObject.cpp`, `GameScene.cpp`, `GameObjectManager.h`/`.cpp`: the game on top of
  the job system.

  A game is a `Program` of the job system.  Its objects are the `GameObjectManager` and any number
  of `GameObject`s, named by their serial numbers; its jobs are the closures that `Create`,
  `MoveToScene`, `ExitScene`, `Destroy`, `Register`, `Unregister` and `PostTo` hand to `PostJob`; its
  game state is what these closures read and write:

  * `scene`    — `GameObject::m_pScene`
  * `objects`  — `GameScene::m_objects`
  * `registry` — `GameObjectManager::m_objects`

  The back pointer and the scene lists are written separately, by operations with different early
  returns.  `Placed` says that they agree about an object.  What breaks it is one thing only: an
  `Enter` job that finds the object still in a scene, as the second job of a `MoveToScene` to the
  scene the object is in does.
-/
import JunCore.Logic.Delivery

set_option linter.unusedVariables false
set_option linter.unusedSectionVars false

namespace JunCore.Logic

open Transition Function

/-! ## The game -/

/-- The `JobObject`s of a game. -/
inductive ObjRef
  | manager
  | object (sn : Nat)
  deriving DecidableEq

/-- The jobs of a game; `U` names the closures of the application itself. -/
inductive GameJob (S U : Type)
  /-- `scene->Enter(obj)`, posted by `Create` and as the second job of `MoveToScene` -/
  | enter (scene : S)
  /-- the first job of `MoveToScene` -/
  | leave (newScene : S)
  | exitScene
  | destroy
  | register (obj : Nat)
  | unregister (sn : Nat)
  | postTo (sn : Nat) (job : U)
  | user (job : U)
  deriving DecidableEq

/-- The calls that post these jobs. -/
inductive Call (S U : Type)
  | create (obj : Nat)
  | moveToScene (obj : Nat) (newScene : Option S)
  | exitScene (obj : Nat)
  | destroy (obj : Nat)
  | postTo (sn : Nat) (job : U)
  | postJob (obj : Nat) (job : U)

structure World (S : Type) where
  scene : Nat → Option S
  objects : S → List Nat
  registry : Nat → Option Nat
  /-- whether a scene's `Enter` has run for the object; read by nothing -/
  entered : Nat → Bool
  /-- whether the object's `Destroy` job has run; read by nothing -/
  destroyed : Nat → Bool

/-- What a game fixes: the core thread, the thread of each scene, the scene each object is
    constructed with, and the calls the application's own jobs make. -/
structure Game (T S U : Type) where
  core : T
  thread : S → T
  birth : Nat → S
  script : U → Nat → World S → List (Call S U)

variable {T P S U : Type}

section Definitions

variable [DecidableEq S]

namespace World

/-- `GameScene::Enter`, up to its call of `Register`. -/
def enter (w : World S) (sc : S) (obj : Nat) : World S :=
  { w with
    objects := update w.objects sc (w.objects sc ++ [obj])
    scene := update w.scene obj (some sc)
    entered := update w.entered obj true }

/-- `GameScene::Exit`: the back pointer goes, and the first occurrence in the list. -/
def exit (w : World S) (sc : S) (obj : Nat) : World S :=
  { w with
    scene := update w.scene obj none
    objects := update w.objects sc ((w.objects sc).erase obj) }

/-- `if (m_pScene) m_pScene->Exit(this);` -/
def leave (w : World S) (obj : Nat) : World S :=
  match w.scene obj with
  | some sc => w.exit sc obj
  | none => w

end World

/-- The `PostJob`s of a call. -/
def Game.posts (game : Game T S U) : Call S U → List (ObjRef × GameJob S U)
  | .create obj => [(.object obj, .enter (game.birth obj))]
  | .moveToScene _ none => []
  | .moveToScene obj (some newScene) => [(.object obj, .leave newScene), (.object obj, .enter newScene)]
  | .exitScene obj => [(.object obj, .exitScene)]
  | .destroy obj => [(.object obj, .destroy)]
  | .postTo sn job => [(.manager, .postTo sn job)]
  | .postJob obj job => [(.object obj, .user job)]

/-- What a job does when it is called on an object. -/
def Game.body (game : Game T S U) : GameJob S U → ObjRef → World S →
    World S × List (Instr T ObjRef (GameJob S U))
  | .enter sc, .object obj, w => (w.enter sc obj, [.postJob .manager (.register obj)])
  | .leave newScene, .object obj, w =>
      if w.scene obj = some newScene then (w, [])
      else (w.leave obj, [.setJobThread (game.thread newScene)])
  | .exitScene, .object obj, w => (w.leave obj, [])
  | .destroy, .object obj, w =>
      ({ w.leave obj with destroyed := update w.destroyed obj true },
       [.postJob .manager (.unregister obj), .markForDelete])
  | .register obj, .manager, w => ({ w with registry := update w.registry obj (some obj) }, [])
  | .unregister sn, .manager, w => ({ w with registry := update w.registry sn none }, [])
  | .postTo sn job, .manager, w =>
      (w, match w.registry sn with
        | some obj => [.postJob (.object obj) (.user job)]
        | none => [])
  | .user job, .object obj, w =>
      (w, ((game.script job obj w).flatMap game.posts).map fun p => .postJob p.1 p.2)
  | _, _, w => (w, [])

/-- The game as a program of the job system. -/
def Game.program (game : Game T S U) : Program T ObjRef (GameJob S U) (World S) (Call S U) where
  body := game.body
  posts := game.posts
  home
    | .manager => game.core
    | .object obj => game.thread (game.birth obj)
  world :=
    { scene := fun obj => some (game.birth obj)
      objects := fun _ => []
      registry := fun _ => none
      entered := fun _ => false
      destroyed := fun _ => false }

end Definitions

/-! ## Lists and back pointers -/

/-- **The scene lists and the back pointer agree about the object.** -/
structure Placed (w : World S) (obj : Nat) : Prop where
  once : ∀ sc, (w.objects sc).count obj ≤ 1
  alone : ∀ sc sc', obj ∈ w.objects sc → obj ∈ w.objects sc' → sc = sc'
  back : ∀ sc, obj ∈ w.objects sc → w.scene obj = some sc
  there : w.entered obj = true → ∀ sc, w.scene obj = some sc → obj ∈ w.objects sc
  gone : w.destroyed obj = true → ∀ sc, obj ∉ w.objects sc

namespace Placed

/-- Only the lists' opinion of the object, its back pointer and its history matter. -/
theorem congr {w w' : World S} {obj : Nat} (A : Placed w obj)
    (hcount : ∀ sc, (w'.objects sc).count obj = (w.objects sc).count obj)
    (hscene : w'.scene obj = w.scene obj) (hent : w'.entered obj = w.entered obj)
    (hdes : w'.destroyed obj = w.destroyed obj) : Placed w' obj := by
  have hmem : ∀ sc, obj ∈ w'.objects sc ↔ obj ∈ w.objects sc := by
    intro sc
    rw [← List.count_pos_iff, ← List.count_pos_iff, hcount]
  exact {
    once := fun sc => by rw [hcount]; exact A.once sc
    alone := fun sc sc' h h' => A.alone sc sc' ((hmem sc).mp h) ((hmem sc').mp h')
    back := fun sc h => by rw [hscene]; exact A.back sc ((hmem sc).mp h)
    there := fun he sc h => (hmem sc).mpr (A.there (hent ▸ he) sc (hscene ▸ h))
    gone := fun hd sc h => A.gone (hdes ▸ hd) sc ((hmem sc).mp h) }

variable [DecidableEq S]

/-- Entering a scene from nowhere. -/
theorem enter {w : World S} {obj : Nat} (hfree : ∀ sc, obj ∉ w.objects sc)
    (hd : w.destroyed obj = false) (sc : S) : Placed (w.enter sc obj) obj := by
  have hmem : ∀ sc', obj ∈ (w.enter sc obj).objects sc' ↔ sc' = sc := by
    intro sc'
    by_cases h : sc' = sc
    · subst h; simp [World.enter]
    · simp [World.enter, h, hfree]
  exact {
    once := by
      intro sc'
      by_cases h : sc' = sc
      · subst h; simp [World.enter, List.count_eq_zero.mpr (hfree sc')]
      · simp [World.enter, h, List.count_eq_zero.mpr (hfree sc')]
    alone := fun sc₁ sc₂ h₁ h₂ => ((hmem sc₁).mp h₁).trans ((hmem sc₂).mp h₂).symm
    back := fun sc' h => by rw [(hmem sc').mp h]; simp [World.enter]
    there := by
      intro _ sc' h
      have : sc = sc' := by simpa [World.enter] using h
      exact (hmem sc').mpr this.symm
    gone := fun h => by rw [show w.destroyed obj = true from h] at hd; cases hd }

/-- Entering a scene while some scene still holds the object always breaks the agreement. -/
theorem not_enter {w : World S} {obj : Nat} {sc' : S} (h : obj ∈ w.objects sc') (sc : S) :
    ¬ Placed (w.enter sc obj) obj := by
  intro A
  have hnew : obj ∈ (w.enter sc obj).objects sc := by simp [World.enter]
  by_cases heq : sc' = sc
  · subst heq
    have hone : (w.objects sc' ++ [obj]).count obj ≤ 1 := by simpa [World.enter] using A.once sc'
    have hpos := List.count_pos_iff.mpr h
    rw [List.count_append, List.count_singleton_self] at hone
    omega
  · have hold : obj ∈ (w.enter sc obj).objects sc' := by simpa [World.enter, heq] using h
    exact heq (A.alone sc' sc hold hnew)

/-- After `Exit` the object is nowhere. -/
theorem leave {w : World S} {obj : Nat} (A : Placed w obj) :
    (w.leave obj).scene obj = none ∧ ∀ sc, obj ∉ (w.leave obj).objects sc := by
  cases hs : w.scene obj with
  | none =>
    rw [show w.leave obj = w by simp [World.leave, hs]]
    refine ⟨hs, fun sc h => ?_⟩
    rw [A.back sc h] at hs
    cases hs
  | some sc =>
    rw [show w.leave obj = w.exit sc obj by simp [World.leave, hs]]
    refine ⟨by simp [World.exit], fun sc' h => ?_⟩
    by_cases heq : sc' = sc
    · subst heq
      have hpos := List.count_pos_iff.mpr (show obj ∈ (w.objects sc').erase obj by
        simpa [World.exit] using h)
      have hone := A.once sc'
      rw [List.count_erase_self] at hpos
      omega
    · have hold : obj ∈ w.objects sc' := by simpa [World.exit, heq] using h
      have hback := A.back sc' hold
      rw [hs, Option.some.injEq] at hback
      exact heq hback.symm

/-- An object that is nowhere is placed. -/
theorem of_nowhere {w : World S} {obj : Nat} (hs : w.scene obj = none)
    (hfree : ∀ sc, obj ∉ w.objects sc) : Placed w obj where
  once sc := by rw [List.count_eq_zero.mpr (hfree sc)]; exact Nat.zero_le 1
  alone sc sc' h := absurd h (hfree sc)
  back sc h := absurd h (hfree sc)
  there _ sc h := by rw [hs] at h; cases h
  gone _ := hfree

/-- What another object does to the lists is not seen. -/
theorem other {w : World S} {obj obj' : Nat} (A : Placed w obj) (h : obj' ≠ obj) (sc : S) :
    Placed (w.enter sc obj') obj ∧ Placed (w.leave obj') obj := by
  constructor
  · refine A.congr (fun sc' => ?_) ?_ ?_ rfl
    · by_cases hs : sc' = sc
      · subst hs; simp [World.enter, List.count_append, h]
      · simp [World.enter, hs]
    · simp [World.enter, h.symm]
    · simp [World.enter, h.symm]
  · cases hs : w.scene obj' with
    | none => simpa [World.leave, hs] using A
    | some sc₀ =>
      rw [show w.leave obj' = w.exit sc₀ obj' by simp [World.leave, hs]]
      refine A.congr (fun sc' => ?_) ?_ rfl rfl
      · by_cases heq : sc' = sc₀
        · subst heq; simp [World.exit, List.count_erase_of_ne h.symm]
        · simp [World.exit, heq]
      · simp [World.exit, h.symm]

end Placed

/-! ## Jobs and the placement -/

variable [DecidableEq T] [DecidableEq P] [DecidableEq S]

theorem destroyed_leave (w : World S) (obj : Nat) : (w.leave obj).destroyed = w.destroyed := by
  cases hs : w.scene obj <;> simp [World.leave, hs, World.exit]

/-- Only the object's own `Destroy` job destroys it. -/
theorem destroyed_body (game : Game T S U) {j : GameJob S U} {o : ObjRef} {w : World S} {obj : Nat} :
    (game.body j o w).1.destroyed obj = true ↔
      w.destroyed obj = true ∨ j = .destroy ∧ o = .object obj := by
  cases o with
  | manager => cases j <;> simp [Game.body]
  | object obj' =>
    cases j with
    | destroy =>
      by_cases heq : obj = obj'
      · subst heq; simp [Game.body]
      · simp [Game.body, heq, Ne.symm heq]
    | leave newScene =>
      simp only [Game.body]
      split <;> simp [destroyed_leave]
    | exitScene => simp [Game.body, destroyed_leave]
    | enter sc => simp [Game.body, World.enter]
    | register obj₂ | unregister sn | postTo sn u | user u => simp [Game.body]

/-- A job leaves an object placed, provided the object is not destroyed when a job of its own is
    called, and is in no scene when that job is an `Enter`. -/
theorem placed_body (game : Game T S U) {j : GameJob S U} {o : ObjRef} {w : World S} {obj : Nat}
    (A : Placed w obj) (hd : o = .object obj → w.destroyed obj = false)
    (henter : ∀ sc, o = .object obj → j = .enter sc → ∀ sc', obj ∉ w.objects sc') :
    Placed (game.body j o w).1 obj := by
  have hself : ∀ w', w'.scene = (w.leave obj).scene → w'.objects = (w.leave obj).objects →
      Placed w' obj := by
    intro w' h₁ h₂
    obtain ⟨hs, hfree⟩ := A.leave
    exact .of_nowhere (by rw [h₁]; exact hs) (by rw [h₂]; exact hfree)
  cases o with
  | manager => cases j <;> exact A.congr (fun _ => rfl) rfl rfl rfl
  | object obj' =>
    by_cases heq : obj' = obj
    · subst heq
      cases j with
      | enter sc => exact .enter (henter sc rfl rfl) (hd rfl) sc
      | leave newScene =>
        simp only [Game.body]
        split
        · exact A
        · exact hself _ rfl rfl
      | exitScene => exact hself _ rfl rfl
      | destroy => exact hself _ rfl rfl
      | register obj₂ | unregister sn | postTo sn u | user u => exact A
    · cases j with
      | enter sc => exact (A.other heq sc).1
      | leave newScene =>
        simp only [Game.body]
        split
        · exact A
        · exact (A.other heq newScene).2
      | exitScene => exact (A.other heq (game.birth obj)).2
      | destroy =>
        refine (A.other heq (game.birth obj)).2.congr (fun _ => rfl) rfl rfl ?_
        simp [Game.body, destroyed_leave, Ne.symm heq]
      | register obj₂ | unregister sn | postTo sn u | user u => exact A

/-! ## A destroyed object calls no more jobs -/

/-- Once its `Destroy` job has been called, an object is marked, or the thread inside that job has
    the mark still to set. -/
def Doomed (s : Sys T P ObjRef (GameJob S U) (World S)) (obj : Nat) : Prop :=
  s.world.destroyed obj = true → (s.cells (.object obj)).markedForDelete = true ∨
    ∃ t old n is, s.loops t = .busy (.object obj) (.running old n is) ∧ .markForDelete ∈ is

theorem doomed_step {game : Game T S U} {s s' : Sys T P ObjRef (GameJob S U) (World S)}
    {e : Event T P (Call S U)} (h : step game.program s e = some s') {obj : Nat}
    (A : Doomed s obj) : Doomed s' obj := by
  intro hd'
  by_cases hd : s.world.destroyed obj = true
  · rcases A hd with hm | ⟨t, old, n, is, hl, hmem⟩
    · exact .inl (marked_of_step h hm)
    · cases is with
      | nil => cases hmem
      | cons i rest =>
        rcases step_of_running h hl with hsame | ⟨hnext, hmark⟩
        · exact .inr ⟨t, old, n, i :: rest, hsame, hmem⟩
        · rcases List.mem_cons.mp hmem with hi | hrest
          · exact .inl (hmark hi.symm)
          · exact .inr ⟨t, old, n, rest, hnext, hrest⟩
  · rcases world_of_step h with hw | ⟨t, o, old, e', -, hnew, hw, -⟩
    · rw [hw] at hd'; exact absurd hd' hd
    · rw [hw] at hd'
      rcases (destroyed_body game).mp hd' with hold | ⟨hj, rfl⟩
      · exact absurd hold hd
      · right
        refine ⟨t, old, e'.ticket, _, hnew, ?_⟩
        rw [hj]
        simp [Game.program, Game.body]

variable [Fintype T] [Fintype P]

theorem doomed_reachable {game : Game T S U} {s : Sys T P ObjRef (GameJob S U) (World S)}
    (h : Reachable (game.program.system P) s) (obj : Nat) : Doomed s obj := by
  apply h.invariant (I := fun s => Doomed s obj)
  · rintro s rfl hd
    cases hd
  · rintro s s' _ A ⟨e, hstep⟩
    exact doomed_step hstep A

/-- No job of a destroyed object is about to be called. -/
theorem not_destroyed_of_jobStart {game : Game T S U}
    {s : Sys T P ObjRef (GameJob S U) (World S)} (h : Reachable (game.program.system P) s)
    {t : T} {obj : Nat} {old : T} {e : Entry (GameJob S U)}
    (hl : s.loops t = .busy (.object obj) (.jobStart old e)) : s.world.destroyed obj = false := by
  by_contra hd
  have I := owned_reachable h (.object obj)
  rcases doomed_reachable h obj (by simpa using hd) with hm | ⟨t', old', n, is, hl', -⟩
  · have hu : (s.cells (.object obj)).markedForDelete = false :=
      (I.loop t _ (view_loop_eq_some.mpr hl)).2.2
    rw [hm] at hu; cases hu
  · obtain rfl := I.one_drain hl hl' Nat.one_pos Nat.one_pos
    rw [hl] at hl'; cases hl'

/-! ## A small game -/

namespace Village

inductive Thread
  | core
  | game
  deriving DecidableEq

inductive Scene
  | square
  | field
  deriving DecidableEq

instance : Fintype Thread := ⟨{.core, .game}, fun t => by cases t <;> simp⟩

instance : Fintype Scene := ⟨{.square, .field}, fun sc => by cases sc <;> simp⟩

end Village

/-- One core thread and one game thread, with two scenes; objects are born into the square. -/
def village : Game Village.Thread Village.Scene Unit where
  core := .core
  thread _ := .game
  birth _ := .square
  script _ _ _ := []

namespace Village

abbrev State := Sys Thread Unit ObjRef (GameJob Scene Unit) (World Scene)

abbrev Schedule := List (Event Thread Unit (Call Scene Unit))

/-- The caller makes a call and gets `n` steps. -/
def call (k : Call Scene Unit) (n : Nat) : Schedule :=
  .call () k :: List.replicate n (.agent (.inr ()))

/-- Thread `t` gets `n` steps. -/
def run (t : Thread) (n : Nat) : Schedule := List.replicate n (.agent (.inl t))

theorem reachable {G : State → State → Prop} (es : Schedule) (g : State → State → Bool)
    (hg : ∀ s s', g s s' = true → G s s') (p : State → Bool)
    (h : (exec (gate (step village.program) g) es village.program.initial).any p = true) :
    ∃ s, Reachable ((village.program.system Unit).guard G) s ∧ p s = true :=
  exists_reachable_of_exec rfl (next_of_gate Program.next_of_step hg) es p h

end Village

/-! ## The agreement over whole runs -/

/-- **Side condition.**  An `Enter` job of the object is only called while no scene holds it. -/
def EntersFree (obj : Nat) (s s' : Sys T P ObjRef (GameJob S U) (World S)) : Prop :=
  ∀ sc, Calls s s' (.object obj) (.enter sc) → ∀ sc', obj ∉ s.world.objects sc'

theorem placed_step {game : Game T S U} {s s' : Sys T P ObjRef (GameJob S U) (World S)}
    {e : Event T P (Call S U)} (hr : Reachable (game.program.system P) s)
    (h : step game.program s e = some s') {obj : Nat} (A : Placed s.world obj)
    (hg : EntersFree obj s s') : Placed s'.world obj := by
  rcases world_of_step h with hw | ⟨t, o, old, e', hl, -, hw, hcalls⟩
  · rw [hw]; exact A
  · rw [hw]
    apply placed_body game A
    · rintro rfl
      exact not_destroyed_of_jobStart hr hl
    · intro sc ho hj
      exact hg sc (by rw [← ho, ← hj]; exact hcalls)

/-- **The lists and the back pointer agree, unless an `Enter` finds its object still in a scene.**
    In every run in which the object's `Enter` jobs are called only while no scene holds it, it is
    in one scene at most, once, the one its back pointer names; it is there whenever it has entered
    and the pointer names one; and it is nowhere once it is destroyed.  A step outside of the
    condition breaks this. -/
theorem scenes_agree {game : Game T S U} (obj : Nat) {s : Sys T P ObjRef (GameJob S U) (World S)}
    (h : Reachable ((game.program.system P).guard (EntersFree obj)) s) :
    Placed s.world obj ∧ ∀ s', (game.program.system P).next s s' →
      (Placed s'.world obj ↔ EntersFree obj s s') := by
  have A : Placed s.world obj := by
    apply h.invariant (I := fun s => Placed s.world obj)
    · rintro s rfl
      exact {
        once := fun sc => Nat.zero_le 1
        alone := fun sc sc' hmem => by cases hmem
        back := fun sc hmem => by cases hmem
        there := fun he => by cases he
        gone := fun hd => by cases hd }
    · rintro s s' hr A ⟨⟨e, hstep⟩, hg⟩
      exact placed_step hr.of_guard hstep A hg
  refine ⟨A, ?_⟩
  rintro s' ⟨e, hstep⟩
  constructor
  · intro A' sc hcalls sc' hmem
    have hw : s'.world = s.world.enter sc obj := world_of_calls hstep hcalls
    rw [hw] at A'
    exact Placed.not_enter hmem sc A'
  · exact placed_step h.of_guard hstep A

/-- Whether no thread is about to call an `Enter` of object 0 while a scene holds it. -/
def Village.entersFree (s s' : Village.State) : Bool :=
  [Village.Thread.core, .game].all fun t => match s.loops t with
    | .busy (.object 0) (.jobStart _ ⟨_, .enter _⟩) => decide (∀ sc, 0 ∉ s.world.objects sc)
    | _ => true

/-- Object 0 is created in the square and moves to the field. -/
theorem scenes_agree_village : ∃ s : Village.State,
    Reachable ((village.program.system Unit).guard (EntersFree 0)) s ∧ s.world.objects .field = [0] ∧
      Placed s.world 0 := by
  obtain ⟨s, hr, hp⟩ := Village.reachable (G := EntersFree 0)
    (Village.call (.create 0) 8 ++ Village.call (.moveToScene 0 (some .field)) 10 ++ Village.run .game 28)
    Village.entersFree (fun s s' hg sc ⟨t, old, e, hl, hj, _⟩ => by
      have := List.all_eq_true.mp hg t (by cases t <;> simp)
      obtain ⟨n, j⟩ := e
      obtain rfl : j = .enter sc := hj
      rw [hl] at this
      simpa using this)
    (fun s => s.world.objects .field == [0]) (by decide)
  exact ⟨s, hr, by simpa using hp, (scenes_agree 0 hr).1⟩

/-- **Twice in one scene.**  Object 0 is created in the square and moved to the square.  The first
    job of the move returns early, the second one enters it again. -/
theorem twice_in_one_scene : ∃ s : Village.State,
    Reachable (village.program.system Unit) s ∧ (s.world.objects .square).count 0 = 2 := by
  obtain ⟨s, hr, hp⟩ := Village.reachable (G := fun _ _ => True)
    (Village.call (.create 0) 8 ++ Village.call (.moveToScene 0 (some .square)) 10 ++
      Village.run .game 27)
    (fun _ _ => true) (fun _ _ _ => trivial) (fun s => (s.world.objects .square).count 0 == 2)
    (by decide)
  exact ⟨s, hr.of_guard, by simpa using hp⟩

end JunCore.Logic
