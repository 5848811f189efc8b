/-
  `GameServer/MoveComponent.h`: a position that moves to a destination, one step for each `FixedUpdate`.

  The component computes with `float`; here the type of the numbers is a parameter, with `std::sqrt` for it.
  At `Float32` the definitions are the ones the players have (`player_onFixedUpdate`); at the real numbers
  the arithmetic is exact, and the movement is `Approach.toward`.

  `SetDestination` ends with the event `OnMoveStart`, and `OnFixedUpdate` with `OnArrived` when it finds the
  destination reached.  The handlers may call any member function again, so the calls of a run come in any
  order; when a handler returns, the function that raised the event has nothing left to do.

  What a run does between a `SetDestination` and the next one is a `Leg`, which a `SetPosition` breaks off.
-/
import JunCore.GameServer.Player
import JunCore.Lib.Approach
import JunCore.Lib.Precedence
import Mathlib.Analysis.CStarAlgebra.Classes
import Mathlib.Analysis.InnerProductSpace.Basic

set_option linter.unusedVariables false
set_option linter.unusedSectionVars false

namespace JunCore.GameServer.Movement

open Transition Precedence Approach

/-! ## The component -/

structure MoveComponent (K : Type) where
  currentX : K
  currentY : K
  currentZ : K
  destX : K
  destY : K
  destZ : K
  moveSpeed : K
  arrivedNotified : Bool

variable {K : Type} [Add K] [Sub K] [Mul K] [Div K] [LT K] [DecidableLT K] [OfScientific K]

/-- `ARRIVAL_THRESHOLD` -/
def arrivalThreshold : K := 0.1

namespace MoveComponent

/-- The constructor with a speed; without one it is 0.1. -/
def new (speed : K) : MoveComponent K where
  currentX := 0.0
  currentY := 0.0
  currentZ := 0.0
  destX := 0.0
  destY := 0.0
  destZ := 0.0
  moveSpeed := speed
  arrivedNotified := true

def setPosition (m : MoveComponent K) (x y z : K) : MoveComponent K :=
  { m with currentX := x, currentY := y, currentZ := z }

/-- `SetDestination`, up to the event `OnMoveStart` it ends with. -/
def setDestination (m : MoveComponent K) (x y z : K) : MoveComponent K :=
  { m with destX := x, destY := y, destZ := z, arrivedNotified := false }

def setMoveSpeed (m : MoveComponent K) (speed : K) : MoveComponent K := { m with moveSpeed := speed }

def hasReachedDestination (m : MoveComponent K) : Bool :=
  let dx := m.destX - m.currentX
  let dz := m.destZ - m.currentZ
  decide (dx * dx + dz * dz < arrivalThreshold * arrivalThreshold)

def moveTowardsDestination (sqrt : K → K) (m : MoveComponent K) : MoveComponent K :=
  let dx := m.destX - m.currentX
  let dz := m.destZ - m.currentZ
  let distance := sqrt (dx * dx + dz * dz)
  if distance < 0.001 then m
  else
    let moveDistance := if m.moveSpeed > distance then distance else m.moveSpeed
    { m with
      currentX := m.currentX + dx / distance * moveDistance
      currentZ := m.currentZ + dz / distance * moveDistance }

/-- `OnFixedUpdate`, up to the event `OnArrived`, and whether it raises it. -/
def onFixedUpdate (sqrt : K → K) (m : MoveComponent K) : MoveComponent K × Bool :=
  if m.arrivedNotified then (m, false)
  else
    let m := if m.hasReachedDestination then m else m.moveTowardsDestination sqrt
    if m.hasReachedDestination then ({ m with arrivedNotified := true }, true) else (m, false)

/-- The component behind the move in `OnFixedUpdate`. -/
def moved (sqrt : K → K) (m : MoveComponent K) : MoveComponent K :=
  if m.hasReachedDestination then m else m.moveTowardsDestination sqrt

/-- What `OnFixedUpdate` can do: nothing, arrive, or go on. -/
theorem onFixedUpdate_cases (sqrt : K → K) (m : MoveComponent K) :
    (m.arrivedNotified = true ∧ m.onFixedUpdate sqrt = (m, false)) ∨
    (m.arrivedNotified = false ∧ (m.moved sqrt).hasReachedDestination = true ∧
      m.onFixedUpdate sqrt = ({ m.moved sqrt with arrivedNotified := true }, true)) ∨
    (m.arrivedNotified = false ∧ (m.moved sqrt).hasReachedDestination = false ∧
      m.onFixedUpdate sqrt = (m.moved sqrt, false)) := by
  have heq : m.onFixedUpdate sqrt = if m.arrivedNotified then (m, false)
      else if (m.moved sqrt).hasReachedDestination then ({ m.moved sqrt with arrivedNotified := true }, true)
      else (m.moved sqrt, false) := rfl
  rw [heq]
  cases m.arrivedNotified with
  | true => exact Or.inl ⟨rfl, rfl⟩
  | false =>
    cases (m.moved sqrt).hasReachedDestination with
    | true => exact Or.inr (Or.inl ⟨rfl, rfl, rfl⟩)
    | false => exact Or.inr (Or.inr ⟨rfl, rfl, rfl⟩)

/-- What a move leaves alone. -/
theorem moved_rest (sqrt : K → K) (m : MoveComponent K) :
    (m.moved sqrt).arrivedNotified = m.arrivedNotified ∧ (m.moved sqrt).destX = m.destX ∧
      (m.moved sqrt).destZ = m.destZ := by
  unfold moved moveTowardsDestination
  split
  · exact ⟨rfl, rfl, rfl⟩
  · dsimp only
    split
    · exact ⟨rfl, rfl, rfl⟩
    · exact ⟨rfl, rfl, rfl⟩

theorem onFixedUpdate_arrivedNotified (sqrt : K → K) (m : MoveComponent K) :
    (m.onFixedUpdate sqrt).1.arrivedNotified = (m.arrivedNotified || (m.onFixedUpdate sqrt).2) := by
  rcases m.onFixedUpdate_cases sqrt with ⟨hflag, heq⟩ | ⟨hflag, -, heq⟩ | ⟨hflag, -, heq⟩
  · rw [heq, hflag]
    rfl
  · rw [heq, hflag]
    rfl
  · rw [heq, (m.moved_rest sqrt).1, hflag]
    rfl

/-! ## The components of the players -/

/-- A component over `float`, as a player has it. -/
def player (m : MoveComponent Float32) : GameServer.MoveComponent where
  current := ⟨m.currentX, m.currentY, m.currentZ⟩
  dest := ⟨m.destX, m.destY, m.destZ⟩
  moveSpeed := m.moveSpeed
  arrivedNotified := m.arrivedNotified

theorem player_setDestination (m : MoveComponent Float32) (x y z : Float32) :
    player (m.setDestination x y z) = (player m).setDestination ⟨x, y, z⟩ := rfl

theorem player_moveTowardsDestination (m : MoveComponent Float32) :
    player (m.moveTowardsDestination Float32.sqrt) = (player m).moveTowardsDestination :=
  apply_ite player _ _ _

theorem player_onFixedUpdate (m : MoveComponent Float32) :
    (player m).onFixedUpdate =
      (player (m.onFixedUpdate Float32.sqrt).1, (m.onFixedUpdate Float32.sqrt).2) := by
  have hreached : ∀ m, (player m).hasReachedDestination = m.hasReachedDestination := fun _ => rfl
  have hmoved : (if (player m).hasReachedDestination then player m else (player m).moveTowardsDestination) =
      player (m.moved Float32.sqrt) := by
    rw [moved, hreached, ← player_moveTowardsDestination, apply_ite player]
  rw [GameServer.MoveComponent.onFixedUpdate]
  simp only [hmoved]
  rcases onFixedUpdate_cases Float32.sqrt m with ⟨hflag, heq⟩ | ⟨hflag, hr, heq⟩ | ⟨hflag, hr, heq⟩
  · rw [heq, if_pos (show (player m).arrivedNotified = true from hflag)]
  · have hclear : ¬ (player m).arrivedNotified = true := Bool.not_eq_true _ ▸ hflag
    rw [heq, if_neg hclear, if_pos ((hreached _).trans hr)]
    rfl
  · have hclear : ¬ (player m).arrivedNotified = true := Bool.not_eq_true _ ▸ hflag
    have hfar : ¬ (player (m.moved Float32.sqrt)).hasReachedDestination = true :=
      Bool.not_eq_true _ ▸ (hreached _).trans hr
    rw [heq, if_neg hclear, if_neg hfar]

end MoveComponent

/-! ## Runs -/

/-- One `OnFixedUpdate`: the speed it found, where the component is then, and whether it raised
    `OnArrived`. -/
structure Tick (K : Type) where
  speed : K
  x : K
  z : K
  arrived : Bool

/-- What came after a `SetDestination`: where the component was, where it is to go, and the calls of
    `OnFixedUpdate` since then, oldest first. -/
structure Leg (K : Type) where
  startX : K
  startZ : K
  destX : K
  destZ : K
  ticks : List (Tick K) := []

inductive Entry
  | destination
  | moveStart
  | arrived
  deriving DecidableEq

inductive Handler
  | onMoveStart
  | onArrived

/-- The component, the handlers that have been called and have not returned (the last one first), what
    happened so far, and the leg; after a `SetPosition` there is none. -/
structure World (K : Type) where
  move : MoveComponent K
  handlers : List Handler := []
  log : List Entry := []
  leg : Option (Leg K) := none

/-- A call from outside or from a handler, or the return of the innermost handler. -/
inductive Call (K : Type)
  | setPosition (x y z : K)
  | setDestination (x y z : K)
  | setMoveSpeed (speed : K)
  | onFixedUpdate
  | handlerReturns

def step (sqrt : K → K) (w : World K) : Call K → Option (World K)
  | .setPosition x y z => some { w with move := w.move.setPosition x y z, leg := none }
  | .setDestination x y z => some
      { move := w.move.setDestination x y z
        handlers := .onMoveStart :: w.handlers
        log := w.log ++ [.destination] ++ [.moveStart]
        leg := some { startX := w.move.currentX, startZ := w.move.currentZ, destX := x, destZ := z } }
  | .setMoveSpeed speed => some { w with move := w.move.setMoveSpeed speed }
  | .onFixedUpdate =>
    let (m, arrived) := w.move.onFixedUpdate sqrt
    some
      { move := m
        handlers := if arrived then .onArrived :: w.handlers else w.handlers
        log := if arrived then w.log ++ [.arrived] else w.log
        leg := w.leg.map fun g =>
          { g with ticks := g.ticks ++ [⟨w.move.moveSpeed, m.currentX, m.currentZ, arrived⟩] } }
  | .handlerReturns =>
    match w.handlers with
    | [] => none
    | _ :: handlers => some { w with handlers := handlers }

def movement (sqrt : K → K) : System (World K) where
  init w := ∃ speed, w = { move := .new speed }
  next w w' := ∃ c, step sqrt w c = some w'

/-! ## One arrival for each destination -/

/-- Every arrival has its own `SetDestination`, and while the flag is clear there is one to come. -/
structure Announced (w : World K) : Prop where
  heralded : Heralded .destination .arrived w.log
  separated : Separated .destination .arrived w.log
  pending : w.move.arrivedNotified = false → Pending .destination .arrived w.log

theorem Announced.setDestination {w : World K} (A : Announced w) (x y z : K) (handlers : List Handler)
    (leg : Option (Leg K)) :
    Announced ⟨w.move.setDestination x y z, handlers, w.log ++ [.destination] ++ [.moveStart], leg⟩ where
  heralded :=
    (A.heralded.append fun hmem => absurd hmem (by decide)).append fun hmem => absurd hmem (by decide)
  separated := (A.separated.snoc_other (by decide)).snoc_other (by decide)
  pending _ := Pending.append ⟨w.log, [], rfl, List.not_mem_nil⟩ (by decide)

theorem Announced.arrived {w : World K} (A : Announced w) (hflag : w.move.arrivedNotified = false)
    (m : MoveComponent K) (hm : m.arrivedNotified = true) (handlers : List Handler) (leg : Option (Leg K)) :
    Announced ⟨m, handlers, w.log ++ [.arrived], leg⟩ where
  heralded := A.heralded.append fun _ => (A.pending hflag).mem
  separated := A.separated.snoc (A.pending hflag) (by decide)
  pending h := by
    rw [hm] at h
    cases h

theorem announced_step (sqrt : K → K) {w w' : World K} {c : Call K} (A : Announced w)
    (h : step sqrt w c = some w') : Announced w' := by
  cases c with
  | setPosition x y z =>
    obtain rfl := Option.some.inj h
    exact ⟨A.heralded, A.separated, A.pending⟩
  | setDestination x y z =>
    obtain rfl := Option.some.inj h
    exact A.setDestination x y z _ _
  | setMoveSpeed speed =>
    obtain rfl := Option.some.inj h
    exact ⟨A.heralded, A.separated, A.pending⟩
  | onFixedUpdate =>
    rw [step] at h
    rcases w.move.onFixedUpdate_cases sqrt with ⟨-, heq⟩ | ⟨hflag, -, heq⟩ | ⟨-, -, heq⟩
    · rw [heq] at h
      obtain rfl := Option.some.inj h
      exact ⟨A.heralded, A.separated, A.pending⟩
    · rw [heq] at h
      obtain rfl := Option.some.inj h
      exact A.arrived hflag _ rfl _ _
    · rw [heq] at h
      obtain rfl := Option.some.inj h
      refine ⟨A.heralded, A.separated, fun hflag => A.pending ?_⟩
      rw [← (w.move.moved_rest sqrt).1]
      exact hflag
  | handlerReturns =>
    rw [step] at h
    split at h
    · cases h
    · obtain rfl := Option.some.inj h
      exact ⟨A.heralded, A.separated, A.pending⟩

theorem announced_of_reachable (sqrt : K → K) {w : World K} (h : Reachable (movement sqrt) w) :
    Announced w := by
  refine h.invariant ?_ ?_
  · rintro w ⟨speed, rfl⟩
    refine ⟨heralded_nil, separated_nil, fun hflag => ?_⟩
    cases hflag
  · rintro w w' _ A ⟨c, hc⟩
    exact announced_step sqrt A hc

/-! ## Movement over the real numbers -/

/-- A position of the XZ plane. -/
def point (x z : ℝ) : ℂ := ⟨x, z⟩

namespace MoveComponent

def position (m : MoveComponent ℝ) : ℂ := point m.currentX m.currentZ

def destination (m : MoveComponent ℝ) : ℂ := point m.destX m.destZ

/-- The distance the source computes. -/
theorem sqrt_eq_dist (m : MoveComponent ℝ) :
    √((m.destX - m.currentX) * (m.destX - m.currentX) + (m.destZ - m.currentZ) * (m.destZ - m.currentZ)) =
      dist m.position m.destination := by
  rw [dist_comm, Complex.dist_eq_re_im, sq, sq]
  rfl

theorem hasReachedDestination_iff (m : MoveComponent ℝ) :
    m.hasReachedDestination = true ↔ dist m.position m.destination < 0.1 := by
  rw [← sqrt_eq_dist, Real.sqrt_lt' (by norm_num), sq]
  exact decide_eq_true_iff

theorem toward_re (s : ℝ) (q p : ℂ) :
    (toward s q p).re = p.re + (q.re - p.re) / dist p q * min s (dist p q) := by
  rw [toward, AffineMap.lineMap_apply, vsub_eq_sub, vadd_eq_add, Complex.add_re, Complex.smul_re,
    Complex.sub_re, smul_eq_mul]
  ring

theorem toward_im (s : ℝ) (q p : ℂ) :
    (toward s q p).im = p.im + (q.im - p.im) / dist p q * min s (dist p q) := by
  rw [toward, AffineMap.lineMap_apply, vsub_eq_sub, vadd_eq_add, Complex.add_im, Complex.smul_im,
    Complex.sub_im, smul_eq_mul]
  ring

/-- Away from the destination a move is a step towards it. -/
theorem moveTowardsDestination_position (m : MoveComponent ℝ) (h : 0.1 ≤ dist m.position m.destination) :
    (m.moveTowardsDestination Real.sqrt).position = toward m.moveSpeed m.destination m.position := by
  have hd : 0 < dist m.position m.destination := lt_of_lt_of_le (by norm_num) h
  have hfar : ¬ dist m.position m.destination < 0.001 := not_lt.mpr (le_trans (by norm_num) h)
  have hmin : (if m.moveSpeed > dist m.position m.destination then dist m.position m.destination
      else m.moveSpeed) = min m.moveSpeed (dist m.position m.destination) := by
    split
    · rw [min_eq_right (by linarith)]
    · rw [min_eq_left (by linarith)]
  rw [moveTowardsDestination]
  simp only [sqrt_eq_dist, if_neg hfar, hmin]
  apply Complex.ext
  · exact (toward_re m.moveSpeed m.destination m.position).symm
  · exact (toward_im m.moveSpeed m.destination m.position).symm

theorem moved_near (m : MoveComponent ℝ) (h : dist m.position m.destination < 0.1) :
    m.moved Real.sqrt = m := if_pos (m.hasReachedDestination_iff.mpr h)

theorem moved_far (m : MoveComponent ℝ) (h : 0.1 ≤ dist m.position m.destination) :
    (m.moved Real.sqrt).position = toward m.moveSpeed m.destination m.position := by
  have hfar : ¬ m.hasReachedDestination = true := fun hr =>
    absurd (m.hasReachedDestination_iff.mp hr) (not_lt.mpr h)
  rw [moved, if_neg hfar]
  exact m.moveTowardsDestination_position h

theorem moved_destination (m : MoveComponent ℝ) : (m.moved Real.sqrt).destination = m.destination := by
  obtain ⟨-, hx, hz⟩ := m.moved_rest Real.sqrt
  rw [destination, hx, hz]
  rfl

theorem onFixedUpdate_destination (m : MoveComponent ℝ) :
    (m.onFixedUpdate Real.sqrt).1.destination = m.destination := by
  rcases m.onFixedUpdate_cases Real.sqrt with ⟨-, heq⟩ | ⟨-, -, heq⟩ | ⟨-, -, heq⟩
  · rw [heq]
  · rw [heq]
    exact m.moved_destination
  · rw [heq]
    exact m.moved_destination

end MoveComponent

/-! ## Legs -/

def Tick.point (t : Tick ℝ) : ℂ := Movement.point t.x t.z

namespace Leg

def start (g : Leg ℝ) : ℂ := point g.startX g.startZ

def dest (g : Leg ℝ) : ℂ := point g.destX g.destZ

/-- Where the component is after `k` calls of `OnFixedUpdate`. -/
def after (g : Leg ℝ) : Nat → ℂ
  | 0 => g.start
  | k + 1 => (g.ticks[k]?.map Tick.point).getD g.start

/-- `OnArrived` is raised in call number `k + 1`. -/
def Arrives (g : Leg ℝ) (k : Nat) : Prop := ∃ t, g.ticks[k]? = some t ∧ t.arrived = true

/-- `OnArrived` is raised in one of the first `k` calls. -/
def Over (g : Leg ℝ) (k : Nat) : Prop := ∃ j, j < k ∧ g.Arrives j

end Leg

/-- What a call does at `p` on the way to `q`, when the arrival was `reported` before and when it was
    not. -/
structure Lands (q p : ℂ) (reported : Prop) (t : Tick ℝ) : Prop where
  rests : reported → t.point = p ∧ t.arrived = false
  near : ¬ reported → dist p q < 0.1 → t.point = p
  far : ¬ reported → 0.1 ≤ dist p q → t.point = toward t.speed q p
  arrives : ¬ reported → (t.arrived = true ↔ dist t.point q < 0.1)

theorem lands_onFixedUpdate (m : MoveComponent ℝ) :
    Lands m.destination m.position (m.arrivedNotified = true)
      ⟨m.moveSpeed, (m.onFixedUpdate Real.sqrt).1.currentX, (m.onFixedUpdate Real.sqrt).1.currentZ,
        (m.onFixedUpdate Real.sqrt).2⟩ := by
  have hreached := (m.moved Real.sqrt).hasReachedDestination_iff
  rw [m.moved_destination] at hreached
  rcases m.onFixedUpdate_cases Real.sqrt with ⟨hflag, heq⟩ | ⟨hflag, hr, heq⟩ | ⟨hflag, hr, heq⟩
  · rw [heq]
    exact
      { rests := fun _ => ⟨rfl, rfl⟩
        near := fun hno => absurd hflag hno
        far := fun hno => absurd hflag hno
        arrives := fun hno => absurd hflag hno }
  · rw [heq]
    have hclear : ¬ m.arrivedNotified = true := Bool.not_eq_true _ ▸ hflag
    exact
      { rests := fun hover => absurd hover hclear
        near := fun _ h => congrArg MoveComponent.position (m.moved_near h)
        far := fun _ h => m.moved_far h
        arrives := fun _ => ⟨fun _ => hreached.mp hr, fun _ => rfl⟩ }
  · rw [heq]
    have hclear : ¬ m.arrivedNotified = true := Bool.not_eq_true _ ▸ hflag
    refine
      { rests := fun hover => absurd hover hclear
        near := fun _ h => congrArg MoveComponent.position (m.moved_near h)
        far := fun _ h => m.moved_far h
        arrives := fun _ => ⟨fun h => (by cases h), fun h => ?_⟩ }
    rw [hreached.mpr h] at hr
    cases hr

namespace Leg

/-- One more call. -/
def snoc (g : Leg ℝ) (t : Tick ℝ) : Leg ℝ := { g with ticks := g.ticks ++ [t] }

variable (g : Leg ℝ) (t : Tick ℝ)

theorem ticks_snoc {k : Nat} (hk : k < g.ticks.length) : (g.snoc t).ticks[k]? = g.ticks[k]? :=
  List.getElem?_append_left hk

theorem last_snoc : (g.snoc t).ticks[g.ticks.length]? = some t := List.getElem?_concat_length

theorem after_snoc {k : Nat} (hk : k ≤ g.ticks.length) : (g.snoc t).after k = g.after k := by
  cases k with
  | zero => rfl
  | succ k => rw [after, after, ticks_snoc g t hk]; rfl

theorem after_last : (g.snoc t).after (g.ticks.length + 1) = t.point := by
  rw [after, last_snoc]
  rfl

theorem arrives_snoc {k : Nat} (hk : k < g.ticks.length) : (g.snoc t).Arrives k ↔ g.Arrives k := by
  rw [Arrives, ticks_snoc g t hk]
  rfl

theorem over_snoc {k : Nat} (hk : k ≤ g.ticks.length) : (g.snoc t).Over k ↔ g.Over k := by
  constructor
  · rintro ⟨j, hj, harr⟩
    exact ⟨j, hj, (g.arrives_snoc t (by omega)).mp harr⟩
  · rintro ⟨j, hj, harr⟩
    exact ⟨j, hj, (g.arrives_snoc t (by omega)).mpr harr⟩

theorem over_succ {k : Nat} : g.Over (k + 1) ↔ g.Over k ∨ g.Arrives k := by
  constructor
  · rintro ⟨j, hj, harr⟩
    rcases Nat.lt_succ_iff_lt_or_eq.mp hj with hlt | rfl
    · exact Or.inl ⟨j, hlt, harr⟩
    · exact Or.inr harr
  · rintro (⟨j, hj, harr⟩ | harr)
    · exact ⟨j, by omega, harr⟩
    · exact ⟨k, by omega, harr⟩

end Leg

/-- The component is where the leg has led to, and each call of the leg was one of the component. -/
structure OnLeg (m : MoveComponent ℝ) (g : Leg ℝ) : Prop where
  here : m.position = g.after g.ticks.length
  goal : m.destination = g.dest
  reported : m.arrivedNotified = true ↔ g.Over g.ticks.length
  lands : ∀ k t, g.ticks[k]? = some t → Lands g.dest (g.after k) (g.Over k) t

/-- `SetDestination` begins a leg. -/
theorem OnLeg.setDestination (m : MoveComponent ℝ) (x y z : ℝ) :
    OnLeg (m.setDestination x y z) ⟨m.currentX, m.currentZ, x, z, []⟩ where
  here := rfl
  goal := rfl
  reported := by
    constructor
    · intro h
      cases h
    · rintro ⟨j, hj, -⟩
      cases hj
  lands k t h := by cases h

/-- `OnFixedUpdate` goes on with it. -/
theorem OnLeg.onFixedUpdate {m : MoveComponent ℝ} {g : Leg ℝ} (L : OnLeg m g) :
    OnLeg (m.onFixedUpdate Real.sqrt).1
      (g.snoc ⟨m.moveSpeed, (m.onFixedUpdate Real.sqrt).1.currentX, (m.onFixedUpdate Real.sqrt).1.currentZ,
        (m.onFixedUpdate Real.sqrt).2⟩) := by
  obtain ⟨t, ht⟩ : ∃ t : Tick ℝ, t = ⟨m.moveSpeed, (m.onFixedUpdate Real.sqrt).1.currentX,
      (m.onFixedUpdate Real.sqrt).1.currentZ, (m.onFixedUpdate Real.sqrt).2⟩ := ⟨_, rfl⟩
  have hlands : Lands g.dest (g.after g.ticks.length) (g.Over g.ticks.length) t := by
    have h := lands_onFixedUpdate m
    rw [L.here, L.goal, propext L.reported, ← ht] at h
    exact h
  have hlength : (g.snoc t).ticks.length = g.ticks.length + 1 := List.length_append
  have harrives : (g.snoc t).Arrives g.ticks.length ↔ (m.onFixedUpdate Real.sqrt).2 = true := by
    rw [Leg.Arrives, g.last_snoc t, ht]
    constructor
    · rintro ⟨_, hsome, harr⟩
      rw [← Option.some.inj hsome] at harr
      exact harr
    · intro harr
      exact ⟨_, rfl, harr⟩
  rw [← ht]
  refine
    { here := ?_
      goal := m.onFixedUpdate_destination.trans L.goal
      reported := ?_
      lands := ?_ }
  · rw [hlength, g.after_last t, ht]
    rfl
  · rw [hlength, Leg.over_succ, g.over_snoc t (Nat.le_refl _), harrives, ← L.reported,
      m.onFixedUpdate_arrivedNotified, Bool.or_eq_true]
  · intro k t' hk
    rcases Nat.lt_trichotomy k g.ticks.length with hlt | rfl | hgt
    · rw [g.ticks_snoc t hlt] at hk
      rw [g.after_snoc t hlt.le, propext (g.over_snoc t hlt.le)]
      exact L.lands k t' hk
    · rw [g.last_snoc t] at hk
      rw [g.after_snoc t (Nat.le_refl _), propext (g.over_snoc t (Nat.le_refl _)), ← Option.some.inj hk]
      exact hlands
    · rw [List.getElem?_eq_none (by omega)] at hk
      cases hk

theorem onLeg_step {w w' : World ℝ} {c : Call ℝ} (L : ∀ g, w.leg = some g → OnLeg w.move g)
    (h : step Real.sqrt w c = some w') : ∀ g, w'.leg = some g → OnLeg w'.move g := by
  intro g hg
  cases c with
  | setPosition x y z =>
    obtain rfl := Option.some.inj h
    cases hg
  | setDestination x y z =>
    obtain rfl := Option.some.inj h
    obtain rfl := Option.some.inj hg
    exact OnLeg.setDestination w.move x y z
  | setMoveSpeed speed =>
    obtain rfl := Option.some.inj h
    obtain ⟨hhere, hgoal, hover, hlands⟩ := L g hg
    exact ⟨hhere, hgoal, hover, hlands⟩
  | onFixedUpdate =>
    obtain rfl := Option.some.inj h
    obtain ⟨g, hleg, rfl⟩ := Option.map_eq_some_iff.mp hg
    exact (L g hleg).onFixedUpdate
  | handlerReturns =>
    rw [step] at h
    split at h
    · cases h
    · obtain rfl := Option.some.inj h
      exact L g hg

theorem onLeg_of_reachable {w : World ℝ} (h : Reachable (movement Real.sqrt) w) :
    ∀ g, w.leg = some g → OnLeg w.move g := by
  refine h.invariant (I := fun w => ∀ g, w.leg = some g → OnLeg w.move g) ?_ ?_
  · rintro w ⟨speed, rfl⟩ g hg
    cases hg
  · rintro w w' _ L ⟨c, hc⟩
    exact onLeg_step L hc

/-! ## What a leg is like -/

namespace OnLeg

variable {m : MoveComponent ℝ} {g : Leg ℝ}

/-- Call number `k + 1`. -/
theorem call (L : OnLeg m g) {k : Nat} (hk : k < g.ticks.length) :
    ∃ t, t ∈ g.ticks ∧ g.after (k + 1) = t.point ∧ (g.Arrives k ↔ t.arrived = true) ∧
      Lands g.dest (g.after k) (g.Over k) t := by
  have hget : g.ticks[k]? = some g.ticks[k] := List.getElem?_eq_getElem hk
  refine ⟨g.ticks[k], List.getElem_mem hk, ?_, ?_, L.lands k _ hget⟩
  · rw [Leg.after, hget]
    rfl
  · rw [Leg.Arrives, hget]
    constructor
    · rintro ⟨t, hsome, harr⟩
      rw [Option.some.inj hsome]
      exact harr
    · intro harr
      exact ⟨_, rfl, harr⟩

/-- After the arrival nothing happens any more. -/
theorem rests (L : OnLeg m g) {k : Nat} (hk : k < g.ticks.length) (hover : g.Over k) :
    g.after (k + 1) = g.after k ∧ ¬ g.Arrives k := by
  obtain ⟨t, -, hafter, harr, hlands⟩ := L.call hk
  obtain ⟨hpoint, hno⟩ := hlands.rests hover
  rw [harr, hno]
  exact ⟨hafter.trans hpoint, Bool.false_ne_true⟩

/-- A condition that tells the arrivals as long as there has been none tells the one arrival there is. -/
theorem arrives_iff_first (L : OnLeg m g) {P : Nat → Prop}
    (hP : ∀ k, k < g.ticks.length → ¬ g.Over k → (g.Arrives k ↔ P k)) {k : Nat}
    (hk : k < g.ticks.length) : g.Arrives k ↔ P k ∧ ∀ j, j < k → ¬ P j := by
  have hclear : ∀ k, k ≤ g.ticks.length → (¬ g.Over k ↔ ∀ j, j < k → ¬ P j) := by
    intro k
    induction k with
    | zero =>
      intro _
      constructor
      · intro _ j hj
        cases hj
      · rintro - ⟨j, hj, -⟩
        cases hj
    | succ k ih =>
      intro hk
      rw [Leg.over_succ, not_or]
      constructor
      · rintro ⟨hover, hno⟩ j hj
        rcases Nat.lt_succ_iff_lt_or_eq.mp hj with hlt | rfl
        · exact (ih (by omega)).mp hover j hlt
        · exact fun h => hno ((hP j hk hover).mpr h)
      · intro hall
        have hover : ¬ g.Over k := (ih (by omega)).mpr fun j hj => hall j (by omega)
        exact ⟨hover, fun harr => hall k (by omega) ((hP k hk hover).mp harr)⟩
  constructor
  · intro harr
    have hover : ¬ g.Over k := fun hover => (L.rests hk hover).2 harr
    exact ⟨(hP k hk hover).mp harr, (hclear k hk.le).mp hover⟩
  · rintro ⟨hPk, hall⟩
    exact (hP k hk ((hclear k hk.le).mpr hall)).mpr hPk

/-- As long as there has been no arrival, the next call arrives if it ends close to the destination. -/
theorem arrives_iff_close (L : OnLeg m g) {k : Nat} (hk : k < g.ticks.length) (hover : ¬ g.Over k) :
    g.Arrives k ↔ dist (g.after (k + 1)) g.dest < 0.1 := by
  obtain ⟨t, -, hafter, harr, hlands⟩ := L.call hk
  rw [harr, hafter]
  exact hlands.arrives hover

variable {s : ℝ}

/-- Before the arrival each call is a step towards the destination. -/
theorem after_eq_iterate (L : OnLeg m g) (hspeed : ∀ t, t ∈ g.ticks → t.speed = s) {k : Nat}
    (hk : k ≤ g.ticks.length) (hover : ¬ g.Over k) : g.after k = (toward s g.dest)^[k] g.start := by
  induction k with
  | zero => rfl
  | succ k ih =>
    rw [Leg.over_succ, not_or] at hover
    obtain ⟨t, hmem, hafter, -, hlands⟩ := L.call hk
    have hno := mt (L.arrives_iff_close hk hover.1).mpr hover.2
    have hfar : 0.1 ≤ dist (g.after k) g.dest := by
      by_contra hnear
      have hstay := hlands.near hover.1 (not_le.mp hnear)
      rw [hafter, hstay] at hno
      exact hno (not_le.mp hnear)
    rw [Function.iterate_succ_apply', ← ih (by omega) hover.1, ← hspeed t hmem, hafter]
    exact hlands.far hover.1 hfar

theorem dist_after (L : OnLeg m g) (hs : 0 ≤ s) (hspeed : ∀ t, t ∈ g.ticks → t.speed = s) {k : Nat}
    (hk : k ≤ g.ticks.length) (hover : ¬ g.Over k) :
    dist (g.after k) g.dest = max 0 (dist g.start g.dest - k * s) := by
  rw [L.after_eq_iterate hspeed hk hover]
  exact dist_iterate_toward hs k

/-- The call that arrives is the first one for which the distance law says that the distance is small. -/
theorem close_iff_law (L : OnLeg m g) (hs : 0 ≤ s) (hspeed : ∀ t, t ∈ g.ticks → t.speed = s) {k : Nat}
    (hk : k < g.ticks.length) (hover : ¬ g.Over k) : dist (g.after (k + 1)) g.dest < 0.1 ↔
      max 0 (dist g.start g.dest - (k + 1 : Nat) * s) < 0.1 := by
  obtain ⟨t, hmem, hafter, -, hlands⟩ := L.call hk
  have hdist := L.dist_after hs hspeed hk.le hover
  rcases lt_or_ge (dist (g.after k) g.dest) 0.1 with hnear | hfar
  · -- the call does not move: both distances are small
    have hlaw : max 0 (dist g.start g.dest - (k + 1 : Nat) * s) ≤ dist (g.after k) g.dest := by
      rw [hdist, Nat.cast_succ, add_mul, one_mul]
      exact max_le_max (le_refl 0) (by linarith)
    rw [hafter, hlands.near hover hnear]
    exact ⟨fun _ => lt_of_le_of_lt hlaw hnear, fun _ => hnear⟩
  · rw [hafter, hlands.far hover hfar, hspeed t hmem, L.after_eq_iterate hspeed hk.le hover,
      ← Function.iterate_succ_apply' (toward s g.dest), dist_iterate_toward hs]

/-- The position stays what it is when `OnArrived` is raised. -/
theorem stays (L : OnLeg m g) {j k : Nat} (hjk : j ≤ k) (hk : k < g.ticks.length) (harr : g.Arrives j) :
    g.after (k + 1) = g.after (j + 1) := by
  induction k with
  | zero => rw [Nat.le_zero.mp hjk]
  | succ k ih =>
    rcases Nat.le_succ_iff.mp hjk with hle | rfl
    · rw [(L.rests hk ⟨j, by omega, harr⟩).1]
      exact ih hle (by omega)
    · rfl

end OnLeg

/-- A leg at the speed `s`, for a component at `m`. -/
structure Travel (s : ℝ) (m : MoveComponent ℝ) (g : Leg ℝ) : Prop where
  current : m.position = g.after g.ticks.length
  remaining : ∀ k, k ≤ g.ticks.length → (∀ j, j < k → ¬ g.Arrives j) →
    g.after k ∈ segment ℝ g.start g.dest ∧
      dist (g.after k) g.dest = max 0 (dist g.start g.dest - k * s)
  arrival : ∀ k, k < g.ticks.length → (g.Arrives k ↔
    dist (g.after (k + 1)) g.dest < 0.1 ∧ ∀ j, j < k → ¬ dist (g.after (j + 1)) g.dest < 0.1)
  arrival_law : ∀ k, k < g.ticks.length → (g.Arrives k ↔
    max 0 (dist g.start g.dest - (k + 1 : Nat) * s) < 0.1 ∧
      ∀ j, j < k → ¬ max 0 (dist g.start g.dest - (j + 1 : Nat) * s) < 0.1)
  stays : ∀ j k, j ≤ k → k < g.ticks.length → g.Arrives j → g.after (k + 1) = g.after (j + 1)

theorem OnLeg.travel {m : MoveComponent ℝ} {g : Leg ℝ} {s : ℝ} (L : OnLeg m g) (hs : 0 ≤ s)
    (hspeed : ∀ t, t ∈ g.ticks → t.speed = s) : Travel s m g where
  current := L.here
  remaining k hk hno := by
    have hover : ¬ g.Over k := fun ⟨j, hj, harr⟩ => hno j hj harr
    refine ⟨?_, L.dist_after hs hspeed hk hover⟩
    rw [L.after_eq_iterate hspeed hk hover]
    exact iterate_toward_mem_segment hs k
  arrival k hk := L.arrives_iff_first (fun k hk hover => L.arrives_iff_close hk hover) hk
  arrival_law k hk := by
    refine L.arrives_iff_first (P := fun k => max 0 (dist g.start g.dest - (k + 1 : Nat) * s) < 0.1) ?_ hk
    intro k hk hover
    rw [L.arrives_iff_close hk hover, L.close_iff_law hs hspeed hk hover]
  stays j k hjk hk harr := L.stays hjk hk harr

/-- **Movement and arrival.**  In every run, whatever the handlers call: on a leg at a constant speed the
    component comes nearer by that speed with each call, on the segment to the destination; `OnArrived` is
    raised in the first call that ends close to it, and then it stays there.  There is at most one arrival
    for each `SetDestination`. -/
theorem movement_and_arrival {w : World ℝ} (h : Reachable (movement Real.sqrt) w) :
    (∀ g, w.leg = some g → ∀ s, 0 ≤ s → (∀ t, t ∈ g.ticks → t.speed = s) → Travel s w.move g) ∧
      Heralded .destination .arrived w.log ∧ Separated .destination .arrived w.log := by
  have A := announced_of_reachable Real.sqrt h
  refine ⟨fun g hg s hs hspeed => ?_, A.heralded, A.separated⟩
  exact (onLeg_of_reachable h g hg).travel hs hspeed

/-- At the speed 5 one call goes from the origin to (3, 4), and arrives. -/
theorem movement_and_arrival_345 : ∃ w g, Reachable (movement Real.sqrt) w ∧ w.leg = some g ∧
    Travel 5 w.move g ∧ dist g.start g.dest = 5 ∧ g.Arrives 0 := by
  obtain ⟨w, hw⟩ : ∃ w, exec (step Real.sqrt) [.setDestination 3 0 4, .onFixedUpdate]
      ({ move := .new 5 } : World ℝ) = some w := ⟨_, rfl⟩
  have hstep : ∀ w c w', step Real.sqrt w c = some w' → (movement Real.sqrt).next w w' :=
    fun _ c _ hc => ⟨c, hc⟩
  have hreach : Reachable (movement Real.sqrt) w := reachable_of_exec hstep _ (.start ⟨5, rfl⟩) hw
  obtain ⟨g, t, hleg, hg, ht⟩ : ∃ g t, w.leg = some g ∧ g = ⟨0.0, 0.0, 3, 4, [t]⟩ ∧ t.speed = 5 := by
    rw [← Option.some.inj hw]
    exact ⟨_, _, rfl, rfl, rfl⟩
  have htravel : Travel 5 w.move g := by
    refine (movement_and_arrival hreach).1 g hleg 5 (by norm_num) ?_
    intro t' ht'
    rw [hg] at ht'
    rw [List.mem_singleton.mp ht', ht]
  have hdist : dist g.start g.dest = 5 := by
    rw [hg, Complex.dist_eq_re_im]
    show √(((0.0 : ℝ) - 3) ^ 2 + ((0.0 : ℝ) - 4) ^ 2) = 5
    rw [show ((0.0 : ℝ) - 3) ^ 2 + ((0.0 : ℝ) - 4) ^ 2 = 5 ^ 2 by norm_num]
    exact Real.sqrt_sq (by norm_num)
  have hone : 0 < g.ticks.length := by
    rw [hg]
    exact Nat.one_pos
  refine ⟨w, g, hreach, hleg, htravel, hdist, (htravel.arrival_law 0 hone).mpr ⟨?_, fun j hj => by cases hj⟩⟩
  rw [hdist]
  norm_num

end JunCore.GameServer.Movement
