/-
  `JunCore/logic/GameThread.h`, `GameThread.cpp`: the frames of a `GameThread`, at a fixed time step.

  Each frame adds its duration to `m_fixedTimeAccum` and then, as long as that is at least
  `m_fixedTimeStep`, runs `FixedUpdate` of all scenes and takes a step off it; `Update` comes once for each
  frame.  Durations are rational numbers here, so that nothing is lost by rounding.

  The inner loop has fuel: `none` means that it does not come to its end with so much.  With a step that is
  positive it does, with enough fuel, and it has then run as often as the step goes into the time that has
  passed.  `SetFixedTimeStep` takes any number, and with a step that is not positive the first frame never
  ends.
-/
import Mathlib.Algebra.Order.Archimedean.Basic
import Mathlib.Data.Rat.Floor
import Mathlib.Tactic.Linarith

set_option linter.unusedVariables false

namespace JunCore.Logic

/-! ## The thread -/

/-- What the thread does for its scenes `S`, its queue and itself. -/
inductive FrameCall (S : Type)
  | processJobObjects
  | fixedUpdate (scene : S)
  | update (scene : S)
  | sleepFor (time : ℚ)

/-- The thread's own values of `Time`. -/
structure Time where
  deltaTime : ℚ := 0
  fixedDeltaTime : ℚ := 1 / 50
  time : ℚ := 0
  frameCount : Int32 := 0

/-- `calls` is what the thread has done so far, and `rounds` the number of times its `FixedUpdate` loop was
    entered; no function reads them. -/
structure GameThread (S : Type) where
  scenes : List S := []
  fixedTimeAccum : ℚ := 0
  fixedTimeStep : ℚ := 1 / 50
  clock : Time := {}
  calls : List (FrameCall S) := []
  rounds : Nat := 0

namespace GameThread

variable {S : Type}

def setFixedTimeStep (g : GameThread S) (timeStep : ℚ) : GameThread S := { g with fixedTimeStep := timeStep }

/-- The body of the `FixedUpdate` loop. -/
def fixedUpdate (g : GameThread S) : GameThread S :=
  { g with
    calls := g.calls ++ g.scenes.map .fixedUpdate
    fixedTimeAccum := g.fixedTimeAccum - g.fixedTimeStep
    rounds := g.rounds + 1 }

/-- `while (m_fixedTimeAccum >= m_fixedTimeStep)` -/
def fixedUpdates : Nat → GameThread S → Option (GameThread S)
  | 0, _ => none
  | fuel + 1, g => if g.fixedTimeAccum ≥ g.fixedTimeStep then fixedUpdates fuel g.fixedUpdate else some g

/-- `Run`, before its loop. -/
def beginRun (g : GameThread S) : GameThread S :=
  { g with clock := { deltaTime := 0, fixedDeltaTime := g.fixedTimeStep, time := 0, frameCount := 0 } }

/-- A frame up to the `FixedUpdate` loop, for the time `dt` since the last one. -/
def beginFrame (g : GameThread S) (dt : ℚ) : GameThread S :=
  { g with
    clock :=
      { deltaTime := dt
        fixedDeltaTime := g.fixedTimeStep
        time := g.clock.time + dt
        frameCount := g.clock.frameCount + 1 }
    fixedTimeAccum := g.fixedTimeAccum + dt
    calls := g.calls ++ [.processJobObjects] }

/-- `TARGET_FRAME_TIME`, 60 frames a second. -/
def targetFrameTime : ℚ := 1666 / 100000

/-- A frame from the `FixedUpdate` loop on. -/
def endFrame (g : GameThread S) (dt : ℚ) : GameThread S :=
  { g with
    calls := g.calls ++ g.scenes.map .update ++
      if targetFrameTime - dt > 0 then [.sleepFor (targetFrameTime - dt)] else [] }

/-- One pass of the loop in `Run`. -/
def frame (fuel : Nat) (g : GameThread S) (dt : ℚ) : Option (GameThread S) :=
  (fixedUpdates fuel (g.beginFrame dt)).map fun g => g.endFrame dt

/-- The passes of that loop, of these durations. -/
def frames (fuel : Nat) (g : GameThread S) (ds : List ℚ) : Option (GameThread S) :=
  ds.foldlM (frame fuel) g

/-- The scene whose `FixedUpdate` is called. -/
def fixedScene : FrameCall S → Option S
  | .fixedUpdate scene => some scene
  | _ => none

/-- The scene whose `Update` is called. -/
def updatedScene : FrameCall S → Option S
  | .update scene => some scene
  | _ => none

/-! ## The `FixedUpdate` loop -/

/-- More fuel does no harm. -/
theorem fixedUpdates_mono {n m : Nat} {g g' : GameThread S} (h : fixedUpdates n g = some g') (hnm : n ≤ m) :
    fixedUpdates m g = some g' := by
  induction n generalizing g m with
  | zero => cases h
  | succ n ih =>
    obtain ⟨m, rfl⟩ := Nat.exists_eq_add_of_le' (Nat.lt_of_lt_of_le (Nat.zero_lt_succ n) hnm)
    rw [fixedUpdates] at h ⊢
    split at h
    · rename_i hge
      rw [if_pos hge]
      exact ih h (by omega)
    · rename_i hlt
      rw [if_neg hlt]
      exact h

/-- With a positive step the loop ends. -/
theorem fixedUpdates_ends {n : Nat} {g : GameThread S} (hstep : 0 < g.fixedTimeStep)
    (h : g.fixedTimeAccum < n * g.fixedTimeStep) : ∃ g', fixedUpdates (n + 1) g = some g' := by
  induction n generalizing g with
  | zero =>
    rw [Nat.cast_zero, zero_mul] at h
    rw [fixedUpdates, if_neg (by linarith)]
    exact ⟨g, rfl⟩
  | succ n ih =>
    rw [fixedUpdates]
    split
    · refine ih (g := g.fixedUpdate) hstep ?_
      show g.fixedTimeAccum - g.fixedTimeStep < n * g.fixedTimeStep
      rw [Nat.cast_succ, add_mul, one_mul] at h
      linarith
    · exact ⟨g, rfl⟩

/-- With a step that is not positive it does not: what there is to take off gets no less. -/
theorem fixedUpdates_never {g : GameThread S} (hstep : g.fixedTimeStep ≤ 0) (haccum : 0 ≤ g.fixedTimeAccum)
    (n : Nat) : fixedUpdates n g = none := by
  induction n generalizing g with
  | zero => rfl
  | succ n ih =>
    rw [fixedUpdates, if_pos (by linarith)]
    refine ih (g := g.fixedUpdate) hstep ?_
    show 0 ≤ g.fixedTimeAccum - g.fixedTimeStep
    linarith

/-! ## The time is shared out -/

/-- Of the time that has passed, what was not taken off by the rounds is left over. -/
structure Balanced (total : ℚ) (g : GameThread S) : Prop where
  nonneg : 0 ≤ g.fixedTimeAccum
  balance : g.rounds * g.fixedTimeStep + g.fixedTimeAccum = total

theorem Balanced.fixedUpdate {total : ℚ} {g : GameThread S} (B : Balanced total g)
    (h : g.fixedTimeStep ≤ g.fixedTimeAccum) : Balanced total g.fixedUpdate where
  nonneg := by
    show 0 ≤ g.fixedTimeAccum - g.fixedTimeStep
    linarith
  balance := by
    show ((g.rounds + 1 : Nat) : ℚ) * g.fixedTimeStep + (g.fixedTimeAccum - g.fixedTimeStep) = total
    rw [Nat.cast_succ, add_mul, one_mul, ← B.balance]
    ring

/-- The loop keeps the balance, and ends with less than a step. -/
theorem Balanced.fixedUpdates {total : ℚ} {n : Nat} {g g' : GameThread S} (B : Balanced total g)
    (h : fixedUpdates n g = some g') :
    Balanced total g' ∧ g'.fixedTimeAccum < g'.fixedTimeStep ∧ g'.fixedTimeStep = g.fixedTimeStep := by
  induction n generalizing g with
  | zero => cases h
  | succ n ih =>
    rw [GameThread.fixedUpdates] at h
    split at h
    · rename_i hge
      exact ih (g := g.fixedUpdate) (B.fixedUpdate hge) h
    · rename_i hlt
      obtain rfl := Option.some.inj h
      exact ⟨B, not_le.mp hlt, rfl⟩

theorem Balanced.beginFrame {total dt : ℚ} {g : GameThread S} (B : Balanced total g) (hdt : 0 ≤ dt) :
    Balanced (total + dt) (g.beginFrame dt) where
  nonneg := add_nonneg B.nonneg hdt
  balance := by
    show g.rounds * g.fixedTimeStep + (g.fixedTimeAccum + dt) = total + dt
    rw [← B.balance]
    ring

/-- The number of rounds is the quotient, and what is left over is the remainder. -/
theorem Balanced.rounds_eq {total : ℚ} {g : GameThread S} (B : Balanced total g)
    (hlt : g.fixedTimeAccum < g.fixedTimeStep) : (g.rounds : ℤ) = ⌊total / g.fixedTimeStep⌋ := by
  have hstep : 0 < g.fixedTimeStep := lt_of_le_of_lt B.nonneg hlt
  have hle := B.nonneg
  have hbal := B.balance
  symm
  rw [Int.floor_eq_iff, le_div_iff₀ hstep, div_lt_iff₀ hstep, add_mul, one_mul, Int.cast_natCast]
  constructor
  · linarith
  · linarith

/-- The thread between two frames, when this much time has passed. -/
structure Paced (step total : ℚ) (g : GameThread S) : Prop where
  step_eq : g.fixedTimeStep = step
  balanced : Balanced total g
  lt_step : g.fixedTimeAccum < g.fixedTimeStep

/-- A frame ends, and the thread is between two frames again. -/
theorem Paced.frame {step total dt : ℚ} {g : GameThread S} (P : Paced step total g) (hstep : 0 < step)
    (hdt : 0 ≤ dt) : ∃ fuel g', (∀ n, fuel ≤ n → frame n g dt = some g') ∧ Paced step (total + dt) g' := by
  have hpos : 0 < (g.beginFrame dt).fixedTimeStep := by
    show 0 < g.fixedTimeStep
    rw [P.step_eq]
    exact hstep
  obtain ⟨n, hn⟩ := exists_nat_gt ((g.beginFrame dt).fixedTimeAccum / (g.beginFrame dt).fixedTimeStep)
  obtain ⟨g₁, hg₁⟩ := fixedUpdates_ends hpos ((div_lt_iff₀ hpos).mp hn)
  obtain ⟨B, hlt, hsame⟩ := (P.balanced.beginFrame hdt).fixedUpdates hg₁
  refine ⟨n + 1, g₁.endFrame dt, fun m hm => ?_, hsame.trans P.step_eq, ⟨B.nonneg, B.balance⟩, hlt⟩
  rw [GameThread.frame, fixedUpdates_mono hg₁ hm]
  rfl

/-- So do any number of frames. -/
theorem Paced.frames {step : ℚ} (hstep : 0 < step) (ds : List ℚ) (hds : ∀ d, d ∈ ds → 0 ≤ d) {total : ℚ}
    {g : GameThread S} (P : Paced step total g) :
    ∃ fuel g', (∀ n, fuel ≤ n → frames n g ds = some g') ∧ Paced step (total + ds.sum) g' := by
  induction ds generalizing total g with
  | nil => exact ⟨0, g, fun _ _ => rfl, by rwa [List.sum_nil, add_zero]⟩
  | cons d ds ih =>
    obtain ⟨n₁, g₁, h₁, P₁⟩ := P.frame hstep (hds d List.mem_cons_self)
    obtain ⟨n₂, g₂, h₂, P₂⟩ := ih (fun d hd => hds d (List.mem_cons_of_mem _ hd)) P₁
    refine ⟨max n₁ n₂, g₂, fun n hn => ?_, by rwa [List.sum_cons, ← add_assoc]⟩
    rw [GameThread.frames, List.foldlM_cons, h₁ n (le_trans (le_max_left _ _) hn)]
    exact h₂ n (le_trans (le_max_right _ _) hn)

/-! ## Which steps are good -/

/-- A thread that begins to run, with a step that was set. -/
def started (scenes : List S) (step : ℚ) : GameThread S :=
  (({ scenes := scenes } : GameThread S).setFixedTimeStep step).beginRun

/-- After every frame the loop has ended, less than a step is left over, and the number of rounds is the
    quotient. -/
def KeepsPace (scenes : List S) (step : ℚ) (ds : List ℚ) : Prop :=
  ∀ front, front <+: ds → front ≠ [] → ∃ fuel g, frames fuel (started scenes step) front = some g ∧
    0 ≤ g.fixedTimeAccum ∧ g.fixedTimeAccum < step ∧ (g.rounds : ℤ) = ⌊front.sum / step⌋

/-- A step that is not positive keeps the first frame from ending. -/
theorem first_frame_never {scenes : List S} {step d : ℚ} (hstep : step ≤ 0) (hd : 0 ≤ d) (fuel : Nat)
    (ds : List ℚ) : frames fuel (started scenes step) (d :: ds) = none := by
  have hnever : fixedUpdates fuel ((started scenes step).beginFrame d) = none := by
    refine fixedUpdates_never hstep ?_ fuel
    show 0 ≤ 0 + d
    linarith
  rw [frames, List.foldlM_cons, frame, hnever]
  rfl

/-- **The fixed step.**  The loop of a thread keeps pace exactly if its step is positive (or no frame comes). -/
theorem keepsPace_iff (scenes : List S) (step : ℚ) (ds : List ℚ) (hds : ∀ d, d ∈ ds → 0 ≤ d) :
    KeepsPace scenes step ds ↔ 0 < step ∨ ds = [] := by
  constructor
  · intro h
    by_contra hno
    rw [not_or, not_lt] at hno
    cases ds with
    | nil => exact hno.2 rfl
    | cons d ds =>
      obtain ⟨fuel, g, hg, -⟩ := h (d :: ds) (List.prefix_refl _) (List.cons_ne_nil _ _)
      rw [first_frame_never hno.1 (hds d List.mem_cons_self)] at hg
      cases hg
  · rintro (hstep | rfl)
    · intro front hfront _
      have P : Paced step 0 (started scenes step) :=
        ⟨rfl, ⟨le_refl _, by show ((0 : Nat) : ℚ) * step + 0 = 0; simp⟩, hstep⟩
      obtain ⟨fuel, g, hg, P'⟩ := P.frames hstep front fun d hd => hds d (hfront.subset hd)
      rw [zero_add] at P'
      have hlt := P'.lt_step
      have hrounds := P'.balanced.rounds_eq hlt
      rw [P'.step_eq] at hlt hrounds
      exact ⟨fuel, g, hg fuel (le_refl _), P'.balanced.nonneg, hlt, hrounds⟩
    · intro front hfront hne
      exact absurd (List.prefix_nil.mp hfront) hne

/-- Even a single frame does not end if the step is 0. -/
theorem zero_step_hangs : ¬ ∀ (scenes : List Unit) (step : ℚ) (ds : List ℚ), (∀ d, d ∈ ds → 0 ≤ d) →
    KeepsPace scenes step ds := by
  intro h
  have hframe : (0 : ℚ) ≤ 1 / 60 := by norm_num
  have hall : ∀ d, d ∈ [(1 : ℚ) / 60] → 0 ≤ d := fun d hd => by rwa [List.mem_singleton.mp hd]
  obtain ⟨fuel, g, hg, -⟩ := h [()] 0 [1 / 60] hall [1 / 60] (List.prefix_refl _) (List.cons_ne_nil _ _)
  rw [first_frame_never (le_refl 0) hframe] at hg
  cases hg

/-- At the default of 50 rounds a second, two frames at 60 a second. -/
theorem keepsPace_default : KeepsPace [()] (1 / 50) [1 / 60, 1 / 60] := by
  refine (keepsPace_iff [()] (1 / 50) [1 / 60, 1 / 60] fun d hd => ?_).mpr (Or.inl (by norm_num))
  rw [List.eq_of_mem_replicate (n := 2) hd]
  norm_num

/-! ## What the scenes see -/

/-- The calls of the scenes: `Update` once for each frame, `FixedUpdate` once for each round. -/
structure Calls (g g' : GameThread S) (frames : Nat) : Prop where
  scenes_eq : g'.scenes = g.scenes
  updates : g'.calls.filterMap updatedScene =
    g.calls.filterMap updatedScene ++ (List.replicate frames g.scenes).flatten
  fixed : ∃ k, g'.rounds = g.rounds + k ∧ g'.calls.filterMap fixedScene =
    g.calls.filterMap fixedScene ++ (List.replicate k g.scenes).flatten

namespace Calls

theorem refl (g : GameThread S) : Calls g g 0 where
  scenes_eq := rfl
  updates := (List.append_nil _).symm
  fixed := ⟨0, rfl, (List.append_nil _).symm⟩

theorem trans {g₁ g₂ g₃ : GameThread S} {n m : Nat} (h : Calls g₁ g₂ n) (h' : Calls g₂ g₃ m) :
    Calls g₁ g₃ (n + m) where
  scenes_eq := h'.scenes_eq.trans h.scenes_eq
  updates := by
    rw [h'.updates, h.updates, h.scenes_eq, List.append_assoc, ← List.flatten_append,
      List.replicate_append_replicate]
  fixed := by
    obtain ⟨k, hrounds, hfixed⟩ := h.fixed
    obtain ⟨k', hrounds', hfixed'⟩ := h'.fixed
    refine ⟨k + k', by rw [hrounds', hrounds, Nat.add_assoc], ?_⟩
    rw [hfixed', hfixed, h.scenes_eq, List.append_assoc, ← List.flatten_append,
      List.replicate_append_replicate]

theorem fixedUpdate (g : GameThread S) : Calls g g.fixedUpdate 0 where
  scenes_eq := rfl
  updates := by simp [GameThread.fixedUpdate, List.filterMap_map, Function.comp_def, updatedScene]
  fixed := ⟨1, rfl, by simp [GameThread.fixedUpdate, List.filterMap_map, Function.comp_def, fixedScene]⟩

theorem beginFrame (g : GameThread S) (dt : ℚ) : Calls g (g.beginFrame dt) 0 where
  scenes_eq := rfl
  updates := by simp [GameThread.beginFrame, updatedScene]
  fixed := ⟨0, rfl, by simp [GameThread.beginFrame, fixedScene]⟩

theorem endFrame (g : GameThread S) (dt : ℚ) : Calls g (g.endFrame dt) 1 where
  scenes_eq := rfl
  updates := by simp [GameThread.endFrame, List.filterMap_map, Function.comp_def, updatedScene]
  fixed := ⟨0, rfl, by simp [GameThread.endFrame, List.filterMap_map, Function.comp_def, fixedScene]⟩

theorem fixedUpdates {n : Nat} {g g' : GameThread S} (h : fixedUpdates n g = some g') : Calls g g' 0 := by
  induction n generalizing g with
  | zero => cases h
  | succ n ih =>
    rw [GameThread.fixedUpdates] at h
    split at h
    · exact (Calls.fixedUpdate g).trans (ih h)
    · obtain rfl := Option.some.inj h
      exact Calls.refl g

theorem frame {n : Nat} {g g' : GameThread S} {dt : ℚ} (h : frame n g dt = some g') : Calls g g' 1 := by
  obtain ⟨g₁, hloop, rfl⟩ := Option.map_eq_some_iff.mp h
  exact ((beginFrame g dt).trans (fixedUpdates hloop)).trans (endFrame g₁ dt)

end Calls

/-- In a run each frame updates each scene once, in their order, and each round its `FixedUpdate`. -/
theorem calls_frames {n : Nat} {ds : List ℚ} {g g' : GameThread S} (h : frames n g ds = some g') :
    Calls g g' ds.length := by
  induction ds generalizing g with
  | nil =>
    obtain rfl := Option.some.inj h
    exact Calls.refl g
  | cons d ds ih =>
    rw [frames, List.foldlM_cons] at h
    obtain ⟨g₁, hframe, hrest⟩ := Option.bind_eq_some_iff.mp h
    rw [List.length_cons, Nat.add_comm]
    exact (Calls.frame hframe).trans (ih hrest)

end GameThread

end JunCore.Logic
