/-
  Reading frames off a stream.

  A `Grammar` says how one frame is cut off the front of what has been received: not yet, never, or
  a frame and what is left.  Its three laws are what makes a decoder that is fed piece by piece
  agree with one that sees the whole stream: a frame uses something up, and neither a frame nor a
  bad start changes when more arrives.

  `read` cuts as long as it can.  The rule that carries everything is `read_append`: reading
  `s ++ t` is reading `s`, and then reading what that left, followed by `t`.

  A reader that uses each frame as it is cut off is described by what it has made so far and by what
  it has still to read (`Ahead`); its two steps keep that, more input and another frame.
-/
import Mathlib.Data.List.Basic

set_option linter.unusedVariables false

namespace Framing

variable {α F : Type*}

/-- What the front of a stream is. -/
inductive Cut (α F : Type*)
  /-- too little has arrived -/
  | short
  /-- whatever arrives, no frame will come of it -/
  | bad
  | frame (x : F) (rest : List α)

/-- How frames are cut off a stream. -/
structure Grammar (α F : Type*) where
  cut : List α → Cut α F
  shrinks : ∀ {s x rest}, cut s = .frame x rest → rest.length < s.length
  frame_append : ∀ {s x rest} t, cut s = .frame x rest → cut (s ++ t) = .frame x (rest ++ t)
  bad_append : ∀ {s} t, cut s = .bad → cut (s ++ t) = .bad

namespace Grammar

variable (G : Grammar α F)

/-- The frames at the front of `s`, and what is left behind the last of them. -/
def read (s : List α) : List F × List α :=
  match h : G.cut s with
  | .frame x rest => (x :: (read rest).1, (read rest).2)
  | _ => ([], s)
termination_by s.length
decreasing_by all_goals exact G.shrinks h

/-- The frames that are complete in `s`. -/
def frames (s : List α) : List F := (G.read s).1

/-- What of `s` belongs to no complete frame. -/
def leftover (s : List α) : List α := (G.read s).2

variable {G}

theorem read_frame {s rest : List α} {x : F} (h : G.cut s = .frame x rest) :
    G.frames s = x :: G.frames rest ∧ G.leftover s = G.leftover rest := by
  have hr : G.read s = (x :: (G.read rest).1, (G.read rest).2) := by
    rw [read]
    split
    · rename_i x' rest' heq
      rw [h] at heq; cases heq; rfl
    · rename_i hne
      exact absurd h (hne x rest)
  exact ⟨by rw [frames, hr]; rfl, by rw [leftover, hr]; rfl⟩

theorem read_stop {s : List α} (h : ∀ x rest, G.cut s ≠ .frame x rest) :
    G.frames s = [] ∧ G.leftover s = s := by
  have hr : G.read s = ([], s) := by
    rw [read]
    split
    · rename_i x rest heq
      exact absurd heq (h x rest)
    · rfl
  exact ⟨by rw [frames, hr], by rw [leftover, hr]⟩

/-- The rule of induction that follows the reader: a stream either stops it, or gives it a frame. -/
theorem read_induction {motive : List α → Prop}
    (stop : ∀ s, (∀ x rest, G.cut s ≠ .frame x rest) → motive s)
    (step : ∀ s x rest, G.cut s = .frame x rest → motive rest → motive s) (s : List α) :
    motive s := by
  induction hn : s.length using Nat.strongRecOn generalizing s with
  | ind n ih =>
    by_cases h : ∃ x rest, G.cut s = .frame x rest
    · obtain ⟨x, rest, h⟩ := h
      exact step s x rest h (ih rest.length (hn ▸ G.shrinks h) rest rfl)
    · exact stop s fun x rest hc => h ⟨x, rest, hc⟩

/-- **Reading in pieces.** -/
theorem read_append (s t : List α) : G.frames (s ++ t) = G.frames s ++ G.frames (G.leftover s ++ t) ∧
    G.leftover (s ++ t) = G.leftover (G.leftover s ++ t) := by
  induction s using G.read_induction with
  | stop s h => rw [(read_stop h).1, (read_stop h).2]; exact ⟨rfl, rfl⟩
  | step s x rest h ih =>
    obtain ⟨h₁, h₂⟩ := read_frame (G.frame_append t h)
    rw [h₁, h₂, (read_frame h).1, (read_frame h).2, ih.1, ih.2]
    exact ⟨rfl, rfl⟩

/-- A reader that got stuck for good gets no further. -/
theorem frames_of_bad {s : List α} (h : G.cut (G.leftover s) = .bad) (t : List α) :
    G.frames (s ++ t) = G.frames s := by
  have hbad := G.bad_append t h
  have hstop := read_stop (G := G) (s := G.leftover s ++ t) fun x rest hc => by
    rw [hbad] at hc; cases hc
  rw [(read_append s t).1, hstop.1, List.append_nil]

/-! ## Reading and using -/

section Ahead

variable {β : Type*} {f : F → Option β} {s rest : List α} {out : List β}

/-- More input only adds frames. -/
theorem frames_append (s t : List α) : G.frames s <+: G.frames (s ++ t) := by
  rw [(read_append s t).1]
  exact ⟨_, rfl⟩

/-- `out` is what `f` makes of the frames that were cut off the stream `s`, and `rest` is still to be
    read: whatever arrives behind `s`, the frames that come of it come of `rest`. -/
def Ahead (G : Grammar α F) (f : F → Option β) (s : List α) (out : List β) (rest : List α) : Prop :=
  ∀ t, (G.frames (s ++ t)).filterMap f = out ++ (G.frames (rest ++ t)).filterMap f

theorem Ahead.start (G : Grammar α F) (f : F → Option β) (s : List α) : G.Ahead f s [] s :=
  fun t => rfl

/-- More arrives. -/
theorem Ahead.arrive (A : G.Ahead f s out rest) (u : List α) :
    G.Ahead f (s ++ u) out (rest ++ u) := by
  intro t
  rw [List.append_assoc, List.append_assoc]
  exact A (u ++ t)

/-- A frame is cut off and used. -/
theorem Ahead.cut (A : G.Ahead f s out rest) {x : F} {rest' : List α}
    (h : G.cut rest = .frame x rest') : G.Ahead f s (out ++ (f x).toList) rest' := by
  intro t
  rw [A t, (read_frame (G.frame_append t h)).1, List.append_assoc]
  congr 1
  cases hx : f x with
  | none => rw [List.filterMap_cons_none hx]; rfl
  | some y => rw [List.filterMap_cons_some hx]; rfl

/-- Nothing was made that is not in the stream. -/
theorem Ahead.front (A : G.Ahead f s out rest) : out <+: (G.frames s).filterMap f := by
  have h := A []
  rw [List.append_nil] at h
  rw [h]
  exact ⟨_, rfl⟩

end Ahead

end Grammar

end Framing
