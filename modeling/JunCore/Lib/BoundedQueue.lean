/-
  A bounded queue, and what it means to implement one.

  The queue is a list, oldest first, of at most `cap` elements.  It takes blocks: a block that does
  not fit is cut off, a request for more than there is gets what there is.  An implementation is a
  state type with a `perform` of its own; `run_refines` says that it is enough to compare a single
  operation: an abstraction function that every operation respects carries over to every sequence of
  operations, replies included.
-/
import Mathlib.Data.List.Basic

set_option linter.unusedVariables false

namespace BoundedQueue

variable {α S : Type*}

/-- The operations, with their arguments. -/
inductive Op (α : Type*)
  | enqueue (block : List α)
  | dequeue (n : Nat)
  | peek (n : Nat)
  | clear

/-- What an operation answers. -/
inductive Reply (α : Type*)
  | count (n : Nat)
  | block (l : List α)
  | done
  deriving DecidableEq

/-- **The specification**, operation by operation. -/
def perform (cap : Nat) (q : List α) : Op α → Reply α × List α
  | .enqueue l => (.count (min l.length (cap - q.length)), q ++ l.take (cap - q.length))
  | .dequeue n => (.block (q.take n), q.drop n)
  | .peek n => (.block (q.take n), q)
  | .clear => (.done, [])

/-- A sequence of operations: the replies, and the state at the end. -/
def run (perform : S → Op α → Reply α × S) : List (Op α) → S → List (Reply α) × S
  | [], s => ([], s)
  | op :: ops, s =>
    let r := run perform ops (perform s op).2
    ((perform s op).1 :: r.1, r.2)

/-- **The simulation rule.** -/
theorem run_refines {cap : Nat} {impl : S → Op α → Reply α × S} {abs : S → List α}
    (h : ∀ s op, (impl s op).1 = (perform cap (abs s) op).1 ∧
      abs (impl s op).2 = (perform cap (abs s) op).2) (ops : List (Op α)) (s : S) :
    (run impl ops s).1 = (run (perform cap) ops (abs s)).1 ∧
      abs (run impl ops s).2 = (run (perform cap) ops (abs s)).2 := by
  induction ops generalizing s with
  | nil => exact ⟨rfl, rfl⟩
  | cons op ops ih =>
    obtain ⟨hreply, hstate⟩ := h s op
    obtain ⟨hreplies, hend⟩ := ih (impl s op).2
    rw [hstate] at hreplies hend
    constructor
    · show (impl s op).1 :: _ = (perform cap (abs s) op).1 :: _
      rw [hreply, hreplies]
    · exact hend

end BoundedQueue
