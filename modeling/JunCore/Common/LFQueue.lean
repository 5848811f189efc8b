/-
  `JunCommon/container/LFQueue.h`, taken as a FIFO with a lagging counter.

  The queue is used here at the level its clients rely on: linking a node at the tail and unlinking
  the node after the head are atomic, and `nodeCount` is a second atomic variable that moves at a
  moment of its own.  `Enqueue` links first and increments afterwards; `Dequeue` decrements first,
  gives up (and increments back) when the result is negative, and otherwise unlinks:

      Enqueue:  link ; InterlockedIncrement
      Dequeue:  InterlockedDecrement < 0  →  InterlockedIncrement ; return false
                otherwise                 →  unlink ; return true

  Each of these is a separate step for whoever runs it, so `GetUseCount` can lag behind the
  contents in both directions.  An atomic `Enqueue` or `Dequeue` is the special case in which the
  two steps of one call follow each other with nothing in between.
-/

set_option linter.unusedVariables false

namespace JunCore

/-- The chain after the head node, oldest first, and the counter beside it. -/
structure LFQueue (α : Type) where
  items : List α := []
  nodeCount : Int := 0

namespace LFQueue

variable {α : Type}

/-- The CAS of `Enqueue` that hangs a node behind the last one. -/
def link (q : LFQueue α) (x : α) : LFQueue α := { q with items := q.items ++ [x] }

/-- `InterlockedIncrement(&nodeCount)`. -/
def increment (q : LFQueue α) : LFQueue α := { q with nodeCount := q.nodeCount + 1 }

/-- `InterlockedDecrement(&nodeCount)`. -/
def decrement (q : LFQueue α) : LFQueue α := { q with nodeCount := q.nodeCount - 1 }

/-- The CAS of `Dequeue` that moves the head one node on. -/
def unlink (q : LFQueue α) : LFQueue α := { q with items := q.items.tail }

/-- `GetUseCount()`: the counter, not the length of the chain. -/
def getUseCount (q : LFQueue α) : Int := q.nodeCount

@[simp] theorem link_items (q : LFQueue α) (x : α) : (q.link x).items = q.items ++ [x] := rfl
@[simp] theorem link_nodeCount (q : LFQueue α) (x : α) : (q.link x).nodeCount = q.nodeCount := rfl
@[simp] theorem increment_items (q : LFQueue α) : q.increment.items = q.items := rfl
@[simp] theorem increment_nodeCount (q : LFQueue α) :
    q.increment.nodeCount = q.nodeCount + 1 := rfl
@[simp] theorem decrement_items (q : LFQueue α) : q.decrement.items = q.items := rfl
@[simp] theorem decrement_nodeCount (q : LFQueue α) :
    q.decrement.nodeCount = q.nodeCount - 1 := rfl
@[simp] theorem unlink_items (q : LFQueue α) : q.unlink.items = q.items.tail := rfl
@[simp] theorem unlink_nodeCount (q : LFQueue α) : q.unlink.nodeCount = q.nodeCount := rfl

end LFQueue

end JunCore
