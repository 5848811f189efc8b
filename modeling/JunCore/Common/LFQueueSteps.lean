/-
  `JunCommon/container/LFQueue.h` and `JunCommon/pool/LFObjectPool.h`, one memory operation at a
  time.

  `LFQueue.lean` takes linking and unlinking as atomic.  Here they are not: `Enqueue` and `Dequeue`,
  with the `Alloc` and `Free` of the node pool inside of them, are cut at every read, write, CAS and
  interlocked operation on shared memory, and any number of threads run them in any interleaving.

  A node is one block with two links in it: `next` is the link of the queue, `below` that of the free
  list of the pool.  Nodes go round, from the pool into the queue and back; none is ever given back
  to the system, so an address that was valid once stays valid.

  `headStamp`, `tailStamp` and `top_stamp_` are words of an address and 17 stamp bits.  `Stamped`
  keeps the number of increments; the word holds what is left of it modulo 2^17, and that is all a
  comparison sees (`Stamped.same`).  The link `next` has no stamp.

  For the history each call of `Enqueue` is given a number, and the value it puts in carries it
  (`Item`).  The log says which call was made, linked its node, or returned, which value was unlinked
  by the CAS on `headStamp` or returned by `Dequeue`, and when a node left the pool or came back.
-/
import JunCore.Lib.Transition
import Mathlib.Data.Fintype.Basic

set_option linter.unusedVariables false

namespace JunCore.LFQueueSteps

open Function Transition

/-! ## Memory -/

/-- An address (possibly null) with a stamp. -/
structure Stamped (P : Type) where
  count : Nat
  node : P

/-- What `==` and a CAS compare: the address and the 17 bits of the stamp. -/
def Stamped.same {P : Type} [DecidableEq P] (a b : Stamped P) : Bool :=
  a.count % 131072 == b.count % 131072 && decide (a.node = b.node)

/-- `((copy + kStampCount) & kStampMask) | p`. -/
def Stamped.move {P : Type} (copy : Stamped P) (p : P) : Stamped P := ⟨copy.count + 1, p⟩

/-- A value, and the number of the `Enqueue` call that brings it. -/
structure Item (α : Type) where
  id : Nat
  value : α
  deriving DecidableEq

/-- The queue, its pool, and the nodes created so far, at the addresses below `created`. -/
structure Mem (α : Type) where
  headStamp : Stamped Nat
  tailStamp : Stamped Nat
  nodeCount : BitVec 32
  /-- `LFQueue::Node::next` -/
  next : Nat → Option Nat
  /-- `LFQueue::Node::data` -/
  data : Nat → Item α
  topStamp : Stamped (Option Nat)
  useCount : BitVec 32
  capacity : BitVec 32
  /-- `LFObjectPool::Node::next` -/
  below : Nat → Option Nat
  created : Nat

/-- The constructors: one node, taken from the empty pool.  The rest of the memory is as it was. -/
def Mem.new {α : Type} (before : Mem α) : Mem α where
  headStamp := ⟨0, 0⟩
  tailStamp := ⟨0, 0⟩
  nodeCount := 0#32
  next := update before.next 0 none
  data := before.data
  topStamp := ⟨0, none⟩
  useCount := 1#32
  capacity := 1#32
  below := update before.below 0 none
  created := 1

/-! ## The procedures -/

/-- What the log keeps. -/
inductive Event (α : Type)
  /-- `Alloc` has taken a node from the pool, or created one -/
  | taken
  /-- `Enqueue` is called -/
  | called (x : Item α)
  /-- its CAS on `tailClean->next` succeeds -/
  | linked (x : Item α)
  /-- it returns -/
  | returned (x : Item α)
  /-- the CAS on `headStamp` succeeds with `dqData` being this -/
  | unlinked (x : Item α)
  /-- `Free` has put a node back into the pool -/
  | given
  /-- `Dequeue` returns true and this -/
  | dequeued (x : Item α)
  deriving DecidableEq

/-- Where a thread is: the operation it does next, with the local variables still needed.  `x` is
    the argument of `Enqueue`, or `dqData`; `p` is `enqueNode`; `top`, `tail` and `head` are the
    copies of the stamped words. -/
inductive Pc (α : Type)
  -- `Alloc`
  | loadTop (x : Item α)
  | loadBelow (x : Item α) (top : Stamped (Option Nat)) (p : Nat)
  | casTop (x : Item α) (top : Stamped (Option Nat)) (p : Nat) (below : Option Nat)
  | construct (x : Item α) (p : Nat)
  | countUse (x : Item α) (p : Nat)
  | growCapacity (x : Item α)
  | growUse (x : Item α)
  | create (x : Item α)
  -- `Enqueue`
  | storeData (x : Item α) (p : Nat)
  | loadTail (x : Item α) (p : Nat)
  | loadTailNext (x : Item α) (p : Nat) (tail : Stamped Nat)
  | casNext (x : Item α) (p : Nat) (tail : Stamped Nat)
  | countNode (x : Item α) (p : Nat) (tail : Stamped Nat)
  | casTail (x : Item α) (p : Nat) (tail : Stamped Nat)
  | helpTail (x : Item α) (p : Nat) (tail : Stamped Nat) (n : Nat)
  -- `Dequeue`
  | discountNode
  | recountNode
  | loadHead
  | compareTail (head : Stamped Nat)
  | loadLastNext (head tail : Stamped Nat)
  | pushTail (head tail : Stamped Nat) (n : Nat)
  | loadHeadNext (head : Stamped Nat)
  | loadData (head : Stamped Nat) (n : Nat)
  | casHead (head : Stamped Nat) (n : Nat) (x : Item α)
  -- `Free`
  | reloadTop (x : Item α) (h : Nat)
  | storeBelow (x : Item α) (h : Nat) (top : Stamped (Option Nat))
  | pushTop (x : Item α) (h : Nat) (top : Stamped (Option Nat))
  | discountUse (x : Item α)

/-- What one operation does: to the memory, to the thread (`none` is a return), to the log. -/
structure Outcome (α : Type) where
  mem : Mem α
  pc : Option (Pc α)
  event : Option (Event α)

/-- The CAS on `tailStamp`. -/
def Mem.moveTail {α : Type} (m : Mem α) (tail : Stamped Nat) (n : Nat) : Mem α :=
  if m.tailStamp.same tail then { m with tailStamp := tail.move n } else m

/-- One operation of a thread. -/
def Pc.run {α : Type} (m : Mem α) : Pc α → Outcome α
  | .loadTop x =>
    match m.topStamp.node with
    | some p => ⟨m, some (.loadBelow x m.topStamp p), none⟩
    | none => ⟨m, some (.growCapacity x), none⟩
  | .loadBelow x top p => ⟨m, some (.casTop x top p (m.below p)), none⟩
  | .casTop x top p below =>
    if m.topStamp.same top then
      ⟨{ m with topStamp := top.move below }, some (.construct x p), some .taken⟩
    else ⟨m, some (.loadTop x), none⟩
  -- `new (&topClean->object) T`: the constructor of `Node` clears `next`
  | .construct x p => ⟨{ m with next := update m.next p none }, some (.countUse x p), none⟩
  | .countUse x p => ⟨{ m with useCount := m.useCount + 1#32 }, some (.storeData x p), none⟩
  | .growCapacity x => ⟨{ m with capacity := m.capacity + 1#32 }, some (.growUse x), none⟩
  | .growUse x => ⟨{ m with useCount := m.useCount + 1#32 }, some (.create x), none⟩
  | .create x =>
    ⟨{ m with
        next := update m.next m.created none
        below := update m.below m.created none
        created := m.created + 1 }, some (.storeData x m.created), some .taken⟩
  | .storeData x p => ⟨{ m with data := update m.data p x }, some (.loadTail x p), none⟩
  | .loadTail x p => ⟨m, some (.loadTailNext x p m.tailStamp), none⟩
  | .loadTailNext x p tail =>
    match m.next tail.node with
    | none => ⟨m, some (.casNext x p tail), none⟩
    | some n => ⟨m, some (.helpTail x p tail n), none⟩
  | .casNext x p tail =>
    match m.next tail.node with
    | none =>
      ⟨{ m with next := update m.next tail.node (some p) }, some (.countNode x p tail),
        some (.linked x)⟩
    | some _ => ⟨m, some (.loadTail x p), none⟩
  | .countNode x p tail =>
    ⟨{ m with nodeCount := m.nodeCount + 1#32 }, some (.casTail x p tail), none⟩
  | .casTail x p tail => ⟨m.moveTail tail p, none, some (.returned x)⟩
  | .helpTail x p tail n => ⟨m.moveTail tail n, some (.loadTail x p), none⟩
  | .discountNode =>
    ⟨{ m with nodeCount := m.nodeCount - 1#32 },
      if (m.nodeCount - 1#32).slt 0#32 then some .recountNode else some .loadHead, none⟩
  | .recountNode => ⟨{ m with nodeCount := m.nodeCount + 1#32 }, none, none⟩
  | .loadHead => ⟨m, some (.compareTail m.headStamp), none⟩
  | .compareTail head =>
    if head.same m.tailStamp then ⟨m, some (.loadLastNext head m.tailStamp), none⟩
    else ⟨m, some (.loadHeadNext head), none⟩
  | .loadLastNext head tail =>
    match m.next tail.node with
    | none => ⟨m, some .loadHead, none⟩
    | some n => ⟨m, some (.pushTail head tail n), none⟩
  | .pushTail head tail n => ⟨m.moveTail tail n, some (.loadHeadNext head), none⟩
  | .loadHeadNext head =>
    match m.next head.node with
    | none => ⟨m, some .loadHead, none⟩
    | some n => ⟨m, some (.loadData head n), none⟩
  | .loadData head n => ⟨m, some (.casHead head n (m.data n)), none⟩
  | .casHead head n x =>
    if m.headStamp.same head then
      ⟨{ m with headStamp := head.move n }, some (.reloadTop x head.node), some (.unlinked x)⟩
    else ⟨m, some .loadHead, none⟩
  | .reloadTop x h => ⟨m, some (.storeBelow x h m.topStamp), none⟩
  | .storeBelow x h top =>
    ⟨{ m with below := update m.below h top.node }, some (.pushTop x h top), none⟩
  | .pushTop x h top =>
    if m.topStamp.same top then
      ⟨{ m with topStamp := top.move (some h) }, some (.discountUse x), some .given⟩
    else ⟨m, some (.reloadTop x h), none⟩
  | .discountUse x =>
    ⟨{ m with useCount := m.useCount - 1#32 }, none, some (.dequeued x)⟩

/-! ## All interleavings -/

/-- The memory, what each thread is doing (`none`: no call in progress), and the log. -/
structure Sys (T α : Type) where
  mem : Mem α
  threads : T → Option (Pc α)
  log : List (Event α)

/-- What a thread may do: call `Enqueue`, call `Dequeue`, or go on with its call. -/
inductive Act (α : Type)
  | enqueue (v : α)
  | dequeue
  | go

variable {T α : Type} [DecidableEq T]

/-- The system after thread `t` has done `r`. -/
def Sys.after (s : Sys T α) (t : T) (r : Outcome α) : Sys T α where
  mem := r.mem
  threads := update s.threads t r.pc
  log := s.log ++ r.event.toList

/-- A step of thread `t`.  The number of an `Enqueue` call is the length of the log when it is
    made. -/
def step (s : Sys T α) : T × Act α → Option (Sys T α)
  | (t, .enqueue v) =>
    match s.threads t with
    | none =>
      some (s.after t ⟨s.mem, some (.loadTop ⟨s.log.length, v⟩), some (.called ⟨s.log.length, v⟩)⟩)
    | some _ => none
  | (t, .dequeue) =>
    match s.threads t with
    | none => some (s.after t ⟨s.mem, some .discountNode, none⟩)
    | some _ => none
  | (t, .go) => (s.threads t).map fun pc => s.after t (pc.run s.mem)

/-- The new queue, whatever memory it was built in. -/
def Sys.new (before : Mem α) : Sys T α := ⟨.new before, fun _ => none, []⟩

/-- All runs of any number of threads on one queue. -/
def system : System (Sys T α) where
  init s := ∃ before, s = .new before
  next s s' := ∃ a, step s a = some s'

/-- **What a thread may do next**: call `Enqueue`, call `Dequeue`, or go on with its call. -/
inductive Sys.Does (s : Sys T α) (t : T) : Outcome α → Prop
  | enqueue {x : Item α} (h : s.threads t = none) (hid : x.id = s.log.length) :
      Does s t ⟨s.mem, some (.loadTop x), some (.called x)⟩
  | dequeue (h : s.threads t = none) : Does s t ⟨s.mem, some .discountNode, none⟩
  | run {pc : Pc α} (h : s.threads t = some pc) : Does s t (pc.run s.mem)

/-- Every step is something a thread does. -/
theorem step_does {s s' : Sys T α} (h : system.next s s') :
    ∃ t r, s.Does t r ∧ s' = s.after t r := by
  obtain ⟨⟨t, a⟩, h⟩ := h
  cases ht : s.threads t with
  | none =>
    cases a with
    | enqueue v =>
      simp only [step, ht, Option.some.injEq] at h
      exact ⟨t, _, .enqueue ht rfl, h.symm⟩
    | dequeue =>
      simp only [step, ht, Option.some.injEq] at h
      exact ⟨t, _, .dequeue ht, h.symm⟩
    | go => simp [step, ht] at h
  | some pc =>
    cases a with
    | enqueue v => simp [step, ht] at h
    | dequeue => simp [step, ht] at h
    | go =>
      simp only [step, ht, Option.map_some, Option.some.injEq] at h
      exact ⟨t, _, .run ht, h.symm⟩

/-! ## Stamps that have not come round -/

/-- The stamp of a word that was read in this call has not come round since: `now` is the word as
    it is, `copy` what was read. -/
def Stamped.Recent {P : Type} (now copy : Stamped P) : Prop := now.count < copy.count + 131072

/-- No copy that the thread holds is 2^17 moves old. -/
def Pc.Fresh (m : Mem α) : Pc α → Prop
  | .loadBelow _ top _ | .casTop _ top _ _ => m.topStamp.Recent top
  | .loadTailNext _ _ tail | .casNext _ _ tail | .countNode _ _ tail | .casTail _ _ tail
  | .helpTail _ _ tail _ => m.tailStamp.Recent tail
  | .compareTail head | .loadHeadNext head | .loadData head _ | .casHead head _ _ =>
    m.headStamp.Recent head
  | .loadLastNext head tail | .pushTail head tail _ =>
    m.headStamp.Recent head ∧ m.tailStamp.Recent tail
  | .storeBelow _ _ top | .pushTop _ _ top => m.topStamp.Recent top
  | _ => True

/-- No stamp has cycled through all its values inside of a call. -/
def Sys.Fresh (s : Sys T α) : Prop := ∀ t pc, s.threads t = some pc → pc.Fresh s.mem

/-- The runs in which this is so. -/
def fresh : System (Sys T α) := system.guard fun s _ => s.Fresh

/-! ## Replaying a schedule -/

instance decidableFresh (m : Mem α) : (pc : Pc α) → Decidable (pc.Fresh m)
  | .loadBelow _ top _ | .casTop _ top _ _ | .storeBelow _ _ top | .pushTop _ _ top =>
    inferInstanceAs (Decidable (m.topStamp.count < top.count + 131072))
  | .loadTailNext _ _ tail | .casNext _ _ tail | .countNode _ _ tail | .casTail _ _ tail
  | .helpTail _ _ tail _ => inferInstanceAs (Decidable (m.tailStamp.count < tail.count + 131072))
  | .compareTail head | .loadHeadNext head | .loadData head _ | .casHead head _ _ =>
    inferInstanceAs (Decidable (m.headStamp.count < head.count + 131072))
  | .loadLastNext head tail | .pushTail head tail _ =>
    inferInstanceAs (Decidable (m.headStamp.count < head.count + 131072 ∧
      m.tailStamp.count < tail.count + 131072))
  | .loadTop _ | .construct _ _ | .countUse _ _ | .growCapacity _ | .growUse _ | .create _
  | .storeData _ _ | .loadTail _ _ | .discountNode | .recountNode | .loadHead | .reloadTop _ _
  | .discountUse _ => isTrue trivial

/-- Whether what thread `t` holds is fresh. -/
def Sys.isFresh (s : Sys T α) (t : T) : Bool :=
  match s.threads t with
  | some pc => decide (pc.Fresh s.mem)
  | none => true

/-- A step, if no copy is too old. -/
def freshStep [Fintype T] : Sys T α → T × Act α → Option (Sys T α) :=
  gate step fun s _ => decide (∀ t, s.isFresh t = true)

theorem fresh_next [Fintype T] (s : Sys T α) (a : T × Act α) (s' : Sys T α)
    (h : freshStep s a = some s') : fresh.next s s' := by
  have hfresh : ∀ s s' : Sys T α, decide (∀ t, s.isFresh t = true) = true → s.Fresh := by
    intro s s' hg t pc hpc
    have hall := of_decide_eq_true hg t
    unfold Sys.isFresh at hall
    rw [hpc] at hall
    exact of_decide_eq_true hall
  exact next_of_gate (M := system) (fun _ a _ ha => ⟨a, ha⟩) hfresh s a s' h

/-- Memory that nobody has written to. -/
def blank : Mem Nat where
  headStamp := ⟨0, 0⟩
  tailStamp := ⟨0, 0⟩
  nodeCount := 0#32
  next _ := none
  data _ := ⟨0, 0⟩
  topStamp := ⟨0, none⟩
  useCount := 0#32
  capacity := 0#32
  below _ := none
  created := 0

/-- `n` operations of thread `t`. -/
def go (t : T) (n : Nat) : List (T × Act α) := List.replicate n (t, .go)

end JunCore.LFQueueSteps
