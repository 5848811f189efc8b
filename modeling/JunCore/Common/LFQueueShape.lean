/-
  Where the nodes of an `LFQueue` are.

  Every node that has been created is in one of three places: on the chain from the head, on the
  free list of the pool, or in the hands of one thread.  `Layout` says which, and `Fits` that the
  links in memory agree with it.  What one thread does can disturb another one only through the
  stamped words and the nodes in the two shared places, so the proof is one of rely and guarantee:

  * `Pc.Knows` — what a thread knows about the copies it has made: a stamped word it read is not
    from the future, and if the stamp is still the same, then so is what it read behind it;
  * `Later` — what every step of another thread guarantees;  `Knows.later` — that this is enough.

  The link `next` carries no stamp.  A producer that has read `next == nullptr` and is late with its
  CAS may find the node again with `next == nullptr`, taken from the pool by another producer that
  has not linked it yet.  Its CAS then succeeds, and hangs its node behind one that is not in the
  queue.  So what a producer holds is not one node but a chain of them (`Layout.mine`), and what has
  to be excluded is that two producers hang each other's chains onto their own.  `Layout.rank` does
  that: whoever aims at a node of another producer has a smaller rank.
-/
import JunCore.Lib.Linked
import JunCore.Common.LFQueueSteps

set_option linter.unusedVariables false

namespace JunCore.LFQueueSteps

open Function Transition Linked

variable {T α : Type}

/-! ## Stamps -/

/-- `old` was the word once: it is not from the future, and with the same stamp it is the same. -/
def Stamped.Was {P : Type} (old now : Stamped P) : Prop :=
  old.count ≤ now.count ∧ (old.count = now.count → old = now)

namespace Stamped

variable {P : Type}

theorem Was.refl (s : Stamped P) : s.Was s := ⟨Nat.le_refl _, fun _ => rfl⟩

theorem Was.trans {a b c : Stamped P} (h : a.Was b) (h' : b.Was c) : a.Was c := by
  refine ⟨Nat.le_trans h.1 h'.1, fun heq => ?_⟩
  have hb : a.count = b.count := Nat.le_antisymm h.1 (heq ▸ h'.1)
  have hc : b.count = c.count := hb ▸ heq
  rw [h.2 hb, h'.2 hc]

/-- A word that has not changed its stamp up to a later moment has not changed it before. -/
theorem Was.between {a b c : Stamped P} (h : a.Was b) (h' : b.Was c) (heq : a.count = c.count) :
    a.count = b.count :=
  Nat.le_antisymm h.1 (heq ▸ h'.1)

theorem was_move (s : Stamped P) (p : P) : s.Was (s.move p) := by
  refine ⟨Nat.le_succ _, fun heq => ?_⟩
  have heq : s.count = s.count + 1 := heq
  omega

variable [DecidableEq P]

/-- **Stamps work**: a comparison that succeeds, with a copy that is not 2^17 moves old, finds the
    word unchanged. -/
theorem eq_of_same {now copy : Stamped P} (hwas : copy.Was now) (hrecent : now.Recent copy)
    (h : now.same copy = true) : now = copy := by
  unfold same at h
  rw [Bool.and_eq_true, beq_iff_eq] at h
  have hle := hwas.1
  have hlt : now.count < copy.count + 131072 := hrecent
  exact (hwas.2 (by omega)).symm

theorem same_self (s : Stamped P) : s.same s = true := by
  unfold same
  simp

/-- A comparison that fails against the word shows that it has moved on. -/
theorem lt_of_not_same {now copy : Stamped P} (hwas : copy.Was now) (h : ¬ now.same copy = true) :
    copy.count < now.count := by
  refine Nat.lt_of_le_of_ne hwas.1 fun heq => h ?_
  rw [hwas.2 heq]
  exact same_self _

end Stamped

/-! ## Who holds what -/

/-- What a thread holds of its own. -/
inductive Holds
  | nothing
  /-- a node just taken from the pool, not yet constructed -/
  | raw (p : Nat)
  /-- a node it is going to link -/
  | built (p : Nat)
  /-- a node it has unlinked and is giving back -/
  | spent (h : Nat)
  deriving DecidableEq

def Pc.holds : Pc α → Holds
  | .construct _ p => .raw p
  | .countUse _ p | .storeData _ p | .loadTail _ p | .loadTailNext _ p _ | .casNext _ p _
  | .helpTail _ p _ _ => .built p
  | .reloadTop _ h | .storeBelow _ h _ | .pushTop _ h _ => .spent h
  | _ => .nothing

def holdsOf : Option (Pc α) → Holds
  | some pc => pc.holds
  | none => .nothing

/-- The node whose link a producer is looking at. -/
def Pc.aim : Pc α → Option Nat
  | .loadTailNext _ _ tail | .casNext _ _ tail => some tail.node
  | _ => none

def aimOf : Option (Pc α) → Option Nat
  | some pc => pc.aim
  | none => none

/-- The places a node can be in. -/
inductive Place (T : Type)
  | nowhere
  | pool
  | queue
  | thread (t : T)

/-- Where all nodes are. -/
structure Layout (T : Type) where
  /-- the chain from the head node on -/
  chain : List Nat
  /-- the free list -/
  free : List Nat
  /-- the nodes in a thread's hands: its own, and what others have hung behind it -/
  mine : T → List Nat
  place : Nat → Place T
  rank : T → Nat
  /-- how many nodes are not in the pool -/
  taken : Nat

/-- The nodes in a thread's hands, as far as its own operations go. -/
def Holds.Agrees (next : Nat → Option Nat) : Holds → List Nat → Prop
  | .nothing, l => l = []
  | .raw p, l => l = [p] ∧ next p ≠ none
  | .built p, l => Chain next (some p) l
  | .spent h, l => l = [h] ∧ next h ≠ none

/-- A thread that is going to link what it holds. -/
def Holds.Builds : Holds → Prop
  | .raw _ | .built _ => True
  | _ => False

/-! ## What a thread knows -/

/-- What a thread knows at the operation it does next. -/
def Pc.Knows (m : Mem α) : Pc α → Prop
  | .loadBelow _ top p => top.Was m.topStamp ∧ top.node = some p
  | .casTop _ top p below => top.Was m.topStamp ∧ top.node = some p ∧
      (top.count = m.topStamp.count → m.below p = below)
  | .loadTail x p => m.data p = x
  | .loadTailNext x p tail | .casNext x p tail => m.data p = x ∧ tail.Was m.tailStamp ∧
      tail.node < m.created
  | .countNode _ p tail | .casTail _ p tail => tail.Was m.tailStamp ∧
      (tail.count = m.tailStamp.count → m.next tail.node = some p)
  | .helpTail x p tail n => m.data p = x ∧ tail.Was m.tailStamp ∧
      (tail.count = m.tailStamp.count → m.next tail.node = some n)
  | .compareTail head => head.Was m.headStamp
  | .loadLastNext head tail => head.Was m.headStamp ∧ tail.Was m.tailStamp ∧
      head.count ≤ tail.count
  | .pushTail head tail n => head.Was m.headStamp ∧ tail.Was m.tailStamp ∧
      head.count ≤ tail.count ∧ (tail.count = m.tailStamp.count → m.next tail.node = some n)
  | .loadHeadNext head => head.Was m.headStamp ∧
      (head.count = m.headStamp.count → head.count < m.tailStamp.count)
  | .loadData head n => head.Was m.headStamp ∧
      (head.count = m.headStamp.count → head.count < m.tailStamp.count ∧
        m.next head.node = some n)
  | .casHead head n x => head.Was m.headStamp ∧
      (head.count = m.headStamp.count → head.count < m.tailStamp.count ∧
        m.next head.node = some n ∧ m.data n = x)
  | .storeBelow _ _ top => top.Was m.topStamp
  | .pushTop _ h top => top.Was m.topStamp ∧ m.below h = top.node
  | _ => True

/-- The links in memory agree with the layout. -/
structure Fits (L : Layout T) (s : Sys T α) : Prop where
  chain : Chain s.mem.next (some s.mem.headStamp.node) L.chain
  tail : ∃ i, s.mem.tailStamp.count = s.mem.headStamp.count + i ∧
    L.chain[i]? = some s.mem.tailStamp.node
  free : Chain s.mem.below s.mem.topStamp.node L.free
  used : ∀ p ∈ L.free, s.mem.next p ≠ none
  holds : ∀ t, (holdsOf (s.threads t)).Agrees s.mem.next (L.mine t)
  mem_chain : ∀ p, p ∈ L.chain ↔ L.place p = .queue
  mem_free : ∀ p, p ∈ L.free ↔ L.place p = .pool
  mem_mine : ∀ t p, p ∈ L.mine t ↔ L.place p = .thread t
  nowhere : ∀ p, L.place p = .nowhere ↔ s.mem.created ≤ p
  count : s.mem.created = L.free.length + L.taken
  knows : ∀ t pc, s.threads t = some pc → pc.Knows s.mem
  rank : ∀ t u a, aimOf (s.threads t) = some a → L.place a = .thread u →
    (holdsOf (s.threads u)).Builds → L.rank t < L.rank u

/-! ## What a step guarantees to the others -/

/-- `m'` is `m` after a step of a thread that may write to the nodes in `W` only; apart from these
    it may fill in an empty link. -/
structure Later (W : Nat → Prop) (m m' : Mem α) : Prop where
  head : m.headStamp.Was m'.headStamp
  tail : m.tailStamp.Was m'.tailStamp
  top : m.topStamp.Was m'.topStamp
  created : m.created ≤ m'.created
  next : ∀ p n, ¬ W p → m.next p = some n → m'.next p = some n
  data : ∀ p, ¬ W p → m'.data p = m.data p
  below : ∀ p, ¬ W p → m'.below p = m.below p

/-- The nodes thread `t` may write to. -/
def Layout.Writes (L : Layout T) (t : T) (p : Nat) : Prop :=
  L.place p = .thread t ∨ L.place p = .nowhere

namespace Fits

variable {L : Layout T} {s : Sys T α}

theorem head_mem (F : Fits L s) : L.place s.mem.headStamp.node = .queue :=
  (F.mem_chain _).mp F.chain.mem_head

theorem tail_mem (F : Fits L s) : L.place s.mem.tailStamp.node = .queue := by
  obtain ⟨i, -, hi⟩ := F.tail
  exact (F.mem_chain _).mp (List.mem_of_getElem? hi)

/-- What comes behind a node of the queue is in the queue. -/
theorem next_mem (F : Fits L s) {a n : Nat} (ha : L.place a = .queue) (h : s.mem.next a = some n) :
    L.place n = .queue := by
  obtain ⟨i, hi⟩ := List.getElem?_of_mem ((F.mem_chain a).mpr ha)
  have hnext := F.chain.next_getElem hi
  rw [h] at hnext
  exact (F.mem_chain n).mp (List.mem_of_getElem? hnext.symm)

theorem top_mem (F : Fits L s) {p : Nat} (h : s.mem.topStamp.node = some p) :
    L.place p = .pool := by
  have hfree := F.free
  rw [h] at hfree
  exact (F.mem_free p).mp hfree.mem_head

/-- The node a thread is going to link is the first of those in its hands. -/
theorem built_mem (F : Fits L s) {t : T} {p : Nat} (h : holdsOf (s.threads t) = .built p) :
    L.place p = .thread t := by
  have hown := F.holds t
  rw [h] at hown
  exact (F.mem_mine t p).mp (Chain.mem_head hown)

theorem spent_mem (F : Fits L s) {t : T} {p : Nat} (h : holdsOf (s.threads t) = .spent p) :
    L.place p = .thread t := by
  have hown := F.holds t
  rw [h] at hown
  exact (F.mem_mine t p).mp (hown.1 ▸ List.mem_cons_self)

end Fits

theorem not_writes_of_queue {L : Layout T} {t : T} {p : Nat} (h : L.place p = .queue) :
    ¬ L.Writes t p := by
  rintro (h' | h') <;> rw [h] at h' <;> cases h'

theorem not_writes_of_pool {L : Layout T} {t : T} {p : Nat} (h : L.place p = .pool) :
    ¬ L.Writes t p := by
  rintro (h' | h') <;> rw [h] at h' <;> cases h'

theorem not_writes_of_other {L : Layout T} {t u : T} {p : Nat} (h : L.place p = .thread u)
    (hne : u ≠ t) : ¬ L.Writes t p := by
  rintro (h' | h') <;> rw [h] at h' <;> cases h'
  exact hne rfl

/-- **The rely rule.**  What thread `u` knows stays true when another thread takes a step. -/
theorem Fits.knows_later {L : Layout T} {s : Sys T α} (F : Fits L s) {t u : T} (hne : u ≠ t)
    {m' : Mem α} (H : Later (L.Writes t) s.mem m') {pc : Pc α} (hpc : s.threads u = some pc) :
    pc.Knows m' := by
  have K := F.knows u pc hpc
  -- a link behind a node of the queue stays, and so do the data of a node of the queue
  have hlink : ∀ a n, L.place a = .queue → s.mem.next a = some n → m'.next a = some n :=
    fun a n ha h => H.next a n (not_writes_of_queue ha) h
  have hdata : ∀ p, L.place p = .thread u → m'.data p = s.mem.data p :=
    fun p hp => H.data p (not_writes_of_other hp hne)
  -- behind a copy of the tail that is still current
  have htail : ∀ {tail : Stamped Nat} {n : Nat}, tail.Was s.mem.tailStamp →
      (tail.count = s.mem.tailStamp.count → s.mem.next tail.node = some n) →
      tail.count = m'.tailStamp.count → m'.next tail.node = some n := by
    intro tail n hwas h heq
    have hcur := hwas.between H.tail heq
    have hq : L.place tail.node = .queue := by
      rw [hwas.2 hcur]
      exact F.tail_mem
    exact hlink _ _ hq (h hcur)
  have hlt : ∀ {head : Stamped Nat}, head.Was s.mem.headStamp →
      head.count = m'.headStamp.count → head.count = s.mem.headStamp.count ∧
        L.place head.node = .queue ∧ s.mem.tailStamp.count ≤ m'.tailStamp.count := by
    intro head hwas heq
    have hcur := hwas.between H.head heq
    refine ⟨hcur, ?_, H.tail.1⟩
    rw [hwas.2 hcur]
    exact F.head_mem
  have hbuilt : ∀ {p}, pc.holds = .built p → L.place p = .thread u := by
    intro p h
    refine F.built_mem (t := u) ?_
    rw [hpc]
    exact h
  cases pc with
  | loadBelow x top p => exact ⟨K.1.trans H.top, K.2⟩
  | casTop x top p below =>
    refine ⟨K.1.trans H.top, K.2.1, fun heq => ?_⟩
    have hcur := K.1.between H.top heq
    have hp : s.mem.topStamp.node = some p := by
      rw [← K.1.2 hcur]
      exact K.2.1
    rw [H.below p (not_writes_of_pool (F.top_mem hp))]
    exact K.2.2 hcur
  | loadTail x p =>
    show m'.data p = x
    rw [hdata p (hbuilt rfl)]
    exact K
  | loadTailNext x p tail | casNext x p tail =>
    refine ⟨?_, K.2.1.trans H.tail, Nat.lt_of_lt_of_le K.2.2 H.created⟩
    rw [hdata p (hbuilt rfl)]
    exact K.1
  | countNode x p tail | casTail x p tail =>
    exact ⟨K.1.trans H.tail, htail K.1 K.2⟩
  | helpTail x p tail n =>
    refine ⟨?_, K.2.1.trans H.tail, htail K.2.1 K.2.2⟩
    rw [hdata p (hbuilt rfl)]
    exact K.1
  | compareTail head => exact K.trans H.head
  | loadLastNext head tail => exact ⟨K.1.trans H.head, K.2.1.trans H.tail, K.2.2⟩
  | pushTail head tail n =>
    exact ⟨K.1.trans H.head, K.2.1.trans H.tail, K.2.2.1, htail K.2.1 K.2.2.2⟩
  | loadHeadNext head =>
    refine ⟨K.1.trans H.head, fun heq => ?_⟩
    obtain ⟨hcur, -, hle⟩ := hlt K.1 heq
    exact Nat.lt_of_lt_of_le (K.2 hcur) hle
  | loadData head n =>
    refine ⟨K.1.trans H.head, fun heq => ?_⟩
    obtain ⟨hcur, hq, hle⟩ := hlt K.1 heq
    exact ⟨Nat.lt_of_lt_of_le (K.2 hcur).1 hle, hlink _ _ hq (K.2 hcur).2⟩
  | casHead head n x =>
    refine ⟨K.1.trans H.head, fun heq => ?_⟩
    obtain ⟨hcur, hq, hle⟩ := hlt K.1 heq
    obtain ⟨hbelow, hn, hx⟩ := K.2 hcur
    refine ⟨Nat.lt_of_lt_of_le hbelow hle, hlink _ _ hq hn, ?_⟩
    rw [H.data n (not_writes_of_queue (F.next_mem hq hn))]
    exact hx
  | storeBelow x h top => exact K.trans H.top
  | pushTop x h top =>
    refine ⟨K.1.trans H.top, ?_⟩
    have hh : L.place h = .thread u := by
      refine F.spent_mem (t := u) ?_
      rw [hpc]
      rfl
    rw [H.below h (not_writes_of_other hh hne)]
    exact K.2
  | loadTop x | construct x p | countUse x p | growCapacity x | growUse x | create x
  | storeData x p | discountNode | recountNode | loadHead | reloadTop x h | discountUse x =>
    trivial

end JunCore.LFQueueSteps
