/-
  `JunCommon/pool/LFObjectPool.h`, one memory operation at a time.

  The free objects are a stack: `top_stamp_` is the address of the first node with a stamp, and `next`
  leads on.  `Alloc` takes the first node off with a CAS, or creates one if there is none; `Free` puts a
  node back.  Any number of callers run them in any interleaving.  A caller holds the objects that
  `Alloc` gave to it, until it calls `Free`; and it may hand them over to somebody else.

  The stamped words are those of `LFQueueSteps`.  A node is created with the pool's address and two guard
  words in it, which `Free` looks at first; nobody writes to them.  An object has the address of its node.
-/
import JunCore.Lib.Counting
import JunCore.Common.LFQueueShape

set_option linter.unusedVariables false
set_option linter.unusedSectionVars false

namespace JunCore.LFObjectPool

open Transition Function Linked Counting LFQueueSteps

/-! ## The program -/

/-- `integrity`, `under_guard` and `over_guard`. -/
structure Guards where
  integrity : Nat
  underGuard : Nat
  overGuard : Nat
  deriving DecidableEq

/-- The members, and the nodes created so far, at the addresses below `created`. -/
structure Pool where
  integrity : Nat
  useCtor : Bool
  topStamp : Stamped (Option Nat)
  capacity : BitVec 32
  useCount : BitVec 32
  /-- `Node::next` -/
  next : Nat → Option Nat
  guards : Nat → Guards
  created : Nat

def kMemGuard : Nat := 0xFDFDFDFDFDFDFDFD

/-- The guards of this pool's nodes. -/
def Pool.seal (m : Pool) : Guards := ⟨m.integrity, kMemGuard, kMemGuard⟩

/-- `new Node((ULONG_PTR)this)`; its address is `m.created`. -/
def Pool.newNode (m : Pool) : Pool :=
  { m with
    next := update m.next m.created none
    guards := update m.guards m.created m.seal
    created := m.created + 1 }

/-- One turn of the constructor's loop. -/
def Pool.pushNew (m : Pool) : Pool :=
  { m.newNode with
    next := update m.newNode.next m.created m.topStamp.node
    topStamp := ⟨0, some m.created⟩ }

def Pool.pushMany : Nat → Pool → Pool
  | 0, m => m
  | n + 1, m => (pushMany n m).pushNew

/-- The constructor; `before` is the memory it runs in. -/
def Pool.new (before : Pool) (nodeNum : Nat) (useCtor : Bool) : Pool :=
  pushMany nodeNum { before with
    useCtor := useCtor
    topStamp := ⟨0, none⟩
    capacity := .ofNat 32 nodeNum
    useCount := 0#32
    created := 0 }

/-- The operation a caller does next. -/
inductive Pc
  | idle
  -- `Alloc`
  | loadTop
  | loadNext (top : Stamped (Option Nat)) (p : Nat)
  | casTop (top : Stamped (Option Nat)) (p : Nat) (next : Option Nat)
  | construct (p : Nat)
  | countUse (p : Nat)
  | growCapacity
  | growUse
  | create
  | allocated (p : Nat)
  -- `Free`
  | check (p : Nat)
  | destruct (p : Nat)
  | reloadTop (p : Nat)
  | storeNext (p : Nat) (top : Stamped (Option Nat))
  | pushTop (p : Nat) (top : Stamped (Option Nat))
  | discountUse
  | freed
  | thrown (text : String)

/-- One operation. -/
def Pc.run (m : Pool) : Pc → Pool × Pc
  | .idle => (m, .idle)
  | .loadTop =>
    match m.topStamp.node with
    | some p => (m, .loadNext m.topStamp p)
    | none => (m, .growCapacity)
  | .loadNext top p => (m, .casTop top p (m.next p))
  | .casTop top p next =>
    if m.topStamp.same top then
      ({ m with topStamp := top.move next }, if m.useCtor then .construct p else .countUse p)
    else (m, .loadTop)
  -- the constructor of the object, in its own memory
  | .construct p => (m, .countUse p)
  | .countUse p => ({ m with useCount := m.useCount + 1#32 }, .allocated p)
  | .growCapacity => ({ m with capacity := m.capacity + 1#32 }, .growUse)
  | .growUse => ({ m with useCount := m.useCount + 1#32 }, .create)
  | .create => (m.newNode, .allocated m.created)
  | .allocated _ => (m, .idle)
  | .check p =>
    if m.integrity ≠ (m.guards p).integrity then (m, .thrown "ERROR_INTEGRITY")
    else if kMemGuard ≠ (m.guards p).overGuard then (m, .thrown "ERROR_INVAID_OVER")
    else if kMemGuard ≠ (m.guards p).underGuard then (m, .thrown "ERROR_INVAID_UNDER")
    else (m, if m.useCtor then .destruct p else .reloadTop p)
  | .destruct p => (m, .reloadTop p)
  | .reloadTop p => (m, .storeNext p m.topStamp)
  | .storeNext p top => ({ m with next := update m.next p top.node }, .pushTop p top)
  | .pushTop p top =>
    if m.topStamp.same top then ({ m with topStamp := top.move (some p) }, .discountUse)
    else (m, .reloadTop p)
  | .discountUse => ({ m with useCount := m.useCount - 1#32 }, .freed)
  | .freed => (m, .idle)
  | .thrown _ => (m, .idle)

/-- A caller, and the objects it holds from `Alloc`. -/
structure Caller where
  pc : Pc := .idle
  held : List Nat := []

/-- What `Alloc` returns. -/
def Pc.gets : Pc → List Nat
  | .allocated p => [p]
  | _ => []

def Caller.run (m : Pool) (x : Caller) : Pool × Caller :=
  ((x.pc.run m).1, ⟨(x.pc.run m).2, x.pc.gets ++ x.held⟩)

structure Sys (C : Type) where
  pool : Pool
  callers : C → Caller

/-- Call `Alloc`; call `Free` for an object; go on with the call; hand an object over. -/
inductive Act (C : Type)
  | alloc (c : C)
  | free (c : C) (p : Nat)
  | go (c : C)
  | hand (c d : C) (p : Nat)

variable {C : Type} [DecidableEq C]

def Sys.set (s : Sys C) (c : C) (x : Caller) : Sys C := { s with callers := update s.callers c x }

def Sys.alloc (s : Sys C) (c : C) : Sys C := s.set c { s.callers c with pc := .loadTop }

def Sys.free (s : Sys C) (c : C) (p : Nat) : Sys C := s.set c ⟨.check p, (s.callers c).held.erase p⟩

def Sys.go (s : Sys C) (c : C) : Sys C :=
  ⟨((s.callers c).run s.pool).1, update s.callers c ((s.callers c).run s.pool).2⟩

def Sys.hand (s : Sys C) (c d : C) (p : Nat) : Sys C :=
  let s' := s.set c { s.callers c with held := (s.callers c).held.erase p }
  s'.set d { s'.callers d with held := p :: (s'.callers d).held }

def step (s : Sys C) : Act C → Option (Sys C)
  | .alloc c =>
    match (s.callers c).pc with
    | .idle => some (s.alloc c)
    | _ => none
  | .free c p =>
    match (s.callers c).pc with
    | .idle => if p ∈ (s.callers c).held then some (s.free c p) else none
    | _ => none
  | .go c =>
    match (s.callers c).pc with
    | .idle => none
    | _ => some (s.go c)
  | .hand c d p => if p ∈ (s.callers c).held then some (s.hand c d p) else none

/-- A pool just made, in any memory, and what its callers do with it. -/
def system (C : Type) [DecidableEq C] : System (Sys C) where
  init s := ∃ before nodeNum useCtor, s = ⟨.new before nodeNum useCtor, fun _ => {}⟩
  next s s' := ∃ a, step s a = some s'

/-- The stamp a caller has read has not come round since. -/
def Pc.Fresh (m : Pool) : Pc → Prop
  | .loadNext top _ | .casTop top _ _ | .storeNext _ top | .pushTop _ top => m.topStamp.Recent top
  | _ => True

def Sys.Fresh (s : Sys C) : Prop := ∀ c, (s.callers c).pc.Fresh s.pool

/-- The runs in which no stamp cycles through all its values inside of a call. -/
def fresh (C : Type) [DecidableEq C] : System (Sys C) := (system C).guard fun s _ => s.Fresh

/-! ## What is to hold -/

/-- The node in the hands of a call. -/
def Pc.hands : Pc → Option Nat
  | .construct p | .countUse p | .allocated p | .check p | .destruct p | .reloadTop p | .storeNext p _
  | .pushTop p _ => some p
  | _ => none

/-- The `int` counts to `n`. -/
def IsCount (b : BitVec 32) (n : Nat) : Prop := b = BitVec.ofNat 32 n ∧ (n < 2147483648 → b.toInt = n)

/-- **Exclusive objects**: nobody holds what somebody else holds or has in hands; the free list has an
    end, and is what nobody holds or has in hands of all the nodes ever created; and between the calls,
    the counters are right. -/
structure Exclusive [Fintype C] (s : Sys C) (free : List Nat) : Prop where
  held : ∀ c d p, p ∈ (s.callers c).held → p ∈ (s.callers d).held → c = d
  once : ∀ c, (s.callers c).held.Nodup
  hands : ∀ c d p, (s.callers c).pc.hands = some p →
    p ∉ (s.callers d).held ∧ ((s.callers d).pc.hands = some p → c = d)
  chain : Chain s.pool.next s.pool.topStamp.node free
  acyclic : free.Nodup
  listed : ∀ p, p ∈ free ↔
    p < s.pool.created ∧ ∀ c, p ∉ (s.callers c).held ∧ (s.callers c).pc.hands ≠ some p
  kept : ∀ c p, p ∈ (s.callers c).held ∨ (s.callers c).pc.hands = some p → p < s.pool.created
  useCount : (∀ c, (s.callers c).pc = .idle) →
    IsCount s.pool.useCount (∑ c, (s.callers c).held.length)
  capacity : (∀ c, (s.callers c).pc = .idle) →
    s.pool.capacity = s.pool.useCount + BitVec.ofNat 32 free.length ∧
    IsCount s.pool.capacity (∑ c, (s.callers c).held.length + free.length)

/-! ## Where the nodes are -/

inductive Place (C : Type)
  | nowhere
  | free
  | held (c : C)
  | called (c : C)

structure Layout (C : Type) where
  free : List Nat
  place : Nat → Place C

/-- What a caller knows at the operation it does next. -/
def Pc.Knows (m : Pool) : Pc → Prop
  | .loadNext top p => top.Was m.topStamp ∧ top.node = some p
  | .casTop top p next => top.Was m.topStamp ∧ top.node = some p ∧
      (top.count = m.topStamp.count → m.next p = next)
  | .storeNext _ top => top.Was m.topStamp
  | .pushTop p top => top.Was m.topStamp ∧ m.next p = top.node
  | .thrown _ => False
  | _ => True

/-- The links, the lists and the callers agree with the layout. -/
structure Fits (L : Layout C) (s : Sys C) : Prop where
  chain : Chain s.pool.next s.pool.topStamp.node L.free
  mem_free : ∀ p, p ∈ L.free ↔ L.place p = .free
  mem_held : ∀ c p, p ∈ (s.callers c).held ↔ L.place p = .held c
  mem_hands : ∀ c p, (s.callers c).pc.hands = some p ↔ L.place p = .called c
  nowhere : ∀ p, L.place p = .nowhere ↔ s.pool.created ≤ p
  once : ∀ c, (s.callers c).held.Nodup
  knows : ∀ c, (s.callers c).pc.Knows s.pool
  sealed : ∀ p, p < s.pool.created → s.pool.guards p = s.pool.seal

/-- What a step of `c` guarantees to the others: it writes to its own node, or to a new one. -/
structure Later (L : Layout C) (c : C) (m m' : Pool) : Prop where
  top : m.topStamp.Was m'.topStamp
  next : ∀ p, L.place p ≠ .called c → L.place p ≠ .nowhere → m'.next p = m.next p

theorem Later.refl (L : Layout C) (c : C) (m : Pool) : Later L c m m := ⟨.refl _, fun _ _ _ => rfl⟩

section

variable {L : Layout C} {s : Sys C}

theorem Fits.top_free (F : Fits L s) {p : Nat} (h : s.pool.topStamp.node = some p) : L.place p = .free := by
  have hchain := F.chain
  rw [h] at hchain
  exact (F.mem_free p).mp hchain.mem_head

/-- **The rely rule.** -/
theorem Fits.knows_later (F : Fits L s) {c d : C} (hne : d ≠ c) {m' : Pool} (H : Later L c s.pool m') :
    (s.callers d).pc.Knows m' := by
  have K := F.knows d
  have hhands := F.mem_hands d
  generalize (s.callers d).pc = pc at K hhands
  cases pc with
  | loadNext top p => exact ⟨K.1.trans H.top, K.2⟩
  | casTop top p next =>
    refine ⟨K.1.trans H.top, K.2.1, fun heq => ?_⟩
    -- the node is still the first one
    have hcur := K.1.between H.top heq
    have hfree : L.place p = .free := by
      refine F.top_free ?_
      rw [← K.1.2 hcur]
      exact K.2.1
    rw [H.next p (by simp [hfree]) (by simp [hfree])]
    exact K.2.2 hcur
  | storeNext p top => exact K.trans H.top
  | pushTop p top =>
    have hmine := (hhands p).mp rfl
    refine ⟨K.1.trans H.top, ?_⟩
    rw [H.next p (by rw [hmine]; exact fun h => hne (Place.called.inj h)) (by simp [hmine])]
    exact K.2
  | thrown text => exact K
  | _ => exact trivial

/-- A caller keeps what it has, and writes to no node but its own. -/
theorem Fits.stay (F : Fits L s) {c : C} {m' : Pool} {pc' : Pc} (H : Later L c s.pool m')
    (htop : m'.topStamp = s.pool.topStamp) (hcreated : m'.created = s.pool.created)
    (hguards : m'.guards = s.pool.guards) (hseal : m'.seal = s.pool.seal)
    (hhands : pc'.hands = (s.callers c).pc.hands) (hknows : pc'.Knows m') :
    Fits L (Sys.mk m' (update s.callers c { s.callers c with pc := pc' })) := by
  have hheld : ∀ d, (update s.callers c { s.callers c with pc := pc' } d).held = (s.callers d).held := by
    intro d
    rw [update_apply]
    split
    · rename_i hd
      rw [hd]
    · rfl
  have hpc : ∀ d, (update s.callers c { s.callers c with pc := pc' } d).pc.hands = (s.callers d).pc.hands := by
    intro d
    rw [update_apply]
    split
    · rename_i hd
      rw [hd]
      exact hhands
    · rfl
  refine ⟨?_, F.mem_free, fun d p => ?_, fun d p => ?_, fun p => ?_, fun d => ?_, fun d => ?_, fun p hp => ?_⟩
  · dsimp only
    rw [htop]
    refine F.chain.congr fun p hp => ?_
    have hfree := (F.mem_free p).mp hp
    exact H.next p (by simp [hfree]) (by simp [hfree])
  · dsimp only
    rw [hheld]
    exact F.mem_held d p
  · dsimp only
    rw [hpc]
    exact F.mem_hands d p
  · dsimp only
    rw [hcreated]
    exact F.nowhere p
  · dsimp only
    rw [hheld]
    exact F.once d
  · dsimp only
    rw [update_apply]
    split
    · exact hknows
    · exact F.knows_later ‹_› H
  · dsimp only at hp ⊢
    rw [hguards, hseal]
    rw [hcreated] at hp
    exact F.sealed p hp

end

/-! ## A node changes its place -/

section

variable {L : Layout C} {s : Sys C}

/-- The node `p` goes to `place`, and everything else stays where it is. -/
theorem Fits.move (F : Fits L s) {s' : Sys C} {p : Nat} {place : Place C} {free' : List Nat}
    (hchain : Chain s'.pool.next s'.pool.topStamp.node free')
    (hfree : ∀ q, q ≠ p → (q ∈ free' ↔ q ∈ L.free)) (hfree' : p ∈ free' ↔ place = .free)
    (hheld : ∀ d q, q ≠ p → (q ∈ (s'.callers d).held ↔ q ∈ (s.callers d).held))
    (hheld' : ∀ d, p ∈ (s'.callers d).held ↔ place = .held d)
    (hhands : ∀ d q, q ≠ p → ((s'.callers d).pc.hands = some q ↔ (s.callers d).pc.hands = some q))
    (hhands' : ∀ d, (s'.callers d).pc.hands = some p ↔ place = .called d)
    (hnowhere : ∀ q, q ≠ p → (s'.pool.created ≤ q ↔ s.pool.created ≤ q))
    (hnowhere' : place ≠ .nowhere ∧ p < s'.pool.created) (honce : ∀ d, (s'.callers d).held.Nodup)
    (hknows : ∀ d, (s'.callers d).pc.Knows s'.pool)
    (hsealed : ∀ q, q < s'.pool.created → s'.pool.guards q = s'.pool.seal) :
    Fits ⟨free', update L.place p place⟩ s' := by
  refine ⟨hchain, fun q => ?_, fun d q => ?_, fun d q => ?_, fun q => ?_, honce, hknows, hsealed⟩
  · dsimp only
    rw [update_apply]
    split
    · rename_i hq
      rw [hq]
      exact hfree'
    · exact (hfree q ‹_›).trans (F.mem_free q)
  · dsimp only
    rw [update_apply]
    split
    · rename_i hq
      rw [hq]
      exact hheld' d
    · exact (hheld d q ‹_›).trans (F.mem_held d q)
  · dsimp only
    rw [update_apply]
    split
    · rename_i hq
      rw [hq]
      exact hhands' d
    · exact (hhands d q ‹_›).trans (F.mem_hands d q)
  · dsimp only
    rw [update_apply]
    split
    · rename_i hq
      rw [hq]
      exact ⟨fun h => absurd h hnowhere'.1, fun h => absurd hnowhere'.2 (Nat.not_lt.mpr h)⟩
    · exact (F.nowhere q).trans (hnowhere q ‹_›).symm

theorem Fits.lt_created (F : Fits L s) {p : Nat} {place : Place C} (h : L.place p = place)
    (hplace : place ≠ .nowhere) : p < s.pool.created := by
  refine Nat.lt_of_not_le fun hle => hplace ?_
  rw [← h, F.nowhere]
  exact hle

/-- What is in nobody's hands may come into those of `c`. -/
theorem Fits.hands_gain (F : Fits L s) {c : C} {x : Caller} {p : Nat}
    (hold : (s.callers c).pc.hands = none) (hnew : x.pc.hands = some p)
    (hp : ∀ d, L.place p ≠ .called d) :
    (∀ d q, q ≠ p →
      ((update s.callers c x d).pc.hands = some q ↔ (s.callers d).pc.hands = some q)) ∧
    ∀ d, (update s.callers c x d).pc.hands = some p ↔ Place.called c = .called d := by
  refine ⟨fun d q hq => ?_, fun d => ?_⟩
  · rw [update_apply]
    split
    · rename_i hd
      rw [hd, hold, hnew]
      simp [Ne.symm hq]
    · rfl
  · rw [update_apply]
    split
    · rename_i hd
      rw [hd, hnew]
      exact ⟨fun _ => rfl, fun _ => rfl⟩
    · rename_i hd
      rw [F.mem_hands]
      exact ⟨fun h => absurd h (hp d), fun h => absurd (Place.called.inj h).symm hd⟩

/-- And what is in those of `c` may leave them. -/
theorem Fits.hands_lose (F : Fits L s) (place : Place C) {c : C} {x : Caller} {p : Nat}
    (hold : (s.callers c).pc.hands = some p) (hnew : x.pc.hands = none)
    (hplace : ∀ d, place ≠ .called d) :
    (∀ d q, q ≠ p →
      ((update s.callers c x d).pc.hands = some q ↔ (s.callers d).pc.hands = some q)) ∧
    ∀ d, (update s.callers c x d).pc.hands = some p ↔ place = .called d := by
  refine ⟨fun d q hq => ?_, fun d => ?_⟩
  · rw [update_apply]
    split
    · rename_i hd
      rw [hd, hold, hnew]
      simp [Ne.symm hq]
    · rfl
  · rw [update_apply]
    split
    · rename_i hd
      rw [hnew]
      exact ⟨fun h => (by cases h), fun h => absurd h (hplace d)⟩
    · rename_i hd
      rw [F.mem_hands, (F.mem_hands c p).mp hold]
      exact ⟨fun h => absurd (Place.called.inj h).symm hd, fun h => absurd h (hplace d)⟩

/-- What nobody holds may be given to `c`. -/
theorem Fits.held_gain (F : Fits L s) (callers : C → Caller) {c : C} {x : Caller} {p : Nat}
    (hsame : ∀ d q, q ≠ p → (q ∈ (callers d).held ↔ q ∈ (s.callers d).held))
    (hnone : ∀ d, p ∉ (callers d).held) (hx : x.held = p :: (callers c).held) :
    (∀ d q, q ≠ p → (q ∈ (update callers c x d).held ↔ q ∈ (s.callers d).held)) ∧
    ∀ d, p ∈ (update callers c x d).held ↔ Place.held c = .held d := by
  refine ⟨fun d q hq => ?_, fun d => ?_⟩
  · rw [update_apply]
    split
    · rename_i hd
      rw [hx, hd, List.mem_cons, ← hsame c q hq]
      exact ⟨fun h => h.resolve_left hq, .inr⟩
    · exact hsame d q hq
  · rw [update_apply]
    split
    · rename_i hd
      rw [hx, hd]
      exact ⟨fun _ => rfl, fun _ => List.mem_cons_self⟩
    · rename_i hd
      exact ⟨fun h => absurd h (hnone d), fun h => absurd (Place.held.inj h).symm hd⟩

/-- And what `c` holds may be taken from it. -/
theorem Fits.held_lose (F : Fits L s) {c : C} {x : Caller} {p : Nat} (hold : L.place p = .held c)
    (hx : x.held = (s.callers c).held.erase p) :
    (∀ d q, q ≠ p → (q ∈ (update s.callers c x d).held ↔ q ∈ (s.callers d).held)) ∧
    ∀ d, p ∉ (update s.callers c x d).held := by
  refine ⟨fun d q hq => ?_, fun d => ?_⟩
  · rw [update_apply]
    split
    · rename_i hd
      rw [hx, hd]
      exact List.mem_erase_of_ne hq
    · rfl
  · rw [update_apply]
    split
    · rw [hx]
      exact (F.once c).not_mem_erase
    · rename_i hd
      rw [F.mem_held, hold]
      exact fun h => hd (Place.held.inj h).symm

theorem Fits.once_update (F : Fits L s) {c : C} {x : Caller} (hx : x.held.Nodup) (d : C) :
    (update s.callers c x d).held.Nodup := by
  rw [update_apply]
  split
  · exact hx
  · exact F.once d

theorem Fits.knows_update (F : Fits L s) {c : C} {x : Caller} {m' : Pool} (H : Later L c s.pool m')
    (hx : x.pc.Knows m') (d : C) : (update s.callers c x d).pc.Knows m' := by
  rw [update_apply]
  split
  · exact hx
  · exact F.knows_later ‹_› H

/-- The lists do not change with the place of a node that is in none. -/
theorem Fits.held_same (F : Fits L s) (place : Place C) {c : C} {x : Caller} {p : Nat}
    (hx : x.held = (s.callers c).held) (hp : ∀ d, L.place p ≠ .held d) (hplace : ∀ d, place ≠ .held d) :
    (∀ d q, q ≠ p → (q ∈ (update s.callers c x d).held ↔ q ∈ (s.callers d).held)) ∧
    ∀ d, p ∈ (update s.callers c x d).held ↔ place = .held d := by
  have hsame : ∀ d, (update s.callers c x d).held = (s.callers d).held := by
    intro d
    rw [update_apply]
    split
    · rename_i hd
      rw [hx, hd]
    · rfl
  refine ⟨fun d q _ => by rw [hsame], fun d => ?_⟩
  rw [hsame, F.mem_held]
  exact ⟨fun h => absurd h (hp d), fun h => absurd h (hplace d)⟩

/-- `Alloc` takes the first node off the list. -/
theorem Fits.take (F : Fits L s) {c : C} {top : Stamped (Option Nat)} {p : Nat} {next : Option Nat} {x : Caller}
    (hpc : (s.callers c).pc = .casTop top p next) (hsame : s.pool.topStamp = top)
    (hx : x.pc.hands = some p) (hheld : x.held = (s.callers c).held)
    (hknows : x.pc.Knows { s.pool with topStamp := top.move next }) :
    ∃ free', L.free = p :: free' ∧ Fits ⟨free', update L.place p (.called c)⟩
      (Sys.mk { s.pool with topStamp := top.move next } (update s.callers c x)) := by
  have K := F.knows c
  rw [hpc] at K
  obtain ⟨-, hnode, hnext⟩ := K
  have hnext := hnext (by rw [hsame])
  have hchain := F.chain
  rw [hsame, hnode] at hchain
  obtain ⟨free', hfree', hrest⟩ := hchain.head
  have hnodup := F.chain.nodup
  rw [hfree', List.nodup_cons] at hnodup
  have hp : L.place p = .free := F.top_free (by rw [hsame, hnode])
  have hhands := F.hands_gain (c := c) (x := x) (p := p) (by rw [hpc]; rfl) hx
    (by simp [hp])
  have hlists := F.held_same (.called c) (p := p) hheld (by simp [hp])
    (by simp)
  refine ⟨free', hfree', F.move ?_ (fun q hq => ?_) ?_ hlists.1 hlists.2 hhands.1 hhands.2
    (fun q _ => Iff.rfl) ⟨by simp, F.lt_created hp (by simp)⟩ (F.once_update (by rw [hheld]; exact F.once c))
    (F.knows_update ⟨?_, fun _ _ _ => rfl⟩ hknows) F.sealed⟩
  · show Chain s.pool.next next free'
    rw [← hnext]
    exact hrest
  · rw [hfree', List.mem_cons]
    exact ⟨.inr, fun h => h.resolve_left hq⟩
  · exact ⟨fun h => absurd h hnodup.1, by simp⟩
  · show s.pool.topStamp.Was (top.move next)
    rw [hsame]
    exact top.was_move next

/-- `Alloc` creates a node. -/
theorem Fits.create (F : Fits L s) {c : C} (hpc : (s.callers c).pc = .create) :
    Fits ⟨L.free, update L.place s.pool.created (.called c)⟩
      (Sys.mk s.pool.newNode (update s.callers c { s.callers c with pc := .allocated s.pool.created })) := by
  have hp : L.place s.pool.created = .nowhere := (F.nowhere _).mpr (Nat.le_refl _)
  have hnot : s.pool.created ∉ L.free := by
    simp [F.mem_free, hp]
  have hhands := F.hands_gain (c := c) (x := { s.callers c with pc := .allocated s.pool.created })
    (p := s.pool.created) (by rw [hpc]; rfl) rfl (by simp [hp])
  have hlists := F.held_same (.called c) (c := c) (x := { s.callers c with pc := .allocated s.pool.created })
    (p := s.pool.created) rfl (by simp [hp])
    (by simp)
  refine F.move (F.chain.update hnot) (fun q _ => Iff.rfl) ?_ hlists.1 hlists.2 hhands.1 hhands.2
    (fun q hq => ?_) ⟨by simp, Nat.lt_succ_self _⟩ (F.once_update (F.once c))
    (F.knows_update ⟨.refl _, fun q _ hq => ?_⟩ trivial) fun q hq => ?_
  · exact ⟨fun h => absurd h hnot, by simp⟩
  · show s.pool.created + 1 ≤ q ↔ s.pool.created ≤ q
    omega
  · refine update_of_ne ?_ _ _
    rintro rfl
    exact hq hp
  · show update s.pool.guards s.pool.created s.pool.seal q = s.pool.seal
    rw [update_apply]
    split
    · rfl
    · have hq : q < s.pool.created + 1 := hq
      exact F.sealed q (by omega)

/-- `Alloc` returns. -/
theorem Fits.receive (F : Fits L s) {c : C} {p : Nat} (hpc : (s.callers c).pc = .allocated p) :
    Fits ⟨L.free, update L.place p (.held c)⟩
      (Sys.mk s.pool (update s.callers c ⟨.idle, p :: (s.callers c).held⟩)) := by
  have hp : L.place p = .called c := (F.mem_hands c p).mp (by rw [hpc]; rfl)
  have hnone : ∀ d, p ∉ (s.callers d).held := by
    intro d
    simp [F.mem_held, hp]
  have hhands := F.hands_lose (.held c) (c := c) (x := ⟨.idle, p :: (s.callers c).held⟩) (p := p)
    (by rw [hpc]; rfl) rfl (by simp)
  have hlists := F.held_gain s.callers (c := c) (x := ⟨.idle, p :: (s.callers c).held⟩)
    (fun _ _ _ => Iff.rfl) hnone rfl
  refine F.move F.chain (fun q _ => Iff.rfl) ?_ hlists.1 hlists.2 hhands.1 hhands.2 (fun q _ => Iff.rfl)
    ⟨by simp, F.lt_created hp (by simp)⟩ (F.once_update (List.nodup_cons.mpr ⟨hnone c, F.once c⟩))
    (F.knows_update (.refl L c _) trivial) F.sealed
  · simp [F.mem_free, hp]

/-- `Free` is called. -/
theorem Fits.spend (F : Fits L s) {c : C} {p : Nat} (hpc : (s.callers c).pc = .idle)
    (hheld : p ∈ (s.callers c).held) :
    Fits ⟨L.free, update L.place p (.called c)⟩
      (Sys.mk s.pool (update s.callers c ⟨.check p, (s.callers c).held.erase p⟩)) := by
  have hp : L.place p = .held c := (F.mem_held c p).mp hheld
  have hhands := F.hands_gain (c := c) (x := ⟨.check p, (s.callers c).held.erase p⟩) (p := p)
    (by rw [hpc]; rfl) rfl (by simp [hp])
  have hlists := F.held_lose (c := c) (x := ⟨.check p, (s.callers c).held.erase p⟩) hp rfl
  refine F.move F.chain (fun q _ => Iff.rfl) ?_ hlists.1 (fun d => ?_) hhands.1 hhands.2 (fun q _ => Iff.rfl)
    ⟨by simp, F.lt_created hp (by simp)⟩ (F.once_update ((F.once c).erase p)) (F.knows_update (.refl L c _) trivial) F.sealed
  · simp [F.mem_free, hp]
  · exact ⟨fun h => absurd h (hlists.2 d), by simp⟩

/-- `Free` puts the node back. -/
theorem Fits.give (F : Fits L s) {c : C} {p : Nat} {top : Stamped (Option Nat)}
    (hpc : (s.callers c).pc = .pushTop p top) (hsame : s.pool.topStamp = top) :
    Fits ⟨p :: L.free, update L.place p .free⟩
      (Sys.mk { s.pool with topStamp := top.move (some p) }
        (update s.callers c { s.callers c with pc := .discountUse })) := by
  have K := F.knows c
  rw [hpc] at K
  obtain ⟨-, hnext⟩ := K
  have hp : L.place p = .called c := (F.mem_hands c p).mp (by rw [hpc]; rfl)
  have hhands := F.hands_lose .free (c := c) (x := { s.callers c with pc := .discountUse }) (p := p)
    (by rw [hpc]; rfl) rfl (by simp)
  have hlists := F.held_same .free (c := c) (x := { s.callers c with pc := .discountUse }) (p := p)
    rfl (by simp [hp]) (by simp)
  refine F.move ?_ (fun q hq => ?_) ?_ hlists.1 hlists.2 hhands.1 hhands.2 (fun q _ => Iff.rfl)
    ⟨by simp, F.lt_created hp (by simp)⟩ (F.once_update (F.once c)) (F.knows_update ⟨?_, fun _ _ _ => rfl⟩ trivial) F.sealed
  · refine ⟨rfl, ?_⟩
    show Chain s.pool.next (s.pool.next p) L.free
    rw [hnext, ← hsame]
    exact F.chain
  · rw [List.mem_cons]
    exact ⟨fun h => h.resolve_left hq, .inr⟩
  · exact ⟨fun _ => rfl, fun _ => List.mem_cons_self⟩
  · show s.pool.topStamp.Was (top.move (some p))
    rw [hsame]
    exact top.was_move _

/-- An object is handed over. -/
theorem Fits.hand (F : Fits L s) {c d : C} {p : Nat} {x y : Caller} (hheld : p ∈ (s.callers c).held)
    (hx : x.held = (s.callers c).held.erase p) (hxpc : x.pc = (s.callers c).pc)
    (hy : y.held = p :: (update s.callers c x d).held) (hypc : y.pc = (update s.callers c x d).pc) :
    Fits ⟨L.free, update L.place p (.held d)⟩ (Sys.mk s.pool (update (update s.callers c x) d y)) := by
  have hp : L.place p = .held c := (F.mem_held c p).mp hheld
  have hlose := F.held_lose (c := c) (x := x) hp hx
  have hgain := F.held_gain (update s.callers c x) (c := d) hlose.1 hlose.2 hy
  have hpc : ∀ e, (update (update s.callers c x) d y e).pc = (s.callers e).pc := by
    have hx' : ∀ e, (update s.callers c x e).pc = (s.callers e).pc := by
      intro e
      rw [update_apply]
      split
      · rename_i he
        rw [hxpc, he]
      · rfl
    intro e
    rw [update_apply]
    split
    · rename_i he
      rw [hypc, hx', he]
    · exact hx' e
  have honce : ∀ e, (update s.callers c x e).held.Nodup := F.once_update (by rw [hx]; exact (F.once c).erase p)
  refine F.move F.chain (fun q _ => Iff.rfl) ?_ hgain.1 hgain.2 (fun e q _ => ?_) (fun e => ?_) (fun q _ => Iff.rfl)
    ⟨by simp, F.lt_created hp (by simp)⟩ (fun e => ?_) (fun e => ?_) F.sealed
  · simp [F.mem_free, hp]
  · dsimp only
    rw [hpc]
  · dsimp only
    simp [hpc, F.mem_hands, hp]
  · dsimp only
    rw [update_apply]
    split
    · rw [hy]
      exact List.nodup_cons.mpr ⟨hlose.2 d, honce d⟩
    · exact honce e
  · dsimp only
    rw [hpc]
    exact F.knows e

end

/-! ## The counters -/

/-- A call that has been counted in, or not yet out. -/
def Pc.owed : Pc → Nat
  | .create | .allocated _ | .check _ | .destruct _ | .reloadTop _ | .storeNext _ _ | .pushTop _ _
  | .discountUse => 1
  | _ => 0

/-- A call whose node is counted and not created. -/
def Pc.grows : Pc → Nat
  | .growUse | .create => 1
  | _ => 0

def Caller.counted (x : Caller) : Nat := x.held.length + x.pc.owed

def Caller.grows (x : Caller) : Nat := x.pc.grows

def Caller.nodes (x : Caller) : Nat := x.held.length + x.pc.hands.toList.length

variable [Fintype C]

/-- **The counters**, with what the calls in progress still owe. -/
structure Counts (free : List Nat) (s : Sys C) : Prop where
  use : s.pool.useCount = BitVec.ofNat 32 (total Caller.counted s.callers)
  capacity : s.pool.capacity = BitVec.ofNat 32 (s.pool.created + total Caller.grows s.callers)
  created : s.pool.created = free.length + total Caller.nodes s.callers

/-- What a step of one caller does to a counter. -/
inductive Counted (b b' : BitVec 32) (n n' : Nat) : Prop
  | same (h : b' = b) (hn : n' = n)
  | up (h : b' = b + 1#32) (hn : n' = n + 1)
  | down (h : b' = b - 1#32) (hn : n = n' + 1)

theorem Counted.ofNat {b b' : BitVec 32} {k k' n n' : Nat} (h : Counted b b' n n')
    (hb : b = BitVec.ofNat 32 k) (hk : k' + n = k + n') : b' = BitVec.ofNat 32 k' := by
  rcases h with ⟨rfl, hn⟩ | ⟨rfl, hn⟩ | ⟨rfl, hn⟩
  · rw [hb, show k = k' by omega]
  · rw [hb, show k' = k + 1 by omega, BitVec.ofNat_add]
  · rw [hb, show k = k' + 1 by omega, BitVec.ofNat_add]
    exact BitVec.add_sub_cancel _ _

theorem Counts.update {free free' : List Nat} {s : Sys C} (K : Counts free s) {c : C} {x : Caller} {m' : Pool}
    (huse : Counted s.pool.useCount m'.useCount (s.callers c).counted x.counted)
    (hcapacity : Counted s.pool.capacity m'.capacity (s.pool.created + (s.callers c).grows)
      (m'.created + x.grows))
    (hcreated : m'.created + free.length + (s.callers c).nodes = s.pool.created + free'.length + x.nodes) :
    Counts free' (Sys.mk m' (update s.callers c x)) := by
  have hcounted := total_update Caller.counted s.callers c x
  have hgrows := total_update Caller.grows s.callers c x
  have hnodes := total_update Caller.nodes s.callers c x
  have hle := K.created
  refine ⟨huse.ofNat K.use hcounted, hcapacity.ofNat K.capacity ?_, ?_⟩
  · dsimp only
    omega
  · dsimp only
    omega

theorem Counts.hand {free : List Nat} {s : Sys C} (K : Counts free s) {c d : C} {p : Nat} {x y : Caller}
    (hheld : p ∈ (s.callers c).held) (hx : x.held = (s.callers c).held.erase p)
    (hxpc : x.pc = (s.callers c).pc) (hy : y.held = p :: (Function.update s.callers c x d).held)
    (hypc : y.pc = (Function.update s.callers c x d).pc) :
    Counts free (Sys.mk s.pool (Function.update (Function.update s.callers c x) d y)) := by
  have hlength : x.held.length + 1 = (s.callers c).held.length := by
    rw [hx, List.length_erase_of_mem hheld]
    have := List.length_pos_of_mem hheld
    omega
  -- whatever counts the objects and looks at the operation
  have hsame : ∀ f : Pc → Nat, total (fun z => z.held.length + f z.pc)
      (Function.update (Function.update s.callers c x) d y) = total (fun z => z.held.length + f z.pc) s.callers := by
    intro f
    have hfirst := total_update (fun z : Caller => z.held.length + f z.pc) s.callers c x
    have hsecond := total_update (fun z : Caller => z.held.length + f z.pc) (Function.update s.callers c x) d y
    rw [hxpc] at hfirst
    rw [hypc, hy, List.length_cons] at hsecond
    omega
  have hgrows : total Caller.grows (Function.update (Function.update s.callers c x) d y) = total Caller.grows s.callers := by
    have hfirst := total_update Caller.grows s.callers c x
    have hsecond := total_update Caller.grows (Function.update s.callers c x) d y
    unfold Caller.grows at hfirst hsecond ⊢
    rw [hxpc] at hfirst
    rw [hypc] at hsecond
    omega
  refine ⟨?_, ?_, ?_⟩
  · rw [show total Caller.counted _ = total Caller.counted s.callers from hsame Pc.owed]
    exact K.use
  · rw [hgrows]
    exact K.capacity
  · rw [show total Caller.nodes _ = total Caller.nodes s.callers from hsame fun pc => pc.hands.toList.length]
    exact K.created

/-! ## Every step -/

structure Sound (L : Layout C) (s : Sys C) : Prop extends Fits L s, Counts L.free s

variable {L : Layout C} {s : Sys C}

/-- A step that only a caller and the counters notice. -/
theorem Sound.stay (S : Sound L s) {c : C} {m' : Pool} {pc pc' : Pc} (hpc : (s.callers c).pc = pc)
    (H : Later L c s.pool m') (htop : m'.topStamp = s.pool.topStamp) (hcreated : m'.created = s.pool.created)
    (hguards : m'.guards = s.pool.guards) (hseal : m'.seal = s.pool.seal) (hhands : pc'.hands = pc.hands)
    (hknows : pc'.Knows m') (huse : Counted s.pool.useCount m'.useCount pc.owed pc'.owed)
    (hcapacity : Counted s.pool.capacity m'.capacity pc.grows pc'.grows) :
    Sound L (Sys.mk m' (update s.callers c { s.callers c with pc := pc' })) := by
  subst hpc
  refine ⟨S.toFits.stay H htop hcreated hguards hseal hhands hknows, S.toCounts.update ?_ ?_ ?_⟩
  · unfold Caller.counted
    rcases huse with ⟨h, hn⟩ | ⟨h, hn⟩ | ⟨h, hn⟩
    · exact .same h (by rw [hn])
    · exact .up h (by rw [hn]; rfl)
    · exact .down h (by rw [hn]; rfl)
  · unfold Caller.grows
    rw [hcreated]
    rcases hcapacity with ⟨h, hn⟩ | ⟨h, hn⟩ | ⟨h, hn⟩
    · exact .same h (by rw [hn])
    · exact .up h (by rw [hn]; rfl)
    · exact .down h (by rw [hn]; rfl)
  · unfold Caller.nodes
    dsimp only
    rw [hcreated, hhands]

/-- A step that changes nothing but where the caller is. -/
theorem Sound.silent (S : Sound L s) {c : C} {pc pc' : Pc} (hpc : (s.callers c).pc = pc)
    (hhands : pc'.hands = pc.hands) (hknows : pc'.Knows s.pool) (howed : pc'.owed = pc.owed)
    (hgrows : pc'.grows = pc.grows) :
    Sound L (Sys.mk s.pool (update s.callers c { s.callers c with pc := pc' })) :=
  S.stay hpc (.refl L c _) rfl rfl rfl rfl hhands hknows (.same rfl howed) (.same rfl hgrows)

/-- **A step of a call.** -/
theorem Sound.go (S : Sound L s) {c : C} {pc : Pc} (hpc : (s.callers c).pc = pc) (hfresh : pc.Fresh s.pool) :
    ∃ L', Sound L' (Sys.mk (pc.run s.pool).1
      (update s.callers c ⟨(pc.run s.pool).2, pc.gets ++ (s.callers c).held⟩)) := by
  have K := S.knows c
  rw [hpc] at K
  cases pc with
  | idle => exact ⟨L, S.silent hpc rfl trivial rfl rfl⟩
  | loadTop =>
    rw [Pc.run]
    split
    · rename_i p hp
      exact ⟨L, S.silent hpc rfl ⟨.refl _, hp⟩ rfl rfl⟩
    · exact ⟨L, S.silent hpc rfl trivial rfl rfl⟩
  | loadNext top p =>
    exact ⟨L, S.silent hpc rfl ⟨K.1, K.2, fun _ => rfl⟩ rfl rfl⟩
  | casTop top p next =>
    rw [Pc.run]
    split
    · rename_i hsame
      have hsame := Stamped.eq_of_same K.1 hfresh hsame
      -- where it goes from here
      have htake : ∀ pc' : Pc, pc'.hands = some p → pc'.owed = 0 → pc'.grows = 0 →
          pc'.Knows { s.pool with topStamp := top.move next } →
          ∃ L', Sound L' (Sys.mk { s.pool with topStamp := top.move next }
            (update s.callers c ⟨pc', (s.callers c).held⟩)) := by
        intro pc' hhands howed hgrows hknows
        obtain ⟨free', hfree, F⟩ := S.toFits.take (x := ⟨pc', (s.callers c).held⟩) hpc hsame hhands rfl hknows
        refine ⟨_, F, S.toCounts.update (.same rfl ?_) (.same rfl ?_) ?_⟩
        · unfold Caller.counted
          rw [hpc, howed]
          rfl
        · unfold Caller.grows
          rw [hpc, hgrows]
          rfl
        · unfold Caller.nodes
          dsimp only
          rw [hpc, hhands, hfree, List.length_cons]
          show s.pool.created + (free'.length + 1) + ((s.callers c).held.length + 0) =
            s.pool.created + free'.length + ((s.callers c).held.length + 1)
          omega
      split
      · exact htake (.construct p) rfl rfl rfl trivial
      · exact htake (.countUse p) rfl rfl rfl trivial
    · exact ⟨L, S.silent hpc rfl trivial rfl rfl⟩
  | construct p => exact ⟨L, S.silent hpc rfl trivial rfl rfl⟩
  | countUse p =>
    exact ⟨L, S.stay hpc ⟨.refl _, fun _ _ _ => rfl⟩ rfl rfl rfl rfl rfl trivial (.up rfl rfl)
      (.same rfl rfl)⟩
  | growCapacity =>
    exact ⟨L, S.stay hpc ⟨.refl _, fun _ _ _ => rfl⟩ rfl rfl rfl rfl rfl trivial (.same rfl rfl)
      (.up rfl rfl)⟩
  | growUse =>
    exact ⟨L, S.stay hpc ⟨.refl _, fun _ _ _ => rfl⟩ rfl rfl rfl rfl rfl trivial (.up rfl rfl)
      (.same rfl rfl)⟩
  | create =>
    refine ⟨_, S.toFits.create hpc, S.toCounts.update (.same rfl ?_) (.same rfl ?_) ?_⟩
    · unfold Caller.counted
      rw [hpc]
      rfl
    · unfold Caller.grows
      rw [hpc]
      rfl
    · unfold Caller.nodes
      rw [hpc]
      show s.pool.created + 1 + L.free.length + ((s.callers c).held.length + 0) =
        s.pool.created + L.free.length + ((s.callers c).held.length + 1)
      omega
  | allocated p =>
    refine ⟨_, S.toFits.receive hpc, S.toCounts.update (.same rfl ?_) (.same rfl ?_) ?_⟩
    · unfold Caller.counted
      rw [hpc]
      rfl
    · unfold Caller.grows
      rw [hpc]
      rfl
    · unfold Caller.nodes
      rw [hpc]
      rfl
  | check p =>
    have hp : L.place p = .called c := (S.mem_hands c p).mp (by rw [hpc]; rfl)
    have hseal := S.sealed p (S.toFits.lt_created hp (by simp))
    have hrun : (Pc.check p).run s.pool =
        (s.pool, if s.pool.useCtor then .destruct p else .reloadTop p) := by
      rw [Pc.run, hseal, if_neg (fun h => h rfl), if_neg (fun h => h rfl), if_neg (fun h => h rfl)]
    rw [hrun]
    split
    · exact ⟨L, S.silent hpc rfl trivial rfl rfl⟩
    · exact ⟨L, S.silent hpc rfl trivial rfl rfl⟩
  | destruct p => exact ⟨L, S.silent hpc rfl trivial rfl rfl⟩
  | reloadTop p =>
    exact ⟨L, S.silent hpc rfl (Stamped.Was.refl _) rfl rfl⟩
  | storeNext p top =>
    have hp : L.place p = .called c := (S.mem_hands c p).mp (by rw [hpc]; rfl)
    refine ⟨L, S.stay hpc ⟨.refl _, fun q hq _ => ?_⟩ rfl rfl rfl rfl rfl ⟨K, ?_⟩ (.same rfl rfl)
      (.same rfl rfl)⟩
    · refine update_of_ne ?_ _ _
      rintro rfl
      exact hq hp
    · show update s.pool.next p top.node p = top.node
      rw [update_self]
  | pushTop p top =>
    rw [Pc.run]
    split
    · rename_i hsame
      refine ⟨_, S.toFits.give hpc (Stamped.eq_of_same K.1 hfresh hsame),
        S.toCounts.update (.same rfl ?_) (.same rfl ?_) ?_⟩
      · unfold Caller.counted
        rw [hpc]
        rfl
      · unfold Caller.grows
        rw [hpc]
        rfl
      · unfold Caller.nodes
        rw [hpc]
        show s.pool.created + L.free.length + ((s.callers c).held.length + 1) =
          s.pool.created + (L.free.length + 1) + ((s.callers c).held.length + 0)
        omega
    · exact ⟨L, S.silent hpc rfl trivial rfl rfl⟩
  | discountUse =>
    exact ⟨L, S.stay hpc ⟨.refl _, fun _ _ _ => rfl⟩ rfl rfl rfl rfl rfl trivial (.down rfl rfl)
      (.same rfl rfl)⟩
  | freed => exact ⟨L, S.silent hpc rfl trivial rfl rfl⟩
  | thrown text => exact K.elim

/-- **Every step.** -/
theorem Sound.step (S : Sound L s) (hfresh : s.Fresh) {a : Act C} {s' : Sys C}
    (h : LFObjectPool.step s a = some s') : ∃ L', Sound L' s' := by
  cases a with
  | alloc c =>
    simp only [LFObjectPool.step] at h
    split at h
    · rename_i hpc
      obtain rfl := Option.some.inj h
      exact ⟨L, S.silent hpc rfl trivial rfl rfl⟩
    · cases h
  | free c p =>
    simp only [LFObjectPool.step] at h
    split at h
    · rename_i hpc
      split at h
      · rename_i hheld
        obtain rfl := Option.some.inj h
        have hlength := List.length_erase_of_mem hheld
        have hpos := List.length_pos_of_mem hheld
        refine ⟨_, S.toFits.spend hpc hheld, S.toCounts.update (.same rfl ?_) (.same rfl ?_) ?_⟩
        · unfold Caller.counted
          rw [hpc]
          show ((s.callers c).held.erase p).length + 1 = (s.callers c).held.length + 0
          omega
        · unfold Caller.grows
          rw [hpc]
          rfl
        · unfold Caller.nodes
          rw [hpc]
          show s.pool.created + L.free.length + ((s.callers c).held.length + 0) =
            s.pool.created + L.free.length + (((s.callers c).held.erase p).length + 1)
          omega
      · cases h
    · cases h
  | go c =>
    have hrun : s' = Sys.mk (((s.callers c).pc).run s.pool).1
        (update s.callers c ⟨((s.callers c).pc.run s.pool).2, (s.callers c).pc.gets ++ (s.callers c).held⟩) := by
      simp only [LFObjectPool.step] at h
      split at h
      · cases h
      · exact (Option.some.inj h).symm
    rw [hrun]
    exact S.go rfl (hfresh c)
  | hand c d p =>
    simp only [LFObjectPool.step] at h
    split at h
    · rename_i hheld
      obtain rfl := Option.some.inj h
      exact ⟨_, S.toFits.hand hheld rfl rfl rfl rfl, S.toCounts.hand hheld rfl rfl rfl rfl⟩
    · cases h

/-! ## Every run -/

/-- The constructor's loop. -/
theorem pushMany_spec (m : Pool) (hcreated : m.created = 0) (htop : m.topStamp.node = none) (n : Nat) :
    (Pool.pushMany n m).created = n ∧
    Chain (Pool.pushMany n m).next (Pool.pushMany n m).topStamp.node (List.range n).reverse ∧
    (∀ p, p < n → (Pool.pushMany n m).guards p = (Pool.pushMany n m).seal) ∧
    (Pool.pushMany n m).useCount = m.useCount ∧ (Pool.pushMany n m).capacity = m.capacity := by
  induction n with
  | zero => exact ⟨hcreated, htop, fun p hp => absurd hp (Nat.not_lt_zero p), rfl, rfl⟩
  | succ n ih =>
    obtain ⟨hn, hchain, hseal, huse, hcapacity⟩ := ih
    rw [Pool.pushMany]
    generalize Pool.pushMany n m = m' at hn hchain hseal huse hcapacity
    subst hn
    have hnot : m'.created ∉ (List.range m'.created).reverse := by simp
    refine ⟨rfl, ?_, fun p hp => ?_, huse, hcapacity⟩
    · rw [List.range_succ, List.reverse_append]
      refine ⟨rfl, ?_⟩
      show Chain (update m'.newNode.next m'.created m'.topStamp.node)
        (update m'.newNode.next m'.created m'.topStamp.node m'.created) _
      rw [update_self]
      exact (hchain.update hnot).update hnot
    · show update m'.guards m'.created m'.seal p = m'.seal
      rw [update_apply]
      split
      · rfl
      · exact hseal p (by omega)

/-- All the nodes the constructor makes are free. -/
def Layout.new (C : Type) (n : Nat) : Layout C where
  free := (List.range n).reverse
  place p := if p < n then .free else .nowhere

theorem sound_new (before : Pool) (nodeNum : Nat) (useCtor : Bool) :
    Sound (Layout.new C nodeNum) (Sys.mk (.new before nodeNum useCtor) fun _ => {}) := by
  obtain ⟨hcreated, hchain, hseal, huse, hcapacity⟩ := pushMany_spec { before with
    useCtor := useCtor
    topStamp := ⟨0, none⟩
    capacity := .ofNat 32 nodeNum
    useCount := 0#32
    created := 0 } rfl rfl nodeNum
  have hzero : ∀ f : Caller → Nat, f {} = 0 → total f (fun _ : C => ({} : Caller)) = 0 :=
    fun f hf => total_eq_zero fun _ => hf
  have hfree : ∀ p, (Layout.new C nodeNum).place p = .free ↔ p < nodeNum := by
    intro p
    show (if p < nodeNum then Place.free else .nowhere) = Place.free ↔ _
    split
    · exact ⟨fun _ => ‹_›, fun _ => rfl⟩
    · exact ⟨fun h => (by cases h), fun h => absurd h ‹_›⟩
  have hother : ∀ p, (Layout.new C nodeNum).place p = .free ∨ (Layout.new C nodeNum).place p = .nowhere := by
    intro p
    show (if p < nodeNum then Place.free else .nowhere) = Place.free ∨ (if p < nodeNum then Place.free else .nowhere) = Place.nowhere
    split
    · exact .inl rfl
    · exact .inr rfl
  refine ⟨⟨hchain, fun p => ?_, fun c p => ?_, fun c p => ?_, fun p => ?_, fun c => List.nodup_nil, fun c => trivial,
    fun p hp => hseal p (by rw [← hcreated]; exact hp)⟩, ⟨?_, ?_, ?_⟩⟩
  · rw [hfree]
    show p ∈ (List.range nodeNum).reverse ↔ _
    rw [List.mem_reverse, List.mem_range]
  · refine ⟨fun h => absurd h List.not_mem_nil, fun h => ?_⟩
    rcases hother p with h' | h' <;> rw [h'] at h <;> cases h
  · refine ⟨fun h => (by cases h), fun h => ?_⟩
    rcases hother p with h' | h' <;> rw [h'] at h <;> cases h
  · show _ ↔ (Pool.pushMany nodeNum _).created ≤ p
    rw [hcreated]
    show (if p < nodeNum then Place.free else .nowhere) = Place.nowhere ↔ _
    split
    · exact ⟨fun h => (by cases h), fun h => absurd h (by omega)⟩
    · exact ⟨fun _ => Nat.le_of_not_lt ‹_›, fun _ => rfl⟩
  · rw [hzero _ rfl]
    exact huse
  · rw [hzero _ rfl]
    show (Pool.pushMany nodeNum _).capacity = BitVec.ofNat 32 ((Pool.pushMany nodeNum _).created + 0)
    rw [hcreated, hcapacity, Nat.add_zero]
  · rw [hzero _ rfl]
    show (Pool.pushMany nodeNum _).created = ((List.range nodeNum).reverse).length + 0
    rw [hcreated, List.length_reverse, List.length_range, Nat.add_zero]

/-- **Every run.** -/
theorem sound {s : Sys C} (h : Reachable (fresh C) s) : ∃ L, Sound L s := by
  refine h.invariant (I := fun s : Sys C => ∃ L, Sound L s) (fun s h0 => ?_) fun s s' _ I hn => ?_
  · obtain ⟨before, nodeNum, useCtor, rfl⟩ := h0
    exact ⟨_, sound_new before nodeNum useCtor⟩
  · obtain ⟨L, S⟩ := I
    obtain ⟨⟨a, ha⟩, hfresh⟩ := hn
    exact S.step hfresh ha

/-- `Free` does not throw. -/
theorem never_thrown {s : Sys C} (h : Reachable (fresh C) s) (c : C) (text : String) :
    (s.callers c).pc ≠ .thrown text := by
  intro hpc
  obtain ⟨L, S⟩ := sound h
  have K := S.knows c
  rw [hpc] at K
  exact K

theorem isCount {b : BitVec 32} {n : Nat} (h : b = BitVec.ofNat 32 n) : IsCount b n := by
  refine ⟨h, fun hlt => ?_⟩
  have hn : b.toNat = n := by
    rw [h, BitVec.toNat_ofNat]
    exact Nat.mod_eq_of_lt (by omega)
  rw [BitVec.toInt_eq_toNat_of_lt (by omega), hn]

theorem Sound.exclusive {L : Layout C} {s : Sys C} (S : Sound L s) : Exclusive s L.free := by
  have hidle : ∀ f : Pc → Nat, f .idle = 0 → (∀ c, (s.callers c).pc = .idle) →
      total (fun x : Caller => x.held.length + f x.pc) s.callers = ∑ c, (s.callers c).held.length := by
    intro f hf hrest
    refine Finset.sum_congr rfl fun c _ => ?_
    dsimp only
    rw [hrest c, hf, Nat.add_zero]
  have hgrows : (∀ c, (s.callers c).pc = .idle) → total Caller.grows s.callers = 0 := by
    intro hrest
    refine total_eq_zero fun c => ?_
    unfold Caller.grows
    rw [hrest c]
    rfl
  have huse : (∀ c, (s.callers c).pc = .idle) →
      s.pool.useCount = BitVec.ofNat 32 (∑ c, (s.callers c).held.length) := by
    intro hrest
    rw [S.use, show total Caller.counted s.callers = _ from hidle Pc.owed rfl hrest]
  have hcapacity : (∀ c, (s.callers c).pc = .idle) →
      s.pool.capacity = BitVec.ofNat 32 (∑ c, (s.callers c).held.length + L.free.length) := by
    intro hrest
    have hcreated := S.created
    rw [show total Caller.nodes s.callers = _ from hidle (fun pc => pc.hands.toList.length) rfl hrest] at hcreated
    rw [S.capacity, hgrows hrest, hcreated, Nat.add_zero, Nat.add_comm]
  refine ⟨fun c d p hc hd => ?_, S.once, fun c d p hc => ⟨fun hd => ?_, fun hd => ?_⟩, S.chain, S.chain.nodup,
    fun p => ⟨fun hp => ?_, fun ⟨hlt, hnone⟩ => ?_⟩, fun c p hp => ?_, fun hrest => isCount (huse hrest),
    fun hrest => ⟨?_, isCount (hcapacity hrest)⟩⟩
  · exact Place.held.inj (((S.mem_held c p).mp hc).symm.trans ((S.mem_held d p).mp hd))
  · have := ((S.mem_hands c p).mp hc).symm.trans ((S.mem_held d p).mp hd)
    cases this
  · exact Place.called.inj (((S.mem_hands c p).mp hc).symm.trans ((S.mem_hands d p).mp hd))
  · have hplace := (S.mem_free p).mp hp
    refine ⟨S.toFits.lt_created hplace (by simp), fun c => ⟨fun hc => ?_, fun hc => ?_⟩⟩
    · have := hplace.symm.trans ((S.mem_held c p).mp hc)
      cases this
    · have := hplace.symm.trans ((S.mem_hands c p).mp hc)
      cases this
  · -- a node has a place
    rw [S.mem_free]
    cases hplace : L.place p with
    | free => rfl
    | nowhere => exact absurd ((S.nowhere p).mp hplace) (by omega)
    | held c => exact absurd ((S.mem_held c p).mpr hplace) (hnone c).1
    | called c => exact absurd ((S.mem_hands c p).mpr hplace) (hnone c).2
  · rcases hp with hp | hp
    · exact S.toFits.lt_created ((S.mem_held c p).mp hp) (by simp)
    · exact S.toFits.lt_created ((S.mem_hands c p).mp hp) (by simp)
  · rw [hcapacity hrest, huse hrest, BitVec.ofNat_add]

/-- Inside of `Alloc`. -/
def Pc.allocates : Pc → Bool
  | .loadTop | .loadNext _ _ | .casTop _ _ _ | .construct _ | .countUse _ | .growCapacity | .growUse
  | .create | .allocated _ => true
  | _ => false

/-- Inside of `Free`. -/
def Pc.frees : Pc → Bool
  | .check _ | .destruct _ | .reloadTop _ | .storeNext _ _ | .pushTop _ _ | .discountUse | .freed => true
  | _ => false

/-- `Alloc` goes on until it returns. -/
theorem Pc.allocates_run (m : Pool) {pc : Pc} (h : pc.allocates = true) (hp : ∀ p, pc ≠ .allocated p) :
    (pc.run m).2.allocates = true := by
  cases pc with
  | allocated p => exact absurd rfl (hp p)
  | loadTop =>
    rw [Pc.run]
    split <;> rfl
  | casTop top p next =>
    rw [Pc.run]
    split
    · show (if m.useCtor = true then Pc.construct p else .countUse p).allocates = true
      split <;> rfl
    · rfl
  | loadNext _ _ | construct _ | countUse _ | growCapacity | growUse | create => rfl
  | _ => cases h

/-- And so does `Free`, unless it throws. -/
theorem Pc.frees_run (m : Pool) {pc : Pc} (h : pc.frees = true) (hfreed : pc ≠ .freed)
    (hthrown : ∀ text, (pc.run m).2 ≠ .thrown text) : (pc.run m).2.frees = true := by
  cases pc with
  | freed => exact absurd rfl hfreed
  | check p =>
    rw [Pc.run] at hthrown ⊢
    split at hthrown
    · exact absurd rfl (hthrown _)
    · rw [if_neg ‹_›]
      split at hthrown
      · exact absurd rfl (hthrown _)
      · rw [if_neg ‹_›]
        split at hthrown
        · exact absurd rfl (hthrown _)
        · rw [if_neg ‹_›]
          show (if m.useCtor = true then Pc.destruct p else .reloadTop p).frees = true
          split <;> rfl
  | pushTop p top =>
    rw [Pc.run]
    split <;> rfl
  | destruct _ | reloadTop _ | storeNext _ _ | discountUse => rfl
  | _ => cases h

section

variable {s : Sys C} {c d e : C} {p : Nat}

theorem Sys.alloc_next (h : (s.callers c).pc = .idle) : (system C).next s (s.alloc c) :=
  ⟨.alloc c, by rw [LFObjectPool.step, h]⟩

theorem Sys.free_next (h : (s.callers c).pc = .idle) (hp : p ∈ (s.callers c).held) :
    (system C).next s (s.free c p) := by
  refine ⟨.free c p, ?_⟩
  rw [LFObjectPool.step, h]
  exact if_pos hp

theorem Sys.go_next (h : (s.callers c).pc ≠ .idle) : (system C).next s (s.go c) := by
  refine ⟨.go c, ?_⟩
  rw [LFObjectPool.step]
  split
  · exact absurd ‹_› h
  · rfl

theorem Sys.hand_next (hp : p ∈ (s.callers c).held) : (system C).next s (s.hand c d p) :=
  ⟨.hand c d p, if_pos hp⟩

theorem Sys.go_callers (h : d ≠ c) : (s.go c).callers d = s.callers d := update_of_ne h ..

theorem Sys.go_self : (s.go c).callers c = ((s.callers c).run s.pool).2 := update_self ..

theorem Sys.hand_pc : ((s.hand c d p).callers e).pc = (s.callers e).pc := by
  have hset : ∀ (s : Sys C) (c : C) (l : List Nat) (e : C),
      ((s.set c { s.callers c with held := l }).callers e).pc = (s.callers e).pc := by
    intro s c l e
    show (update s.callers c { s.callers c with held := l } e).pc = _
    rw [update_apply]
    split
    · rename_i he
      rw [he]
    · rfl
  exact (hset _ d _ e).trans (hset s c _ e)

theorem Sys.hand_held (hd : e ≠ d) (hc : e ≠ c) : (s.hand c d p).callers e = s.callers e := by
  show update (update s.callers c _) d _ e = _
  rw [update_of_ne hd, update_of_ne hc]

theorem Sys.hand_from (h : c ≠ d) :
    ((s.hand c d p).callers c).held = (s.callers c).held.erase p := by
  show (update (update s.callers c { s.callers c with held := (s.callers c).held.erase p }) d _ c).held = _
  rw [update_of_ne h, update_self]

theorem Sys.hand_to (h : c ≠ d) : ((s.hand c d p).callers d).held = p :: (s.callers d).held := by
  show (update (update s.callers c _) d { update s.callers c _ d with
    held := p :: (update s.callers c _ d).held } d).held = _
  rw [update_self, update_of_ne h.symm]

end

/-! ## Replaying a schedule -/

instance decidableFresh (m : Pool) : (pc : Pc) → Decidable (pc.Fresh m)
  | .loadNext top _ | .casTop top _ _ | .storeNext _ top | .pushTop _ top =>
    inferInstanceAs (Decidable (m.topStamp.count < top.count + 131072))
  | .idle | .loadTop | .construct _ | .countUse _ | .growCapacity | .growUse | .create | .allocated _ | .check _
  | .destruct _ | .reloadTop _ | .discountUse | .freed | .thrown _ => .isTrue trivial

instance (s : Sys C) : Decidable s.Fresh := inferInstanceAs (Decidable (∀ c, _))

/-- A step, if no copy is too old. -/
def freshStep (s : Sys C) : Act C → Option (Sys C) := gate step (fun s _ => decide s.Fresh) s

theorem fresh_next (s : Sys C) (a : Act C) (s' : Sys C) (h : freshStep s a = some s') : (fresh C).next s s' :=
  next_of_decide (M := system C) (fun _ a _ ha => ⟨a, ha⟩) s a s' h

/-- Memory that nobody has written to. -/
def blank : Pool := ⟨7, false, ⟨0, none⟩, 0#32, 0#32, fun _ => none, fun _ => ⟨0, 0, 0⟩, 0⟩

end JunCore.LFObjectPool
