/-
  `JunCommon/synchronization/RecursiveLock.h` and `RecursiveLock.cpp`: a lock that its holder may take
  again.

  Beside the SRW lock there are two words: `thread_id`, which `Lock` reads before it has the SRW lock, and
  `lockCount`.  Every access to one of them is a step of its own, and so are acquiring and releasing the
  SRW lock; `lockCount++` and `lockCount--` are a load and a store.  Any number of threads, any
  interleaving.

  Who reads its own id in `thread_id` has written it there, and takes it out before it releases the SRW
  lock.  So whoever the id of a thread is read by, the words belong to the thread that has the SRW lock
  (`Owned`), and between its calls they say who it is and how often it has locked.

  `lockCount` is an `int`: with 2^31 locks it is negative (`count_wraps`).
-/
import JunCore.Lib.Transition
import Mathlib.Data.Fintype.Defs
import Mathlib.Data.Fintype.Basic

set_option linter.unusedVariables false
set_option linter.unusedSectionVars false

namespace JunCore.RecursiveLock

open Transition Function

/-! ## The program -/

abbrev Dword := BitVec 32

/-- `(DWORD)-1` -/
def noThread : Dword := 0xFFFFFFFF#32

/-- What `GetCurrentThreadId` returns in each thread. -/
structure ThreadIds (T : Type) where
  id : T → Dword
  distinct : ∀ t u, id t = id u → t = u
  notReserved : ∀ t, id t ≠ noThread

/-- The next thing a thread does. -/
inductive Pc
  | idle
  -- `Lock`
  | readId
  | loadUp
  | storeUp (n : BitVec 32)
  | acquire
  | loadFirst
  | storeFirst (n : BitVec 32)
  | storeId
  -- `Unlock`
  | testCount
  | loadDown
  | storeDown (n : BitVec 32)
  | clearId
  | loadLast
  | storeLast (n : BitVec 32)
  | release
  deriving DecidableEq

structure Thread where
  pc : Pc := .idle
  /-- the calls of `Lock` that have returned, less those of `Unlock` -/
  depth : Nat := 0

structure Shared where
  /-- `lock` is held exclusively -/
  locked : Bool := false
  threadId : Dword := noThread
  lockCount : BitVec 32 := 0#32

inductive Input
  | callLock
  | callUnlock
  | advance

/-- The calls are balanced: who has not locked does not call `Unlock`. -/
def Thread.step (id : Dword) (g : Shared) (x : Thread) : Input → Option (Shared × Thread)
  | .callLock => match x.pc with
    | .idle => some (g, { x with pc := .readId })
    | _ => none
  | .callUnlock => match x.pc with
    | .idle => if 0 < x.depth then some (g, { x with pc := .testCount }) else none
    | _ => none
  | .advance => match x.pc with
    | .idle => none
    | .readId => some (g, { x with pc := if id = g.threadId then .loadUp else .acquire })
    | .loadUp => some (g, { x with pc := .storeUp g.lockCount })
    | .storeUp n => some ({ g with lockCount := n + 1#32 }, { pc := .idle, depth := x.depth + 1 })
    | .acquire =>
        if g.locked = true then none else some ({ g with locked := true }, { x with pc := .loadFirst })
    | .loadFirst => some (g, { x with pc := .storeFirst g.lockCount })
    | .storeFirst n => some ({ g with lockCount := n + 1#32 }, { x with pc := .storeId })
    | .storeId => some ({ g with threadId := id }, { pc := .idle, depth := x.depth + 1 })
    | .testCount => some (g, { x with pc := if (1#32).slt g.lockCount then .loadDown else .clearId })
    | .loadDown => some (g, { x with pc := .storeDown g.lockCount })
    | .storeDown n => some ({ g with lockCount := n - 1#32 }, { pc := .idle, depth := x.depth - 1 })
    | .clearId => some ({ g with threadId := noThread }, { x with pc := .loadLast })
    | .loadLast => some (g, { x with pc := .storeLast g.lockCount })
    | .storeLast n => some ({ g with lockCount := n - 1#32 }, { x with pc := .release })
    | .release => some ({ g with locked := false }, { pc := .idle, depth := x.depth - 1 })

variable {T : Type} [DecidableEq T]

structure Sys (T : Type) where
  shared : Shared := {}
  threads : T → Thread := fun _ => {}

def step (ids : ThreadIds T) (s : Sys T) (e : T × Input) : Option (Sys T) :=
  ((s.threads e.1).step (ids.id e.1) s.shared e.2).map fun r => ⟨r.1, update s.threads e.1 r.2⟩

def recursiveLock (ids : ThreadIds T) : System (Sys T) where
  init s := s = {}
  next s s' := ∃ e, step ids s e = some s'

/-- Nobody locks more often than an `int` can count. -/
def Shallow (s : Sys T) : Prop := ∀ t, (s.threads t).depth ≤ 2147483647

instance [Fintype T] (s : Sys T) : Decidable (Shallow s) :=
  inferInstanceAs (Decidable (∀ t, (s.threads t).depth ≤ 2147483647))

/-! ## What is to hold -/

/-- It has acquired the SRW lock in a call of `Lock` that has not returned yet. -/
def Pc.entered : Pc → Bool
  | .loadFirst | .storeFirst _ | .storeId => true
  | _ => false

/-- It has the lock: from the end of `AcquireSRWLockExclusive` to `ReleaseSRWLockExclusive`. -/
def Thread.Holds (x : Thread) : Prop := 0 < x.depth ∨ x.pc.entered = true

/-- **The lock excludes and counts.** -/
structure Excludes (s : Sys T) : Prop where
  one : ∀ t u, (s.threads t).Holds → (s.threads u).Holds → t = u
  count : ∀ t, (s.threads t).Holds → (s.threads t).pc = .idle →
    s.shared.lockCount.toInt = (s.threads t).depth
  locked : s.shared.locked = true ↔ ∃ t, (s.threads t).Holds

/-- A step releases the SRW lock exactly if an outermost `Unlock` finishes with it. -/
def ReleasesLast (s s' : Sys T) : Prop :=
  s.shared.locked = true ∧ s'.shared.locked = false ↔
    ∃ t, (s.threads t).depth = 1 ∧ (s'.threads t).depth = 0

/-! ## What the steps do -/

theorem step_cases {ids : ThreadIds T} {s s' : Sys T} {e : T × Input} (h : step ids s e = some s') :
    ∃ g x, (s.threads e.1).step (ids.id e.1) s.shared e.2 = some (g, x) ∧
      s' = ⟨g, update s.threads e.1 x⟩ := by
  rw [step, Option.map_eq_some_iff] at h
  obtain ⟨⟨g, x⟩, hstep, rfl⟩ := h
  exact ⟨g, x, hstep, rfl⟩

inductive Thread.Moves (id : Dword) (g : Shared) : Thread → Shared → Thread → Prop
  | callLock (d : Nat) : Moves id g ⟨.idle, d⟩ g ⟨.readId, d⟩
  | callUnlock (d : Nat) : Moves id g ⟨.idle, d + 1⟩ g ⟨.testCount, d + 1⟩
  | again (d : Nat) : id = g.threadId → Moves id g ⟨.readId, d⟩ g ⟨.loadUp, d⟩
  | first (d : Nat) : id ≠ g.threadId → Moves id g ⟨.readId, d⟩ g ⟨.acquire, d⟩
  | loadUp (d : Nat) : Moves id g ⟨.loadUp, d⟩ g ⟨.storeUp g.lockCount, d⟩
  | storeUp (n : BitVec 32) (d : Nat) :
      Moves id g ⟨.storeUp n, d⟩ { g with lockCount := n + 1#32 } ⟨.idle, d + 1⟩
  | acquire (d : Nat) : g.locked = false → Moves id g ⟨.acquire, d⟩ { g with locked := true } ⟨.loadFirst, d⟩
  | loadFirst (d : Nat) : Moves id g ⟨.loadFirst, d⟩ g ⟨.storeFirst g.lockCount, d⟩
  | storeFirst (n : BitVec 32) (d : Nat) :
      Moves id g ⟨.storeFirst n, d⟩ { g with lockCount := n + 1#32 } ⟨.storeId, d⟩
  | storeId (d : Nat) : Moves id g ⟨.storeId, d⟩ { g with threadId := id } ⟨.idle, d + 1⟩
  | nested (d : Nat) : (1#32).slt g.lockCount = true → Moves id g ⟨.testCount, d⟩ g ⟨.loadDown, d⟩
  | outermost (d : Nat) : (1#32).slt g.lockCount = false → Moves id g ⟨.testCount, d⟩ g ⟨.clearId, d⟩
  | loadDown (d : Nat) : Moves id g ⟨.loadDown, d⟩ g ⟨.storeDown g.lockCount, d⟩
  | storeDown (n : BitVec 32) (d : Nat) :
      Moves id g ⟨.storeDown n, d⟩ { g with lockCount := n - 1#32 } ⟨.idle, d - 1⟩
  | clearId (d : Nat) : Moves id g ⟨.clearId, d⟩ { g with threadId := noThread } ⟨.loadLast, d⟩
  | loadLast (d : Nat) : Moves id g ⟨.loadLast, d⟩ g ⟨.storeLast g.lockCount, d⟩
  | storeLast (n : BitVec 32) (d : Nat) :
      Moves id g ⟨.storeLast n, d⟩ { g with lockCount := n - 1#32 } ⟨.release, d⟩
  | release (d : Nat) : Moves id g ⟨.release, d⟩ { g with locked := false } ⟨.idle, d - 1⟩

theorem Thread.step_moves {id : Dword} {g g' : Shared} {x x' : Thread} {input : Input}
    (h : x.step id g input = some (g', x')) : x.Moves id g g' x' := by
  obtain ⟨pc, d⟩ := x
  cases input with
  | callLock =>
    cases pc <;> simp only [Thread.step, Option.some.injEq, Prod.mk.injEq, reduceCtorEq] at h
    obtain ⟨rfl, rfl⟩ := h
    exact .callLock d
  | callUnlock =>
    cases pc <;> simp only [Thread.step, reduceCtorEq] at h
    split at h
    · obtain ⟨rfl, rfl⟩ := Prod.mk.inj (Option.some.inj h)
      obtain ⟨n, rfl⟩ := Nat.exists_eq_succ_of_ne_zero (by omega : d ≠ 0)
      exact .callUnlock n
    · cases h
  | advance =>
    cases pc with
    | idle => cases h
    | readId =>
      obtain ⟨rfl, rfl⟩ := Prod.mk.inj (Option.some.inj h)
      by_cases hid : id = g.threadId
      · rw [if_pos hid]
        exact .again d hid
      · rw [if_neg hid]
        exact .first d hid
    | acquire =>
      simp only [Thread.step] at h
      split at h
      · cases h
      · obtain ⟨rfl, rfl⟩ := Prod.mk.inj (Option.some.inj h)
        exact .acquire d (Bool.not_eq_true _ ▸ ‹_›)
    | testCount =>
      obtain ⟨rfl, rfl⟩ := Prod.mk.inj (Option.some.inj h)
      by_cases hcount : (1#32).slt g.lockCount = true
      · rw [if_pos hcount]
        exact .nested d hcount
      · rw [if_neg hcount]
        exact .outermost d (Bool.not_eq_true _ ▸ hcount)
    | loadUp =>
      obtain ⟨rfl, rfl⟩ := Prod.mk.inj (Option.some.inj h)
      exact .loadUp d
    | storeUp n =>
      obtain ⟨rfl, rfl⟩ := Prod.mk.inj (Option.some.inj h)
      exact .storeUp n d
    | loadFirst =>
      obtain ⟨rfl, rfl⟩ := Prod.mk.inj (Option.some.inj h)
      exact .loadFirst d
    | storeFirst n =>
      obtain ⟨rfl, rfl⟩ := Prod.mk.inj (Option.some.inj h)
      exact .storeFirst n d
    | storeId =>
      obtain ⟨rfl, rfl⟩ := Prod.mk.inj (Option.some.inj h)
      exact .storeId d
    | loadDown =>
      obtain ⟨rfl, rfl⟩ := Prod.mk.inj (Option.some.inj h)
      exact .loadDown d
    | storeDown n =>
      obtain ⟨rfl, rfl⟩ := Prod.mk.inj (Option.some.inj h)
      exact .storeDown n d
    | clearId =>
      obtain ⟨rfl, rfl⟩ := Prod.mk.inj (Option.some.inj h)
      exact .clearId d
    | loadLast =>
      obtain ⟨rfl, rfl⟩ := Prod.mk.inj (Option.some.inj h)
      exact .loadLast d
    | storeLast n =>
      obtain ⟨rfl, rfl⟩ := Prod.mk.inj (Option.some.inj h)
      exact .storeLast n d
    | release =>
      obtain ⟨rfl, rfl⟩ := Prod.mk.inj (Option.some.inj h)
      exact .release d

/-! ## The words belong to the owner -/

/-- What the thread that has the SRW lock knows of the two words. -/
def Thread.Owns (id : Dword) (g : Shared) (x : Thread) : Prop :=
  match x.pc with
  | .idle | .readId | .loadUp | .testCount =>
      0 < x.depth ∧ g.threadId = id ∧ g.lockCount = BitVec.ofNat 32 x.depth
  | .storeUp n => 0 < x.depth ∧ g.threadId = id ∧ g.lockCount = BitVec.ofNat 32 x.depth ∧ n = g.lockCount
  | .acquire => False
  | .loadFirst => x.depth = 0 ∧ g.threadId = noThread ∧ g.lockCount = 0#32
  | .storeFirst n => x.depth = 0 ∧ g.threadId = noThread ∧ g.lockCount = 0#32 ∧ n = 0#32
  | .storeId => x.depth = 0 ∧ g.threadId = noThread ∧ g.lockCount = 1#32
  | .loadDown => 1 < x.depth ∧ g.threadId = id ∧ g.lockCount = BitVec.ofNat 32 x.depth
  | .storeDown n => 1 < x.depth ∧ g.threadId = id ∧ g.lockCount = BitVec.ofNat 32 x.depth ∧ n = g.lockCount
  | .clearId => x.depth = 1 ∧ g.threadId = id ∧ g.lockCount = 1#32
  | .loadLast => x.depth = 1 ∧ g.threadId = noThread ∧ g.lockCount = 1#32
  | .storeLast n => x.depth = 1 ∧ g.threadId = noThread ∧ g.lockCount = 1#32 ∧ n = 1#32
  | .release => x.depth = 1 ∧ g.threadId = noThread ∧ g.lockCount = 0#32

/-- The others have locked nothing, and come no further than to wait. -/
def Thread.Outside (x : Thread) : Prop := x.depth = 0 ∧ (x.pc = .idle ∨ x.pc = .readId ∨ x.pc = .acquire)

/-- The words when nobody has the SRW lock. -/
def Shared.Free (g : Shared) : Prop := g.threadId = noThread ∧ g.lockCount = 0#32

theorem slt_ofNat {d : Nat} (h : d ≤ 2147483647) : (1#32).slt (BitVec.ofNat 32 d) = decide (1 < d) := by
  rw [BitVec.slt_eq_decide, decide_eq_decide]
  have hone : (1#32).toInt = 1 := by decide
  have hd : (BitVec.ofNat 32 d).toInt = d := by
    rw [BitVec.toInt_eq_toNat_of_lt (by rw [BitVec.toNat_ofNat]; omega), BitVec.toNat_ofNat]
    omega
  rw [hone, hd]
  omega

/-- A step of the owner: it stays the owner, or releases the lock. -/
theorem Thread.Moves.owns {id : Dword} {g g' : Shared} {x x' : Thread} (M : x.Moves id g g' x')
    (O : x.Owns id g) (hdepth : x.depth ≤ 2147483647) :
    x'.Owns id g' ∧ g'.locked = g.locked ∧ (x.depth = 1 → x'.depth ≠ 0) ∨
      x.depth = 1 ∧ x'.Outside ∧ g'.Free ∧ g'.locked = false := by
  have hstay : x.depth = 1 → x.depth ≠ 0 := fun h => by omega
  cases M with
  | callLock d => exact .inl ⟨O, rfl, hstay⟩
  | callUnlock d => exact .inl ⟨O, rfl, hstay⟩
  | again d hid => exact .inl ⟨O, rfl, hstay⟩
  | first d hid => exact absurd O.2.1.symm hid
  | loadUp d => exact .inl ⟨⟨O.1, O.2.1, O.2.2, rfl⟩, rfl, hstay⟩
  | storeUp n d =>
    obtain ⟨hpos, hid, hcount, rfl⟩ := O
    refine .inl ⟨⟨Nat.succ_pos d, hid, ?_⟩, rfl, fun _ => Nat.succ_ne_zero d⟩
    dsimp only at hcount ⊢
    rw [hcount, BitVec.ofNat_add]
  | acquire d hfree => exact O.elim
  | loadFirst d => exact .inl ⟨⟨O.1, O.2.1, O.2.2, O.2.2⟩, rfl, hstay⟩
  | storeFirst n d =>
    obtain ⟨hzero, hid, hcount, rfl⟩ := O
    exact .inl ⟨⟨hzero, hid, rfl⟩, rfl, hstay⟩
  | storeId d =>
    obtain ⟨hzero, hid, hcount⟩ := O
    refine .inl ⟨⟨Nat.succ_pos d, rfl, ?_⟩, rfl, fun _ => Nat.succ_ne_zero d⟩
    dsimp only at hzero hcount ⊢
    rw [hcount, hzero]
  | nested d hslt =>
    obtain ⟨hpos, hid, hcount⟩ := O
    rw [hcount, slt_ofNat hdepth, decide_eq_true_eq] at hslt
    exact .inl ⟨⟨hslt, hid, hcount⟩, rfl, hstay⟩
  | outermost d hslt =>
    obtain ⟨hpos, hid, hcount⟩ := O
    rw [hcount, slt_ofNat hdepth, decide_eq_false_iff_not] at hslt
    obtain rfl : d = 1 := by
      dsimp only at hpos hslt
      omega
    exact .inl ⟨⟨rfl, hid, hcount⟩, rfl, hstay⟩
  | loadDown d => exact .inl ⟨⟨O.1, O.2.1, O.2.2, rfl⟩, rfl, hstay⟩
  | storeDown n d =>
    obtain ⟨hpos, hid, hcount, rfl⟩ := O
    dsimp only at hpos hcount
    refine .inl ⟨⟨by dsimp only; omega, hid, ?_⟩, rfl, fun h => by dsimp only at h; omega⟩
    dsimp only
    obtain ⟨k, rfl⟩ := Nat.exists_eq_succ_of_ne_zero (by omega : d ≠ 0)
    rw [hcount, Nat.succ_eq_add_one, BitVec.ofNat_add, Nat.add_sub_cancel, BitVec.add_sub_cancel]
  | clearId d => exact .inl ⟨⟨O.1, rfl, O.2.2⟩, rfl, hstay⟩
  | loadLast d => exact .inl ⟨⟨O.1, O.2.1, O.2.2, O.2.2⟩, rfl, hstay⟩
  | storeLast n d =>
    obtain ⟨hone, hid, hcount, rfl⟩ := O
    exact .inl ⟨⟨hone, hid, rfl⟩, rfl, hstay⟩
  | release d =>
    obtain ⟨hone, hid, hcount⟩ := O
    refine .inr ⟨hone, ⟨?_, .inl rfl⟩, ⟨hid, hcount⟩, rfl⟩
    dsimp only at hone ⊢
    omega

/-- A step of another thread: it writes nothing, or acquires the SRW lock. -/
theorem Thread.Moves.outside {id : Dword} {g g' : Shared} {x x' : Thread} (M : x.Moves id g g' x')
    (O : x.Outside) (hid : g.threadId ≠ id) :
    x'.Outside ∧ g' = g ∨ g.locked = false ∧ g' = { g with locked := true } ∧ x' = ⟨.loadFirst, 0⟩ := by
  obtain ⟨hzero, hpc⟩ := O
  cases M with
  | callLock d => exact .inl ⟨⟨hzero, .inr (.inl rfl)⟩, rfl⟩
  | callUnlock d => cases hzero
  | again d hsame => exact absurd hsame.symm hid
  | first d hdiff => exact .inl ⟨⟨hzero, .inr (.inr rfl)⟩, rfl⟩
  | acquire d hfree => exact .inr ⟨hfree, rfl, congrArg (Thread.mk .loadFirst) hzero⟩
  | _ => simp at hpc

/-! ## Every run -/

/-- Who owns the words: one thread with the SRW lock, or nobody. -/
structure Owned (ids : ThreadIds T) (s : Sys T) (owner : Option T) : Prop where
  owns : ∀ t, owner = some t → (s.threads t).Owns (ids.id t) s.shared
  outside : ∀ t, owner ≠ some t → (s.threads t).Outside
  free : owner = none → s.shared.Free
  locked : s.shared.locked = owner.isSome
  shallow : Shallow s

namespace Owned

variable {ids : ThreadIds T} {s s' : Sys T} {owner : Option T}

/-- The id in the word is the owner's, or that of no thread. -/
theorem threadId_ne (O : Owned ids s owner) {t : T} (ht : owner ≠ some t) : s.shared.threadId ≠ ids.id t := by
  cases howner : owner with
  | none =>
    rw [(O.free howner).1]
    exact (ids.notReserved t).symm
  | some u =>
    have hu := O.owns u howner
    have hne : ids.id u ≠ ids.id t := fun h => ht (by rw [howner, ids.distinct u t h])
    unfold Thread.Owns at hu
    split at hu <;> first | exact hu.elim | (rw [hu.2.1]; first | exact hne | exact (ids.notReserved t).symm)

/-- **One step.**  The owner stays the owner, or is done with the lock, or somebody acquires it. -/
theorem step (O : Owned ids s owner) {e : T × Input} (h : step ids s e = some s') (hshallow : Shallow s') :
    Owned ids s' owner ∧ (∀ t, (s.threads t).depth = 1 → (s'.threads t).depth ≠ 0) ∨
    owner = some e.1 ∧ (s.threads e.1).depth = 1 ∧ Owned ids s' none ∨
    owner = none ∧ Owned ids s' (some e.1) := by
  obtain ⟨t, input⟩ := e
  obtain ⟨g, x, hstep, rfl⟩ := step_cases h
  have M := Thread.step_moves hstep
  dsimp only at M hshallow ⊢
  have hself : update s.threads t x t = x := update_self ..
  have hother : ∀ u, u ≠ t → update s.threads t x u = s.threads u := fun u hu => update_of_ne hu ..
  have hrest : x.Outside → (∀ u, u ≠ t → (s.threads u).Outside) → ∀ u, (update s.threads t x u).Outside := by
    intro hx hall u
    by_cases hu : u = t
    · rw [hu, hself]
      exact hx
    · rw [hother u hu]
      exact hall u hu
  by_cases ht : owner = some t
  · have hall : ∀ u, u ≠ t → (s.threads u).Outside := fun u hu =>
      O.outside u fun h => hu (Option.some.inj (h.symm.trans ht))
    rcases M.owns (O.owns t ht) (O.shallow t) with ⟨hx, hlocked, hdepth⟩ | ⟨hone, hx, hfree, hlocked⟩
    · refine .inl ⟨⟨fun u hu => ?_, fun u hu => ?_, fun hnone => ?_, hlocked.trans O.locked, hshallow⟩,
        fun u hu => ?_⟩
      · obtain rfl : t = u := Option.some.inj (ht.symm.trans hu)
        dsimp only
        rw [hself]
        exact hx
      · have hut : u ≠ t := fun h => hu (h ▸ ht)
        dsimp only
        rw [hother u hut]
        exact hall u hut
      · rw [ht] at hnone
        cases hnone
      · by_cases hut : u = t
        · subst hut
          rw [hself]
          exact hdepth hu
        · have hzero := (hall u hut).1
          omega
    · exact .inr (.inl ⟨ht, hone, fun u hu => (by cases hu), fun u _ => hrest hx hall u, fun _ => hfree,
        hlocked, hshallow⟩)
  · rcases M.outside (O.outside t ht) (O.threadId_ne ht) with ⟨hx, rfl⟩ | ⟨hfree, rfl, rfl⟩
    · refine .inl ⟨⟨fun u hu => ?_, fun u hu => ?_, O.free, O.locked, hshallow⟩, fun u hu => ?_⟩
      · dsimp only
        rw [hother u fun h => ht (h ▸ hu)]
        exact O.owns u hu
      · by_cases hut : u = t
        · subst hut
          dsimp only
          rw [hself]
          exact hx
        · dsimp only
          rw [hother u hut]
          exact O.outside u hu
      · have hut : u ≠ t := by
          rintro rfl
          have hzero := (O.outside u ht).1
          omega
        rw [hother u hut]
        omega
    · have hnone : owner = none := by
        have hlocked := O.locked
        rw [hfree] at hlocked
        cases owner with
        | none => rfl
        | some u => cases hlocked
      refine .inr (.inr ⟨hnone, ⟨fun u hu => ?_, fun u hu => ?_, fun hsome => (by cases hsome), rfl, hshallow⟩⟩)
      · obtain rfl := Option.some.inj hu
        dsimp only
        rw [hself]
        exact ⟨rfl, O.free hnone⟩
      · dsimp only
        rw [hother u fun h => hu (by rw [h])]
        exact O.outside u fun h => by rw [hnone] at h; cases h

/-- Who owns the words is who has the lock. -/
theorem holds_iff (O : Owned ids s owner) (t : T) : (s.threads t).Holds ↔ owner = some t := by
  constructor
  · intro hholds
    by_contra ht
    obtain ⟨hzero, hpc⟩ := O.outside t ht
    rcases hholds with hpos | hentered
    · omega
    · rcases hpc with hpc | hpc | hpc <;> rw [hpc] at hentered <;> cases hentered
  · intro ht
    have hown := O.owns t ht
    unfold Thread.Owns at hown
    unfold Thread.Holds
    split at hown <;> rename_i hpc
    all_goals first
      | exact hown.elim
      | exact .inl (by omega)
      | exact .inr (by rw [hpc]; rfl)

theorem excludes (O : Owned ids s owner) : Excludes s where
  one t u ht hu := Option.some.inj (((O.holds_iff t).mp ht).symm.trans ((O.holds_iff u).mp hu))
  count t ht hpc := by
    have hown := O.owns t ((O.holds_iff t).mp ht)
    rw [Thread.Owns, hpc] at hown
    have hdepth := O.shallow t
    rw [hown.2.2, BitVec.toInt_eq_toNat_of_lt (by rw [BitVec.toNat_ofNat]; omega), BitVec.toNat_ofNat]
    omega
  locked := by
    rw [O.locked, Option.isSome_iff_exists]
    exact exists_congr fun t => (O.holds_iff t).symm

theorem releasesLast (O : Owned ids s owner) {e : T × Input} (h : RecursiveLock.step ids s e = some s')
    (hshallow : Shallow s') : ReleasesLast s s' := by
  rcases O.step h hshallow with ⟨O', hdepth⟩ | ⟨howner, hone, O'⟩ | ⟨hnone, O'⟩
  · refine ⟨fun hlocks => ?_, fun ⟨t, hone, hzero⟩ => absurd hzero (hdepth t hone)⟩
    rw [O.locked, O'.locked] at hlocks
    exact absurd hlocks.1 (by rw [hlocks.2]; decide)
  · refine ⟨fun _ => ⟨e.1, hone, (O'.outside e.1 fun h => by cases h).1⟩, fun _ => ?_⟩
    rw [O.locked, O'.locked, howner]
    exact ⟨rfl, rfl⟩
  · refine ⟨fun hlocks => ?_, fun ⟨t, hone, _⟩ => ?_⟩
    · rw [O.locked, hnone] at hlocks
      cases hlocks.1
    · have hzero := (O.outside t fun h => by rw [hnone] at h; cases h).1
      omega

end Owned

theorem owned {ids : ThreadIds T} {s : Sys T}
    (h : Reachable ((recursiveLock ids).guard fun _ s' => Shallow s') s) : ∃ owner, Owned ids s owner := by
  refine h.invariant (I := fun s => ∃ owner, Owned ids s owner) ?_ ?_
  · rintro s rfl
    exact ⟨none, ⟨fun t ht => (by cases ht), fun t _ => ⟨rfl, .inl rfl⟩, fun _ => ⟨rfl, rfl⟩, rfl,
      fun t => Nat.zero_le _⟩⟩
  · rintro s s' _ ⟨owner, O⟩ ⟨⟨e, he⟩, hshallow⟩
    rcases O.step he hshallow with ⟨O', -⟩ | ⟨-, -, O'⟩ | ⟨-, O'⟩
    · exact ⟨owner, O'⟩
    · exact ⟨none, O'⟩
    · exact ⟨some e.1, O'⟩

/-- **The recursive lock**: at any time one thread has it, and between its calls the count is its depth;
    and the SRW lock is released when an outermost `Unlock` finishes, and never else. -/
theorem recursive_lock (ids : ThreadIds T) (s : Sys T)
    (h : Reachable ((recursiveLock ids).guard fun _ s' => Shallow s') s) :
    Excludes s ∧ ∀ s', (recursiveLock ids).next s s' → Shallow s' → ReleasesLast s s' := by
  obtain ⟨owner, O⟩ := owned h
  exact ⟨O.excludes, fun s' ⟨e, he⟩ hshallow => O.releasesLast he hshallow⟩

/-! ## Two runs -/

def ids2 : ThreadIds Bool where
  id t := if t then 17#32 else 42#32
  distinct := by decide
  notReserved := by decide

/-- The calls of `Lock` and `Unlock` without delay. -/
def first (t : Bool) : List (Bool × Input) := (t, .callLock) :: .replicate 5 (t, .advance)

def again (t : Bool) : List (Bool × Input) := (t, .callLock) :: .replicate 3 (t, .advance)

/-- A thread has locked twice, and the other one waits. -/
theorem recursive_lock_two : ∃ s : Sys Bool,
    (Excludes s ∧ ∀ s', (recursiveLock ids2).next s s' → Shallow s' → ReleasesLast s s') ∧
      (s.threads true).depth = 2 ∧ (s.threads false).pc = .acquire := by
  have hinit : ((recursiveLock ids2).guard fun _ s' => Shallow s').init {} := rfl
  obtain ⟨s, hr, hp⟩ := exists_reachable_of_exec hinit
    (next_of_decide (M := recursiveLock ids2) fun _ e _ he => ⟨e, he⟩)
    (first true ++ [(false, .callLock)] ++ again true ++ [(false, .advance)])
    (fun s => decide ((s.threads true).depth = 2 ∧ (s.threads false).pc = .acquire)) (by decide +kernel)
  exact ⟨s, recursive_lock ids2 s hr, of_decide_eq_true hp⟩

/-! ## The count comes round -/

/-- One thread has locked `n` times more than it has unlocked. -/
structure Deep (n : Nat) (s : Sys Bool) : Prop where
  reachable : Reachable (recursiveLock ids2) s
  shared : s.shared = ⟨true, 17#32, BitVec.ofNat 32 n⟩
  thread : s.threads true = ⟨.idle, n⟩

theorem deeper {n : Nat} {s : Sys Bool} (D : Deep n s) : ∃ s', Deep (n + 1) s' := by
  obtain ⟨g, threads⟩ := s
  obtain ⟨hr, hg, ht⟩ := D
  dsimp only at hg ht
  subst hg
  have hexec : exec (step ids2) (again true) ⟨⟨true, 17#32, BitVec.ofNat 32 n⟩, threads⟩ =
      some ⟨⟨true, 17#32, BitVec.ofNat 32 n + 1#32⟩, update threads true ⟨.idle, n + 1⟩⟩ := by
    simp [again, exec, step, Thread.step, ht, List.replicate, ids2]
  refine ⟨_, reachable_of_exec (M := recursiveLock ids2) (fun _ e _ he => ⟨e, he⟩) _ hr hexec, ?_, ?_⟩
  · rw [BitVec.ofNat_add]
  · show update threads true ⟨.idle, n + 1⟩ true = _
    rw [update_self]

theorem deep : ∀ n, 0 < n → ∃ s, Deep n s
  | 0, h => absurd h (Nat.lt_irrefl 0)
  | 1, _ => by
    have hinit : (recursiveLock ids2).init {} := rfl
    have hexec : exec (step ids2) (first true) {} =
        some ⟨⟨true, 17#32, 1#32⟩, update (fun _ => {}) true ⟨.idle, 1⟩⟩ := by
      simp [first, exec, step, Thread.step, List.replicate, ids2, noThread]
    refine ⟨_, reachable_of_exec (M := recursiveLock ids2) (fun _ e _ he => ⟨e, he⟩) _ (.start hinit) hexec,
      rfl, ?_⟩
    show update (fun _ : Bool => ({} : Thread)) true ⟨.idle, 1⟩ true = _
    rw [update_self]
  | n + 2, _ => by
    obtain ⟨s, D⟩ := deep (n + 1) (Nat.succ_pos n)
    exact deeper D

/-- With 2^31 locks of one thread the count is `-2^31`. -/
theorem count_wraps : ¬ ∀ s : Sys Bool, Reachable (recursiveLock ids2) s → Excludes s := by
  intro h
  obtain ⟨s, D⟩ := deep 2147483648 (by decide)
  have hholds : (s.threads true).Holds := by
    rw [D.thread]
    exact .inl (by decide)
  have hcount := (h s D.reachable).count true hholds (by rw [D.thread])
  rw [D.shared, D.thread] at hcount
  exact absurd hcount (by decide)

end JunCore.RecursiveLock
