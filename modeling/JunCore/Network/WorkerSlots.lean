/-
  `IOCPManager.h`, the constructor, and the prologue of `RunWorkerThread` in `IOCPManager.cpp`: where
  the workers put their statistics counters.

  A manager makes two vectors with one entry for each of its workers and starts the threads.  Each
  thread takes a number from `nextWorkerIndex` and stores the addresses of its counters under it.
  `nextWorkerIndex` is a `static` of the member function: there is one for all managers of the
  process, so the second manager's workers go on where the first one's have stopped.

  `nextWorkerIndex` is kept as the number of its increments; what `fetch_add` hands out is what is left
  of it in an `int`, and what `operator[]` takes is that, converted to `size_t`.
-/
import JunCore.Lib.Transition
import Mathlib.Data.List.Perm.Basic

set_option linter.unusedVariables false

namespace JunCore.WorkerSlots

open Transition List

/-! ## The program -/

/-- The vectors; an entry is null or the address of a counter of this worker. -/
structure Manager where
  recvCounters : List (Option Nat)
  sendCounters : List (Option Nat)

/-- The constructor, up to the threads: `resize` throws if `workerCount` is negative. -/
def Manager.new (workerCount : BitVec 32) : Option Manager :=
  if workerCount.slt 0#32 then none
  else some ⟨replicate workerCount.toNat none, replicate workerCount.toNat none⟩

/-- Where a worker is in the prologue; `k` is the `nextWorkerIndex` it has read. -/
inductive Pc
  | fetchAdd
  | storeRecv (k : Nat)
  | storeSend (k : Nat)
  | running (k : Nat)
  deriving DecidableEq

structure Worker where
  manager : Nat
  pc : Pc
  deriving DecidableEq

/-- The managers and the workers of the process, in the order in which they were made. -/
structure Sys where
  nextWorkerIndex : Nat
  managers : List Manager
  workers : List Worker

/-- `workerIndex`. -/
def workerIndex (k : Nat) : BitVec 32 := BitVec.ofNat 32 k

/-- The entry that `operator[]` finds under it. -/
def slot (k : Nat) : Nat := ((workerIndex k).signExtend 64).toNat

inductive Act
  /-- `IOCPManager(workerCount, ..)`; `ok` is whether `CreateIoCompletionPort` succeeds -/
  | construct (workerCount : BitVec 32) (ok : Bool)
  /-- the next step of a worker -/
  | go (i : Nat)

/-- `recvCounters[k] = &tlsRecvCounter`.  Outside of the vector it is undefined what happens; here
    nothing does. -/
def Manager.storeRecv (k i : Nat) (m : Manager) : Manager :=
  { m with recvCounters := m.recvCounters.set k (some i) }

def Manager.storeSend (k i : Nat) (m : Manager) : Manager :=
  { m with sendCounters := m.sendCounters.set k (some i) }

def step (s : Sys) : Act → Option Sys
  | .construct workerCount ok =>
    match if ok then Manager.new workerCount else none with
    | none => some s
    | some m => some { s with
        managers := s.managers ++ [m]
        workers := s.workers ++ replicate workerCount.toNat ⟨s.managers.length, .fetchAdd⟩ }
  | .go i =>
    match s.workers[i]? with
    | some ⟨n, .fetchAdd⟩ => some { s with
        nextWorkerIndex := s.nextWorkerIndex + 1
        workers := s.workers.set i ⟨n, .storeRecv s.nextWorkerIndex⟩ }
    | some ⟨n, .storeRecv k⟩ => some { s with
        managers := s.managers.modify n (Manager.storeRecv (slot k) i)
        workers := s.workers.set i ⟨n, .storeSend k⟩ }
    | some ⟨n, .storeSend k⟩ => some { s with
        managers := s.managers.modify n (Manager.storeSend (slot k) i)
        workers := s.workers.set i ⟨n, .running k⟩ }
    | _ => none

/-- A process. -/
def Sys.new : Sys := ⟨0, [], []⟩

def system : System Sys where
  init s := s = .new
  next s s' := ∃ a, step s a = some s'

/-! ## What is to hold -/

/-- The index a worker has taken. -/
def Pc.taken : Pc → Option Nat
  | .fetchAdd => none
  | .storeRecv k | .storeSend k | .running k => some k

/-- Its address is stored in `recvCounters`. -/
def Pc.stored : Pc → Option Nat
  | .fetchAdd | .storeRecv _ => none
  | .storeSend k | .running k => some k

/-- Each worker uses an entry of its own in its manager's vectors, and none is left over. -/
structure Slots (s : Sys) : Prop where
  inside : ∀ w ∈ s.workers, ∀ k, w.pc.taken = some k → ∃ m, s.managers[w.manager]? = some m ∧
    slot k < m.recvCounters.length ∧ slot k < m.sendCounters.length
  distinct : ∀ (i j : Nat) (w v : Worker) (k l : Nat), s.workers[i]? = some w →
    s.workers[j]? = some v → i ≠ j → w.manager = v.manager →
      w.pc.taken = some k → v.pc.taken = some l → slot k ≠ slot l
  filled : ∀ n m, s.managers[n]? = some m →
    (∀ w ∈ s.workers, w.manager = n → ∃ k, w.pc = .running k) →
      none ∉ m.recvCounters ∧ none ∉ m.sendCounters

/-- Only one manager of the process has workers. -/
def Single (s : Sys) : Prop := ∀ w ∈ s.workers, ∀ v ∈ s.workers, w.manager = v.manager

/-- All threads have executed the prologue. -/
def Complete (s : Sys) : Prop := ∀ w ∈ s.workers, ∃ k, w.pc = .running k

/-! ## Each step -/

/-- **What may happen**: a constructor throws or makes a manager, or a worker takes one of the three
    steps of the prologue. -/
inductive Moves (s : Sys) : Sys → Prop
  | refuse : Moves s s
  | construct {c : Nat} (hc : c < 2147483648) : Moves s { s with
      managers := s.managers ++ [⟨replicate c none, replicate c none⟩]
      workers := s.workers ++ replicate c ⟨s.managers.length, .fetchAdd⟩ }
  | take {i n : Nat} (h : s.workers[i]? = some ⟨n, .fetchAdd⟩) : Moves s { s with
      nextWorkerIndex := s.nextWorkerIndex + 1
      workers := s.workers.set i ⟨n, .storeRecv s.nextWorkerIndex⟩ }
  | recv {i n k : Nat} (h : s.workers[i]? = some ⟨n, .storeRecv k⟩) : Moves s { s with
      managers := s.managers.modify n (Manager.storeRecv (slot k) i)
      workers := s.workers.set i ⟨n, .storeSend k⟩ }
  | send {i n k : Nat} (h : s.workers[i]? = some ⟨n, .storeSend k⟩) : Moves s { s with
      managers := s.managers.modify n (Manager.storeSend (slot k) i)
      workers := s.workers.set i ⟨n, .running k⟩ }

theorem new_eq_some {c : BitVec 32} {m : Manager} (h : Manager.new c = some m) :
    c.toNat < 2147483648 ∧ m = ⟨replicate c.toNat none, replicate c.toNat none⟩ := by
  unfold Manager.new at h
  split at h
  · cases h
  · rename_i hpos
    refine ⟨?_, (Option.some.inj h).symm⟩
    have hpos : ¬ c.toInt < 0 := by simpa [BitVec.slt] using hpos
    rw [BitVec.toInt_eq_msb_cond] at hpos
    have hlt := c.isLt
    split at hpos
    · omega
    · rename_i hmsb
      rw [BitVec.msb_eq_decide] at hmsb
      have hlow : ¬ 2 ^ (32 - 1) ≤ c.toNat := by simpa using hmsb
      omega

theorem step_moves {s s' : Sys} (h : system.next s s') : Moves s s' := by
  obtain ⟨a, h⟩ := h
  cases a with
  | construct c ok =>
    simp only [step] at h
    split at h
    · obtain rfl := Option.some.inj h
      exact .refuse
    · rename_i m hm
      obtain rfl := Option.some.inj h
      cases ok with
      | false => cases hm
      | true =>
        obtain ⟨hc, rfl⟩ := new_eq_some hm
        exact .construct hc
  | go i =>
    simp only [step] at h
    split at h
    · obtain rfl := Option.some.inj h
      exact .take ‹_›
    · obtain rfl := Option.some.inj h
      exact .recv ‹_›
    · obtain rfl := Option.some.inj h
      exact .send ‹_›
    · cases h

/-! ## The numbers -/

/-- The numbers drawn. -/
def Sys.taken (s : Sys) : List Nat := s.workers.filterMap fun w => w.pc.taken

/-- The workers of a manager. -/
def Sys.crew (s : Sys) (n : Nat) : Nat := s.workers.countP fun w => decide (w.manager = n)

/-- The entry of a list that a step changes, and what is before and behind it. -/
theorem set_split {A : Type} {l : List A} {i : Nat} {a : A} (h : l[i]? = some a) :
    ∃ l₁ l₂, l = l₁ ++ a :: l₂ ∧ ∀ b, l.set i b = l₁ ++ b :: l₂ := by
  obtain ⟨hi, rfl⟩ := List.getElem?_eq_some_iff.mp h
  refine ⟨l.take i, l.drop (i + 1), ?_, fun b => ?_⟩
  · rw [List.getElem_cons_drop, List.take_append_drop]
  · rw [List.set_eq_take_append_cons_drop, if_pos hi]

theorem slot_of_lt {k : Nat} (h : k < 2147483648) : slot k = k := by
  have hmsb : (BitVec.ofNat 32 k).msb = false := by
    rw [BitVec.msb_eq_decide]
    simp
    omega
  unfold slot workerIndex
  rw [BitVec.toNat_signExtend, hmsb]
  simp
  omega

/-- The first number that is negative as an `int`. -/
theorem slot_negative : slot 2147483648 = 18446744071562067968 := by decide

/-- A vector never gets an entry back to null. -/
theorem set_ne_null {l : List (Option Nat)} {i j k : Nat} (h : l[j]? ≠ some none ∨ j = k) :
    (l.set k (some i))[j]? ≠ some none := by
  rw [List.getElem?_set]
  by_cases hk : k = j
  · rw [if_pos hk]
    split
    · simp
    · exact fun hnone => by cases hnone
  · rw [if_neg hk]
    exact h.resolve_right fun heq => hk heq.symm

/-- **What the prologue keeps**: the numbers drawn are the first ones; a manager's vectors have an
    entry for each of its workers; what a worker has stored is there, if it is anywhere. -/
structure Kept (s : Sys) : Prop where
  taken : s.taken.Perm (range s.nextWorkerIndex)
  owned : ∀ w ∈ s.workers, w.manager < s.managers.length
  sizes : ∀ (n : Nat) (m : Manager), s.managers[n]? = some m → m.recvCounters.length = s.crew n ∧
    m.sendCounters.length = s.crew n ∧ s.crew n < 2147483648
  recv : ∀ w ∈ s.workers, ∀ m, s.managers[w.manager]? = some m → ∀ k, w.pc.stored = some k →
    m.recvCounters[slot k]? ≠ some none
  send : ∀ w ∈ s.workers, ∀ m, s.managers[w.manager]? = some m → ∀ k, w.pc = .running k →
    m.sendCounters[slot k]? ≠ some none

section Steps

variable {s : Sys}

theorem Kept.construct (K : Kept s) {c : Nat} (hc : c < 2147483648) :
    Kept { s with
      managers := s.managers ++ [⟨replicate c none, replicate c none⟩]
      workers := s.workers ++ replicate c ⟨s.managers.length, .fetchAdd⟩ } := by
  have hnew : ∀ w ∈ replicate c (⟨s.managers.length, .fetchAdd⟩ : Worker),
      w = ⟨s.managers.length, .fetchAdd⟩ := fun w hw => (List.mem_replicate.mp hw).2
  -- the old workers have an old manager, and the new ones have stored nothing
  have hold : ∀ w ∈ s.workers, ∀ m : Manager,
      (s.managers ++ [⟨replicate c none, replicate c none⟩])[w.manager]? = some m →
        s.managers[w.manager]? = some m := by
    intro w hw m hm
    rwa [List.getElem?_append_left (K.owned w hw)] at hm
  constructor
  · have htaken : (replicate c (⟨s.managers.length, .fetchAdd⟩ : Worker)).filterMap
        (fun w => w.pc.taken) = [] := by
      refine List.filterMap_eq_nil_iff.mpr fun w hw => ?_
      rw [hnew w hw]
      rfl
    show (List.filterMap _ (s.workers ++ _)).Perm _
    rw [List.filterMap_append, htaken, List.append_nil]
    exact K.taken
  · intro w hw
    have hlen : (s.managers ++ [(⟨replicate c none, replicate c none⟩ : Manager)]).length
        = s.managers.length + 1 := List.length_append
    show w.manager < (s.managers ++ _).length
    rw [hlen]
    rcases List.mem_append.mp hw with hw | hw
    · exact Nat.lt_succ_of_lt (K.owned w hw)
    · rw [hnew w hw]
      exact Nat.lt_succ_self _
  · intro n m hm
    have hm : (s.managers ++ [⟨replicate c none, replicate c none⟩])[n]? = some m := hm
    show _ = List.countP _ (s.workers ++ _) ∧ _ = List.countP _ (s.workers ++ _) ∧
      List.countP _ (s.workers ++ _) < _
    rw [List.countP_append, List.countP_replicate]
    rcases Nat.lt_or_ge n s.managers.length with hn | hn
    · rw [List.getElem?_append_left hn] at hm
      rw [if_neg (by simp; omega), Nat.add_zero]
      exact K.sizes n m hm
    · have hend : n = s.managers.length := by
        have hlt := (List.getElem?_eq_some_iff.mp hm).1
        rw [List.length_append, List.length_singleton] at hlt
        omega
      subst hend
      have hnone : s.workers.countP (fun w => decide (w.manager = s.managers.length)) = 0 := by
        refine List.countP_eq_zero.mpr fun w hw => ?_
        have := K.owned w hw
        simp
        omega
      rw [List.getElem?_concat_length] at hm
      obtain rfl := Option.some.inj hm
      rw [hnone, if_pos (by simp)]
      simp
      exact hc
  · intro w hw m hm k hk
    rcases List.mem_append.mp hw with hw | hw
    · exact K.recv w hw m (hold w hw m hm) k hk
    · rw [hnew w hw] at hk
      cases hk
  · intro w hw m hm k hk
    rcases List.mem_append.mp hw with hw | hw
    · exact K.send w hw m (hold w hw m hm) k hk
    · rw [hnew w hw] at hk
      cases hk

/-- A worker goes on, and does `f` to its manager. -/
theorem Kept.go (K : Kept s) {i n next : Nat} {pc pc' : Pc} {f : Manager → Manager}
    (h : s.workers[i]? = some ⟨n, pc⟩)
    (hlen : ∀ m, (f m).recvCounters.length = m.recvCounters.length ∧
      (f m).sendCounters.length = m.sendCounters.length)
    (hrecv : ∀ (m : Manager) (j : Nat), m.recvCounters[j]? ≠ some none →
      (f m).recvCounters[j]? ≠ some none)
    (hsend : ∀ (m : Manager) (j : Nat), m.sendCounters[j]? ≠ some none →
      (f m).sendCounters[j]? ≠ some none)
    (hstored : ∀ m, s.managers[n]? = some m → ∀ k, pc'.stored = some k →
      (f m).recvCounters[slot k]? ≠ some none)
    (hrunning : ∀ m, s.managers[n]? = some m → ∀ k, pc' = .running k →
      (f m).sendCounters[slot k]? ≠ some none)
    (htaken : (List.filterMap (fun w : Worker => w.pc.taken) (s.workers.set i ⟨n, pc'⟩)).Perm
      (range next)) :
    Kept { nextWorkerIndex := next, managers := s.managers.modify n f,
           workers := s.workers.set i ⟨n, pc'⟩ } := by
  obtain ⟨l₁, l₂, hl, hset⟩ := set_split h
  -- a manager now, and as it was
  have hback : ∀ (j : Nat) (m : Manager), (s.managers.modify n f)[j]? = some m →
      ∃ m₀, s.managers[j]? = some m₀ ∧ (m = m₀ ∨ m = f m₀) ∧ (j = n → m = f m₀) := by
    intro j m hm
    rw [List.getElem?_modify] at hm
    obtain ⟨m₀, hm₀, hm⟩ := Option.map_eq_some_iff.mp hm
    refine ⟨m₀, hm₀, ?_, fun hj => ?_⟩
    · split at hm
      · exact .inr hm.symm
      · exact .inl hm.symm
    · rw [if_pos hj.symm] at hm
      exact hm.symm
  have hme : (⟨n, pc⟩ : Worker) ∈ s.workers := List.mem_of_getElem? h
  constructor
  · exact htaken
  · intro w hw
    show w.manager < (s.managers.modify n f).length
    rw [List.length_modify]
    rcases List.mem_or_eq_of_mem_set hw with hw | rfl
    · exact K.owned w hw
    · exact K.owned ⟨n, pc⟩ hme
  · intro j m hm
    have hcrew : List.countP (fun w : Worker => decide (w.manager = j)) (s.workers.set i ⟨n, pc'⟩)
        = s.crew j := by
      unfold Sys.crew
      rw [hset, hl, List.countP_append, List.countP_append, List.countP_cons, List.countP_cons]
    show _ = List.countP _ _ ∧ _ = List.countP _ _ ∧ List.countP _ _ < _
    rw [hcrew]
    obtain ⟨m₀, hm₀, hm, -⟩ := hback j m hm
    have hsizes := K.sizes j m₀ hm₀
    rcases hm with rfl | rfl
    · exact hsizes
    · rw [(hlen m₀).1, (hlen m₀).2]
      exact hsizes
  · intro w hw m hm k hk
    obtain ⟨m₀, hm₀, hm, hown⟩ := hback _ m hm
    rcases List.mem_or_eq_of_mem_set hw with hw | rfl
    · have hthere := K.recv w hw m₀ hm₀ k hk
      rcases hm with rfl | rfl
      · exact hthere
      · exact hrecv m₀ _ hthere
    · rw [hown rfl]
      exact hstored m₀ hm₀ k hk
  · intro w hw m hm k hk
    obtain ⟨m₀, hm₀, hm, hown⟩ := hback _ m hm
    rcases List.mem_or_eq_of_mem_set hw with hw | rfl
    · have hthere := K.send w hw m₀ hm₀ k hk
      rcases hm with rfl | rfl
      · exact hthere
      · exact hsend m₀ _ hthere
    · rw [hown rfl]
      exact hrunning m₀ hm₀ k hk

theorem taken_set {i n : Nat} {pc pc' : Pc} (h : s.workers[i]? = some ⟨n, pc⟩)
    (hsame : pc'.taken = pc.taken) :
    List.filterMap (fun w : Worker => w.pc.taken) (s.workers.set i ⟨n, pc'⟩) = s.taken := by
  obtain ⟨l₁, l₂, hl, hset⟩ := set_split h
  unfold Sys.taken
  rw [hset, hl, List.filterMap_append, List.filterMap_append, List.filterMap_cons,
    List.filterMap_cons, hsame]

/-- **The step lemma.** -/
theorem Kept.step (K : Kept s) {s' : Sys} (h : Moves s s') : Kept s' := by
  cases h with
  | refuse => exact K
  | construct hc => exact K.construct hc
  | @take i n h =>
    have hid : s.managers.modify n id = s.managers := List.modify_id _ _
    rw [← hid]
    refine K.go h (fun m => ⟨rfl, rfl⟩) (fun m j => id) (fun m j => id)
      (fun m hm k hk => by cases hk) (fun m hm k hk => by cases hk) ?_
    · obtain ⟨l₁, l₂, hl, hset⟩ := set_split h
      have htaken := K.taken
      unfold Sys.taken at htaken
      rw [hl, List.filterMap_append, List.filterMap_cons] at htaken
      rw [hset, List.filterMap_append, List.filterMap_cons, List.range_succ]
      refine List.perm_middle.trans ?_
      exact (htaken.cons _).trans (List.perm_append_singleton _ _).symm
  | @recv i n k h =>
    refine K.go h (fun m => ⟨List.length_set, rfl⟩) (fun m j hj => set_ne_null (.inl hj))
      (fun m j => id) (fun m hm k' hk => set_ne_null (.inr ?_)) (fun m hm k hk => by cases hk) ?_
    · rw [show k = k' from Option.some.inj hk]
    · have htaken : List.filterMap (fun w : Worker => w.pc.taken) (s.workers.set i ⟨n, .storeSend k⟩)
          = s.taken := taken_set h rfl
      rw [htaken]
      exact K.taken
  | @send i n k h =>
    have hme : (⟨n, .storeSend k⟩ : Worker) ∈ s.workers := List.mem_of_getElem? h
    refine K.go h (fun m => ⟨rfl, List.length_set⟩) (fun m j => id)
      (fun m j hj => set_ne_null (.inl hj)) (fun m hm k' hk => K.recv _ hme m hm k' hk)
      (fun m hm k' hk => set_ne_null (.inr ?_)) ?_
    · rw [show k = k' from Pc.running.inj hk]
    · have htaken : List.filterMap (fun w : Worker => w.pc.taken) (s.workers.set i ⟨n, .running k⟩)
          = s.taken := taken_set h rfl
      rw [htaken]
      exact K.taken

/-- **The run lemma.** -/
theorem kept (h : Reachable system s) : Kept s := by
  apply h.invariant (I := Kept)
  · rintro _ rfl
    constructor
    · exact List.Perm.refl _
    · intro w hw
      cases hw
    · intro n m hm
      cases hm
    · intro w hw
      cases hw
    · intro w hw
      cases hw
  · intro s s' hr K hnext
    exact K.step (step_moves hnext)

end Steps

/-! ## Every run -/

section Runs

variable {s : Sys}

/-- There are no more numbers than workers. -/
theorem Kept.next_le (K : Kept s) : s.nextWorkerIndex ≤ s.workers.length := by
  have hlen := K.taken.length_eq
  rw [List.length_range] at hlen
  rw [← hlen]
  exact List.length_filterMap_le _ _

/-- Whoever has a number has one of the first ones. -/
theorem Kept.taken_lt (K : Kept s) {w : Worker} (hw : w ∈ s.workers) {k : Nat}
    (hk : w.pc.taken = some k) : k < s.nextWorkerIndex :=
  List.mem_range.mp (K.taken.subset (List.mem_filterMap.mpr ⟨w, hw, hk⟩))

/-- No two workers have the same. -/
theorem Kept.taken_ne (K : Kept s) {i j : Nat} {w v : Worker} {k l : Nat}
    (hi : s.workers[i]? = some w) (hj : s.workers[j]? = some v) (hne : i ≠ j)
    (hk : w.pc.taken = some k) (hl : v.pc.taken = some l) : k ≠ l := by
  have hpairs := List.pairwise_filterMap.mp (K.taken.nodup_iff.mpr List.nodup_range)
  obtain ⟨hilt, rfl⟩ := List.getElem?_eq_some_iff.mp hi
  obtain ⟨hjlt, rfl⟩ := List.getElem?_eq_some_iff.mp hj
  rcases Nat.lt_or_gt_of_ne hne with hlt | hlt
  · exact List.pairwise_iff_getElem.mp hpairs i j hilt hjlt hlt k hk l hl
  · exact (List.pairwise_iff_getElem.mp hpairs j i hjlt hilt hlt l hl k hk).symm

/-- If a single manager has workers, its vectors are as long as there are workers. -/
theorem Single.crew (h : Single s) {w : Worker} (hw : w ∈ s.workers) :
    s.crew w.manager = s.workers.length := by
  refine List.countP_eq_length.mpr fun v hv => ?_
  exact decide_eq_true (h v hv w hw)

/-- The manager of a worker, if it is the only one that has any. -/
theorem Kept.manager (K : Kept s) (h : Single s) {w : Worker} (hw : w ∈ s.workers) :
    s.workers.length < 2147483648 ∧ ∃ m, s.managers[w.manager]? = some m ∧
      m.recvCounters.length = s.workers.length ∧ m.sendCounters.length = s.workers.length := by
  have hm := List.getElem?_eq_getElem (K.owned w hw)
  obtain ⟨hrecv, hsend, hlt⟩ := K.sizes _ _ hm
  rw [h.crew hw] at hrecv hsend hlt
  exact ⟨hlt, _, hm, hrecv, hsend⟩

theorem Kept.slots (K : Kept s) (h : Single s) : Slots s := by
  have hnext := K.next_le
  constructor
  · intro w hw k hk
    obtain ⟨hlt, m, hm, hrecv, hsend⟩ := K.manager h hw
    have hk := K.taken_lt hw hk
    refine ⟨m, hm, ?_⟩
    rw [slot_of_lt (by omega), hrecv, hsend]
    omega
  · intro i j w v k l hi hj hne _ hk hl
    have hlt := (K.manager h (List.mem_of_getElem? hi)).1
    have hk' := K.taken_lt (List.mem_of_getElem? hi) hk
    have hl' := K.taken_lt (List.mem_of_getElem? hj) hl
    rw [slot_of_lt (by omega), slot_of_lt (by omega)]
    exact K.taken_ne hi hj hne hk hl
  · intro n m hm hstarted
    obtain ⟨hrecv, hsend, hcrew⟩ := K.sizes n m hm
    -- entry `j` is that of the worker with number `j`
    have hentry : ∀ j, j < s.crew n → m.recvCounters[j]? ≠ some none ∧
        m.sendCounters[j]? ≠ some none := by
      intro j hj
      obtain ⟨w, hw, hmanager⟩ := List.countP_pos_iff.mp (Nat.zero_lt_of_lt hj)
      obtain rfl : w.manager = n := of_decide_eq_true hmanager
      have hall : ∀ v ∈ s.workers, v.pc.taken.isSome = true := by
        intro v hv
        obtain ⟨k, hk⟩ := hstarted v hv (h v hv w hw)
        rw [hk]
        rfl
      have hlen : s.nextWorkerIndex = s.workers.length := by
        have hperm := K.taken.length_eq
        rw [List.length_range] at hperm
        rw [← hperm]
        exact List.length_filterMap_eq_countP ▸ List.countP_eq_length.mpr hall
      rw [h.crew hw] at hj hcrew
      obtain ⟨v, hv, hvj⟩ := List.mem_filterMap.mp
        (K.taken.symm.subset (List.mem_range.mpr (hlen ▸ hj)))
      obtain ⟨k, hk⟩ := hstarted v hv (h v hv w hw)
      rw [hk] at hvj
      obtain rfl : k = j := Option.some.inj hvj
      have hmv : s.managers[v.manager]? = some m := by
        rw [h v hv w hw]
        exact hm
      have hslot : slot k = k := slot_of_lt (by omega)
      have hstored := K.recv v hv m hmv k (by rw [hk]; rfl)
      have hrunning := K.send v hv m hmv k hk
      rw [hslot] at hstored hrunning
      exact ⟨hstored, hrunning⟩
    constructor
    · intro hnone
      obtain ⟨j, hj, heq⟩ := List.mem_iff_getElem.mp hnone
      refine (hentry j (hrecv ▸ hj)).1 ?_
      rw [List.getElem?_eq_getElem hj, heq]
    · intro hnone
      obtain ⟨j, hj, heq⟩ := List.mem_iff_getElem.mp hnone
      refine (hentry j (hsend ▸ hj)).2 ?_
      rw [List.getElem?_eq_getElem hj, heq]

/-- When all have started, the last number is out of the reach of a manager that is not alone. -/
theorem Kept.single (K : Kept s) (hall : Complete s) (S : Slots s) : Single s := by
  have hlen : s.nextWorkerIndex = s.workers.length := by
    have hperm := K.taken.length_eq
    rw [List.length_range] at hperm
    rw [← hperm]
    refine List.length_filterMap_eq_countP ▸ List.countP_eq_length.mpr fun w hw => ?_
    obtain ⟨k, hk⟩ := hall w hw
    rw [hk]
    rfl
  -- the worker with a number stays inside of its manager's vectors
  have hinside : ∀ k, k < s.workers.length → ∃ w ∈ s.workers, slot k < s.crew w.manager ∧
      s.crew w.manager < 2147483648 := by
    intro k hk
    obtain ⟨w, hw, hwk⟩ := List.mem_filterMap.mp
      (K.taken.symm.subset (List.mem_range.mpr (hlen ▸ hk)))
    obtain ⟨m, hm, hslot, -⟩ := S.inside w hw k hwk
    obtain ⟨hrecv, -, hlt⟩ := K.sizes _ _ hm
    exact ⟨w, hw, hrecv ▸ hslot, hlt⟩
  have hfew : s.workers.length ≤ 2147483648 := by
    refine Nat.le_of_not_lt fun hmany => ?_
    obtain ⟨w, -, hslot, hlt⟩ := hinside 2147483648 hmany
    rw [slot_negative] at hslot
    omega
  intro w hw v hv
  obtain ⟨u, hu, hslot, -⟩ := hinside (s.workers.length - 1)
    (Nat.sub_lt (List.length_pos_of_mem hw) Nat.one_pos)
  have hpos := List.length_pos_of_mem hw
  rw [slot_of_lt (by omega)] at hslot
  have hcrew : s.crew u.manager = s.workers.length :=
    Nat.le_antisymm List.countP_le_length (by omega)
  have hsame := List.countP_eq_length.mp hcrew
  have hwu : w.manager = u.manager := of_decide_eq_true (hsame w hw)
  have hvu : v.manager = u.manager := of_decide_eq_true (hsame v hv)
  rw [hwu, hvu]

/-- **The slots of one manager**: at every moment, if a single manager of the process has workers,
    each worker uses an entry of its own inside of its manager's vectors, and when all of a manager
    have started, none of its entries is null.  And a run in which all threads have started shows
    that it does not work otherwise. -/
theorem worker_slots (h : Reachable system s) :
    (Single s → Slots s) ∧ (Complete s → (Slots s ↔ Single s)) := by
  have K := kept h
  exact ⟨K.slots, fun hall => ⟨K.single hall, K.slots⟩⟩

end Runs

/-- Two workers of one manager, the second one first. -/
theorem worker_slots_two : ∃ s, Reachable system s ∧ s.workers.length = 2 ∧ Slots s := by
  obtain ⟨s, hr, hp⟩ := exists_reachable_of_exec (M := system) rfl (fun s a s' h => ⟨a, h⟩)
    [.construct 2#32 true, .go 1, .go 0, .go 0, .go 1, .go 1, .go 0]
    (fun s => decide (s.workers = [⟨0, .running 1⟩, ⟨0, .running 0⟩])) (by decide)
  have hworkers := of_decide_eq_true hp
  refine ⟨s, hr, by rw [hworkers]; rfl, (worker_slots hr).1 fun w hw v hv => ?_⟩
  rw [hworkers] at hw hv
  have hall : ∀ w ∈ ([⟨0, .running 1⟩, ⟨0, .running 0⟩] : List Worker), w.manager = 0 := by decide
  rw [hall w hw, hall v hv]

/-- **Two managers with a worker each**: the second worker writes behind the end. -/
theorem second_manager : ∃ s, Reachable system s ∧ Complete s ∧ ¬ Slots s := by
  obtain ⟨s, hr, hp⟩ := exists_reachable_of_exec (M := system) rfl (fun s a s' h => ⟨a, h⟩)
    [.construct 1#32 true, .construct 1#32 true, .go 0, .go 0, .go 0, .go 1, .go 1, .go 1]
    (fun s => decide (s.workers = [⟨0, .running 0⟩, ⟨1, .running 1⟩])) (by decide)
  have hworkers := of_decide_eq_true hp
  have hall : ∀ w ∈ s.workers, ∃ k, w.pc = .running k := by
    intro w hw
    rw [hworkers] at hw
    rcases List.mem_cons.mp hw with rfl | hw
    · exact ⟨0, rfl⟩
    · obtain rfl := List.mem_singleton.mp hw
      exact ⟨1, rfl⟩
  refine ⟨s, hr, hall, fun S => ?_⟩
  have hsingle := (kept hr).single hall S
  have hone := hsingle ⟨0, .running 0⟩ (by rw [hworkers]; decide) ⟨1, .running 1⟩
    (by rw [hworkers]; decide)
  cases hone

end JunCore.WorkerSlots
