/-
  `JunCommon/queue/JobQueue.h`: a lock-free queue with a semaphore before it.

  `Enqueue` puts the job into the `LFQueue` and then releases the semaphore; `Dequeue` waits for the
  semaphore and then takes a job.  Two counters follow the queue, that of the semaphore and `nodeCount`,
  and both lag behind it.  `Shutdown` releases the semaphore 100 times without a job, after it has set
  `isShutdown`: who gets such a permit finds the flag set.

  Linking and counting are two steps here, and so are counting and unlinking.  `ReleaseSemaphore` fails
  when the semaphore is at its maximum, `MAXLONG`; nobody looks at what it returns (`permit_lost`).
  Waiting ends with a permit or, at any time, with the timeout.
-/
import JunCore.Lib.Counting
import JunCore.Lib.Transition
import Mathlib.Data.List.Nodup

set_option linter.unusedVariables false
set_option linter.unusedSectionVars false

namespace JunCore.JobQueue

open Transition Function Counting

/-! ## The program -/

/-- `MAXLONG`. -/
def maxLong : Nat := 2147483647

/-- A job, with the number of the `Enqueue` that brings it. -/
structure Job (α : Type) where
  id : Nat
  job : α
  deriving DecidableEq

/-- The next thing a thread does. -/
inductive Pc (α : Type)
  | idle
  -- `Enqueue`
  | testEnqueue (job : α)
  | link (job : α)
  | increment
  | release
  -- `Dequeue`
  | testDequeue
  | wait
  | retest
  | decrement
  | undo
  | unlink
  -- `Shutdown`
  | storeShutdown
  | signal (i : Nat)
  deriving DecidableEq

/-- `queue` is the chain of the `LFQueue`, oldest first.  `entered` and `delivered` are the jobs that
    were linked and taken so far; no step reads them. -/
structure Shared (α : Type) where
  isShutdown : Bool := false
  semaphore : Nat := 0
  queue : List (Job α) := []
  nodeCount : BitVec 32 := 0#32
  entered : List (Job α) := []
  delivered : List (Job α) := []

/-- A call, or the next step of one; `ok` is whether a wait gets its permit before the timeout. -/
inductive Input (α : Type)
  | enqueue (job : α)
  | dequeue
  | shutdown
  | go (ok : Bool)

variable {T α : Type}

/-- `ReleaseSemaphore(semaphore, 1, NULL)`. -/
def Shared.releaseSemaphore (g : Shared α) : Shared α :=
  { g with semaphore := if g.semaphore < maxLong then g.semaphore + 1 else g.semaphore }

def Pc.go (g : Shared α) (ok : Bool) : Pc α → Option (Shared α × Pc α)
  | .idle => none
  | .testEnqueue job => some (g, if g.isShutdown then .idle else .link job)
  | .link job =>
      some ({ g with
        queue := g.queue ++ [⟨g.entered.length, job⟩]
        entered := g.entered ++ [⟨g.entered.length, job⟩] }, .increment)
  | .increment => some ({ g with nodeCount := g.nodeCount + 1#32 }, .release)
  | .release => some (g.releaseSemaphore, .idle)
  | .testDequeue => some (g, if g.isShutdown then .idle else .wait)
  | .wait =>
      if ok then
        if 0 < g.semaphore then some ({ g with semaphore := g.semaphore - 1 }, .retest) else none
      else some (g, .idle)
  | .retest => some (g, if g.isShutdown then .idle else .decrement)
  | .decrement => some ({ g with nodeCount := g.nodeCount - 1#32 },
      if (g.nodeCount - 1#32).slt 0#32 then .undo else .unlink)
  | .undo => some ({ g with nodeCount := g.nodeCount + 1#32 }, .idle)
  | .unlink =>
      match g.queue with
      | [] => some (g, .unlink)
      | job :: queue => some ({ g with queue := queue, delivered := g.delivered ++ [job] }, .idle)
  | .storeShutdown => some ({ g with isShutdown := true }, .signal 0)
  | .signal i => some (if i < 100 then (g.releaseSemaphore, .signal (i + 1)) else (g, .idle))

def Pc.step (g : Shared α) (pc : Pc α) : Input α → Option (Shared α × Pc α)
  | .enqueue job => match pc with
    | .idle => some (g, .testEnqueue job)
    | _ => none
  | .dequeue => match pc with
    | .idle => some (g, .testDequeue)
    | _ => none
  | .shutdown => match pc with
    | .idle => some (g, .storeShutdown)
    | _ => none
  | .go ok => pc.go g ok

structure Sys (T α : Type) where
  shared : Shared α := {}
  threads : T → Pc α := fun _ => .idle

variable [DecidableEq T]

def Sys.step (s : Sys T α) (e : T × Input α) : Option (Sys T α) :=
  ((s.threads e.1).step s.shared e.2).map fun r => ⟨r.1, update s.threads e.1 r.2⟩

def jobQueue (T α : Type) [DecidableEq T] : System (Sys T α) where
  init s := s = {}
  next s s' := ∃ e, s.step e = some s'

/-! ## What is to hold -/

/-- A consumer between its wait and the moment its job leaves the queue. -/
def Pc.permitted : Pc α → Nat
  | .retest | .decrement | .unlink => 1
  | _ => 0

/-- A producer between the moment its job enters the queue and its release. -/
def Pc.releasing : Pc α → Nat
  | .increment | .release => 1
  | _ => 0

/-- Whoever has passed both checks gets a job: `LFQueue::Dequeue` does not find its counter negative, and
    it does not find the queue empty. -/
def GetsJob (g : Shared α) (pc : Pc α) : Prop :=
  pc ≠ .undo ∧
  (pc = .decrement → ∀ ok, ∃ g', pc.go g ok = some (g', .unlink)) ∧
  (pc = .unlink → ∀ ok, ∃ g' job, pc.go g ok = some (g', .idle) ∧ g.queue = job :: g'.queue ∧
    g'.delivered = g.delivered ++ [job])

/-- No more than `MAXLONG` jobs are queued. -/
def Few (s s' : Sys T α) : Prop := s'.shared.queue.length ≤ maxLong

instance (s s' : Sys T α) : Decidable (Few s s') := inferInstanceAs (Decidable (_ ≤ _))

/-! ## What the steps do -/

theorem Sys.step_cases {s s' : Sys T α} {e : T × Input α} (h : s.step e = some s') :
    ∃ g pc, (s.threads e.1).step s.shared e.2 = some (g, pc) ∧ s' = ⟨g, update s.threads e.1 pc⟩ := by
  rw [Sys.step, Option.map_eq_some_iff] at h
  obtain ⟨⟨g, pc⟩, hstep, rfl⟩ := h
  exact ⟨g, pc, hstep, rfl⟩

/-- Neither with a permit nor with a job. -/
def Pc.plain : Pc α → Bool
  | .idle | .testEnqueue _ | .link _ | .testDequeue | .wait | .storeShutdown | .signal _ => true
  | _ => false

/-- The steps of a thread. -/
inductive Pc.Moves (g : Shared α) : Pc α → Shared α → Pc α → Prop
  /-- a call, a check, a timeout, a return -/
  | plain {pc pc' : Pc α} (h : pc.plain = true) (h' : pc'.plain = true) (hs : ∀ i, pc' ≠ .signal i) :
      Moves g pc g pc'
  | link (job : α) : Moves g (.link job) { g with
      queue := g.queue ++ [⟨g.entered.length, job⟩]
      entered := g.entered ++ [⟨g.entered.length, job⟩] } .increment
  | increment : Moves g .increment { g with nodeCount := g.nodeCount + 1#32 } .release
  | release : Moves g .release g.releaseSemaphore .idle
  | acquire (h : 0 < g.semaphore) : Moves g .wait { g with semaphore := g.semaphore - 1 } .retest
  | refuse (h : g.isShutdown = true) : Moves g .retest g .idle
  | pass (h : g.isShutdown = false) : Moves g .retest g .decrement
  | decrement : Moves g .decrement { g with nodeCount := g.nodeCount - 1#32 }
      (if (g.nodeCount - 1#32).slt 0#32 then .undo else .unlink)
  | undo : Moves g .undo { g with nodeCount := g.nodeCount + 1#32 } .idle
  | spin (h : g.queue = []) : Moves g .unlink g .unlink
  | unlink {job : Job α} {queue : List (Job α)} (h : g.queue = job :: queue) : Moves g .unlink
      { g with queue := queue, delivered := g.delivered ++ [job] } .idle
  | shutdown : Moves g .storeShutdown { g with isShutdown := true } (.signal 0)
  | signal (i : Nat) : Moves g (.signal i) g.releaseSemaphore (.signal (i + 1))

theorem Pc.go_moves {g g' : Shared α} {pc pc' : Pc α} {ok : Bool} (h : pc.go g ok = some (g', pc')) :
    pc.Moves g g' pc' := by
  cases pc with
  | idle => cases h
  | testEnqueue job | testDequeue =>
    obtain ⟨rfl, rfl⟩ := Prod.mk.inj (Option.some.inj h)
    split
    · exact .plain rfl rfl (by simp)
    · exact .plain rfl rfl (by simp)
  | link job =>
    obtain ⟨rfl, rfl⟩ := Prod.mk.inj (Option.some.inj h)
    exact .link job
  | increment =>
    obtain ⟨rfl, rfl⟩ := Prod.mk.inj (Option.some.inj h)
    exact .increment
  | release =>
    obtain ⟨rfl, rfl⟩ := Prod.mk.inj (Option.some.inj h)
    exact .release
  | wait =>
    simp only [Pc.go] at h
    split at h
    · split at h
      · obtain ⟨rfl, rfl⟩ := Prod.mk.inj (Option.some.inj h)
        exact .acquire ‹_›
      · cases h
    · obtain ⟨rfl, rfl⟩ := Prod.mk.inj (Option.some.inj h)
      exact .plain rfl rfl (by simp)
  | retest =>
    obtain ⟨rfl, rfl⟩ := Prod.mk.inj (Option.some.inj h)
    cases hs : g.isShutdown with
    | true => exact .refuse hs
    | false => exact .pass hs
  | decrement =>
    obtain ⟨rfl, rfl⟩ := Prod.mk.inj (Option.some.inj h)
    exact .decrement
  | undo =>
    obtain ⟨rfl, rfl⟩ := Prod.mk.inj (Option.some.inj h)
    exact .undo
  | unlink =>
    simp only [Pc.go] at h
    split at h
    · obtain ⟨rfl, rfl⟩ := Prod.mk.inj (Option.some.inj h)
      exact .spin ‹_›
    · obtain ⟨rfl, rfl⟩ := Prod.mk.inj (Option.some.inj h)
      exact .unlink ‹_›
  | storeShutdown =>
    obtain ⟨rfl, rfl⟩ := Prod.mk.inj (Option.some.inj h)
    exact .shutdown
  | signal i =>
    have h := Option.some.inj h
    split at h
    · obtain ⟨rfl, rfl⟩ := Prod.mk.inj h
      exact .signal i
    · obtain ⟨rfl, rfl⟩ := Prod.mk.inj h
      exact .plain rfl rfl (by simp)

theorem Pc.step_moves {g g' : Shared α} {pc pc' : Pc α} {input : Input α}
    (h : pc.step g input = some (g', pc')) : pc.Moves g g' pc' := by
  cases input with
  | enqueue job | dequeue | shutdown =>
    simp only [Pc.step] at h
    split at h
    · obtain ⟨rfl, rfl⟩ := Prod.mk.inj (Option.some.inj h)
      exact .plain rfl rfl (by simp)
    · cases h
  | go ok => exact Pc.go_moves h

/-! ## The two counters -/

/-- Its job is linked and not counted. -/
def Pc.atIncrement : Pc α → Nat
  | .increment => 1
  | _ => 0

def Pc.atRelease : Pc α → Nat
  | .release => 1
  | _ => 0

def Pc.atRetest : Pc α → Nat
  | .retest => 1
  | _ => 0

def Pc.atDecrement : Pc α → Nat
  | .decrement => 1
  | _ => 0

def Pc.atUndo : Pc α → Nat
  | .undo => 1
  | _ => 0

/-- Its job is counted off and not unlinked. -/
def Pc.atUnlink : Pc α → Nat
  | .unlink => 1
  | _ => 0

/-- **The counters and the queue**, with that many threads at each of these places.  There is a job for
    each consumer that has passed both checks; and until `Shutdown`, one for each permit. -/
def Balanced (g : Shared α) (linked counted waited cleared undoing taking : Nat) : Prop :=
  undoing = 0 ∧ g.queue.length = g.nodeCount.toNat + linked + taking ∧ cleared ≤ g.nodeCount.toNat ∧
  (g.isShutdown = false → g.semaphore + waited + cleared + counted = g.nodeCount.toNat)

/-- The number `n` of what the threads count by `f` goes with the thread that takes a step. -/
def Shifts (f : Pc α → Nat) (pc pc' : Pc α) (n n' : Nat) : Prop := n' + f pc = n + f pc' ∧ f pc ≤ n

theorem shifts_total [Fintype T] (f : Pc α → Nat) (threads : T → Pc α) (t : T) (pc' : Pc α) :
    Shifts f (threads t) pc' (total f threads) (total f (update threads t pc')) :=
  ⟨total_update f threads t pc', le_total f threads t⟩

theorem Pc.plain_zero {pc : Pc α} (h : pc.plain = true) : pc.atIncrement = 0 ∧ pc.atRelease = 0 ∧
    pc.atRetest = 0 ∧ pc.atDecrement = 0 ∧ pc.atUndo = 0 ∧ pc.atUnlink = 0 := by
  cases pc <;> first | exact ⟨rfl, rfl, rfl, rfl, rfl, rfl⟩ | cases h

/-- While there is a job on the counter, counting one off does not make it negative. -/
theorem decrement_pos {b : BitVec 32} (hpos : 0 < b.toNat) (hlt : b.toNat ≤ maxLong) :
    (b - 1#32).toNat + 1 = b.toNat ∧ (b - 1#32).slt 0#32 = false := by
  unfold maxLong at hlt
  have hone : (1#32 : BitVec 32) ≤ b := hpos
  have hsub : (b - 1#32).toNat = b.toNat - 1 := BitVec.toNat_sub_of_le hone
  refine ⟨by omega, ?_⟩
  rw [BitVec.slt_eq_decide, decide_eq_false_iff_not, BitVec.toInt_eq_toNat_of_lt (by omega)]
  have hzero : (0#32 : BitVec 32).toInt = 0 := rfl
  omega

theorem increment_toNat {b : BitVec 32} (hlt : b.toNat < maxLong) : (b + 1#32).toNat = b.toNat + 1 := by
  unfold maxLong at hlt
  rw [BitVec.toNat_add, show (1#32 : BitVec 32).toNat = 1 from rfl]
  omega

/-- **One step.**  Who signals has set the flag. -/
theorem Pc.Moves.balanced {g g' : Shared α} {l c w d x k l' c' w' d' x' k' : Nat} {pc pc' : Pc α}
    (M : pc.Moves g g' pc') (B : Balanced g l c w d x k) (hfew : g.queue.length ≤ maxLong)
    (hfew' : g'.queue.length ≤ maxLong) (hsignal : ∀ i, pc = .signal i → g.isShutdown = true)
    (hl : Shifts Pc.atIncrement pc pc' l l') (hc : Shifts Pc.atRelease pc pc' c c')
    (hw : Shifts Pc.atRetest pc pc' w w') (hd : Shifts Pc.atDecrement pc pc' d d')
    (hx : Shifts Pc.atUndo pc pc' x x') (hk : Shifts Pc.atUnlink pc pc' k k') :
    Balanced g' l' c' w' d' x' k' := by
  unfold Balanced at B ⊢
  obtain ⟨hundo, hlength, hclear, hpermits⟩ := B
  unfold Shifts at hl hc hw hd hx hk
  cases M
  case plain h h' _ =>
    have hzero := Pc.plain_zero h
    have hzero' := Pc.plain_zero h'
    refine ⟨by omega, by omega, by omega, fun hs => ?_⟩
    have := hpermits hs
    omega
  all_goals simp only [Pc.atIncrement, Pc.atRelease, Pc.atRetest, Pc.atDecrement, Pc.atUndo, Pc.atUnlink]
    at hl hc hw hd hx hk
  case link job =>
    refine ⟨by omega, ?_, by dsimp only; omega, fun hs => ?_⟩
    · rw [List.length_append, List.length_singleton]
      dsimp only
      omega
    · have := hpermits hs
      dsimp only
      omega
  case increment =>
    have hadd := increment_toNat (b := g.nodeCount) (by omega)
    dsimp only
    refine ⟨by omega, by omega, by omega, fun hs => ?_⟩
    have := hpermits hs
    omega
  case release =>
    refine ⟨by omega, ?_, ?_, fun hs => ?_⟩
    · show g.queue.length = g.nodeCount.toNat + _ + _
      omega
    · show _ ≤ g.nodeCount.toNat
      omega
    · -- the semaphore is not at its maximum: there is a job for each permit, and this one
      have := hpermits hs
      show (if g.semaphore < maxLong then g.semaphore + 1 else g.semaphore) + _ + _ + _ = g.nodeCount.toNat
      rw [if_pos (by omega)]
      omega
  case acquire h =>
    dsimp only
    refine ⟨by omega, by omega, by omega, fun hs => ?_⟩
    have := hpermits hs
    omega
  case refuse h =>
    refine ⟨by omega, by omega, by omega, fun hs => ?_⟩
    rw [h] at hs
    cases hs
  case pass h =>
    have := hpermits h
    exact ⟨by omega, by omega, by omega, fun _ => by omega⟩
  case decrement =>
    obtain ⟨hsub, hslt⟩ := decrement_pos (b := g.nodeCount) (by omega) (by omega)
    rw [hslt] at hl hc hw hd hx hk
    simp only [Bool.false_eq_true, if_false] at hl hc hw hd hx hk
    dsimp only
    refine ⟨by omega, by omega, by omega, fun hs => ?_⟩
    have := hpermits hs
    omega
  case undo => omega
  case spin h =>
    refine ⟨by omega, by omega, by omega, fun hs => ?_⟩
    have := hpermits hs
    omega
  case unlink h =>
    rw [h, List.length_cons] at hlength
    dsimp only
    refine ⟨by omega, by omega, by omega, fun hs => ?_⟩
    have := hpermits hs
    omega
  case shutdown =>
    dsimp only
    refine ⟨by omega, by omega, by omega, fun hs => ?_⟩
    cases hs
  case signal i =>
    refine ⟨by omega, ?_, ?_, fun hs => ?_⟩
    · show g.queue.length = g.nodeCount.toNat + _ + _
      omega
    · show _ ≤ g.nodeCount.toNat
      omega
    · have hs : g.isShutdown = false := hs
      rw [hsignal i rfl] at hs
      cases hs

/-! ## The jobs -/

/-- Every job that has entered is still queued or has been delivered, in the order in which they entered,
    and no two have one number. -/
structure Ordered (g : Shared α) : Prop where
  entered : g.entered = g.delivered ++ g.queue
  ids : g.entered.map Job.id = List.range g.entered.length

theorem Pc.Moves.ordered {g g' : Shared α} {pc pc' : Pc α} (M : pc.Moves g g' pc') (O : Ordered g) :
    Ordered g' := by
  cases M with
  | link job =>
    constructor
    · show g.entered ++ _ = g.delivered ++ (g.queue ++ _)
      rw [← List.append_assoc, ← O.entered]
    · show (g.entered ++ _).map Job.id = List.range (g.entered ++ _).length
      rw [List.map_append, O.ids, List.length_append, List.length_singleton, List.range_succ]
      rfl
  | @unlink job queue h =>
    constructor
    · show g.entered = g.delivered ++ [job] ++ queue
      rw [O.entered, h, List.append_assoc]
      rfl
    · exact O.ids
  | _ => exact ⟨O.entered, O.ids⟩

/-- Who signals has set the flag, and nobody resets it. -/
theorem Pc.Moves.flag {g g' : Shared α} {pc pc' : Pc α} (M : pc.Moves g g' pc') :
    (g.isShutdown = true → g'.isShutdown = true) ∧
    (∀ i, pc' = .signal i → g'.isShutdown = true ∨ ∃ j, pc = .signal j) := by
  cases M with
  | plain h h' hs => exact ⟨id, fun i heq => absurd heq (hs i)⟩
  | shutdown => exact ⟨fun _ => rfl, fun _ _ => .inl rfl⟩
  | signal i => exact ⟨id, fun _ _ => .inr ⟨i, rfl⟩⟩
  | decrement =>
    refine ⟨id, fun i heq => ?_⟩
    split at heq <;> cases heq
  | _ => exact ⟨id, fun i heq => by cases heq⟩

/-! ## Every run -/

variable [Fintype T]

structure Kept (s : Sys T α) : Prop where
  few : s.shared.queue.length ≤ maxLong
  signal : ∀ t i, s.threads t = .signal i → s.shared.isShutdown = true
  balanced : Balanced s.shared (total Pc.atIncrement s.threads) (total Pc.atRelease s.threads)
    (total Pc.atRetest s.threads) (total Pc.atDecrement s.threads) (total Pc.atUndo s.threads)
    (total Pc.atUnlink s.threads)
  ordered : Ordered s.shared

/-- **The run lemma.** -/
theorem kept {s : Sys T α} (h : Reachable ((jobQueue T α).guard Few) s) : Kept s := by
  apply h.invariant (I := Kept)
  · rintro _ rfl
    have hzero : ∀ f : Pc α → Nat, f .idle = 0 → total f ({} : Sys T α).threads = 0 :=
      fun f hf => total_eq_zero fun _ => hf
    refine ⟨Nat.zero_le _, fun t i heq => (by cases heq), ?_, rfl, rfl⟩
    rw [hzero _ rfl, hzero _ rfl, hzero _ rfl, hzero _ rfl, hzero _ rfl, hzero _ rfl]
    exact ⟨rfl, rfl, Nat.le_refl _, fun _ => rfl⟩
  · rintro s s' - K ⟨⟨⟨t, input⟩, hstep⟩, hfew⟩
    obtain ⟨g, pc, hpc, rfl⟩ := Sys.step_cases hstep
    have M := Pc.step_moves hpc
    refine ⟨hfew, fun u i hu => ?_, ?_, M.ordered K.ordered⟩
    · have hu : update s.threads t pc u = .signal i := hu
      by_cases hut : u = t
      · subst hut
        rw [update_self] at hu
        rcases M.flag.2 i hu with hset | ⟨j, hj⟩
        · exact hset
        · exact M.flag.1 (K.signal u j hj)
      · rw [update_of_ne hut] at hu
        exact M.flag.1 (K.signal u i hu)
    · exact M.balanced K.balanced K.few hfew (K.signal t) (shifts_total _ _ _ _) (shifts_total _ _ _ _)
        (shifts_total _ _ _ _) (shifts_total _ _ _ _) (shifts_total _ _ _ _) (shifts_total _ _ _ _)

/-- Whoever has passed both checks gets a job. -/
theorem Kept.getsJob {s : Sys T α} (K : Kept s) (t : T) : GetsJob s.shared (s.threads t) := by
  obtain ⟨hundo, hlength, hclear, -⟩ := K.balanced
  have hle : ∀ f : Pc α → Nat, f (s.threads t) ≤ total f s.threads := fun f => le_total f s.threads t
  refine ⟨fun heq => ?_, fun heq ok => ?_, fun heq ok => ?_⟩
  · have hone := hle Pc.atUndo
    rw [heq, hundo] at hone
    exact absurd hone (Nat.not_succ_le_zero 0)
  · have hone := hle Pc.atDecrement
    rw [heq] at hone
    have hone : 1 ≤ total Pc.atDecrement s.threads := hone
    have hfew := K.few
    obtain ⟨-, hslt⟩ := decrement_pos (b := s.shared.nodeCount) (by omega) (by omega)
    refine ⟨{ s.shared with nodeCount := s.shared.nodeCount - 1#32 }, ?_⟩
    rw [heq]
    simp only [Pc.go, hslt, Bool.false_eq_true, if_false]
  · have hone := hle Pc.atUnlink
    rw [heq] at hone
    have hone : 1 ≤ total Pc.atUnlink s.threads := hone
    cases hqueue : s.shared.queue with
    | nil =>
      rw [hqueue, List.length_nil] at hlength
      omega
    | cons job queue =>
      refine ⟨{ s.shared with queue := queue, delivered := s.shared.delivered ++ [job] }, job, ?_, rfl, rfl⟩
      rw [heq]
      simp only [Pc.go, hqueue]

/-- The permits, on their way or in the semaphore or used up, are as many as the jobs. -/
theorem Kept.permits {s : Sys T α} (K : Kept s) (hs : s.shared.isShutdown = false) :
    s.shared.semaphore + total Pc.permitted s.threads + total Pc.releasing s.threads
      = s.shared.queue.length := by
  obtain ⟨-, hlength, -, hpermits⟩ := K.balanced
  have hsum := hpermits hs
  have hp : total Pc.permitted s.threads = total Pc.atRetest s.threads + total Pc.atDecrement s.threads
      + total Pc.atUnlink s.threads := by
    unfold total
    rw [← Finset.sum_add_distrib, ← Finset.sum_add_distrib]
    exact Finset.sum_congr rfl fun t _ => by cases s.threads t <;> rfl
  have hr : total Pc.releasing s.threads = total Pc.atIncrement s.threads
      + total Pc.atRelease s.threads := by
    unfold total
    rw [← Finset.sum_add_distrib]
    exact Finset.sum_congr rfl fun t _ => by cases s.threads t <;> rfl
  omega

/-- **Permits and jobs**, in every run in which no more than `MAXLONG` jobs are queued at once: a
    consumer that has passed both checks gets a job; until `Shutdown`, there are as many permits as jobs;
    and no job is delivered twice, nor out of order. -/
theorem job_queue {s : Sys T α} (h : Reachable ((jobQueue T α).guard Few) s) :
    (∀ t, GetsJob s.shared (s.threads t)) ∧
    (s.shared.isShutdown = false →
      s.shared.semaphore + total Pc.permitted s.threads + total Pc.releasing s.threads
        = s.shared.queue.length) ∧
    s.shared.entered = s.shared.delivered ++ s.shared.queue ∧
    (s.shared.delivered.map Job.id).Nodup := by
  have K := kept h
  refine ⟨K.getsJob, K.permits, K.ordered.entered, ?_⟩
  have hids := K.ordered.ids
  rw [K.ordered.entered, List.map_append] at hids
  have hnodup : (List.map Job.id s.shared.delivered ++ List.map Job.id s.shared.queue).Nodup :=
    hids ▸ List.nodup_range
  exact (List.nodup_append.mp hnodup).1

theorem step_next (s : Sys T α) (e : T × Input α) (s' : Sys T α) (h : s.step e = some s') :
    (jobQueue T α).next s s' := ⟨e, h⟩

/-- A job, and a consumer that has a permit and has passed both checks. -/
theorem job_queue_one : ∃ s : Sys Bool Unit, s.threads true = .decrement ∧ s.shared.queue.length = 1 ∧
    GetsJob s.shared .decrement := by
  have hinit : ((jobQueue Bool Unit).guard Few).init {} := rfl
  obtain ⟨s, hr, hp⟩ := exists_reachable_of_exec hinit
    (next_of_decide (M := jobQueue Bool Unit) (G := Few) step_next)
    ((false, .enqueue ()) :: List.replicate 4 (false, .go true) ++
      (true, .dequeue) :: List.replicate 3 (true, .go true))
    (fun s => decide (s.threads true = .decrement ∧ s.shared.queue.length = 1)) (by decide)
  obtain ⟨hpc, hqueue⟩ := of_decide_eq_true hp
  have hjob := (job_queue hr).1 true
  rw [hpc] at hjob
  exact ⟨s, hpc, hqueue, hjob⟩

/-! ## A semaphore at its maximum -/

/-- `n` jobs are queued, and nobody is at work. -/
structure Filled (s : Sys Unit Unit) (n : Nat) : Prop where
  threads : s.threads = fun _ => .idle
  running : s.shared.isShutdown = false
  queue : s.shared.queue.length = n
  semaphore : s.shared.semaphore = min n maxLong

/-- One more is put in; the release fails if there are that many permits. -/
theorem Filled.enqueue {s : Sys Unit Unit} {n : Nat} (F : Filled s n) (hr : Reachable (jobQueue Unit Unit) s) :
    ∃ s', Reachable (jobQueue Unit Unit) s' ∧ Filled s' (n + 1) := by
  obtain ⟨g, threads⟩ := s
  obtain ⟨hthreads, hopen, hqueue, hsemaphore⟩ := F
  dsimp only at hthreads hopen hqueue hsemaphore
  subst hthreads
  have hexec : exec Sys.step (((), .enqueue ()) :: List.replicate 4 ((), .go true)) ⟨g, fun _ => .idle⟩
      = some ⟨{ g with
          queue := g.queue ++ [⟨g.entered.length, ()⟩]
          entered := g.entered ++ [⟨g.entered.length, ()⟩]
          nodeCount := g.nodeCount + 1#32
          semaphore := if g.semaphore < maxLong then g.semaphore + 1 else g.semaphore },
        fun _ => .idle⟩ := by
    simp [exec, Sys.step, Pc.step, Pc.go, Shared.releaseSemaphore, List.replicate, hopen]
  refine ⟨_, reachable_of_exec step_next _ hr hexec, rfl, hopen, ?_, ?_⟩
  · show (g.queue ++ [_]).length = n + 1
    rw [List.length_append, hqueue]
    rfl
  · show (if g.semaphore < maxLong then g.semaphore + 1 else g.semaphore) = min (n + 1) maxLong
    split <;> omega

theorem filled (n : Nat) : ∃ s, Reachable (jobQueue Unit Unit) s ∧ Filled s n := by
  induction n with
  | zero => exact ⟨{}, .start rfl, rfl, rfl, rfl, rfl⟩
  | succ n ih =>
    obtain ⟨s, hr, F⟩ := ih
    exact F.enqueue hr

/-- **A job without a permit**: the 2^31st job in the queue. -/
theorem permit_lost : ∃ s : Sys Unit Unit, Reachable (jobQueue Unit Unit) s ∧
    s.shared.isShutdown = false ∧
    s.shared.semaphore + total Pc.permitted s.threads + total Pc.releasing s.threads
      ≠ s.shared.queue.length := by
  obtain ⟨s, hr, F⟩ := filled 2147483648
  refine ⟨s, hr, F.running, ?_⟩
  have hp : total Pc.permitted s.threads = 0 := total_eq_zero fun t => by rw [F.threads]; rfl
  have hq : total Pc.releasing s.threads = 0 := total_eq_zero fun t => by rw [F.threads]; rfl
  rw [hp, hq, F.queue, F.semaphore]
  decide

end JunCore.JobQueue
