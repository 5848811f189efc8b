/-
  `JunCommon/queue/JobQueue.h`: the `ThreadPool` on top of the `JobQueue`.

  Each worker tests `isShutdown`, waits in `Dequeue` for at most 100 ms, and calls the job it got, if
  there is a function in it; `processedJobCount` counts those that returned, an exception is swallowed.
  Any number of callers `Submit`, and `Shutdown`.  The first `Shutdown` sets the flag, shuts the queue
  down and joins the workers one after the other; any other returns at once.

  A step of a worker or a caller inside of the queue is a step of `JobQueue.lean`.  What a job does is its
  own affair: if it calls `Submit`, that is a call of some caller, at that moment.  A job that called
  `Shutdown` would wait for itself.

  The jobs of the queue are found again: each job taken out is in the hands of one worker or was begun
  once (`Kept`).  After the flag is set no worker begins more than one job, and all of them are out of
  their loop after a few steps, so `Shutdown` returns; what was still queued is never begun.
-/
import JunCore.Common.JobQueue

set_option linter.unusedVariables false
set_option linter.unusedSectionVars false

namespace JunCore.ThreadPool

open Transition Function Counting JobQueue

variable {C α : Type} {n : Nat}

/-! ## The program -/

/-- Where a worker is in `WorkerThreadFunc`. -/
inductive WorkerPc (α : Type)
  /-- `while (!isShutdown.load())` -/
  | test
  /-- in `jobQueue.Dequeue(job, 100)` -/
  | dequeue
  /-- `if (job.jobFunction)` -/
  | check (job : Job α)
  /-- `job.jobFunction()` -/
  | running (job : Job α)
  /-- `processedJobCount.fetch_add(1)` -/
  | count
  | exited
  deriving DecidableEq

def WorkerPc.isExited : WorkerPc α → Bool
  | .exited => true
  | _ => false

/-- Where a caller is. -/
inductive ClientPc (α : Type)
  | idle
  -- `Submit`
  | testSubmit (job : α)
  | submit
  -- `Shutdown`
  | exchange
  | shutdown
  | join (i : Nat)
  deriving DecidableEq

def ClientPc.isIdle : ClientPc α → Bool
  | .idle => true
  | _ => false

/-- The pool with `n` workers.  The members from `started` on are a history that no step reads. -/
structure Pool (C : Type) (n : Nat) (α : Type) where
  queue : Sys (C ⊕ Fin n) α := {}
  isShutdown : Bool := false
  processedJobCount : BitVec 32 := 0#32
  workers : Fin n → WorkerPc α := fun _ => .test
  clients : C → ClientPc α := fun _ => .idle
  /-- the jobs whose function was called, those whose function returned, and those that threw -/
  started : List (Job α) := []
  finished : List (Job α) := []
  thrown : List (Job α) := []
  /-- the jobs without a function -/
  skipped : List (Job α) := []
  /-- since the flag is set: the jobs each worker has begun, and the steps of all workers -/
  late : Fin n → Nat := fun _ => 0
  worked : Nat := 0
  /-- the steps of the `Shutdown` that joins the workers, and whether it has returned -/
  closes : Nat := 0
  closed : Bool := false

/-- A call, or the next step of a thread; `ok` is whether a wait gets its permit before the timeout, and
    whether a job returns without an exception. -/
inductive Act (C : Type) (n : Nat) (α : Type)
  | submit (c : C) (job : α)
  | shutdown (c : C)
  | client (c : C)
  | worker (w : Fin n) (ok : Bool)

/-- A worker is at `pc`, after a step. -/
def Pool.seat (p : Pool C n α) (w : Fin n) (pc : WorkerPc α) : Pool C n α :=
  { p with
    workers := update p.workers w pc
    worked := if p.isShutdown then p.worked + 1 else p.worked }

/-- A caller is between its exchange of the flag and the end of `Shutdown`. -/
def ClientPc.closing : ClientPc α → Nat
  | .shutdown | .join _ => 1
  | _ => 0

/-- A caller is at `pc`, after a step. -/
def Pool.put [DecidableEq C] (p : Pool C n α) (c : C) (pc : ClientPc α) : Pool C n α :=
  { p with
    clients := update p.clients c pc
    closes := p.closes + (p.clients c).closing }

/-- Where a worker goes on after a step in `Dequeue` that has led to `pc'`. -/
def dequeued (g : Shared α) (pc pc' : Pc α) : WorkerPc α :=
  match pc' with
  | .idle =>
    match pc, g.queue with
    | .unlink, job :: _ => .check job
    | _, _ => .test
  | _ => .dequeue

variable [DecidableEq C]

/-- A step of a worker. -/
def Pool.workerStep (callable : α → Bool) (p : Pool C n α) (w : Fin n) (ok : Bool) :
    Option (Pool C n α) :=
  match p.workers w with
  | .test =>
    if p.isShutdown then some (p.seat w .exited)
    else (p.queue.step (.inr w, .dequeue)).map fun q => { p with queue := q }.seat w .dequeue
  | .dequeue =>
    (p.queue.step (.inr w, .go ok)).map fun q =>
      { p with queue := q }.seat w
        (dequeued p.queue.shared (p.queue.threads (.inr w)) (q.threads (.inr w)))
  | .check job =>
    some (if callable job.job then
      { p with
        started := p.started ++ [job]
        late := if p.isShutdown then update p.late w (p.late w + 1) else p.late }.seat w (.running job)
    else { p with skipped := p.skipped ++ [job] }.seat w .test)
  | .running job =>
    some (if ok then { p with finished := p.finished ++ [job] }.seat w .count
    else { p with thrown := p.thrown ++ [job] }.seat w .test)
  | .count => some ({ p with processedJobCount := p.processedJobCount + 1#32 }.seat w .test)
  | .exited => none

/-- Where a caller goes on after a step in the queue that has led to `pc'`: out of the call, or not. -/
def returned (inside after : ClientPc α) (pc' : Pc α) : ClientPc α :=
  match pc' with
  | .idle => after
  | _ => inside

/-- A step of a caller. -/
def Pool.clientStep (p : Pool C n α) (c : C) : Option (Pool C n α) :=
  match p.clients c with
  | .idle => none
  | .testSubmit job =>
    if p.isShutdown then some (p.put c .idle)
    else (p.queue.step (.inl c, .enqueue job)).map fun q => { p with queue := q }.put c .submit
  | .submit =>
    (p.queue.step (.inl c, .go true)).map fun q =>
      { p with queue := q }.put c (returned .submit .idle (q.threads (.inl c)))
  | .exchange =>
    if p.isShutdown then some (p.put c .idle)
    else (p.queue.step (.inl c, .shutdown)).map fun q =>
      { p with queue := q, isShutdown := true }.put c .shutdown
  | .shutdown =>
    (p.queue.step (.inl c, .go true)).map fun q =>
      { p with queue := q }.put c (returned .shutdown (.join 0) (q.threads (.inl c)))
  | .join i =>
    if h : i < n then
      if (p.workers ⟨i, h⟩).isExited then some (p.put c (.join (i + 1))) else none
    else some ({ p with closed := true }.put c .idle)

def Pool.step (callable : α → Bool) (p : Pool C n α) : Act C n α → Option (Pool C n α)
  | .submit c job => if (p.clients c).isIdle then some (p.put c (.testSubmit job)) else none
  | .shutdown c => if (p.clients c).isIdle then some (p.put c .exchange) else none
  | .client c => p.clientStep c
  | .worker w ok => p.workerStep callable w ok

/-- **All runs of the pool.** -/
def threadPool (C : Type) [DecidableEq C] (n : Nat) (callable : α → Bool) : System (Pool C n α) where
  init p := p = {}
  next p p' := ∃ a, p.step callable a = some p'

/-- No more than `MAXLONG` jobs are queued. -/
def Few (p p' : Pool C n α) : Prop := JobQueue.Few p.queue p'.queue

instance (p p' : Pool C n α) : Decidable (Few p p') := inferInstanceAs (Decidable (JobQueue.Few _ _))

/-! ## What the steps do -/

theorem WorkerPc.isExited_iff {pc : WorkerPc α} : pc.isExited = true ↔ pc = .exited := by
  cases pc <;> simp [isExited]

theorem ClientPc.isIdle_iff {pc : ClientPc α} : pc.isIdle = true ↔ pc = .idle := by
  cases pc <;> simp [isIdle]

/-- A call of the queue, or the next step of one. -/
theorem queue_cases {T : Type} [DecidableEq T] {s s' : Sys T α} {t : T} {input : Input α}
    (h : s.step (t, input) = some s') : match input with
      | .enqueue job => s.threads t = .idle ∧ s' = ⟨s.shared, update s.threads t (.testEnqueue job)⟩
      | .dequeue => s.threads t = .idle ∧ s' = ⟨s.shared, update s.threads t .testDequeue⟩
      | .shutdown => s.threads t = .idle ∧ s' = ⟨s.shared, update s.threads t .storeShutdown⟩
      | .go ok => ∃ g pc, (s.threads t).go s.shared ok = some (g, pc) ∧
          s' = ⟨g, update s.threads t pc⟩ := by
  obtain ⟨g, pc, hstep, rfl⟩ := Sys.step_cases h
  cases input with
  | enqueue job | dequeue | shutdown =>
    simp only [Pc.step] at hstep
    split at hstep
    · obtain ⟨rfl, rfl⟩ := Prod.mk.inj (Option.some.inj hstep)
      exact ⟨‹_›, rfl⟩
    · cases hstep
  | go ok => exact ⟨g, pc, hstep, rfl⟩

/-- What a worker does in a step, and where it is then. -/
inductive Turn (callable : α → Bool) (p : Pool C n α) (w : Fin n) : Pool C n α → WorkerPc α → Prop
  | leave (h : p.workers w = .test) (hs : p.isShutdown = true) : Turn callable p w p .exited
  | enter (h : p.workers w = .test) (hs : p.isShutdown = false)
      (hidle : p.queue.threads (.inr w) = .idle) : Turn callable p w
      { p with queue := ⟨p.queue.shared, update p.queue.threads (.inr w) .testDequeue⟩ } .dequeue
  | dequeue {g : Shared α} {pc : Pc α} {ok : Bool} (h : p.workers w = .dequeue)
      (hgo : (p.queue.threads (.inr w)).go p.queue.shared ok = some (g, pc)) : Turn callable p w
      { p with queue := ⟨g, update p.queue.threads (.inr w) pc⟩ }
      (dequeued p.queue.shared (p.queue.threads (.inr w)) pc)
  | start {job : Job α} (h : p.workers w = .check job) (hc : callable job.job = true) : Turn callable p w
      { p with
        started := p.started ++ [job]
        late := if p.isShutdown then update p.late w (p.late w + 1) else p.late } (.running job)
  | skip {job : Job α} (h : p.workers w = .check job) (hc : callable job.job = false) : Turn callable p w
      { p with skipped := p.skipped ++ [job] } .test
  | finish {job : Job α} (h : p.workers w = .running job) : Turn callable p w
      { p with finished := p.finished ++ [job] } .count
  | throw {job : Job α} (h : p.workers w = .running job) : Turn callable p w
      { p with thrown := p.thrown ++ [job] } .test
  | count (h : p.workers w = .count) : Turn callable p w
      { p with processedJobCount := p.processedJobCount + 1#32 } .test

theorem Pool.workerStep_cases {callable : α → Bool} {p p' : Pool C n α} {w : Fin n} {ok : Bool}
    (h : p.workerStep callable w ok = some p') : ∃ q pc, Turn callable p w q pc ∧ p' = q.seat w pc := by
  rw [Pool.workerStep] at h
  cases hpc : p.workers w with
  | test =>
    rw [hpc] at h
    dsimp only at h
    split at h
    · exact ⟨p, _, .leave hpc ‹_›, (Option.some.inj h).symm⟩
    · rw [Option.map_eq_some_iff] at h
      obtain ⟨q, hq, rfl⟩ := h
      obtain ⟨hidle, rfl⟩ : _ ∧ q = _ := queue_cases hq
      exact ⟨_, _, .enter hpc (Bool.eq_false_iff.mpr ‹_›) hidle, rfl⟩
  | dequeue =>
    rw [hpc] at h
    dsimp only at h
    rw [Option.map_eq_some_iff] at h
    obtain ⟨q, hq, rfl⟩ := h
    obtain ⟨g, pc, hgo, rfl⟩ := queue_cases hq
    refine ⟨_, _, .dequeue hpc hgo, ?_⟩
    dsimp only
    rw [update_self]
  | check job =>
    rw [hpc] at h
    dsimp only at h
    rw [← Option.some.inj h]
    split
    · exact ⟨_, _, .start hpc ‹_›, rfl⟩
    · exact ⟨_, _, .skip hpc (Bool.eq_false_iff.mpr ‹_›), rfl⟩
  | running job =>
    rw [hpc] at h
    dsimp only at h
    rw [← Option.some.inj h]
    split
    · exact ⟨_, _, .finish hpc, rfl⟩
    · exact ⟨_, _, .throw hpc, rfl⟩
  | count =>
    rw [hpc] at h
    exact ⟨_, _, .count hpc, (Option.some.inj h).symm⟩
  | exited =>
    rw [hpc] at h
    cases h

/-- Before the first look at the flag, or before the call. -/
def ClientPc.outside : ClientPc α → Bool
  | .idle | .testSubmit _ | .exchange => true
  | _ => false

/-- What a caller does in a step, and where it is then. -/
inductive Errand (p : Pool C n α) (c : C) : Pool C n α → ClientPc α → Prop
  /-- the beginning of a call, or the end of one that has found the flag set -/
  | plain {pc : ClientPc α} (h : (p.clients c).outside = true) (hpc : pc.outside = true) :
      Errand p c p pc
  | enter {job : α} (h : p.clients c = .testSubmit job) (hs : p.isShutdown = false)
      (hidle : p.queue.threads (.inl c) = .idle) : Errand p c
      { p with queue := ⟨p.queue.shared, update p.queue.threads (.inl c) (.testEnqueue job)⟩ } .submit
  | submit {g : Shared α} {pc : Pc α} (h : p.clients c = .submit)
      (hgo : (p.queue.threads (.inl c)).go p.queue.shared true = some (g, pc)) : Errand p c
      { p with queue := ⟨g, update p.queue.threads (.inl c) pc⟩ } (returned .submit .idle pc)
  | exchange (h : p.clients c = .exchange) (hs : p.isShutdown = false)
      (hidle : p.queue.threads (.inl c) = .idle) : Errand p c
      { p with
        queue := ⟨p.queue.shared, update p.queue.threads (.inl c) .storeShutdown⟩
        isShutdown := true } .shutdown
  | shutdown {g : Shared α} {pc : Pc α} (h : p.clients c = .shutdown)
      (hgo : (p.queue.threads (.inl c)).go p.queue.shared true = some (g, pc)) : Errand p c
      { p with queue := ⟨g, update p.queue.threads (.inl c) pc⟩ } (returned .shutdown (.join 0) pc)
  | join {i : Nat} (h : p.clients c = .join i) (hi : i < n) (hw : p.workers ⟨i, hi⟩ = .exited) :
      Errand p c p (.join (i + 1))
  | joined {i : Nat} (h : p.clients c = .join i) (hi : n ≤ i) : Errand p c { p with closed := true } .idle

theorem Pool.clientStep_cases {p p' : Pool C n α} {c : C} (h : p.clientStep c = some p') :
    ∃ q pc, Errand p c q pc ∧ p' = q.put c pc := by
  rw [Pool.clientStep] at h
  cases hpc : p.clients c with
  | idle =>
    rw [hpc] at h
    cases h
  | testSubmit job =>
    rw [hpc] at h
    dsimp only at h
    split at h
    · exact ⟨p, _, .plain (by rw [hpc]; rfl) rfl, (Option.some.inj h).symm⟩
    · rw [Option.map_eq_some_iff] at h
      obtain ⟨q, hq, rfl⟩ := h
      obtain ⟨hidle, rfl⟩ : _ ∧ q = _ := queue_cases hq
      exact ⟨_, _, .enter hpc (Bool.eq_false_iff.mpr ‹_›) hidle, rfl⟩
  | submit =>
    rw [hpc] at h
    dsimp only at h
    rw [Option.map_eq_some_iff] at h
    obtain ⟨q, hq, rfl⟩ := h
    obtain ⟨g, pc, hgo, rfl⟩ := queue_cases hq
    refine ⟨_, _, .submit hpc hgo, ?_⟩
    dsimp only
    rw [update_self]
  | exchange =>
    rw [hpc] at h
    dsimp only at h
    split at h
    · exact ⟨p, _, .plain (by rw [hpc]; rfl) rfl, (Option.some.inj h).symm⟩
    · rw [Option.map_eq_some_iff] at h
      obtain ⟨q, hq, rfl⟩ := h
      obtain ⟨hidle, rfl⟩ : _ ∧ q = _ := queue_cases hq
      exact ⟨_, _, .exchange hpc (Bool.eq_false_iff.mpr ‹_›) hidle, rfl⟩
  | shutdown =>
    rw [hpc] at h
    dsimp only at h
    rw [Option.map_eq_some_iff] at h
    obtain ⟨q, hq, rfl⟩ := h
    obtain ⟨g, pc, hgo, rfl⟩ := queue_cases hq
    refine ⟨_, _, .shutdown hpc hgo, ?_⟩
    dsimp only
    rw [update_self]
  | join i =>
    rw [hpc] at h
    dsimp only at h
    split at h
    · split at h
      · exact ⟨p, _, .join hpc ‹_› (WorkerPc.isExited_iff.mp ‹_›), (Option.some.inj h).symm⟩
      · cases h
    · exact ⟨_, _, .joined hpc (Nat.le_of_not_lt ‹_›), (Option.some.inj h).symm⟩

/-- Each step is that of a caller or that of a worker. -/
theorem Pool.step_cases {callable : α → Bool} {p p' : Pool C n α} {a : Act C n α}
    (h : p.step callable a = some p') :
    (∃ c q pc, Errand p c q pc ∧ p' = q.put c pc) ∨
    (∃ w q pc, Turn callable p w q pc ∧ p' = q.seat w pc) := by
  cases a with
  | submit c job | shutdown c =>
    simp only [Pool.step] at h
    split at h
    · have hidle : p.clients c = .idle := ClientPc.isIdle_iff.mp ‹_›
      exact .inl ⟨c, p, _, .plain (by rw [hidle]; rfl) rfl, (Option.some.inj h).symm⟩
    · cases h
  | client c => exact .inl ⟨c, Pool.clientStep_cases h⟩
  | worker w ok => exact .inr ⟨w, Pool.workerStep_cases h⟩

/-! ## In and out of the queue -/

/-- In `JobQueue::Dequeue`. -/
def consumes : Pc α → Bool
  | .testDequeue | .wait | .retest | .decrement | .undo | .unlink => true
  | _ => false

/-- The job it has taken out and not begun. -/
def WorkerPc.held : WorkerPc α → Multiset (Job α)
  | .check job => {job}
  | _ => 0

/-- The job it runs. -/
def WorkerPc.begun : WorkerPc α → Multiset (Job α)
  | .running job => {job}
  | _ => 0

/-- Its job has returned and is not counted. -/
def WorkerPc.atCount : WorkerPc α → Nat
  | .count => 1
  | _ => 0

/-- It may begin a job before it looks at the flag again. -/
def WorkerPc.fresh : WorkerPc α → Bool
  | .dequeue | .check _ => true
  | _ => false

/-- How many steps it is at most from the end of its loop, once the flag is set. -/
def rank : WorkerPc α × Pc α → Nat
  | (.exited, _) => 0
  | (.test, _) => 1
  | (.count, _) => 2
  | (.running _, _) => 3
  | (.check _, _) => 4
  | (.dequeue, pc) =>
    match pc with
    | .testDequeue => 9
    | .wait => 8
    | .retest => 7
    | .decrement => 6
    | _ => 5

theorem rank_le (x : WorkerPc α × Pc α) : rank x ≤ 9 := by
  obtain ⟨pc, inner⟩ := x
  cases pc <;> simp only [rank] <;> first | omega | (cases inner <;> simp)

/-- A worker is in the queue just when its loop says so. -/
def Seated : WorkerPc α × Pc α → Prop
  | (.dequeue, pc) => consumes pc = true
  | (_, pc) => pc = .idle

/-- Where a worker is, in its loop and in the queue. -/
def Pool.place (p : Pool C n α) (w : Fin n) : WorkerPc α × Pc α := (p.workers w, p.queue.threads (.inr w))

omit [DecidableEq C] in
theorem Seated.idle {p : Pool C n α} {w : Fin n} (h : Seated (p.place w))
    (hpc : p.workers w ≠ .dequeue) : p.queue.threads (.inr w) = .idle := by
  unfold Pool.place at h
  cases hw : p.workers w with
  | dequeue => exact absurd hw hpc
  | _ =>
    rw [hw] at h
    exact h

omit [DecidableEq C] in
theorem Seated.consumes {p : Pool C n α} {w : Fin n} (h : Seated (p.place w))
    (hpc : p.workers w = .dequeue) : consumes (p.queue.threads (.inr w)) = true := by
  unfold Pool.place at h
  rwa [hpc] at h

/-- **A step in `Dequeue`** leads on, back to the loop, or to the next job with that job in hand. -/
theorem consumer_go {g g' : Shared α} {pc pc' : Pc α} {ok : Bool} (h : pc.go g ok = some (g', pc'))
    (hc : consumes pc = true) (G : GetsJob g pc) :
    Seated (dequeued g pc pc', pc') ∧ rank (dequeued g pc pc', pc') < rank (.dequeue, pc) ∧
    (dequeued g pc pc').begun = 0 ∧ (dequeued g pc pc').atCount = 0 ∧ dequeued g pc pc' ≠ .exited ∧
    (g'.delivered : Multiset (Job α)) = g.delivered + (dequeued g pc pc').held := by
  have plain : ∀ x : WorkerPc α, x = .dequeue ∨ x = .test → x.begun = 0 ∧ x.atCount = 0 ∧
      x ≠ .exited ∧ (g.delivered : Multiset (Job α)) = g.delivered + x.held := by
    rintro x (rfl | rfl)
    · exact ⟨rfl, rfl, nofun, (add_zero _).symm⟩
    · exact ⟨rfl, rfl, nofun, (add_zero _).symm⟩
  cases pc with
  | testDequeue | retest =>
    obtain ⟨rfl, rfl⟩ := Prod.mk.inj (Option.some.inj h)
    split
    · exact ⟨rfl, by simp [dequeued, rank], plain _ (.inr rfl)⟩
    · exact ⟨rfl, by simp [dequeued, rank], plain _ (.inl rfl)⟩
  | wait =>
    simp only [Pc.go] at h
    split at h
    · split at h
      · obtain ⟨rfl, rfl⟩ := Prod.mk.inj (Option.some.inj h)
        exact ⟨rfl, by simp [dequeued, rank], plain _ (.inl rfl)⟩
      · cases h
    · obtain ⟨rfl, rfl⟩ := Prod.mk.inj (Option.some.inj h)
      exact ⟨rfl, by simp [dequeued, rank], plain _ (.inr rfl)⟩
  | decrement =>
    obtain ⟨g₁, hgo⟩ := G.2.1 rfl ok
    rw [hgo] at h
    obtain ⟨rfl, rfl⟩ := Prod.mk.inj (Option.some.inj h)
    obtain ⟨rfl, -⟩ := Prod.mk.inj (Option.some.inj hgo)
    exact ⟨rfl, by simp [dequeued, rank], plain _ (.inl rfl)⟩
  | undo => exact absurd rfl G.1
  | unlink =>
    obtain ⟨g₁, job, hgo, hqueue, hdelivered⟩ := G.2.2 rfl ok
    rw [hgo] at h
    obtain ⟨rfl, rfl⟩ := Prod.mk.inj (Option.some.inj h)
    have htaken : dequeued g .unlink (.idle : Pc α) = .check job := by
      simp only [dequeued, hqueue]
    rw [htaken, hdelivered]
    exact ⟨rfl, by simp [rank], rfl, rfl, (fun he => by cases he), (Multiset.coe_add _ _).symm⟩
  | _ => cases hc

/-- In `JobQueue::Enqueue`. -/
def enqueues : Pc α → Bool
  | .testEnqueue _ | .link _ | .increment | .release => true
  | _ => false

/-- In `JobQueue::Shutdown`. -/
def signals : Pc α → Bool
  | .storeShutdown | .signal _ => true
  | _ => false

/-- A caller is in the queue just when it says so. -/
def Lent : ClientPc α × Pc α → Prop
  | (.submit, pc) => enqueues pc = true
  | (.shutdown, pc) => signals pc = true
  | (_, pc) => pc = .idle

/-- How many steps the caller that closes the pool is from the end, if no worker keeps it waiting. -/
def patience (n : Nat) : ClientPc α × Pc α → Nat
  | (.shutdown, .storeShutdown) => n + 103
  | (.shutdown, .signal i) => 100 - i + (n + 2)
  | (.join i, _) => n - i + 1
  | _ => 0

/-- Where a caller is, in its call and in the queue. -/
def Pool.lent (p : Pool C n α) (c : C) : ClientPc α × Pc α := (p.clients c, p.queue.threads (.inl c))

/-- A step in `Enqueue`. -/
theorem enqueue_go {g g' : Shared α} {pc pc' : Pc α} {ok : Bool} (h : pc.go g ok = some (g', pc'))
    (hc : enqueues pc = true) :
    g'.delivered = g.delivered ∧ Lent (returned .submit .idle pc', pc') := by
  cases pc with
  | testEnqueue job =>
    obtain ⟨rfl, rfl⟩ := Prod.mk.inj (Option.some.inj h)
    split
    · exact ⟨rfl, rfl⟩
    · exact ⟨rfl, rfl⟩
  | link | increment | release =>
    obtain ⟨rfl, rfl⟩ := Prod.mk.inj (Option.some.inj h)
    exact ⟨rfl, rfl⟩
  | _ => cases hc

/-- A step in `Shutdown` leads on to the next, or to the first worker. -/
theorem shutdown_go {g g' : Shared α} {pc pc' : Pc α} {ok : Bool} (h : pc.go g ok = some (g', pc'))
    (hc : signals pc = true) (n : Nat) :
    g'.delivered = g.delivered ∧ Lent (returned .shutdown (.join 0) pc', pc') ∧
      patience n (returned .shutdown (.join 0) pc', pc') + 1 ≤ patience n (.shutdown, pc) := by
  cases pc with
  | storeShutdown =>
    obtain ⟨rfl, rfl⟩ := Prod.mk.inj (Option.some.inj h)
    exact ⟨rfl, rfl, by simp only [returned, patience]; omega⟩
  | signal i =>
    have h := Option.some.inj h
    split at h
    · obtain ⟨rfl, rfl⟩ := Prod.mk.inj h
      exact ⟨rfl, rfl, by simp only [returned, patience]; omega⟩
    · obtain ⟨rfl, rfl⟩ := Prod.mk.inj h
      exact ⟨rfl, rfl, by simp only [returned, patience]; omega⟩
  | _ => cases hc

theorem ClientPc.outside_zero {pc : ClientPc α} (h : pc.outside = true) : pc.closing = 0 := by
  cases pc <;> first | rfl | cases h

theorem outside_patience {pc : ClientPc α} (h : pc.outside = true) (inner : Pc α) :
    patience n (pc, inner) = 0 := by
  cases pc <;> first | rfl | cases h

/-- What a worker's step does to the jobs: `h` and `b` are what it holds and runs before it, `k` whether it
    is about to count. -/
structure Handed (p q : Pool C n α) (h b : Multiset (Job α)) (k : Nat) (pc : WorkerPc α) : Prop where
  taken : (q.queue.shared.delivered : Multiset (Job α)) + h + p.started + p.skipped
    = p.queue.shared.delivered + q.started + q.skipped + pc.held
  begun : (q.started : Multiset (Job α)) + b + p.finished + p.thrown
    = p.started + q.finished + q.thrown + pc.begun
  counted : q.processedJobCount + BitVec.ofNat 32 pc.atCount + BitVec.ofNat 32 p.finished.length
    = p.processedJobCount + BitVec.ofNat 32 k + BitVec.ofNat 32 q.finished.length

theorem Turn.handed {callable : α → Bool} {p q : Pool C n α} {w : Fin n} {pc : WorkerPc α}
    (t : Turn callable p w q pc) (hs : Seated (p.place w))
    (G : GetsJob p.queue.shared (p.queue.threads (.inr w))) :
    Handed p q (p.workers w).held (p.workers w).begun (p.workers w).atCount pc := by
  cases t with
  | leave h _ | enter h _ _ => rw [h]; exact ⟨by simp [WorkerPc.held], by simp [WorkerPc.begun], rfl⟩
  | dequeue h hgo =>
    obtain ⟨-, -, hbegun, hcount, -, hdelivered⟩ := consumer_go hgo (hs.consumes h) G
    rw [h]
    refine ⟨?_, ?_, ?_⟩
    · dsimp only
      rw [hdelivered]
      simp only [WorkerPc.held]
      abel
    · rw [hbegun]
      simp [WorkerPc.begun]
    · rw [hcount]
      rfl
  | start h hc =>
    rw [h]
    refine ⟨?_, ?_, rfl⟩
    · simp only [WorkerPc.held, ← Multiset.coe_add, Multiset.coe_singleton]
      abel
    · simp only [WorkerPc.begun, ← Multiset.coe_add, Multiset.coe_singleton]
      abel
  | skip h hc =>
    rw [h]
    refine ⟨?_, by simp [WorkerPc.begun], rfl⟩
    simp only [WorkerPc.held, ← Multiset.coe_add, Multiset.coe_singleton]
    abel
  | finish h =>
    rw [h]
    refine ⟨by simp [WorkerPc.held], ?_, ?_⟩
    · simp only [WorkerPc.begun, ← Multiset.coe_add, Multiset.coe_singleton]
      abel
    · simp only [WorkerPc.atCount, List.length_append, List.length_singleton, BitVec.ofNat_add]
      rw [BitVec.add_zero, BitVec.add_assoc, BitVec.add_comm 1#32]
  | throw h =>
    rw [h]
    refine ⟨by simp [WorkerPc.held], ?_, rfl⟩
    simp only [WorkerPc.begun, ← Multiset.coe_add, Multiset.coe_singleton]
    abel
  | count h =>
    rw [h]
    refine ⟨by simp [WorkerPc.held], by simp [WorkerPc.begun], ?_⟩
    simp [WorkerPc.atCount]

/-- The place a worker goes to: nearer to the end of its loop, once the flag is set. -/
theorem Turn.place {callable : α → Bool} {p q : Pool C n α} {w : Fin n} {pc : WorkerPc α}
    (t : Turn callable p w q pc) (hs : Seated (p.place w))
    (G : GetsJob p.queue.shared (p.queue.threads (.inr w))) :
    ∃ inner, q.queue.threads = update p.queue.threads (.inr w) inner ∧ Seated (pc, inner) ∧
      (p.isShutdown = true → rank (pc, inner) < rank (p.place w)) := by
  have hself := (update_eq_self (.inr w) p.queue.threads).symm
  have hplace : p.place w = (p.workers w, p.queue.threads (.inr w)) := rfl
  cases t with
  | leave h _ | finish h | throw h | count h | start h _ | skip h _ =>
    refine ⟨_, hself, hs.idle (fun he => by rw [h] at he; cases he), fun _ => ?_⟩
    rw [hplace, h]
    simp [rank]
  | enter h hopen _ => exact ⟨_, rfl, rfl, fun hset => by rw [hopen] at hset; cases hset⟩
  | dequeue h hgo =>
    obtain ⟨hseat, hrank, -⟩ := consumer_go hgo (hs.consumes h) G
    refine ⟨_, rfl, hseat, fun _ => ?_⟩
    rw [hplace, h]
    exact hrank

/-- What a worker's step leaves alone, and what it counts once the flag is set. -/
theorem Turn.frame {callable : α → Bool} {p q : Pool C n α} {w : Fin n} {pc : WorkerPc α}
    (t : Turn callable p w q pc) : q.workers = p.workers ∧ q.clients = p.clients ∧
      q.isShutdown = p.isShutdown ∧ q.worked = p.worked ∧ q.closed = p.closed ∧ q.closes = p.closes := by
  cases t <;> exact ⟨rfl, rfl, rfl, rfl, rfl, rfl⟩

theorem Turn.busy {callable : α → Bool} {p q : Pool C n α} {w : Fin n} {pc : WorkerPc α}
    (t : Turn callable p w q pc) : p.workers w ≠ .exited := by
  intro he
  cases t with
  | leave h _ | enter h _ _ | dequeue h _ | start h _ | skip h _ | finish h | throw h | count h =>
    rw [h] at he
    cases he

theorem Turn.late {callable : α → Bool} {p q : Pool C n α} {w : Fin n} {pc : WorkerPc α}
    (t : Turn callable p w q pc) :
    q.late = p.late ∧ (pc.fresh = true → (p.workers w).fresh = true ∨ p.isShutdown = false) ∨
    (p.workers w).fresh = true ∧ p.isShutdown = true ∧ pc.fresh = false ∧
      q.late = update p.late w (p.late w + 1) := by
  cases t with
  | start h hc =>
    cases hset : p.isShutdown with
    | false => exact .inl ⟨by simp, fun hf => by cases hf⟩
    | true => exact .inr ⟨by rw [h]; rfl, rfl, rfl, by simp⟩
  | enter h hopen _ => exact .inl ⟨rfl, fun _ => .inr hopen⟩
  | dequeue h hgo => exact .inl ⟨rfl, fun _ => .inl (by rw [h]; rfl)⟩
  | _ => exact .inl ⟨rfl, fun hf => by cases hf⟩

/-- A worker leaves its loop only when the flag is set. -/
theorem Turn.exited {callable : α → Bool} {p q : Pool C n α} {w : Fin n} {pc : WorkerPc α}
    (t : Turn callable p w q pc) (hpc : pc = .exited) : p.isShutdown = true := by
  subst hpc
  generalize he : (.exited : WorkerPc α) = pc at t
  cases t with
  | leave h hs => exact hs
  | @dequeue g inner ok h hgo =>
    unfold dequeued at he
    split at he
    · split at he <;> cases he
    · cases he
  | _ => cases he

/-! ## Every run -/

variable [Fintype C]

/-- **The jobs.**  What was taken out of the queue was begun, was skipped or is in the hands of a worker;
    what was begun has returned, has thrown or still runs; and what has returned is counted. -/
structure Ledger (p : Pool C n α) : Prop where
  taken : (p.queue.shared.delivered : Multiset (Job α))
    = p.started + p.skipped + ∑ w, (p.workers w).held
  begun : (p.started : Multiset (Job α)) = p.finished + p.thrown + ∑ w, (p.workers w).begun
  counted : p.processedJobCount + BitVec.ofNat 32 (total WorkerPc.atCount p.workers)
    = BitVec.ofNat 32 p.finished.length

/-- **The end.**  After the flag is set, a worker begins at most one job, and there are at most nine steps
    of each; who closes the pool waits for all of them, and takes at most `n + 103` steps itself. -/
structure Ending (p : Pool C n α) : Prop where
  exited : ∀ w, p.workers w = .exited → p.isShutdown = true
  early : p.isShutdown = false → (∀ w, p.late w = 0) ∧ p.worked = 0
  late : ∀ w, p.late w ≤ 1 ∧ ((p.workers w).fresh = true → p.late w = 0)
  energy : p.worked + total rank p.place ≤ 9 * n
  closer : total ClientPc.closing p.clients + p.closed.toNat = p.isShutdown.toNat
  patience : p.closes + total (patience n) p.lent ≤ (n + 103) * p.isShutdown.toNat
  joined : ∀ c i, p.clients c = .join i → ∀ w : Fin n, w.val < i → p.workers w = .exited
  closed : p.closed = true → ∀ w, p.workers w = .exited

structure Kept (p : Pool C n α) : Prop where
  seated : ∀ w, Seated (p.place w)
  lent : ∀ c, Lent (p.lent c)
  ledger : Ledger p
  ending : Ending p

omit [Fintype C] in
theorem place_seat {p q : Pool C n α} {w : Fin n} {pc : WorkerPc α} {inner : Pc α}
    (hw : q.workers = p.workers) (ht : q.queue.threads = update p.queue.threads (.inr w) inner) :
    (q.seat w pc).place = update p.place w (pc, inner) := by
  funext v
  unfold Pool.place Pool.seat
  dsimp only
  rw [hw, ht]
  by_cases hv : v = w
  · subst hv
    rw [update_self, update_self, update_self]
  · rw [update_of_ne hv, update_of_ne hv, update_of_ne (by simpa using hv)]

omit [Fintype C] in
theorem lent_seat {p q : Pool C n α} {w : Fin n} {pc : WorkerPc α} {inner : Pc α}
    (hc : q.clients = p.clients) (ht : q.queue.threads = update p.queue.threads (.inr w) inner) :
    (q.seat w pc).lent = p.lent := by
  funext c
  show (q.clients c, q.queue.threads (.inl c)) = (p.clients c, p.queue.threads (.inl c))
  rw [hc, ht, update_of_ne Sum.inl_ne_inr]

omit [Fintype C] [DecidableEq C] in
/-- What a worker has still to count moves into the counter. -/
theorem move_count {counter counter' old new after before done : BitVec 32}
    (hcounted : counter' + new + (counter + before) = counter + old + done)
    (hsum : after + old = before + new) : counter' + after = done := by
  grind

omit [Fintype C] in
/-- A worker's step keeps the ledger. -/
theorem Ledger.seat {p q : Pool C n α} {w : Fin n} {pc : WorkerPc α} (L : Ledger p)
    (hw : q.workers = p.workers)
    (H : Handed p q (p.workers w).held (p.workers w).begun (p.workers w).atCount pc) :
    Ledger (q.seat w pc) := by
  have hheld := sum_update WorkerPc.held p.workers w pc
  have hbegun := sum_update WorkerPc.begun p.workers w pc
  have hcount := total_update WorkerPc.atCount p.workers w pc
  unfold Pool.seat
  rw [hw]
  refine ⟨?_, ?_, ?_⟩
  · have htaken := H.taken
    rw [L.taken] at htaken
    dsimp only
    refine add_right_cancel (b := (p.workers w).held + p.started + p.skipped) ?_
    calc (q.queue.shared.delivered : Multiset (Job α)) + ((p.workers w).held + p.started + p.skipped)
        = q.queue.shared.delivered + (p.workers w).held + p.started + p.skipped := by abel
      _ = p.started + p.skipped + (∑ v, (p.workers v).held + pc.held) + q.started + q.skipped := by
        rw [htaken]
        abel
      _ = _ := by
        rw [← hheld]
        abel
  · have hstarted := H.begun
    rw [L.begun] at hstarted
    dsimp only
    refine add_right_cancel (b := (p.workers w).begun + p.finished + p.thrown) ?_
    calc (q.started : Multiset (Job α)) + ((p.workers w).begun + p.finished + p.thrown)
        = q.started + (p.workers w).begun + p.finished + p.thrown := by abel
      _ = p.finished + p.thrown + (∑ v, (p.workers v).begun + pc.begun) + q.finished + q.thrown := by
        rw [hstarted]
        abel
      _ = _ := by
        rw [← hbegun]
        abel
  · have hcounted := H.counted
    rw [← L.counted] at hcounted
    dsimp only
    have hofNat := congrArg (BitVec.ofNat 32) hcount
    rw [BitVec.ofNat_add, BitVec.ofNat_add] at hofNat
    exact move_count hcounted hofNat

omit [Fintype C] in
/-- Nobody is more than nine steps from the end. -/
theorem total_rank_le (place : Fin n → WorkerPc α × Pc α) : total rank place ≤ 9 * n := by
  have h := total_le rank_le place
  rwa [Fintype.card_fin] at h

/-- A worker's step keeps what is said about the end. -/
theorem Ending.seat {callable : α → Bool} {p q : Pool C n α} {w : Fin n} {pc : WorkerPc α} {inner : Pc α}
    (E : Ending p) (t : Turn callable p w q pc)
    (ht : q.queue.threads = update p.queue.threads (.inr w) inner)
    (hrank : p.isShutdown = true → rank (pc, inner) < rank (p.place w)) : Ending (q.seat w pc) := by
  obtain ⟨hworkers, hclients, hflag, hworked, hclosed, hcloses⟩ := t.frame
  -- who has left its loop takes no step
  have hstays : ∀ v, p.workers v = .exited → (q.seat w pc).workers v = .exited := by
    intro v hv
    have hne : v ≠ w := fun hvw => t.busy (hvw ▸ hv)
    show update q.workers w pc v = .exited
    rw [update_of_ne hne, hworkers, hv]
  refine ⟨fun v hv => ?_, fun hopen => ?_, fun v => ?_, ?_, ?_, ?_, fun c i hc v hv => ?_, fun h v => ?_⟩
  · show q.isShutdown = true
    rw [hflag]
    have hv : update q.workers w pc v = .exited := hv
    by_cases hvw : v = w
    · subst hvw
      rw [update_self] at hv
      exact t.exited hv
    · rw [update_of_ne hvw, hworkers] at hv
      exact E.exited v hv
  · have hopen : q.isShutdown = false := hopen
    have hopen' := hflag ▸ hopen
    obtain ⟨hlate, hnone⟩ := E.early hopen'
    refine ⟨?_, ?_⟩
    · rcases t.late with ⟨hsame, -⟩ | ⟨-, hset, -⟩
      · show ∀ v, q.late v = 0
        rwa [hsame]
      · rw [hset] at hopen'
        cases hopen'
    · show (if q.isShutdown then q.worked + 1 else q.worked) = 0
      rw [hopen, hworked, hnone]
      rfl
  · show q.late v ≤ 1 ∧ ((update q.workers w pc v).fresh = true → q.late v = 0)
    rw [hworkers]
    by_cases hvw : v = w
    · subst hvw
      rw [update_self]
      rcases t.late with ⟨hsame, hfresh⟩ | ⟨hold, -, hnew, hlate⟩
      · rw [hsame]
        refine ⟨(E.late v).1, fun hpc => ?_⟩
        rcases hfresh hpc with hold | hopen
        · exact (E.late v).2 hold
        · exact (E.early hopen).1 v
      · rw [hlate, update_self, (E.late v).2 hold, hnew]
        exact ⟨Nat.le_refl 1, fun hf => by cases hf⟩
    · rw [update_of_ne hvw]
      have hsame : q.late v = p.late v := by
        rcases t.late with ⟨hsame, -⟩ | ⟨-, -, -, hlate⟩
        · rw [hsame]
        · rw [hlate, update_of_ne hvw]
      rw [hsame]
      exact E.late v
  · show (if q.isShutdown then q.worked + 1 else q.worked) + total rank (q.seat w pc).place ≤ 9 * n
    rw [hworked, hflag]
    cases hset : p.isShutdown with
    | false =>
      rw [(E.early hset).2]
      have := total_rank_le (q.seat w pc).place
      simp only [Bool.false_eq_true, if_false]
      omega
    | true =>
      rw [place_seat hworkers ht]
      have hupdate := total_update rank p.place w (pc, inner)
      have hless := hrank hset
      have henergy := E.energy
      simp only [if_true]
      omega
  · show total ClientPc.closing q.clients + q.closed.toNat = q.isShutdown.toNat
    rw [hclients, hclosed, hflag]
    exact E.closer
  · rw [show (q.seat w pc).lent = p.lent from lent_seat hclients ht]
    show q.closes + _ ≤ (n + 103) * q.isShutdown.toNat
    rw [hcloses, hflag]
    exact E.patience
  · have hc : q.clients c = .join i := hc
    rw [hclients] at hc
    exact hstays v (E.joined c i hc v hv)
  · have h : q.closed = true := h
    rw [hclosed] at h
    exact hstays v (E.closed h v)

omit [Fintype C] in
/-- What a caller's step leaves alone. -/
theorem Errand.frame {p q : Pool C n α} {c : C} {pc : ClientPc α} (e : Errand p c q pc) :
    q.workers = p.workers ∧ q.clients = p.clients ∧ q.started = p.started ∧ q.finished = p.finished ∧
      q.thrown = p.thrown ∧ q.skipped = p.skipped ∧ q.processedJobCount = p.processedJobCount ∧
      q.late = p.late ∧ q.worked = p.worked ∧ q.closes = p.closes ∧
      (p.isShutdown = true → q.isShutdown = true) := by
  cases e <;> exact ⟨rfl, rfl, rfl, rfl, rfl, rfl, rfl, rfl, rfl, rfl, fun h => by first | rfl | exact h⟩

omit [Fintype C] in
/-- A caller neither takes a job out nor moves another thread; the one that closes the pool gets on. -/
theorem Errand.queue {p q : Pool C n α} {c : C} {pc : ClientPc α} (e : Errand p c q pc)
    (hc : Lent (p.lent c)) :
    q.queue.shared.delivered = p.queue.shared.delivered ∧ ∃ inner,
      q.queue.threads = update p.queue.threads (.inl c) inner ∧ Lent (pc, inner) ∧
      patience n (pc, inner) + (p.clients c).closing + (n + 103) * p.isShutdown.toNat
        ≤ patience n (p.lent c) + (n + 103) * q.isShutdown.toNat := by
  have hself := (update_eq_self (.inl c) p.queue.threads).symm
  have hlent : p.lent c = (p.clients c, p.queue.threads (.inl c)) := rfl
  cases e with
  | plain h hpc =>
    have hidle : p.queue.threads (.inl c) = .idle := by
      rw [hlent] at hc
      cases hpcs : p.clients c <;> rw [hpcs] at h hc <;> first | exact hc | cases h
    refine ⟨rfl, _, hself, ?_, ?_⟩
    · rw [hidle]
      cases pc <;> first | rfl | cases hpc
    · rw [outside_patience hpc, ClientPc.outside_zero h]
      omega
  | enter h _ _ =>
    refine ⟨rfl, _, rfl, rfl, ?_⟩
    rw [h]
    simp only [patience, ClientPc.closing]
    omega
  | submit h hgo =>
    rw [hlent, h] at hc
    obtain ⟨hdelivered, hinner⟩ := enqueue_go hgo hc
    refine ⟨hdelivered, _, rfl, hinner, ?_⟩
    have hzero : ∀ inner : Pc α, patience n (returned .submit .idle inner, inner) = 0 := by
      intro inner
      cases inner <;> rfl
    rw [hzero, h]
    simp only [ClientPc.closing]
    omega
  | exchange h hs _ =>
    refine ⟨rfl, _, rfl, rfl, ?_⟩
    rw [hs, h]
    simp only [patience, ClientPc.closing, Bool.toNat_true, Bool.toNat_false]
    omega
  | shutdown h hgo =>
    rw [hlent, h] at hc
    obtain ⟨hdelivered, hinner, hless⟩ := shutdown_go hgo hc n
    refine ⟨hdelivered, _, rfl, hinner, ?_⟩
    rw [hlent, h]
    simp only [ClientPc.closing]
    omega
  | @join i h hi _ =>
    rw [hlent, h] at hc ⊢
    refine ⟨rfl, _, hself, hc, ?_⟩
    simp only [patience, ClientPc.closing]
    omega
  | @joined i h hi =>
    rw [hlent, h] at hc ⊢
    refine ⟨rfl, _, hself, hc, ?_⟩
    simp only [patience, ClientPc.closing]
    omega

omit [Fintype C] in
theorem returned_closing {inside after : ClientPc α} {k : Nat} (hi : inside.closing = k)
    (ha : after.closing = k) (pc : Pc α) : (returned inside after pc).closing = k := by
  unfold returned
  split
  · exact ha
  · exact hi

omit [Fintype C] in
/-- One caller takes the flag, and it closes the pool. -/
theorem Errand.closer {p q : Pool C n α} {c : C} {pc : ClientPc α} (e : Errand p c q pc) :
    pc.closing = (p.clients c).closing ∧ q.isShutdown = p.isShutdown ∧ q.closed = p.closed ∨
    (p.clients c).closing = 0 ∧ pc.closing = 1 ∧ p.isShutdown = false ∧ q.isShutdown = true ∧
      q.closed = p.closed ∨
    (p.clients c).closing = 1 ∧ pc.closing = 0 ∧ q.isShutdown = p.isShutdown ∧ q.closed = true := by
  cases e with
  | plain h hpc =>
    exact .inl ⟨by rw [ClientPc.outside_zero h, ClientPc.outside_zero hpc], rfl, rfl⟩
  | enter h _ _ => exact .inl ⟨by rw [h]; rfl, rfl, rfl⟩
  | submit h _ => exact .inl ⟨by rw [h, returned_closing (k := 0) rfl rfl]; rfl, rfl, rfl⟩
  | exchange h hs _ => exact .inr (.inl ⟨by rw [h]; rfl, rfl, hs, rfl, rfl⟩)
  | shutdown h _ => exact .inl ⟨by rw [h, returned_closing (k := 1) rfl rfl]; rfl, rfl, rfl⟩
  | join h _ _ => exact .inl ⟨by rw [h]; rfl, rfl, rfl⟩
  | joined h _ => exact .inr (.inr ⟨by rw [h]; rfl, rfl, rfl, rfl⟩)

omit [Fintype C] in
/-- Who goes on to the next worker, or closes the pool, has joined those before. -/
theorem Errand.joins {p q : Pool C n α} {c : C} {pc : ClientPc α} (e : Errand p c q pc)
    (hjoined : ∀ i, p.clients c = .join i → ∀ w : Fin n, w.val < i → p.workers w = .exited) :
    (∀ i, pc = .join i → ∀ w : Fin n, w.val < i → p.workers w = .exited) ∧
    (q.closed = true → p.closed = true ∨ ∀ w, p.workers w = .exited) := by
  have hleft : ∀ inside after : ClientPc α, (∀ i, inside ≠ .join i) → (∀ i, after = .join i → i = 0) →
      ∀ inner i, returned inside after inner = .join i → i = 0 := by
    intro inside after hinside hafter inner i h
    unfold returned at h
    split at h
    · exact hafter i h
    · exact absurd h (hinside i)
  cases e with
  | plain h hpc =>
    refine ⟨?_, .inl⟩
    rintro i rfl
    cases hpc
  | enter | exchange => exact ⟨(fun i hi => by cases hi), .inl⟩
  | submit h _ =>
    refine ⟨fun i hi w hw => ?_, .inl⟩
    have := hleft .submit .idle (fun i hi => by cases hi) (fun i hi => by cases hi) _ i hi
    omega
  | shutdown h _ =>
    refine ⟨fun i hi w hw => ?_, .inl⟩
    have := hleft .shutdown (.join 0) (fun i hi => by cases hi) (fun i hi => by cases hi; rfl) _ i hi
    omega
  | @join j h hj hw =>
    refine ⟨fun i hi v hv => ?_, .inl⟩
    cases hi
    rcases Nat.lt_succ_iff_lt_or_eq.mp hv with hlt | heq
    · exact hjoined j h v hlt
    · obtain rfl : v = ⟨j, hj⟩ := Fin.ext heq
      exact hw
  | @joined j h hj =>
    exact ⟨(fun i hi => by cases hi), fun _ => .inr fun w => hjoined j h w (Nat.lt_of_lt_of_le w.isLt hj)⟩

omit [Fintype C] in
theorem lent_put {p q : Pool C n α} {c : C} {pc : ClientPc α} {inner : Pc α} (e : Errand p c q pc)
    (ht : q.queue.threads = update p.queue.threads (.inl c) inner) :
    (q.put c pc).lent = update p.lent c (pc, inner) := by
  obtain ⟨-, hclients, -⟩ := e.frame
  funext d
  unfold Pool.lent Pool.put
  dsimp only
  rw [hclients, ht]
  by_cases hdc : d = c
  · subst hdc
    rw [update_self, update_self, update_self]
  · rw [update_of_ne hdc, update_of_ne hdc, update_of_ne (by simpa using hdc)]

/-- A caller's step keeps what is said about the end. -/
theorem Ending.put {p q : Pool C n α} {c : C} {pc : ClientPc α} {inner : Pc α} (E : Ending p)
    (e : Errand p c q pc) (ht : q.queue.threads = update p.queue.threads (.inl c) inner)
    (hp : ThreadPool.patience n (pc, inner) + (p.clients c).closing + (n + 103) * p.isShutdown.toNat
      ≤ ThreadPool.patience n (p.lent c) + (n + 103) * q.isShutdown.toNat) : Ending (q.put c pc) := by
  obtain ⟨hworkers, hclients, -, -, -, -, -, hlate, hworked, hcloses, hflag⟩ := e.frame
  obtain ⟨hjoin, hclosed⟩ := e.joins (E.joined c)
  have hplace : (q.put c pc).place = p.place := by
    funext w
    show (q.workers w, q.queue.threads (.inr w)) = (p.workers w, p.queue.threads (.inr w))
    rw [hworkers, ht, update_of_ne Sum.inr_ne_inl]
  have hopen : q.isShutdown = false → p.isShutdown = false := by
    intro h
    cases hset : p.isShutdown with
    | false => rfl
    | true => rw [hflag hset] at h; cases h
  refine ⟨fun w hw => ?_, fun h => ?_, ?_, ?_, ?_, ?_, fun d i hd w hw => ?_, fun h w => ?_⟩
  · have hw : q.workers w = .exited := hw
    rw [hworkers] at hw
    exact hflag (E.exited w hw)
  · show (∀ w, q.late w = 0) ∧ q.worked = 0
    rw [hlate, hworked]
    exact E.early (hopen h)
  · show ∀ w, q.late w ≤ 1 ∧ ((q.workers w).fresh = true → q.late w = 0)
    rw [hlate, hworkers]
    exact E.late
  · rw [hplace]
    show q.worked + _ ≤ _
    rw [hworked]
    exact E.energy
  · show total ClientPc.closing (update q.clients c pc) + q.closed.toNat = q.isShutdown.toNat
    rw [hclients]
    have hupdate := total_update ClientPc.closing p.clients c pc
    have hle := le_total ClientPc.closing p.clients c
    have hcloser := E.closer
    have hone := Bool.toNat_le p.isShutdown
    rcases e.closer with ⟨hsame, hf, hd⟩ | ⟨hzero, hnew, hfree, hset, hd⟩ | ⟨hold, hnew, hf, hd⟩
    · rw [hf, hd]
      omega
    · rw [hfree, Bool.toNat_false] at hcloser
      rw [hset, hd, Bool.toNat_true]
      omega
    · rw [hf, hd, Bool.toNat_true]
      omega
  · rw [lent_put e ht]
    have hupdate := total_update (ThreadPool.patience n) p.lent c (pc, inner)
    have hbound := E.patience
    show q.closes + (q.clients c).closing + _ ≤ (n + 103) * q.isShutdown.toNat
    rw [hcloses, hclients]
    omega
  · show q.workers w = .exited
    rw [hworkers]
    have hd : update q.clients c pc d = .join i := hd
    by_cases hdc : d = c
    · subst hdc
      rw [update_self] at hd
      exact hjoin i hd w hw
    · rw [update_of_ne hdc, hclients] at hd
      exact E.joined d i hd w hw
  · show q.workers w = .exited
    rw [hworkers]
    rcases hclosed h with h | h
    · exact E.closed h w
    · exact h w

omit [Fintype C] in
/-- The queue of the pool is a `JobQueue`, whose threads are the callers and the workers. -/
theorem projection (callable : α → Bool) : Projection ((threadPool C n callable).guard Few)
    ((jobQueue (C ⊕ Fin n) α).guard JobQueue.Few) Pool.queue where
  init p h := by
    rw [show p = {} from h]
    rfl
  next p p' := by
    rintro ⟨⟨a, h⟩, hfew⟩
    rcases Pool.step_cases h with ⟨c, q, pc, e, rfl⟩ | ⟨w, q, pc, t, rfl⟩
    · cases e with
      | plain | join | joined => exact .inl rfl
      | @enter job h _ hidle =>
        exact .inr ⟨⟨(.inl c, .enqueue job), by simp [Sys.step, Pc.step, hidle, Pool.put]⟩, hfew⟩
      | exchange h _ hidle =>
        exact .inr ⟨⟨(.inl c, .shutdown), by simp [Sys.step, Pc.step, hidle, Pool.put]⟩, hfew⟩
      | submit h hgo | shutdown h hgo =>
        exact .inr ⟨⟨(.inl c, .go true), by simp [Sys.step, Pc.step, hgo, Pool.put]⟩, hfew⟩
    · cases t with
      | enter h _ hidle =>
        exact .inr ⟨⟨(.inr w, .dequeue), by simp [Sys.step, Pc.step, hidle, Pool.seat]⟩, hfew⟩
      | @dequeue g inner ok h hgo =>
        exact .inr ⟨⟨(.inr w, .go ok), by simp [Sys.step, Pc.step, hgo, Pool.seat]⟩, hfew⟩
      | _ => exact .inl rfl

theorem Kept.start : Kept ({} : Pool C n α) where
  seated w := rfl
  lent c := rfl
  ledger := by
    refine ⟨?_, ?_, ?_⟩
    · simp [WorkerPc.held]
    · simp [WorkerPc.begun]
    · have hnone : total WorkerPc.atCount ({} : Pool C n α).workers = 0 := total_eq_zero fun w => rfl
      rw [hnone]
      rfl
  ending := by
    have hclosing : total ClientPc.closing ({} : Pool C n α).clients = 0 := total_eq_zero fun c => rfl
    have hpatience : total (patience n) ({} : Pool C n α).lent = 0 := total_eq_zero fun c => rfl
    refine ⟨fun w h => ?_, fun _ => ⟨fun w => rfl, rfl⟩, fun w => ⟨Nat.zero_le 1, fun _ => rfl⟩,
      ?_, ?_, ?_, fun c i h => ?_, fun h => ?_⟩
    · cases h
    · show 0 + _ ≤ _
      rw [Nat.zero_add]
      exact total_rank_le _
    · rw [hclosing]
      rfl
    · rw [hpatience]
      exact Nat.zero_le _
    · cases h
    · cases h

/-- **One step.** -/
theorem Kept.step {callable : α → Bool} {p p' : Pool C n α} {a : Act C n α} (K : Kept p)
    (G : ∀ t, GetsJob p.queue.shared (p.queue.threads t)) (h : p.step callable a = some p') : Kept p' := by
  rcases Pool.step_cases h with ⟨c, q, pc, e, rfl⟩ | ⟨w, q, pc, t, rfl⟩
  · obtain ⟨hdelivered, inner, hthreads, hinner, hpatience⟩ := e.queue (K.lent c)
    obtain ⟨hworkers, -, hstarted, hfinished, hthrown, hskipped, hcount, -⟩ := e.frame
    refine ⟨fun w => ?_, fun d => ?_, ?_, K.ending.put e hthreads hpatience⟩
    · show Seated (q.workers w, q.queue.threads (.inr w))
      rw [hworkers, hthreads, update_of_ne Sum.inr_ne_inl]
      exact K.seated w
    · rw [lent_put e hthreads]
      by_cases hdc : d = c
      · subst hdc
        rwa [update_self]
      · rw [update_of_ne hdc]
        exact K.lent d
    · obtain ⟨htaken, hbegun, hcounted⟩ := K.ledger
      refine ⟨?_, ?_, ?_⟩
      · show (q.queue.shared.delivered : Multiset (Job α)) = q.started + q.skipped + _
        rw [hdelivered, hstarted, hskipped, htaken]
        exact congrArg _ (by rw [← hworkers]; rfl)
      · show (q.started : Multiset (Job α)) = q.finished + q.thrown + _
        rw [hstarted, hfinished, hthrown, hbegun]
        exact congrArg _ (by rw [← hworkers]; rfl)
      · show q.processedJobCount + BitVec.ofNat 32 (total _ q.workers) = BitVec.ofNat 32 q.finished.length
        rw [hcount, hworkers, hfinished, hcounted]
  · obtain ⟨inner, hthreads, hseat, hrank⟩ := t.place (K.seated w) (G (.inr w))
    obtain ⟨hworkers, hclients, -⟩ := t.frame
    refine ⟨fun v => ?_, fun c => ?_, K.ledger.seat hworkers (t.handed (K.seated w) (G (.inr w))),
      K.ending.seat t hthreads hrank⟩
    · rw [place_seat hworkers hthreads]
      by_cases hvw : v = w
      · subst hvw
        rwa [update_self]
      · rw [update_of_ne hvw]
        exact K.seated v
    · rw [lent_seat hclients hthreads]
      exact K.lent c

/-- **The run lemma.** -/
theorem kept {callable : α → Bool} {p : Pool C n α}
    (h : Reachable ((threadPool C n callable).guard Few) p) : Kept p := by
  apply h.invariant (I := Kept)
  · rintro _ rfl
    exact .start
  · rintro p p' hr K ⟨⟨a, hstep⟩, -⟩
    exact K.step (job_queue ((projection callable).reachable hr)).1 hstep

theorem step_next (callable : α → Bool) (p : Pool C n α) (a : Act C n α) (p' : Pool C n α)
    (h : p.step callable a = some p') : (threadPool C n callable).next p p' := ⟨a, h⟩

/-- A worker that has not left its loop can go on, whatever the others do: its wait times out. -/
theorem Kept.goes {p : Pool C n α} (callable : α → Bool) (K : Kept p)
    (G : ∀ t, GetsJob p.queue.shared (p.queue.threads t)) (w : Fin n) (hw : p.workers w ≠ .exited) :
    ∃ p', p.workerStep callable w false = some p' := by
  rw [Pool.workerStep]
  cases hpc : p.workers w with
  | test =>
    dsimp only
    split
    · exact ⟨_, rfl⟩
    · have hidle := (K.seated w).idle (fun he => by rw [hpc] at he; cases he)
      simp [Sys.step, Pc.step, hidle]
  | dequeue =>
    have hc := (K.seated w).consumes hpc
    have hgo : ∃ r, (p.queue.threads (.inr w)).go p.queue.shared false = some r := by
      have hG := G (.inr w)
      generalize p.queue.threads (.inr w) = inner at hc hG
      cases inner with
      | unlink =>
        obtain ⟨g, job, hgo, -⟩ := hG.2.2 rfl false
        exact ⟨_, hgo⟩
      | testDequeue | wait | retest | decrement | undo => exact ⟨_, rfl⟩
      | _ => cases hc
    obtain ⟨r, hgo⟩ := hgo
    simp [Sys.step, Pc.step, hgo]
  | check job | running job | count => exact ⟨_, rfl⟩
  | exited => exact absurd hpc hw

/-- The caller that closes the pool can go on, if it does not wait for a worker. -/
theorem Kept.closes {p : Pool C n α} (K : Kept p) (c : C) (hc : (p.clients c).closing = 1) :
    (∃ p', p.clientStep c = some p') ∨ ∃ w : Fin n, p.clients c = .join w ∧ p.workers w ≠ .exited := by
  have hlent := K.lent c
  unfold Pool.lent at hlent
  rw [Pool.clientStep]
  cases hpc : p.clients c with
  | shutdown =>
    rw [hpc] at hlent
    have hgo : ∃ r, (p.queue.threads (.inl c)).go p.queue.shared true = some r := by
      have hlent : signals (p.queue.threads (.inl c)) = true := hlent
      generalize p.queue.threads (.inl c) = inner at hlent
      cases inner with
      | storeShutdown | signal i => exact ⟨_, rfl⟩
      | _ => cases hlent
    obtain ⟨r, hgo⟩ := hgo
    exact .inl (by simp [Sys.step, Pc.step, hgo])
  | join i =>
    dsimp only
    split
    · split
      · exact .inl ⟨_, rfl⟩
      · exact .inr ⟨⟨i, ‹_›⟩, rfl, fun h => ‹¬ _› (WorkerPc.isExited_iff.mpr h)⟩
    · exact .inl ⟨_, rfl⟩
  | _ =>
    rw [hpc] at hc
    cases hc

end JunCore.ThreadPool
