/-
  `JunCore/logic/JobObject.h`, `JobObject.cpp` and the tail of `JobThread::ProcessJobObjects`:
  one object, one atomic step at a time.

  A `JobObject` is an actor.  Any thread may call `PostJob` on it; exactly one `JobThread` at a time
  is meant to drain its queue in `Flush`.  This file writes both procedures as small machines whose
  program counters stand for the statements of the source, so that a scheduler (`JobThread.lean`)
  can interleave them in any order:

  * `PostPC` / `postStep`   — `PostJob`: load the mark, link the job, count it, CAS `m_processing`,
    and register the object with the thread `m_pJobThread` names;
  * `Phase` / `flushStep`   — everything `ProcessJobObjects` does with one dequeued object: `Flush`
    with its drain loop, the hand-over to another thread and the re-check, then the
    `IsMarkedForDelete` test and the `delete`;
  * `RegPC`                 — the statement both share, `m_pJobThread->GetJobQueue()->Enqueue(this)`.

  A job is an arbitrary closure.  What it can do to the job system is a list of `Instr`uctions:
  re-thread its own object, mark its own object, or call `PostJob` on any object.

  Freed memory keeps its contents in this model (the destructor only empties `m_jobQueue`), and
  nothing stops a machine from stepping on a freed object: that such a step exists is exactly what
  the lifetime theorems are about.
-/
import JunCore.Common.LFQueue

set_option linter.unusedVariables false

namespace JunCore.Logic

variable {T O J : Type}

/-! ## Data -/

/-- A job in `m_jobQueue`.  The ticket is its position in the order of entry; it identifies the
    `PostJob` call that brought it and is read by no step. -/
structure Entry (J : Type) where
  ticket : Nat
  job : J

/-- The members of `JobObject`. -/
structure JobObject (T J : Type) where
  jobQueue : LFQueue (Entry J)
  processing : Bool
  markedForDelete : Bool
  jobThread : T

/-- What has happened to an object so far.  Pure bookkeeping: no step of the program reads it. -/
structure Ledger (J : Type) where
  /-- the jobs linked into `m_jobQueue`, in order; the ticket of a job is its index here -/
  entered : List J
  /-- the tickets of the jobs that were called, in order -/
  started : List Nat
  /-- the tickets of the jobs that returned, in order -/
  finished : List Nat
  /-- the tickets of the jobs whose `PostJob` returned `true` -/
  accepted : List Nat
  /-- the ticket of the job that set the deletion mark -/
  markedBy : Option Nat
  /-- how often the object was deleted -/
  deletes : Nat

/-- One object in memory together with its history. -/
structure Cell (T J : Type) extends JobObject T J, Ledger J

/-- `JobObject::JobObject(JobThread*)`. -/
def Cell.new (t : T) : Cell T J where
  jobQueue := {}
  processing := false
  markedForDelete := false
  jobThread := t
  entered := []
  started := []
  finished := []
  accepted := []
  markedBy := none
  deletes := 0

/-- What a running job may ask of the job system.  The first two act on the job's own object. -/
inductive Instr (T O J : Type)
  | setJobThread (t : T)
  | markForDelete
  | postJob (o : O) (j : J)

/-- What a job may have to do next. -/
theorem Instr.list_cases {motive : List (Instr T O J) → Prop} (nil : motive [])
    (setJobThread : ∀ t rest, motive (.setJobThread t :: rest))
    (markForDelete : ∀ rest, motive (.markForDelete :: rest))
    (postJob : ∀ o j rest, motive (.postJob o j :: rest)) (is : List (Instr T O J)) : motive is := by
  cases is with
  | nil => exact nil
  | cons i rest =>
    cases i with
    | setJobThread t => exact setJobThread t rest
    | markForDelete => exact markForDelete rest
    | postJob o j => exact postJob o j rest

/-! ## `m_pJobThread->GetJobQueue()->Enqueue(this)` -/

/-- Where a thread is inside the registration statement. -/
inductive RegPC (T : Type)
  /-- about to read `m_pJobThread` -/
  | loadThread
  /-- about to link `this` into the queue of `t` -/
  | link (t : T)
  /-- about to count it there; the object itself is not read any more -/
  | count (t : T)

/-- What a step does to a `JobThread` queue, for the object it is about. -/
inductive QueueOp (T : Type)
  | link (t : T)
  | count (t : T)

/-- One step of the registration; `none` as next counter means the statement is done. -/
def RegPC.step (jobThread : T) : RegPC T → Option (RegPC T) × Option (QueueOp T)
  | .loadThread => (some (.link jobThread), none)
  | .link t => (some (.count t), some (.link t))
  | .count t => (none, some (.count t))

/-! ## `JobObject::PostJob` -/

/-- Where a thread is inside `PostJob`. -/
inductive PostPC (T : Type)
  /-- `if (m_markedForDelete.load()) return false;` -/
  | loadMarked
  /-- `m_jobQueue.Enqueue`, the link -/
  | link
  /-- `m_jobQueue.Enqueue`, the counter -/
  | count (n : Nat)
  /-- `m_processing.compare_exchange_strong(expected, true)` -/
  | cas (n : Nat)
  /-- `m_pJobThread->GetJobQueue()->Enqueue(this)` -/
  | register (n : Nat) (r : RegPC T)

/-- A call of `PostJob` in progress. -/
structure PostCall (T J : Type) where
  job : J
  pc : PostPC T

/-- `PostJob(job)` as it is entered. -/
def PostCall.enter (j : J) : PostCall T J := ⟨j, .loadMarked⟩

/-- One atomic step of `PostJob` on the object `c`: the object afterwards, the call afterwards
    (`none` once it has returned) and what happens to a `JobThread` queue. -/
def postStep (c : Cell T J) (f : PostCall T J) :
    Cell T J × Option (PostCall T J) × Option (QueueOp T) :=
  match f.pc with
  | .loadMarked => if c.markedForDelete then (c, none, none) else (c, some { f with pc := .link }, none)
  | .link =>
      ({ c with jobQueue := c.jobQueue.link ⟨c.entered.length, f.job⟩,
                entered := c.entered ++ [f.job] },
       some { f with pc := .count c.entered.length }, none)
  | .count n => ({ c with jobQueue := c.jobQueue.increment }, some { f with pc := .cas n }, none)
  | .cas n =>
      if c.processing then ({ c with accepted := c.accepted ++ [n] }, none, none)
      else ({ c with processing := true }, some { f with pc := .register n .loadThread }, none)
  | .register n r =>
      match r.step c.jobThread with
      | (some r', q) => (c, some { f with pc := .register n r' }, q)
      | (none, q) => ({ c with accepted := c.accepted ++ [n] }, none, q)

/-! ## `JobObject::Flush` and the rest of one iteration of `ProcessJobObjects` -/

/-- Where a `JobThread` is between `m_jobObjectQueue.Dequeue(&jobObj)` and the next iteration. -/
inductive Phase (T O J : Type)
  /-- `Flush`: `if (m_markedForDelete.load()) return;` -/
  | flushLoadMarked
  /-- `JobThread* pOldThread = m_pJobThread;` -/
  | loadOldThread
  /-- `m_jobQueue.Dequeue(&job)`: the decrement -/
  | jobDequeue (old : T)
  /-- the increment of a `Dequeue` that gives up -/
  | jobDequeueFail (old : T)
  /-- the unlink of a `Dequeue` that goes through -/
  | jobUnlink (old : T)
  /-- `job();` about to be called -/
  | jobStart (old : T) (e : Entry J)
  /-- inside `job()`, with `is` still to do -/
  | running (old : T) (n : Nat) (is : List (Instr T O J))
  /-- `if (m_markedForDelete.load()) return;` after the job -/
  | afterJob (old : T)
  /-- `if (m_pJobThread != pOldThread)` -/
  | checkThread (old : T)
  /-- the hand-over: `m_pJobThread->GetJobQueue()->Enqueue(this); return;` -/
  | handOver (r : RegPC T)
  /-- `m_processing.store(false);` -/
  | storeFalse
  /-- `if (m_jobQueue.GetUseCount() > 0)` -/
  | loadCount
  /-- the CAS of the re-check -/
  | recheckCas
  /-- the registration of the re-check -/
  | reRegister (r : RegPC T)
  /-- `ProcessJobObjects`: `if (jobObj->IsMarkedForDelete())` -/
  | checkMarked
  /-- `delete jobObj;` -/
  | delete

/-- The outcome of one step of a `JobThread` on the object it has in hand: the object, the next
    phase (`none` once the iteration is over), the effect on a `JobThread` queue and a `PostJob`
    the running job enters. -/
structure FlushStep (T O J : Type) where
  cell : Cell T J
  phase : Option (Phase T O J)
  queueOp : Option (QueueOp T) := none
  call : Option (O × J) := none

/-- One atomic step of `Flush`, the mark test or the `delete` on the object `c`.  `is` is what the
    job about to be called will do; only `jobStart` looks at it. -/
def flushStep [DecidableEq T] (is : List (Instr T O J)) (c : Cell T J) :
    Phase T O J → FlushStep T O J
  | .flushLoadMarked =>
      { cell := c, phase := some (if c.markedForDelete then .checkMarked else .loadOldThread) }
  | .loadOldThread => { cell := c, phase := some (.jobDequeue c.jobThread) }
  | .jobDequeue old =>
      { cell := { c with jobQueue := c.jobQueue.decrement },
        phase := some (if c.jobQueue.decrement.nodeCount < 0 then .jobDequeueFail old
                       else .jobUnlink old) }
  | .jobDequeueFail old =>
      { cell := { c with jobQueue := c.jobQueue.increment }, phase := some .storeFalse }
  | .jobUnlink old =>
      match c.jobQueue.items with
      | [] => { cell := c, phase := some (.jobUnlink old) }  -- `continue`: wait for the link
      | e :: _ =>
        { cell := { c with jobQueue := c.jobQueue.unlink }, phase := some (.jobStart old e) }
  | .jobStart old e =>
      { cell := { c with started := c.started ++ [e.ticket] },
        phase := some (.running old e.ticket is) }
  | .running old n (.setJobThread t :: rest) =>
      { cell := { c with jobThread := t }, phase := some (.running old n rest) }
  | .running old n (.markForDelete :: rest) =>
      { cell := { c with markedForDelete := true,
                         markedBy := if c.markedForDelete then c.markedBy else some n },
        phase := some (.running old n rest) }
  | .running old n (.postJob o j :: rest) =>
      { cell := c, phase := some (.running old n rest), call := some (o, j) }
  | .running old n [] =>
      { cell := { c with finished := c.finished ++ [n] }, phase := some (.afterJob old) }
  | .afterJob old =>
      { cell := c, phase := some (if c.markedForDelete then .checkMarked else .checkThread old) }
  | .checkThread old =>
      { cell := c,
        phase := some (if c.jobThread ≠ old then .handOver .loadThread else .jobDequeue old) }
  | .handOver r =>
      { cell := c,
        phase := some (match (r.step c.jobThread).1 with
          | some r' => .handOver r'
          | none => .checkMarked),
        queueOp := (r.step c.jobThread).2 }
  | .storeFalse => { cell := { c with processing := false }, phase := some .loadCount }
  | .loadCount =>
      { cell := c, phase := some (if c.jobQueue.getUseCount > 0 then .recheckCas else .checkMarked) }
  | .recheckCas =>
      if c.processing then { cell := c, phase := some .checkMarked }
      else { cell := { c with processing := true }, phase := some (.reRegister .loadThread) }
  | .reRegister r =>
      { cell := c,
        phase := some (match (r.step c.jobThread).1 with
          | some r' => .reRegister r'
          | none => .checkMarked),
        queueOp := (r.step c.jobThread).2 }
  | .checkMarked => { cell := c, phase := if c.markedForDelete then some .delete else none }
  | .delete => { cell := { c with jobQueue := {}, deletes := c.deletes + 1 }, phase := none }

end JunCore.Logic
