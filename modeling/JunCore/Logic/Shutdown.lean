/-
  `Server::StopGameThreads`, `JobThread::Stop` and the two `Run` loops: how the job system ends.

  Each thread runs `ProcessJobObjects` over and over while `m_running` is set; a `GameThread` runs the
  `FixedUpdate` and `Update` of its scenes in between.  When it finds `m_running` cleared it runs
  `ProcessJobObjects` once more and exits.  `StopGameThreads` clears the flag of one thread and waits
  for that thread to exit, then turns to the next one, the core thread last.

  What `Update` does is not fixed: it may change the game state in any way and make any `PostJob`s.
  Nobody else makes any once `StopGameThreads` is called.

  A thread is closed from the moment its last pass finds the queue empty.  An object registered with a
  closed thread stays there, and its jobs with it (`depth_of_step`).  Nothing keeps the threads that
  are stopped later from doing that.
-/
import JunCore.Logic.Wakeup
import JunCore.Logic.Manager

set_option linter.unusedVariables false
set_option linter.unusedSectionVars false

namespace JunCore.Logic

open Transition Function Counting

variable {T P O J W K : Type}

/-! ## The server's threads -/

/-- `game_threads_` and `core_thread_`: all threads there are. -/
structure Server (T : Type) where
  gameThreads : List T
  coreThread : T
  all : ∀ t, t ∈ gameThreads ++ [coreThread]

/-- Where a thread is in `Run`. -/
inductive RunPC (O J : Type)
  /-- `while (m_running.load())` -/
  | test
  /-- `ProcessJobObjects()` in the loop -/
  | process
  /-- `FixedUpdate` and `Update` of the scenes, with these `PostJob`s still to make -/
  | update (todo : List (O × J))
  /-- `ProcessJobObjects()` after the loop -/
  | last
  | exited

/-- Where the main thread is in `StopGameThreads`. -/
inductive StopPC (T : Type)
  | notCalled
  /-- about to store `false` in the `m_running` of the first of these; none left: it has returned -/
  | stop (ts : List T)
  /-- `m_worker.join()` of `t`, with `ts` still to stop -/
  | join (t : T) (ts : List T)

structure Serving (T P O J W : Type) where
  sys : Sys T P O J W
  run : T → RunPC O J
  /-- `m_running` of each thread -/
  running : T → Bool
  stop : StopPC T

/-- The next event. -/
inductive ServerEvent (T P O J W K : Type)
  /-- a caller starts an API call -/
  | call (p : P) (k : K)
  /-- a caller takes its next step -/
  | caller (p : P)
  /-- a thread takes its next step -/
  | thread (t : T)
  /-- a thread between two passes does something of `FixedUpdate` or `Update` -/
  | update (t : T) (w : W) (posts : List (O × J))
  | stopGameThreads
  /-- the main thread takes its next step inside of `StopGameThreads` -/
  | main

section Steps

variable [DecidableEq T] [DecidableEq P] [DecidableEq O]

/-- Thread `t` takes a step of `ProcessJobObjects`, which ends where a `Dequeue` gives up. -/
def Serving.process (prog : Program T O J W K) (x : Serving T P O J W) (t : T) (after : RunPC O J) :
    Serving T P O J W :=
  { x with
    sys := x.sys.loopStep prog t
    run := match x.sys.loops t with
      | .dequeueFail => update x.run t after
      | _ => x.run }

/-- What comes after a pass in the loop: a `GameThread` updates its scenes. -/
def Server.afterPass (server : Server T) (t : T) : RunPC O J :=
  if t = server.coreThread then .test else .update []

/-- Thread `t` takes its next step. -/
def Server.threadStep (server : Server T) (prog : Program T O J W K) (x : Serving T P O J W) (t : T) :
    Option (Serving T P O J W) :=
  match x.sys.frames (.inl t) with
  | some (o, f) => some { x with sys := x.sys.postStep (.inl t) o f }
  | none =>
    match x.run t with
    | .test => some { x with run := update x.run t (if x.running t then .process else .last) }
    | .process => some (x.process prog t (server.afterPass t))
    | .update [] => some { x with run := update x.run t .test }
    | .update ((o, j) :: rest) => some
        { x with
          sys := { x.sys with frames := update x.sys.frames (.inl t) (some (o, .enter j)) }
          run := update x.run t (.update rest) }
    | .last => some (x.process prog t .exited)
    | .exited => none

/-- A caller's step; there is none once `StopGameThreads` is called. -/
def Serving.callerStep (prog : Program T O J W K) (x : Serving T P O J W) (e : Event T P K) :
    Option (Serving T P O J W) :=
  match x.stop with
  | .notCalled => (step prog x.sys e).map fun s => { x with sys := s }
  | _ => none

/-- The main thread's step: `Stop()` of one thread after the other. -/
def Serving.mainStep (x : Serving T P O J W) : Option (Serving T P O J W) :=
  match x.stop with
  | .stop (t :: ts) => some { x with running := update x.running t false, stop := .join t ts }
  | .join t ts =>
      match x.run t with
      | .exited => some { x with stop := .stop ts }
      | _ => none
  | _ => none

/-- No caller is inside of an API call. -/
def Serving.callersOut [Fintype P] (x : Serving T P O J W) : Bool :=
  decide (∀ p, (x.sys.frames (.inr p)).isNone ∧ (x.sys.todo p).isEmpty)

/-- The step function of the server; `none` when the event is not enabled. -/
def Server.step [Fintype P] (server : Server T) (prog : Program T O J W K) (x : Serving T P O J W) :
    ServerEvent T P O J W K → Option (Serving T P O J W)
  | .call p k => x.callerStep prog (.call p k)
  | .caller p => x.callerStep prog (.agent (.inr p))
  | .thread t => server.threadStep prog x t
  | .update t w posts =>
      match x.sys.frames (.inl t), x.run t with
      | none, .update [] =>
          some { x with sys := { x.sys with world := w }, run := update x.run t (.update posts) }
      | _, _ => none
  | .stopGameThreads =>
      match x.stop with
      | .notCalled =>
          if x.callersOut then some { x with stop := .stop (server.gameThreads ++ [server.coreThread]) }
          else none
      | _ => none
  | .main => x.mainStep

/-- All threads started, nothing posted yet. -/
def Program.serving (prog : Program T O J W K) : Serving T P O J W where
  sys := prog.initial
  run _ := .test
  running _ := true
  stop := .notCalled

def Server.system [Fintype P] (server : Server T) (prog : Program T O J W K) :
    System (Serving T P O J W) where
  init x := x = prog.serving
  next x x' := ∃ e, server.step prog x e = some x'

/-- **What a step does.** -/
inductive Server.Moves [Fintype P] (server : Server T) (prog : Program T O J W K) (x x' : Serving T P O J W) : Prop
  | caller (e : Event T P K) (s) : x.stop = .notCalled → Logic.step prog x.sys e = some s →
      (∀ t, e ≠ .agent (.inl t)) → x' = { x with sys := s } → Moves server prog x x'
  | inside (t o f) : x.sys.frames (.inl t) = some (o, f) →
      x' = { x with sys := x.sys.postStep (.inl t) o f } → Moves server prog x x'
  | test (t) : x.sys.frames (.inl t) = none → x.run t = .test →
      x' = { x with run := update x.run t (if x.running t then .process else .last) } →
      Moves server prog x x'
  | process (t after) : x.sys.frames (.inl t) = none →
      (x.run t = .process ∧ after = server.afterPass t ∨ x.run t = .last ∧ after = .exited) →
      x' = x.process prog t after → Moves server prog x x'
  | post (t o j rest) : x.sys.frames (.inl t) = none → x.run t = .update ((o, j) :: rest) →
      x' = { x with
        sys := { x.sys with frames := update x.sys.frames (.inl t) (some (o, .enter j)) }
        run := update x.run t (.update rest) } → Moves server prog x x'
  | update (t w next) : x.sys.frames (.inl t) = none → x.run t = .update [] →
      (next = .test ∨ ∃ posts, next = .update posts) →
      x' = { x with sys := { x.sys with world := w }, run := update x.run t next } →
      Moves server prog x x'
  | stopGameThreads : x.stop = .notCalled → x.callersOut = true →
      x' = { x with stop := .stop (server.gameThreads ++ [server.coreThread]) } →
      Moves server prog x x'
  | store (t ts) : x.stop = .stop (t :: ts) →
      x' = { x with running := update x.running t false, stop := .join t ts } → Moves server prog x x'
  | join (t ts) : x.stop = .join t ts → x.run t = .exited → x' = { x with stop := .stop ts } →
      Moves server prog x x'

theorem Server.moves_of_step [Fintype P] {server : Server T} {prog : Program T O J W K}
    {x x' : Serving T P O J W} {e : ServerEvent T P O J W K} (h : server.step prog x e = some x') :
    server.Moves prog x x' := by
  have hcaller : ∀ e' : Event T P K, (∀ t, e' ≠ .agent (.inl t)) →
      x.callerStep prog e' = some x' → server.Moves prog x x' := by
    intro e' hne h
    simp only [Serving.callerStep] at h
    split at h
    · obtain ⟨s, hs, rfl⟩ := Option.map_eq_some_iff.mp h
      exact .caller e' s ‹_› hs hne rfl
    · cases h
  cases e with
  | call p k => exact hcaller _ (fun t heq => by cases heq) h
  | caller p => exact hcaller _ (fun t heq => by cases heq) h
  | thread t =>
    simp only [Server.step, Server.threadStep] at h
    split at h
    · obtain rfl := Option.some.inj h
      exact .inside t _ _ ‹_› rfl
    · rename_i hf
      split at h
      · obtain rfl := Option.some.inj h
        exact .test t hf ‹_› rfl
      · obtain rfl := Option.some.inj h
        exact .process t _ hf (.inl ⟨‹_›, rfl⟩) rfl
      · obtain rfl := Option.some.inj h
        exact .update t x.sys.world .test hf ‹_› (.inl rfl) rfl
      · obtain rfl := Option.some.inj h
        exact .post t _ _ _ hf ‹_› rfl
      · obtain rfl := Option.some.inj h
        exact .process t _ hf (.inr ⟨‹_›, rfl⟩) rfl
      · cases h
  | update t w posts =>
    simp only [Server.step] at h
    split at h
    · obtain rfl := Option.some.inj h
      exact .update t w (.update posts) ‹_› ‹_› (.inr ⟨posts, rfl⟩) rfl
    · cases h
  | stopGameThreads =>
    simp only [Server.step] at h
    split at h
    · split at h
      · obtain rfl := Option.some.inj h
        exact .stopGameThreads ‹_› ‹_› rfl
      · cases h
    · cases h
  | main =>
    simp only [Server.step, Serving.mainStep] at h
    split at h
    · obtain rfl := Option.some.inj h
      exact .store _ _ ‹_› rfl
    · split at h
      · obtain rfl := Option.some.inj h
        exact .join _ _ ‹_› ‹_› rfl
      · cases h
    · cases h

/-! ## Seen from one object, nothing is new -/

theorem Server.view_step [Fintype P] {server : Server T} {prog : Program T O J W K}
    {x x' : Serving T P O J W} (h : server.Moves prog x x') (o : O) :
    x'.sys.view o = x.sys.view o ∨ View.Step (x.sys.view o) (x'.sys.view o) := by
  cases h with
  | caller e s _ hs _ hx =>
    subst hx
    exact Logic.view_step hs o
  | inside t o' f hf hx =>
    subst hx
    exact view_postStep x.sys hf o
  | process t after hf _ hx =>
    subst hx
    exact view_loopStep prog x.sys hf o
  | post t o' j rest hf _ hx =>
    subst hx
    exact view_enter x.sys hf o' j x.sys.todo o
  | test t _ _ hx | update t w next _ _ _ hx | stopGameThreads _ _ hx | store t ts _ hx | join t ts _ _ hx =>
    subst hx
    exact .inl rfl

theorem Server.view_projection [Fintype P] (server : Server T) (prog : Program T O J W K) (o : O) :
    Projection (server.system prog) (View.system (T := T) (P := P) (J := J) (prog.home o))
      (fun x => x.sys.view o) where
  init x h := by subst h; rfl
  next x x' := fun ⟨_, h⟩ => Server.view_step (Server.moves_of_step h) o

/-! ## What the counter of a queue shows

  As `View.lag` for `m_jobQueue`: a `m_jobObjectQueue` holds as many objects as its counter shows, plus
  one for each registration between its link and its increment, plus one for a `Dequeue` between its
  decrement and what follows it. -/

/-- A registration about to count an object on the queue of `t`. -/
def RegPC.counts (t : T) : RegPC T → Nat
  | .count t' => if t' = t then 1 else 0
  | _ => 0

def PostCall.counts (t : T) (f : PostCall T J) : Nat :=
  match f.pc with
  | .register _ r => r.counts t
  | _ => 0

def Phase.counts (t : T) : Phase T O J → Nat
  | .handOver r | .reRegister r => r.counts t
  | _ => 0

def frameCounts (t : T) : Option (O × PostCall T J) → Nat
  | some (_, f) => f.counts t
  | none => 0

def LoopPC.counts (t : T) : LoopPC T O J → Nat
  | .busy _ ph => ph.counts t
  | _ => 0

/-- A `Dequeue` of `m_jobObjectQueue` between its decrement and what follows it. -/
def LoopPC.dequeuing : LoopPC T O J → Nat
  | .dequeueFail | .dequeueUnlink => 1
  | _ => 0

/-- A `Dequeue` that has its decrement to take back. -/
def LoopPC.failing : LoopPC T O J → Nat
  | .dequeueFail => 1
  | _ => 0

/-- Whether a step links the object into the queue of `t`. -/
def linksTo (t : T) : Option (QueueOp T) → Nat
  | some (.link t') => if t' = t then 1 else 0
  | _ => 0

/-- Whether a step counts an object on the queue of `t`. -/
def countsTo (t : T) : Option (QueueOp T) → Nat
  | some (.count t') => if t' = t then 1 else 0
  | _ => 0

theorem items_applyQueueOp (o : O) (queues : T → LFQueue O) (q : Option (QueueOp T)) (t : T) :
    (applyQueueOp o queues q t).items.length = (queues t).items.length + linksTo t q := by
  match q with
  | none => rfl
  | some (.link t') =>
    by_cases h : t' = t
    · subst h; simp [applyQueueOp, linksTo]
    · simp [applyQueueOp, linksTo, h, Ne.symm h]
  | some (.count t') =>
    by_cases h : t' = t
    · subst h; simp [applyQueueOp, linksTo]
    · simp [applyQueueOp, linksTo, Ne.symm h]

theorem nodeCount_applyQueueOp (o : O) (queues : T → LFQueue O) (q : Option (QueueOp T)) (t : T) :
    (applyQueueOp o queues q t).nodeCount = (queues t).nodeCount + countsTo t q := by
  match q with
  | none => simp [applyQueueOp, countsTo]
  | some (.link t') =>
    by_cases h : t' = t
    · subst h; simp [applyQueueOp, countsTo]
    · simp [applyQueueOp, countsTo, Ne.symm h]
  | some (.count t') =>
    by_cases h : t' = t
    · subst h; simp [applyQueueOp, countsTo]
    · simp [applyQueueOp, countsTo, h, Ne.symm h]

/-- A registration counts what it has linked, and only then. -/
theorem RegPC.step_counts (jobThread t : T) (r : RegPC T) :
    countsTo t (r.step jobThread).2 = r.counts t ∧
      linksTo t (r.step jobThread).2 = (r.step jobThread).1.elim 0 (RegPC.counts t) := by
  cases r <;> exact ⟨rfl, rfl⟩

theorem postStep_counts (c : Cell T J) (f : PostCall T J) (t : T) :
    countsTo t (postStep c f).2.2 = f.counts t ∧
      linksTo t (postStep c f).2.2 = (postStep c f).2.1.elim 0 (PostCall.counts t) := by
  obtain ⟨j, pc⟩ := f
  cases pc with
  | loadMarked => cases hm : c.markedForDelete <;> simp [postStep, hm, countsTo, linksTo, PostCall.counts]
  | link | count n => exact ⟨rfl, rfl⟩
  | cas n =>
    cases hp : c.processing <;>
      simp [postStep, hp, countsTo, linksTo, PostCall.counts, RegPC.counts]
  | register n r => cases r <;> exact ⟨rfl, rfl⟩

theorem flushStep_counts (is : List (Instr T O J)) (c : Cell T J) (ph : Phase T O J) (t : T) :
    countsTo t (flushStep is c ph).queueOp = ph.counts t ∧
      linksTo t (flushStep is c ph).queueOp = (flushStep is c ph).phase.elim 0 (Phase.counts t) := by
  cases ph with
  | handOver r | reRegister r => cases r <;> exact ⟨rfl, rfl⟩
  | running old n is' =>
    cases is' using Instr.list_cases with
    | nil | setJobThread t rest | markForDelete rest | postJob o j rest => exact ⟨rfl, rfl⟩
  | jobUnlink old => cases hq : c.jobQueue.items <;> simp [flushStep, hq, countsTo, linksTo, Phase.counts]
  | recheckCas =>
    cases hp : c.processing <;> simp [flushStep, hp, countsTo, linksTo, Phase.counts, RegPC.counts]
  | flushLoadMarked | jobDequeue old | afterJob old | checkThread old | loadCount | checkMarked =>
    simp only [flushStep]
    constructor
    · rfl
    · split <;> rfl
  | loadOldThread | jobDequeueFail old | jobStart old e | storeFalse | delete => exact ⟨rfl, rfl⟩

variable [Fintype T] [Fintype P]

/-- **The counting invariant** of the threads' queues. -/
structure Balanced (s : Sys T P O J W) : Prop where
  balance : ∀ t, ((s.queues t).items.length : Int) = (s.queues t).nodeCount
    + (total (frameCounts t) s.frames + total (LoopPC.counts t) s.loops + (s.loops t).dequeuing : Nat)
  positive : ∀ t, 0 ≤ (s.queues t).nodeCount + (s.loops t).failing

namespace Balanced

variable {s : Sys T P O J W}

/-- Only the queues, the loops and the frames matter. -/
theorem congr {s' : Sys T P O J W} (B : Balanced s) (hq : s'.queues = s.queues)
    (hl : s'.loops = s.loops) (hf : s'.frames = s.frames) : Balanced s' where
  balance t := by rw [hq, hl, hf]; exact B.balance t
  positive t := by rw [hq, hl]; exact B.positive t

theorem enter (B : Balanced s) {a : T ⊕ P} (hf : s.frames a = none) (o : O) (j : J) :
    Balanced { s with frames := update s.frames a (some (o, .enter j)) } where
  balance t := by
    have hsum := total_update (frameCounts t) s.frames a (some (o, PostCall.enter j))
    have hold := B.balance t
    rw [hf] at hsum
    simp only [frameCounts, PostCall.enter, PostCall.counts] at hsum hold ⊢
    omega
  positive := B.positive

theorem post (B : Balanced s) {a : T ⊕ P} {o : O} {f : PostCall T J} (hf : s.frames a = some (o, f)) :
    Balanced (s.postStep a o f) where
  balance t := by
    have hsum := total_update (frameCounts t) s.frames a ((postStep (s.cells o) f).2.1.map (o, ·))
    obtain ⟨hcount, hlink⟩ := postStep_counts (s.cells o) f t
    have hitems := items_applyQueueOp o s.queues (postStep (s.cells o) f).2.2 t
    have hnode := nodeCount_applyQueueOp o s.queues (postStep (s.cells o) f).2.2 t
    have hnext : frameCounts t ((postStep (s.cells o) f).2.1.map (o, ·))
        = (postStep (s.cells o) f).2.1.elim 0 (PostCall.counts t) := by
      cases (postStep (s.cells o) f).2.1 <;> rfl
    have hold := B.balance t
    rw [hf, hnext, ← hlink] at hsum
    rw [hcount] at hnode
    simp only [Sys.postStep]
    rw [hitems, hnode]
    simp only [frameCounts] at hsum hold ⊢
    omega
  positive t := by
    have hnode := nodeCount_applyQueueOp o s.queues (postStep (s.cells o) f).2.2 t
    have hold := B.positive t
    simp only [Sys.postStep]
    rw [hnode]
    omega

/-- A step with an object in hand, before a call it enters is counted. -/
theorem flush (B : Balanced s) (prog : Program T O J W K) {t₁ : T} {o : O} {ph : Phase T O J}
    (hl : s.loops t₁ = .busy o ph) :
    Balanced { s.flushStep prog t₁ o ph with frames := s.frames } := by
  have hsum : ∀ t, total (LoopPC.counts t) (s.flushStep prog t₁ o ph).loops + ph.counts t
      = total (LoopPC.counts t) s.loops
        + (flushStep (prog.start s.world o ph).2 (s.cells o) ph).phase.elim 0 (Phase.counts t) := by
    intro t
    have h := total_update (LoopPC.counts t) s.loops t₁ ((s.flushStep prog t₁ o ph).loops t₁)
    have hloops : update s.loops t₁ ((s.flushStep prog t₁ o ph).loops t₁)
        = (s.flushStep prog t₁ o ph).loops := by simp [Sys.flushStep]
    have hnext : LoopPC.counts t ((s.flushStep prog t₁ o ph).loops t₁)
        = (flushStep (prog.start s.world o ph).2 (s.cells o) ph).phase.elim 0 (Phase.counts t) := by
      simp only [Sys.flushStep, update_self]
      cases (flushStep (prog.start s.world o ph).2 (s.cells o) ph).phase <;> rfl
    rw [hloops, hl, hnext] at h
    exact h
  have hidle : ∀ t, ((s.flushStep prog t₁ o ph).loops t).dequeuing = (s.loops t).dequeuing ∧
      ((s.flushStep prog t₁ o ph).loops t).failing = (s.loops t).failing := by
    intro t
    by_cases h : t = t₁
    · subst h
      rw [hl]
      simp only [Sys.flushStep, update_self]
      cases (flushStep (prog.start s.world o ph).2 (s.cells o) ph).phase <;> exact ⟨rfl, rfl⟩
    · simp [Sys.flushStep, h]
  constructor
  · intro t
    have hsum := hsum t
    obtain ⟨hcount, hlink⟩ := flushStep_counts (prog.start s.world o ph).2 (s.cells o) ph t
    have hitems := items_applyQueueOp o s.queues
      (flushStep (prog.start s.world o ph).2 (s.cells o) ph).queueOp t
    have hnode := nodeCount_applyQueueOp o s.queues
      (flushStep (prog.start s.world o ph).2 (s.cells o) ph).queueOp t
    have hold := B.balance t
    rw [← hlink] at hsum
    rw [hcount] at hnode
    show ((applyQueueOp o s.queues _ t).items.length : Int) = (applyQueueOp o s.queues _ t).nodeCount
      + (total (frameCounts t) s.frames + total (LoopPC.counts t) (s.flushStep prog t₁ o ph).loops
        + ((s.flushStep prog t₁ o ph).loops t).dequeuing : Nat)
    rw [hitems, hnode, (hidle t).1]
    omega
  · intro t
    have hnode := nodeCount_applyQueueOp o s.queues
      (flushStep (prog.start s.world o ph).2 (s.cells o) ph).queueOp t
    have hold := B.positive t
    show 0 ≤ (applyQueueOp o s.queues _ t).nodeCount + _
    rw [hnode, (hidle t).2]
    omega

/-- A step of `Dequeue` itself: what it does to its queue it does to its own count. -/
theorem own (B : Balanced s) {t₁ : T} {q : LFQueue O} {l : LoopPC T O J}
    (hcounts : ∀ t, LoopPC.counts t l = LoopPC.counts t (s.loops t₁))
    (hq : (q.items.length : Int) + (s.queues t₁).nodeCount + (s.loops t₁).dequeuing
      = (s.queues t₁).items.length + q.nodeCount + l.dequeuing)
    (hpos : 0 ≤ q.nodeCount + l.failing) :
    Balanced { s with queues := update s.queues t₁ q, loops := update s.loops t₁ l } := by
  constructor
  · intro t
    have hsum := total_update (LoopPC.counts t) s.loops t₁ l
    have hold := B.balance t
    rw [hcounts t] at hsum
    by_cases h : t = t₁
    · subst h
      simp only [update_self] at hsum hold ⊢
      omega
    · simp only [update_of_ne h]
      omega
  · intro t
    by_cases h : t = t₁
    · subst h
      simp only [update_self]
      exact hpos
    · simp only [update_of_ne h]
      exact B.positive t

theorem loop (B : Balanced s) (prog : Program T O J W K) {t₁ : T} (hf : s.frames (.inl t₁) = none) :
    Balanced (s.loopStep prog t₁) := by
  have hpos := B.positive t₁
  cases hl : s.loops t₁ with
  | dequeue =>
    rw [hl] at hpos
    simp only [Sys.loopStep, hl]
    refine B.own (fun t => ?_) ?_ ?_
    · rw [hl]
      split <;> rfl
    · rw [hl]
      split <;> simp [LoopPC.dequeuing] <;> omega
    · simp only [LoopPC.failing] at hpos
      split
      · simp only [LFQueue.decrement_nodeCount, LoopPC.failing]
        omega
      · simp only [LFQueue.decrement_nodeCount, LoopPC.failing] at *
        omega
  | dequeueFail =>
    rw [hl] at hpos
    simp only [Sys.loopStep, hl]
    refine B.own (fun t => by rw [hl]; rfl) ?_ ?_
    · rw [hl]
      simp [LoopPC.dequeuing]
      omega
    · simpa [LoopPC.failing] using hpos
  | dequeueUnlink =>
    rw [hl] at hpos
    simp only [Sys.loopStep, hl]
    cases hq : (s.queues t₁).items with
    | nil => exact B
    | cons o rest =>
      refine B.own (fun t => by rw [hl]; rfl) ?_ ?_
      · rw [hl]
        simp [LoopPC.dequeuing, hq]
        omega
      · simpa [LoopPC.failing] using hpos
  | busy o ph =>
    simp only [Sys.loopStep, hl]
    have hflush := B.flush prog hl
    cases hc : (flushStep (prog.start s.world o ph).2 (s.cells o) ph).call with
    | none =>
      refine hflush.congr rfl rfl ?_
      simp [Sys.flushStep, hc]
    | some c =>
      have henter := hflush.enter hf c.1 c.2
      refine henter.congr rfl rfl ?_
      simp [Sys.flushStep, hc]

theorem step (B : Balanced s) {prog : Program T O J W K} {s' : Sys T P O J W} {e : Event T P K}
    (h : Logic.step prog s e = some s') : Balanced s' := by
  rcases step_cases h with ⟨p, k, -, -, rfl⟩ | ⟨a, o, f, hf, rfl⟩ | ⟨t, hf, rfl⟩ |
    ⟨p, o, j, rest, hf, -, rfl⟩
  · exact B.congr rfl rfl rfl
  · exact B.post hf
  · exact B.loop prog hf
  · exact (B.enter hf o j).congr rfl rfl rfl

end Balanced

/-! ## The threads and the main thread -/

/-- A step of the loop of `t` moves no other thread, and enters calls on behalf of `t` only. -/
theorem loopStep_other (prog : Program T O J W K) (s : Sys T P O J W) (t : T) :
    (∀ t', t' ≠ t → (s.loopStep prog t).loops t' = s.loops t') ∧
      ∀ a, a ≠ .inl t → (s.loopStep prog t).frames a = s.frames a := by
  cases hl : s.loops t with
  | dequeue | dequeueFail =>
    simp only [Sys.loopStep, hl]
    refine ⟨fun t' h => update_of_ne h .., fun a _ => trivial⟩
  | dequeueUnlink =>
    simp only [Sys.loopStep, hl]
    split
    · exact ⟨fun t' _ => rfl, fun a _ => rfl⟩
    · exact ⟨fun t' h => update_of_ne h .., fun a _ => rfl⟩
  | busy o ph =>
    simp only [Sys.loopStep, hl, Sys.flushStep]
    refine ⟨fun t' h => update_of_ne h .., fun a h => ?_⟩
    cases (flushStep (prog.start s.world o ph).2 (s.cells o) ph).call with
    | none => rfl
    | some c => exact update_of_ne h ..

/-- A pass ends with the increment of a `Dequeue` that gives up. -/
theorem Serving.run_process (prog : Program T O J W K) (x : Serving T P O J W) (t : T)
    (after : RunPC O J) :
    x.sys.loops t = .dequeueFail ∧ (x.process prog t after).run = update x.run t after ∨
      x.sys.loops t ≠ .dequeueFail ∧ (x.process prog t after).run = x.run := by
  cases hl : x.sys.loops t with
  | dequeueFail => exact .inl ⟨rfl, by simp [Serving.process, hl]⟩
  | dequeue | dequeueUnlink | busy o ph => exact .inr ⟨by simp, by simp [Serving.process, hl]⟩

/-- A caller's step, and that it moves no thread. -/
theorem callerStep_cases {prog : Program T O J W K} {s s' : Sys T P O J W} {e : Event T P K}
    (h : Logic.step prog s e = some s') (hne : ∀ t, e ≠ .agent (.inl t)) :
    (∃ todo, s' = { s with todo := todo }) ∨
    (∃ p o f, s.frames (.inr p) = some (o, f) ∧ s' = s.postStep (.inr p) o f) ∨
    ∃ p o j todo, s.frames (.inr p) = none ∧
      s' = { s with frames := update s.frames (.inr p) (some (o, .enter j)), todo := todo } := by
  cases e with
  | call p k =>
    simp only [Logic.step] at h
    split at h
    · exact .inl ⟨_, (Option.some.inj h).symm⟩
    · cases h
  | agent a =>
    cases a with
    | inl t => exact absurd rfl (hne t)
    | inr p =>
      simp only [Logic.step] at h
      split at h
      · exact .inr (.inl ⟨p, _, _, ‹_›, (Option.some.inj h).symm⟩)
      · split at h
        · cases h
        · exact .inr (.inr ⟨p, _, _, _, ‹_›, (Option.some.inj h).symm⟩)

theorem callerStep_threads {prog : Program T O J W K} {s s' : Sys T P O J W} {e : Event T P K}
    (h : Logic.step prog s e = some s') (hne : ∀ t, e ≠ .agent (.inl t)) :
    s'.loops = s.loops ∧ ∀ t, s'.frames (.inl t) = s.frames (.inl t) := by
  rcases callerStep_cases h hne with ⟨todo, rfl⟩ | ⟨p, o, f, -, rfl⟩ | ⟨p, o, j, todo, -, rfl⟩
  · exact ⟨rfl, fun t => rfl⟩
  · exact ⟨rfl, fun t => by simp [Sys.postStep]⟩
  · exact ⟨rfl, fun t => by simp⟩

/-- **How the threads stand.** -/
structure Orderly (x : Serving T P O J W) : Prop where
  balanced : Balanced x.sys
  /-- outside of `ProcessJobObjects` a thread has nothing in its hands -/
  idle : ∀ t, (x.run t = .process ∨ x.run t = .last) ∨ x.sys.loops t = .dequeue
  silent : ∀ t, x.run t = .test ∨ x.run t = .exited → x.sys.frames (.inl t) = none
  out : x.stop ≠ .notCalled → ∀ p, x.sys.frames (.inr p) = none
  stopped : ∀ ts, x.stop = .stop ts → ∀ t, t ∈ ts ∨ x.run t = .exited
  joining : ∀ t ts, x.stop = .join t ts → ∀ t', t' ∈ t :: ts ∨ x.run t' = .exited

namespace Orderly

variable {server : Server T} {prog : Program T O J W K} {x x' : Serving T P O J W}

theorem initial : Orderly (prog.serving : Serving T P O J W) where
  balanced := by
    have h₁ : ∀ t, total (frameCounts t) (prog.initial : Sys T P O J W).frames = 0 :=
      fun t => total_eq_zero fun a => rfl
    have h₂ : ∀ t, total (LoopPC.counts t) (prog.initial : Sys T P O J W).loops = 0 :=
      fun t => total_eq_zero fun a => rfl
    constructor
    · intro t
      show ((0 : Nat) : Int) = 0 + (total (frameCounts t) (prog.initial : Sys T P O J W).frames
        + total (LoopPC.counts t) (prog.initial : Sys T P O J W).loops + 0 : Nat)
      rw [h₁, h₂]
      rfl
    · intro t
      exact le_refl 0
  idle t := .inr rfl
  silent t _ := rfl
  out h := absurd rfl h
  stopped ts h := by cases h
  joining t ts h := by cases h

/-- What one thread does concerns only itself. -/
theorem thread (A : Orderly x) {t : T} (hB : Balanced x'.sys) (hstop : x'.stop = x.stop)
    (hrun : ∀ t', t' ≠ t → x'.run t' = x.run t') (hexit : x.run t ≠ .exited)
    (hloops : ∀ t', t' ≠ t → x'.sys.loops t' = x.sys.loops t')
    (hframes : ∀ a, a ≠ .inl t → x'.sys.frames a = x.sys.frames a)
    (hidle : (x'.run t = .process ∨ x'.run t = .last) ∨ x'.sys.loops t = .dequeue)
    (hsilent : x'.run t = .test ∨ x'.run t = .exited → x'.sys.frames (.inl t) = none) :
    Orderly x' where
  balanced := hB
  idle t' := by
    by_cases h : t' = t
    · subst h
      exact hidle
    · rw [hrun t' h, hloops t' h]
      exact A.idle t'
  silent t' := by
    by_cases h : t' = t
    · subst h
      exact hsilent
    · rw [hrun t' h, hframes (.inl t') (by simpa using h)]
      exact A.silent t'
  out h p := by
    rw [hframes (.inr p) (by simp)]
    exact A.out (hstop ▸ h) p
  stopped ts h t' := by
    refine (A.stopped ts (hstop ▸ h) t').imp id fun he => ?_
    rw [hrun t' fun heq => hexit (heq ▸ he)]
    exact he
  joining t₁ ts h t' := by
    refine (A.joining t₁ ts (hstop ▸ h) t').imp id fun he => ?_
    rw [hrun t' fun heq => hexit (heq ▸ he)]
    exact he

/-- **The step lemma.** -/
theorem step (A : Orderly x) (h : server.Moves prog x x') : Orderly x' := by
  cases h with
  | caller e s hstop hs hne hx =>
    subst hx
    obtain ⟨hloops, hframes⟩ := callerStep_threads hs hne
    exact {
      balanced := A.balanced.step hs
      idle := fun t => by rw [show s.loops t = x.sys.loops t from congrFun hloops t]; exact A.idle t
      silent := fun t ht => (hframes t).trans (A.silent t ht)
      out := fun h => absurd hstop h
      stopped := A.stopped
      joining := A.joining }
  | inside t o f hf hx =>
    subst hx
    have hexit : x.run t ≠ .exited := fun he => by rw [A.silent t (.inr he)] at hf; cases hf
    refine A.thread (A.balanced.post hf) rfl (fun t' _ => rfl) hexit (fun t' _ => rfl)
      (fun a ha => ?_) (A.idle t) fun ht => ?_
    · simp [Sys.postStep, ha]
    · rw [A.silent t ht] at hf
      cases hf
  | test t hf hrun hx =>
    subst hx
    refine A.thread (t := t) A.balanced rfl (fun t' h => update_of_ne h ..) (by rw [hrun]; simp)
      (fun t' _ => rfl) (fun a _ => rfl) (.inl ?_) fun _ => hf
    show update x.run t _ t = _ ∨ update x.run t _ t = _
    rw [update_self]
    split <;> simp
  | process t after hf hrun hx =>
    subst hx
    obtain ⟨hloops, hframes⟩ := loopStep_other prog x.sys t
    have hexit : x.run t ≠ .exited := by
      rcases hrun with ⟨hrun, -⟩ | ⟨hrun, -⟩ <;> rw [hrun] <;> simp
    have hB : Balanced (x.process prog t after).sys := A.balanced.loop prog hf
    rcases x.run_process prog t after with ⟨hl, hnext⟩ | ⟨hl, hnext⟩
    · refine A.thread (t := t) hB rfl (fun t' h => ?_) hexit hloops hframes (.inr ?_) fun _ => ?_
      · rw [hnext, update_of_ne h]
      · simp [Serving.process, Sys.loopStep, hl]
      · simpa [Serving.process, Sys.loopStep, hl] using hf
    · refine A.thread (t := t) hB rfl (fun t' h => by rw [hnext]) hexit hloops hframes (.inl ?_)
        fun ht => ?_
      · rw [hnext]
        exact hrun.imp And.left And.left
      · rw [hnext] at ht
        rcases hrun with ⟨hrun, -⟩ | ⟨hrun, -⟩ <;> rw [hrun] at ht <;> simp at ht
  | post t o j rest hf hrun hx =>
    subst hx
    refine A.thread (t := t) (A.balanced.enter hf o j) rfl (fun t' h => update_of_ne h ..)
      (by rw [hrun]; simp) (fun t' _ => rfl) (fun a h => update_of_ne h ..) (.inr ?_) fun ht => ?_
    · exact (A.idle t).resolve_left (by rw [hrun]; simp)
    · simp at ht
  | update t w next hf hrun hnext hx =>
    subst hx
    refine A.thread (t := t) (A.balanced.congr rfl rfl rfl) rfl (fun t' h => update_of_ne h ..)
      (by rw [hrun]; simp) (fun t' _ => rfl) (fun a _ => rfl) (.inr ?_) fun _ => hf
    exact (A.idle t).resolve_left (by rw [hrun]; simp)
  | stopGameThreads hstop hout hx =>
    subst hx
    have hout := of_decide_eq_true hout
    exact {
      balanced := A.balanced
      idle := A.idle
      silent := A.silent
      out := fun _ p => Option.isNone_iff_eq_none.mp (hout p).1
      stopped := fun ts h t => .inl (by cases h; exact server.all t)
      joining := fun t ts h => by cases h }
  | store t ts hstop hx =>
    subst hx
    exact {
      balanced := A.balanced
      idle := A.idle
      silent := A.silent
      out := fun _ => A.out (by rw [hstop]; simp)
      stopped := fun ts h => by cases h
      joining := fun t' ts' h => by cases h; exact A.stopped _ hstop }
  | join t ts hstop hexit hx =>
    subst hx
    exact {
      balanced := A.balanced
      idle := A.idle
      silent := A.silent
      out := fun _ => A.out (by rw [hstop]; simp)
      stopped := by
        intro ts' h t'
        cases h
        rcases A.joining t ts hstop t' with hin | he
        · rcases List.mem_cons.mp hin with rfl | hin
          · exact .inr hexit
          · exact .inl hin
        · exact .inr he
      joining := fun t' ts' h => by cases h }

end Orderly

theorem orderly_reachable {server : Server T} {prog : Program T O J W K} {x : Serving T P O J W}
    (h : Reachable (server.system prog) x) : Orderly x := by
  apply h.invariant (I := Orderly)
  · rintro x rfl
    exact .initial
  · rintro x x' _ A ⟨e, hstep⟩
    exact A.step (Server.moves_of_step hstep)

/-! ## Closed threads -/

/-- The last pass of the thread has found its queue empty. -/
def Closed (x : Serving T P O J W) (t : T) : Prop :=
  x.run t = .exited ∨ x.run t = .last ∧ x.sys.loops t = .dequeueFail

/-- The step takes an agent past the increment that ends the registration of an object with `t`. -/
def Registers (s s' : Sys T P O J W) (t : T) : Prop :=
  (∃ a, 0 < frameCounts t (s.frames a) ∧ s'.frames a ≠ s.frames a) ∨
    ∃ t', 0 < (s.loops t').counts t ∧ s'.loops t' ≠ s.loops t'

/-- The counter of a thread's queue, less what a `Dequeue` is about to take back. -/
def Sys.depth (s : Sys T P O J W) (t : T) : Int := (s.queues t).nodeCount + (s.loops t).failing

theorem RegPC.counts_le (t : T) (r : RegPC T) : r.counts t ≤ 1 := by
  cases r with
  | count t' => simp only [RegPC.counts]; split <;> omega
  | loadThread | link t' => exact Nat.zero_le 1

section Closing

variable {server : Server T} {prog : Program T O J W K} {x x' : Serving T P O J W}

end Closing

/-! ## When `StopGameThreads` has returned -/

/-- `StopGameThreads` has stopped and joined every thread. -/
def Serving.Returned (x : Serving T P O J W) : Prop := x.stop = .stop []

/-- Every job accepted on an object that is not destroyed has been executed; no queue holds an object. -/
structure Sys.Drained (s : Sys T P O J W) : Prop where
  queues : ∀ t, (s.queues t).items = []
  jobs : ∀ o, (s.cells o).markedForDelete = false → (s.cells o).jobQueue.items = []
  executed : ∀ o, (s.cells o).markedForDelete = false →
    ∀ n ∈ (s.cells o).accepted, n ∈ (s.cells o).finished

section Returning

variable {server : Server T} {prog : Program T O J W K} {x : Serving T P O J W}

/-- The threads have exited, and a queue holds as many objects as were registered too late. -/
theorem returned (h : Reachable (server.system prog) x) (hret : x.Returned) :
    (∀ a, x.sys.frames a = none) ∧ (∀ t, x.sys.loops t = .dequeue) ∧
      ∀ t, Closed x t ∧ ((x.sys.queues t).items.length : Int) = x.sys.depth t := by
  have A := orderly_reachable h
  have hexit : ∀ t, x.run t = .exited := by
    intro t
    rcases A.stopped [] hret t with hin | he
    · cases hin
    · exact he
  have hframes : ∀ a, x.sys.frames a = none := by
    intro a
    cases a with
    | inl t => exact A.silent t (.inr (hexit t))
    | inr p => exact A.out (by rw [hret]; simp) p
  have hloops : ∀ t, x.sys.loops t = .dequeue := by
    intro t
    exact (A.idle t).resolve_left (by rw [hexit t]; simp)
  refine ⟨hframes, hloops, fun t => ⟨.inl (hexit t), ?_⟩⟩
  have hbal := A.balanced.balance t
  rw [total_eq_zero fun a => by rw [hframes a]; rfl, total_eq_zero fun t' => by rw [hloops t']; rfl,
    hloops t] at hbal
  rw [Sys.depth, hloops t]
  exact hbal

/-- **Side condition.**  No object is registered with a thread whose last pass has found its queue
    empty. -/
def InTime (x x' : Serving T P O J W) : Prop :=
  ∀ t, Closed x t → ¬ Registers x.sys x'.sys t

end Returning

end Steps

/-! ## The village shuts down -/

namespace Village

def server : Server Thread where
  gameThreads := [.game]
  coreThread := .core
  all t := by cases t <;> simp

abbrev ServerState := Serving Thread Unit ObjRef (GameJob Scene Unit) (World Scene)

abbrev ServerSchedule :=
  List (ServerEvent Thread Unit ObjRef (GameJob Scene Unit) (World Scene) (Call Scene Unit))

/-- The caller makes a call and gets `n` steps. -/
def request (k : Call Scene Unit) (n : Nat) : ServerSchedule :=
  .call () k :: List.replicate n (.caller ())

/-- Thread `t` gets `n` steps. -/
def turn (t : Thread) (n : Nat) : ServerSchedule := List.replicate n (.thread t)

/-- `StopGameThreads`, while the game thread gets `n` steps after its turn to stop has come, and the core
    thread gets `m` after its. -/
def stop (n m : Nat) : ServerSchedule :=
  [.stopGameThreads, .main] ++ turn .game n ++ [.main, .main] ++ turn .core m ++ [.main]

/-- Whether nobody is about to count an object on the queue of a closed thread. -/
def inTime (x x' : ServerState) : Bool :=
  [Thread.core, .game].all fun t =>
    !(match x.run t, x.sys.loops t with
      | .exited, _ | .last, .dequeueFail => true
      | _, _ => false) ||
    ([Sum.inl Thread.core, .inl .game, .inr ()].all fun a => frameCounts t (x.sys.frames a) == 0) &&
      [Thread.core, .game].all fun t' => (x.sys.loops t').counts t == 0

end Village

end JunCore.Logic
