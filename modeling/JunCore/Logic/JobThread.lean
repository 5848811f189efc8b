/-
  `JunCore/logic/JobThread.h`, `JobThread.cpp`: the job system as a whole.

  Any number of `JobThread`s run `ProcessJobObjects` for ever, any number of other threads (IOCP
  workers, timers, the main thread) call into the system, and every atomic step of every one of
  them may come next:

  * a `JobThread` dequeues an object (three steps of `m_jobObjectQueue.Dequeue`), then works it
    through the phases of `JobObject.lean`; while its job is inside a `PostJob` call, the thread's
    next step is a step of that call;
  * a caller makes an API call, which is a list of `PostJob`s it performs one after the other.

  What the jobs are is a parameter, `Program`: a job's effect on the game state and its
  instructions are an arbitrary function of that state, read at the moment the job is called.

  The second half of the file is the abstraction the invariants are proved on.  `Sys.view o`
  forgets every object but `o`: it keeps the object, how often it sits in each queue, the phase of
  each thread that has it in hand and each `PostJob` call on it.  `view_step` shows that a step of
  the system is, for every object, one step of the small machine `View.Step` or no step at all.
-/
import JunCore.Lib.Transition
import JunCore.Logic.JobObject
import Mathlib.Data.List.Count

set_option linter.unusedVariables false
set_option linter.unusedSectionVars false

namespace JunCore.Logic

open Transition Function

variable {T P O J W K : Type}

/-! ## The state of the job system -/

/-- Where a `JobThread` is in `ProcessJobObjects`. -/
inductive LoopPC (T O J : Type)
  /-- `m_jobObjectQueue.Dequeue(&jobObj)`: the decrement -/
  | dequeue
  /-- the increment of a `Dequeue` that gives up; the loop comes back later -/
  | dequeueFail
  /-- the unlink of a `Dequeue` that goes through -/
  | dequeueUnlink
  /-- an object in hand -/
  | busy (o : O) (ph : Phase T O J)

/-- Threads `T`, callers `P`, objects `O`, jobs `J`, game state `W`. -/
structure Sys (T P O J W : Type) where
  cells : O → Cell T J
  /-- `m_jobObjectQueue` of each thread -/
  queues : T → LFQueue O
  loops : T → LoopPC T O J
  /-- the `PostJob` call each agent is inside of, if any -/
  frames : T ⊕ P → Option (O × PostCall T J)
  /-- the `PostJob`s a caller still has to make in its current API call -/
  todo : P → List (O × J)
  world : W

/-- The parts of the program the job system does not fix. -/
structure Program (T O J W K : Type) where
  /-- a job called on an object, in a game state: the new game state and the instructions -/
  body : J → O → W → W × List (Instr T O J)
  /-- the `PostJob`s of an API call -/
  posts : K → List (O × J)
  /-- the thread each object is constructed with -/
  home : O → T
  /-- the game state at the start -/
  world : W

/-- The next event: a caller starts an API call, or an agent takes its next atomic step. -/
inductive Event (T P K : Type)
  | call (p : P) (k : K)
  | agent (a : T ⊕ P)

/-! ## Steps -/

section Steps

variable [DecidableEq T] [DecidableEq P] [DecidableEq O]

/-- Carry out what a step does to a `JobThread` queue, on behalf of `o`. -/
def applyQueueOp (o : O) (queues : T → LFQueue O) : Option (QueueOp T) → T → LFQueue O
  | none => queues
  | some (.link t) => update queues t ((queues t).link o)
  | some (.count t) => update queues t (queues t).increment

/-- Agent `a` takes one step inside its `PostJob` call `f` on `o`. -/
def Sys.postStep (s : Sys T P O J W) (a : T ⊕ P) (o : O) (f : PostCall T J) : Sys T P O J W :=
  let r := Logic.postStep (s.cells o) f
  { s with
    cells := update s.cells o r.1
    queues := applyQueueOp o s.queues r.2.2
    frames := update s.frames a (r.2.1.map (o, ·)) }

/-- The game state after the step, and the instructions of the job if one is called in it. -/
def Program.start (prog : Program T O J W K) (w : W) (o : O) : Phase T O J → W × List (Instr T O J)
  | .jobStart _ e => prog.body e.job o w
  | _ => (w, [])

/-- `JobThread` `t` takes one step with the object `o` it has in hand. -/
def Sys.flushStep (prog : Program T O J W K) (s : Sys T P O J W) (t : T) (o : O)
    (ph : Phase T O J) : Sys T P O J W :=
  let b := prog.start s.world o ph
  let r := Logic.flushStep b.2 (s.cells o) ph
  { s with
    cells := update s.cells o r.cell
    queues := applyQueueOp o s.queues r.queueOp
    loops := update s.loops t (match r.phase with | some ph' => .busy o ph' | none => .dequeue)
    frames := match r.call with
      | some (o', j) => update s.frames (.inl t) (some (o', .enter j))
      | none => s.frames
    world := b.1 }

/-- `JobThread` `t`, not inside a `PostJob` call, takes one step of `ProcessJobObjects`. -/
def Sys.loopStep (prog : Program T O J W K) (s : Sys T P O J W) (t : T) : Sys T P O J W :=
  match s.loops t with
  | .dequeue =>
      { s with
        queues := update s.queues t (s.queues t).decrement
        loops := update s.loops t
          (if (s.queues t).decrement.nodeCount < 0 then .dequeueFail else .dequeueUnlink) }
  | .dequeueFail =>
      { s with
        queues := update s.queues t (s.queues t).increment
        loops := update s.loops t .dequeue }
  | .dequeueUnlink =>
      match (s.queues t).items with
      | [] => s  -- `continue`: wait for the link
      | o :: _ =>
        { s with
          queues := update s.queues t (s.queues t).unlink
          loops := update s.loops t (.busy o .flushLoadMarked) }
  | .busy o ph => s.flushStep prog t o ph

/-- The step function of the whole system; `none` when the event is not enabled. -/
def step (prog : Program T O J W K) (s : Sys T P O J W) : Event T P K → Option (Sys T P O J W)
  | .call p k =>
      match s.todo p, s.frames (.inr p) with
      | [], none => some { s with todo := update s.todo p (prog.posts k) }
      | _, _ => none
  | .agent a =>
      match s.frames a with
      | some (o, f) => some (s.postStep a o f)
      | none =>
        match a with
        | .inl t => some (s.loopStep prog t)
        | .inr p =>
          match s.todo p with
          | [] => none
          | (o, j) :: rest =>
            some { s with
              frames := update s.frames (.inr p) (some (o, .enter j))
              todo := update s.todo p rest }

/-- All objects constructed, all queues empty, nobody inside a call. -/
def Program.initial (prog : Program T O J W K) : Sys T P O J W where
  cells o := .new (prog.home o)
  queues _ := {}
  loops _ := .dequeue
  frames _ := none
  todo _ := []
  world := prog.world

/-- The runs of the job system under the program `prog`. -/
def Program.system (prog : Program T O J W K) (P : Type) [DecidableEq P] :
    System (Sys T P O J W) where
  init s := s = prog.initial
  next s s' := ∃ e, step prog s e = some s'

theorem Program.next_of_step {prog : Program T O J W K} (s : Sys T P O J W) (e : Event T P K)
    (s' : Sys T P O J W) (h : step prog s e = some s') : (prog.system P).next s s' :=
  ⟨e, h⟩

/-- **The inversion of `step`.**  Everything a single event can do. -/
theorem step_cases {prog : Program T O J W K} {s s' : Sys T P O J W} {e : Event T P K}
    (h : step prog s e = some s') :
    (∃ p k, s.frames (.inr p) = none ∧ s.todo p = [] ∧
      s' = { s with todo := update s.todo p (prog.posts k) }) ∨
    (∃ a o f, s.frames a = some (o, f) ∧ s' = s.postStep a o f) ∨
    (∃ t, s.frames (.inl t) = none ∧ s' = s.loopStep prog t) ∨
    (∃ p o j rest, s.frames (.inr p) = none ∧ s.todo p = (o, j) :: rest ∧
      s' = { s with frames := update s.frames (.inr p) (some (o, .enter j)),
                    todo := update s.todo p rest }) := by
  cases e with
  | call p k =>
    simp only [step] at h
    split at h
    · rename_i htodo hframe
      exact .inl ⟨p, k, hframe, htodo, by simpa using h.symm⟩
    · cases h
  | agent a =>
    cases hf : s.frames a with
    | some c =>
      simp only [step, hf, Option.some.injEq] at h
      exact .inr (.inl ⟨a, c.1, c.2, hf, h.symm⟩)
    | none =>
      cases a with
      | inl t =>
        simp only [step, hf, Option.some.injEq] at h
        exact .inr (.inr (.inl ⟨t, hf, h.symm⟩))
      | inr p =>
        simp only [step, hf] at h
        split at h
        · cases h
        · rename_i o j rest htodo
          exact .inr (.inr (.inr ⟨p, o, j, rest, hf, htodo, by simpa using h.symm⟩))

end Steps

/-! ## One object, seen alone -/

/-- What the system looks like from one object: the object, how often each queue holds it, the
    phase of each thread that has it in hand, the `PostJob` call each agent makes on it. -/
@[ext] structure View (T P O J : Type) where
  cell : Cell T J
  queued : T → Nat
  loop : T → Option (Phase T O J)
  frame : T ⊕ P → Option (PostCall T J)

section Views

variable [DecidableEq T] [DecidableEq P] [DecidableEq O]

/-- The phase of a thread, if it has `o` in hand. -/
def LoopPC.phaseOf (o : O) : LoopPC T O J → Option (Phase T O J)
  | .busy o' ph => if o' = o then some ph else none
  | _ => none

/-- The call an agent is inside of, if it is one on `o`. -/
def callOn (o : O) : Option (O × PostCall T J) → Option (PostCall T J)
  | some (o', f) => if o' = o then some f else none
  | none => none

/-- The system as `o` sees it. -/
def Sys.view (s : Sys T P O J W) (o : O) : View T P O J where
  cell := s.cells o
  queued := (fun q => q.items.count o) ∘ s.queues
  loop := LoopPC.phaseOf o ∘ s.loops
  frame := callOn o ∘ s.frames

theorem view_loop_eq_some {s : Sys T P O J W} {o : O} {t : T} {ph : Phase T O J} :
    (s.view o).loop t = some ph ↔ s.loops t = .busy o ph := by
  show LoopPC.phaseOf o (s.loops t) = some ph ↔ _
  cases s.loops t with
  | busy o' ph' => by_cases h : o' = o <;> simp [LoopPC.phaseOf, h]
  | dequeue | dequeueFail | dequeueUnlink => simp [LoopPC.phaseOf]

theorem view_frame_eq_some {s : Sys T P O J W} {o : O} {a : T ⊕ P} {f : PostCall T J} :
    (s.view o).frame a = some f ↔ s.frames a = some (o, f) := by
  show callOn o (s.frames a) = some f ↔ _
  cases s.frames a with
  | none => simp [callOn]
  | some c => obtain ⟨o', f'⟩ := c; by_cases h : o' = o <;> simp [callOn, h]

theorem view_queued_pos {s : Sys T P O J W} {o : O} {t : T} :
    0 < (s.view o).queued t ↔ o ∈ (s.queues t).items :=
  List.count_pos_iff

namespace View

/-- How a queue operation on behalf of the object changes where it is queued. -/
def applyQueueOp (queued : T → Nat) : Option (QueueOp T) → T → Nat
  | some (.link t) => update queued t (queued t + 1)
  | _ => queued

/-- Some agent enters `PostJob(j)` on the object. -/
def enter (v : View T P O J) (a : T ⊕ P) (j : J) : View T P O J :=
  { v with frame := update v.frame a (some (.enter j)) }

/-- Agent `a` takes one step inside its `PostJob` call `f`. -/
def post (v : View T P O J) (a : T ⊕ P) (f : PostCall T J) : View T P O J :=
  { v with
    cell := (postStep v.cell f).1
    queued := applyQueueOp v.queued (postStep v.cell f).2.2
    frame := update v.frame a (postStep v.cell f).2.1 }

/-- Thread `t` unlinks the object from its queue. -/
def take (v : View T P O J) (t : T) : View T P O J :=
  { v with
    queued := update v.queued t (v.queued t - 1)
    loop := update v.loop t (some .flushLoadMarked) }

/-- Thread `t` takes one step with the object in hand. -/
def flush (v : View T P O J) (t : T) (is : List (Instr T O J)) (ph : Phase T O J) :
    View T P O J :=
  { v with
    cell := (flushStep is v.cell ph).cell
    queued := applyQueueOp v.queued (flushStep is v.cell ph).queueOp
    loop := update v.loop t (flushStep is v.cell ph).phase }

/-- **The life of one object**: five kinds of step, taken by any agent in any order.  `selfCall`
    is a job that posts to the very object it runs on, which is two things at once. -/
inductive Step : View T P O J → View T P O J → Prop
  | enter (v a j) : v.frame a = none → Step v (v.enter a j)
  | post (v a f) : v.frame a = some f → Step v (v.post a f)
  | take (v t) : v.loop t = none → 0 < v.queued t → Step v (v.take t)
  | flush (v t is ph) : v.loop t = some ph → Step v (v.flush t is ph)
  | selfCall (v t is ph j) : v.loop t = some ph → v.frame (.inl t) = none →
      (∃ o, (flushStep is v.cell ph).call = some (o, j)) → Step v ((v.flush t is ph).enter (.inl t) j)

/-- A freshly constructed object nobody knows yet. -/
def initial (t : T) : View T P O J where
  cell := .new t
  queued _ := 0
  loop _ := none
  frame _ := none

/-- The runs of one object that starts out on thread `t`. -/
def system (t : T) : System (View T P O J) where
  init v := v = initial t
  next := Step

end View

/-! ## A run of the system is a run of each of its objects -/

theorem comp_update_eq_self {α β γ : Type} [DecidableEq α] (f : β → γ) (g : α → β) (a : α) (b : β)
    (h : f b = f (g a)) : f ∘ update g a b = f ∘ g := by
  rw [comp_update, h, update_eq_self_iff]; rfl

theorem queued_applyQueueOp_self (o : O) (queues : T → LFQueue O) (q : Option (QueueOp T)) :
    (fun q : LFQueue O => q.items.count o) ∘ applyQueueOp o queues q
      = View.applyQueueOp ((fun q : LFQueue O => q.items.count o) ∘ queues) q := by
  match q with
  | none => rfl
  | some (.link t) => simp [applyQueueOp, View.applyQueueOp, comp_update]
  | some (.count t) => exact comp_update_eq_self _ _ _ _ rfl

theorem queued_applyQueueOp_ne {o o' : O} (h : o' ≠ o) (queues : T → LFQueue O)
    (q : Option (QueueOp T)) :
    (fun q : LFQueue O => q.items.count o) ∘ applyQueueOp o' queues q
      = (fun q : LFQueue O => q.items.count o) ∘ queues := by
  match q with
  | none => rfl
  | some (.link t) => exact comp_update_eq_self _ _ _ _ (by simp [h])
  | some (.count t) => exact comp_update_eq_self _ _ _ _ rfl

theorem callOn_map_self (o : O) (f : Option (PostCall T J)) : callOn o (f.map (o, ·)) = f := by
  cases f <;> simp [callOn]

theorem callOn_map_ne {o o' : O} (h : o' ≠ o) (f : Option (PostCall T J)) :
    callOn o (f.map (o', ·)) = none := by
  cases f <;> simp [callOn, h]

theorem view_postStep (s : Sys T P O J W) {a : T ⊕ P} {o' : O} {f : PostCall T J}
    (hf : s.frames a = some (o', f)) (o : O) :
    (s.postStep a o' f).view o = s.view o ∨ View.Step (s.view o) ((s.postStep a o' f).view o) := by
  by_cases h : o' = o
  · subst h
    right
    have hv : (s.view o').frame a = some f := by simp [Sys.view, callOn, hf]
    convert View.Step.post (s.view o') a f hv using 1
    ext1
    · simp [Sys.view, Sys.postStep, View.post]
    · exact queued_applyQueueOp_self o' s.queues _
    · rfl
    · simp only [Sys.view, Sys.postStep, View.post, comp_update, callOn_map_self]
  · left
    ext1
    · simp [Sys.view, Sys.postStep, update_of_ne (Ne.symm h)]
    · exact queued_applyQueueOp_ne h s.queues _
    · rfl
    · exact comp_update_eq_self (callOn o) s.frames a _ (by rw [callOn_map_ne h, hf]; simp [callOn, h])

theorem view_enter (s : Sys T P O J W) {a : T ⊕ P} (hf : s.frames a = none) (o' : O) (j : J)
    (todo : P → List (O × J)) (o : O) :
    ({ s with frames := update s.frames a (some (o', .enter j)), todo := todo } :
        Sys T P O J W).view o = s.view o ∨
      View.Step (s.view o) (({ s with frames := update s.frames a (some (o', .enter j)),
                                      todo := todo } : Sys T P O J W).view o) := by
  by_cases h : o' = o
  · subst h
    right
    have hv : (s.view o').frame a = none := by simp [Sys.view, callOn, hf]
    convert View.Step.enter (s.view o') a j hv using 1
    ext1 <;> simp [Sys.view, View.enter, comp_update, callOn]
  · left
    ext1
    · rfl
    · rfl
    · rfl
    · exact comp_update_eq_self (callOn o) s.frames a _ (by rw [hf]; simp [callOn, h])

/-- The loop after a step with `o'` in hand, as `o'` sees it. -/
theorem phaseOf_self (o' : O) (ph : Option (Phase T O J)) :
    LoopPC.phaseOf o' (match ph with | some ph' => .busy o' ph' | none => .dequeue) = ph := by
  cases ph <;> simp [LoopPC.phaseOf]

theorem phaseOf_ne {o o' : O} (h : o' ≠ o) (ph : Option (Phase T O J)) :
    LoopPC.phaseOf o (match ph with | some ph' => .busy o' ph' | none => .dequeue) = none := by
  cases ph <;> simp [LoopPC.phaseOf, h]

/-- What a step with `o'` in hand does to the view of `o'`, before a call it enters is counted. -/
theorem view_flushStep_self (prog : Program T O J W K) (s : Sys T P O J W) (t : T) (o' : O)
    (ph : Phase T O J) :
    ({ s.flushStep prog t o' ph with frames := s.frames } : Sys T P O J W).view o'
      = (s.view o').flush t (prog.start s.world o' ph).2 ph := by
  ext1
  · simp [Sys.view, Sys.flushStep, View.flush]
  · exact queued_applyQueueOp_self o' s.queues _
  · simp only [Sys.view, Sys.flushStep, View.flush, comp_update, phaseOf_self]
  · rfl

/-- A step with `o'` in hand shows nothing to another object, apart from a call it enters. -/
theorem view_flushStep_ne (prog : Program T O J W K) (s : Sys T P O J W) {t : T} {o o' : O}
    (h : o' ≠ o) {ph : Phase T O J} (hl : s.loops t = .busy o' ph) :
    ({ s.flushStep prog t o' ph with frames := s.frames } : Sys T P O J W).view o = s.view o := by
  ext1
  · simp [Sys.view, Sys.flushStep, update_of_ne (Ne.symm h)]
  · exact queued_applyQueueOp_ne h s.queues _
  · exact comp_update_eq_self (LoopPC.phaseOf o) s.loops t _ (by rw [hl, phaseOf_ne h]; simp [LoopPC.phaseOf, h])
  · rfl

theorem view_flushStep (prog : Program T O J W K) (s : Sys T P O J W) {t : T} {o' : O}
    {ph : Phase T O J} (hl : s.loops t = .busy o' ph) (hf : s.frames (.inl t) = none) (o : O) :
    (s.flushStep prog t o' ph).view o = s.view o ∨
      View.Step (s.view o) ((s.flushStep prog t o' ph).view o) := by
  -- split off the call the step may enter
  have hsplit : s.flushStep prog t o' ph
      = match (flushStep (prog.start s.world o' ph).2 (s.cells o') ph).call with
        | some (o₂, j) => { s.flushStep prog t o' ph with
                             frames := update s.frames (.inl t) (some (o₂, .enter j)) }
        | none => { s.flushStep prog t o' ph with frames := s.frames } := by
    cases hc : (flushStep (prog.start s.world o' ph).2 (s.cells o') ph).call <;>
      simp [Sys.flushStep, hc]
  have hphase : o' = o → (s.view o).loop t = some ph := by
    intro h; simp [Sys.view, LoopPC.phaseOf, hl, h]
  cases hc : (flushStep (prog.start s.world o' ph).2 (s.cells o') ph).call with
  | none =>
    rw [hc] at hsplit
    rw [hsplit]
    by_cases h : o' = o
    · subst h
      rw [view_flushStep_self]
      exact .inr (.flush _ _ _ _ (hphase rfl))
    · exact .inl (view_flushStep_ne prog s h hl)
  | some c =>
    obtain ⟨o₂, j⟩ := c
    rw [hc] at hsplit
    simp only at hsplit
    rw [hsplit]
    by_cases h : o' = o
    · subst h
      have hself := view_flushStep_self prog s t o' ph
      by_cases h₂ : o₂ = o'
      · subst h₂
        right
        have hv : (s.view o₂).frame (.inl t) = none := by simp [Sys.view, callOn, hf]
        convert View.Step.selfCall (s.view o₂) t (prog.start s.world o₂ ph).2 ph j (hphase rfl) hv
          ⟨o₂, hc⟩ using 1
        rw [← hself]
        ext1 <;> simp [Sys.view, View.enter, comp_update, callOn]
      · right
        have hsame : ({ s.flushStep prog t o' ph with
            frames := update s.frames (.inl t) (some (o₂, .enter j)) } : Sys T P O J W).view o'
            = (s.view o').flush t (prog.start s.world o' ph).2 ph := by
          rw [← hself]
          ext1
          · rfl
          · rfl
          · rfl
          · exact comp_update_eq_self (callOn o') s.frames (.inl t) _ (by rw [hf]; simp [callOn, h₂])
        rw [hsame]
        exact .flush _ _ _ _ (hphase rfl)
    · have hother := view_flushStep_ne prog s h hl
      have := view_enter ({ s.flushStep prog t o' ph with frames := s.frames } : Sys T P O J W)
        (a := .inl t) hf o₂ j s.todo o
      rw [hother] at this
      exact this

theorem view_loopStep (prog : Program T O J W K) (s : Sys T P O J W) {t : T}
    (hf : s.frames (.inl t) = none) (o : O) :
    (s.loopStep prog t).view o = s.view o ∨ View.Step (s.view o) ((s.loopStep prog t).view o) := by
  cases hl : s.loops t with
  | dequeue =>
    left
    simp only [Sys.loopStep, hl]
    ext1
    · rfl
    · exact comp_update_eq_self (fun q : LFQueue O => q.items.count o) s.queues t _ rfl
    · exact comp_update_eq_self (LoopPC.phaseOf o) s.loops t _ (by rw [hl]; split <;> rfl)
    · rfl
  | dequeueFail =>
    left
    simp only [Sys.loopStep, hl]
    ext1
    · rfl
    · exact comp_update_eq_self (fun q : LFQueue O => q.items.count o) s.queues t _ rfl
    · exact comp_update_eq_self (LoopPC.phaseOf o) s.loops t _ (by rw [hl]; rfl)
    · rfl
  | dequeueUnlink =>
    simp only [Sys.loopStep, hl]
    cases hq : (s.queues t).items with
    | nil => exact .inl rfl
    | cons o' rest =>
      by_cases h : o' = o
      · subst h
        right
        have hv : (s.view o').loop t = none := by simp [Sys.view, LoopPC.phaseOf, hl]
        have hpos : 0 < (s.view o').queued t := by simp [Sys.view, hq]
        convert View.Step.take (s.view o') t hv hpos using 1
        ext1 <;> simp [Sys.view, View.take, comp_update, LoopPC.phaseOf, hq]
      · left
        ext1
        · rfl
        · exact comp_update_eq_self (fun q : LFQueue O => q.items.count o) s.queues t _
            (by simp [hq, h])
        · exact comp_update_eq_self (LoopPC.phaseOf o) s.loops t _
            (by rw [hl]; simp [LoopPC.phaseOf, h])
        · rfl
  | busy o' ph =>
    simp only [Sys.loopStep, hl]
    exact view_flushStep prog s hl hf o

/-- **The simulation.**  Seen from any object, a step of the system is a step in that object's life
    or nothing. -/
theorem view_step {prog : Program T O J W K} {s s' : Sys T P O J W} {e : Event T P K}
    (h : step prog s e = some s') (o : O) :
    s'.view o = s.view o ∨ View.Step (s.view o) (s'.view o) := by
  rcases step_cases h with ⟨p, k, -, -, rfl⟩ | ⟨a, o', f, hf, rfl⟩ | ⟨t, hf, rfl⟩ |
    ⟨p, o', j, rest, hf, htodo, rfl⟩
  · exact .inl rfl
  · exact view_postStep s hf o
  · exact view_loopStep prog s hf o
  · exact view_enter s hf o' j _ o

theorem view_projection (prog : Program T O J W K) (o : O) :
    Projection (prog.system P) (View.system (T := T) (P := P) (J := J) (prog.home o))
      (fun s => s.view o) where
  init s h := by subst h; rfl
  next s s' := fun ⟨_, h⟩ => view_step h o

theorem view_reachable {prog : Program T O J W K} {s : Sys T P O J W}
    (h : Reachable (prog.system P) s) (o : O) : Reachable (View.system (prog.home o)) (s.view o) :=
  (view_projection prog o).reachable h

end Views

/-! ## A small instance

  Two `JobThread`s, two callers and one object that starts on thread 0.  The schedules that show
  how the steps can interleave run on it. -/

namespace Duo

/-- A job that does nothing, one that re-threads its object to thread 1 (as `MoveToScene` does) and
    one that marks it (as `Destroy` does). -/
inductive Job
  | nop
  | move
  | destroy
  deriving DecidableEq

abbrev State := Sys (Fin 2) (Fin 2) Unit Job Unit

/-- Caller `p` calls `PostJob(j)` and gets `n` steps. -/
def post (p : Fin 2) (j : Job) (n : Nat) : List (Event (Fin 2) (Fin 2) Job) :=
  .call p j :: List.replicate n (.agent (.inr p))

/-- `JobThread` `t` gets `n` steps. -/
def run (t : Fin 2) (n : Nat) : List (Event (Fin 2) (Fin 2) Job) :=
  List.replicate n (.agent (.inl t))

end Duo

def duo : Program (Fin 2) Unit Duo.Job Unit Duo.Job where
  body j _ w := (w, match j with
    | .nop => []
    | .move => [.setJobThread 1]
    | .destroy => [.markForDelete])
  posts j := [((), j)]
  home _ := 0
  world := ()

/-- A schedule whose last state passes a check leads to a reachable state that does. -/
theorem duo_reachable (es : List (Event (Fin 2) (Fin 2) Duo.Job)) (p : Duo.State → Bool)
    (h : (exec (step duo) es duo.initial).any p = true) :
    ∃ s, Reachable (duo.system (Fin 2)) s ∧ p s = true :=
  exists_reachable_of_exec rfl Program.next_of_step es p h

/-- The same for a schedule each of whose steps passes the check `g` of a side condition. -/
theorem duo_guarded_reachable (es : List (Event (Fin 2) (Fin 2) Duo.Job))
    {G : Duo.State → Duo.State → Prop} (g : Duo.State → Duo.State → Bool)
    (hg : ∀ s s', g s s' = true → G s s') (p : Duo.State → Bool)
    (h : (exec (gate (step duo) g) es duo.initial).any p = true) :
    ∃ s, Reachable ((duo.system (Fin 2)).guard G) s ∧ p s = true :=
  exists_reachable_of_exec rfl (next_of_gate Program.next_of_step hg) es p h

end JunCore.Logic
