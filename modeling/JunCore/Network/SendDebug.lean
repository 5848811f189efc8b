/-
  The debug build of `HandleSendComplete`.

  It counts the calls that are at work in `send_complete_handling_count_`, and crashes if there is one
  already.  Only one `WSASend` is outstanding, so only one completion is handled at a time, but the
  count goes down after `send_flag_` has been released: the next send may be posted, complete, and come
  to another worker before (`crashes`).

  The two steps are laid over the steps of the session, which know nothing of them.
-/
import JunCore.Network.SendWakeup
import JunCore.Network.Disconnect

set_option linter.unusedVariables false
set_option linter.unusedSectionVars false

namespace JunCore.SessionSteps

open Function Transition Network Counting

variable {T : Type} [DecidableEq T]

/-! ## The two steps -/

/-- The step of the debug build that a thread has to take first. -/
inductive Mark
  | none
  /-- `send_complete_handling_count_.fetch_add(1)` -/
  | enter
  /-- `send_complete_handling_count_--` -/
  | leave
  deriving DecidableEq

/-- A worker has come to the loop of `HandleSendComplete`, or has just cleared the flag. -/
def mark : Phase → Phase → Mark
  | .idle, .delete 0 => .enter
  | .clearFlag, .loadPending => .leave
  | _, _ => .none

structure Debug (T : Type) where
  base : Sys T
  sendCompleteHandlingCount : BitVec 32 := 0#32
  marks : T → Mark := fun _ => .none
  /-- `CRASH()` -/
  crashed : Bool := false

/-- A step of the session; the threads that come to one of the two steps stop there. -/
def Debug.lift (d : Debug T) (a : Act T) : Option (Debug T) :=
  (step d.base a).map fun s => { d with
    base := s
    marks := fun t =>
      if d.marks t = .none then mark (phaseOf (d.base.tasks t)) (phaseOf (s.tasks t)) else d.marks t }

def Debug.fetchAdd (d : Debug T) (t : T) : Debug T :=
  { d with
    sendCompleteHandlingCount := d.sendCompleteHandlingCount + 1#32
    marks := update d.marks t .none
    crashed := decide (0 < d.sendCompleteHandlingCount.toInt) }

def Debug.decrement (d : Debug T) (t : T) : Debug T :=
  { d with
    sendCompleteHandlingCount := d.sendCompleteHandlingCount - 1#32
    marks := update d.marks t .none }

def Debug.step (d : Debug T) (a : Act T) : Option (Debug T) :=
  if d.crashed then none
  else
    match a with
    | .go t ok =>
      match d.marks t with
      | .none => d.lift (.go t ok)
      | .enter => some (d.fetchAdd t)
      | .leave => some (d.decrement t)
    | a => d.lift a

/-- **All runs of a session** in the debug build. -/
def debug : System (Debug T) where
  init d := ∃ s, (system : System (Sys T)).init s ∧ d = { base := s }
  next d d' := ∃ a, d.step a = some d'

/-- No worker counts itself while another one is between its release of `send_flag_` and its decrement. -/
def Alone (d d' : Debug T) : Prop :=
  ∀ t, d.marks t = .enter → d'.marks t = .none → ∀ u, d.marks u ≠ .leave

/-! ## What the steps do -/

/-- **What may happen**: a step of the session, by nobody who has to take one of the two steps first;
    or one of the two steps. -/
inductive Debug.Moves (d : Debug T) : Debug T → Prop
  | base {s : Sys T} (h : system.next d.base s)
      (hframe : ∀ t, d.marks t ≠ .none → s.tasks t = d.base.tasks t) : Moves d { d with
        base := s
        marks := fun t =>
          if d.marks t = .none then mark (phaseOf (d.base.tasks t)) (phaseOf (s.tasks t)) else d.marks t }
  | enter {t : T} (h : d.marks t = .enter) : Moves d (d.fetchAdd t)
  | leave {t : T} (h : d.marks t = .leave) : Moves d (d.decrement t)

/-- A thread that has one of the two steps before it is in `HandleSendComplete`. -/
def Debug.Placed (d : Debug T) : Prop :=
  ∀ t, (d.marks t = .enter → phaseOf (d.base.tasks t) = .delete 0) ∧
    (d.marks t = .leave → phaseOf (d.base.tasks t) = .loadPending)

/-- A mark that is taken away. -/
theorem Debug.Placed.unmark {d : Debug T} (P : d.Placed) (t u : T) :
    (update d.marks t .none u = .enter → phaseOf (d.base.tasks u) = .delete 0) ∧
      (update d.marks t .none u = .leave → phaseOf (d.base.tasks u) = .loadPending) := by
  by_cases hu : u = t
  · subst hu
    rw [update_self]
    exact ⟨fun heq => (by cases heq), fun heq => (by cases heq)⟩
  · rw [update_of_ne hu]
    exact P u

theorem Debug.Placed.busy {d : Debug T} (P : d.Placed) {t : T} (h : d.marks t ≠ .none) :
    d.base.tasks t ≠ none := by
  intro htask
  cases hmark : d.marks t with
  | none => exact h hmark
  | enter =>
    have hphase := (P t).1 hmark
    rw [htask] at hphase
    cases hphase
  | leave =>
    have hphase := (P t).2 hmark
    rw [htask] at hphase
    cases hphase

/-- A thread other than the one that goes on stays where it is. -/
theorem step_frame {s s' : Sys T} {a : Act T} (h : step s a = some s') {t : T} (ht : s.tasks t ≠ none)
    (hgo : ∀ ok, a ≠ .go t ok) : s'.tasks t = s.tasks t := by
  cases a with
  | sendPacket u m | disconnect u =>
    simp only [step] at h
    split at h
    · rename_i hreach
      obtain rfl := Option.some.inj h
      refine update_of_ne (fun heq => ?_) _ _
      subst heq
      exact ht (Sys.reaches_iff.mp hreach).1
    · cases h
  | take u op =>
    simp only [step] at h
    split at h
    · rename_i n htask hdone
      split at h
      · obtain rfl := Option.some.inj h
        refine update_of_ne (fun heq => ?_) _ _
        subst heq
        exact ht htask
      · cases h
    · cases h
  | go u ok =>
    simp only [step] at h
    obtain ⟨task, htask, rfl⟩ := Option.map_eq_some_iff.mp h
    refine update_of_ne (fun heq => ?_) _ _
    subst heq
    exact hgo ok rfl
  | complete op chunk =>
    simp only [step] at h
    split at h
    · obtain rfl := Option.some.inj h
      rfl
    · cases h

theorem Debug.step_moves {d d' : Debug T} (P : d.Placed) (h : debug.next d d') :
    d.crashed = false ∧ d.Moves d' := by
  obtain ⟨a, h⟩ := h
  unfold Debug.step at h
  split at h
  · cases h
  rename_i hcrashed
  refine ⟨Bool.eq_false_of_not_eq_true hcrashed, ?_⟩
  have hlift : (∀ t ok, a = .go t ok → d.marks t = .none) → d.lift a = some d' → d.Moves d' := by
    intro hnone h
    obtain ⟨s, hs, rfl⟩ := Option.map_eq_some_iff.mp h
    refine .base ⟨a, hs⟩ fun t ht => step_frame hs (P.busy ht) ?_
    rintro ok rfl
    exact ht (hnone t ok rfl)
  split at h
  · rename_i t ok
    split at h
    · rename_i hmark
      refine hlift (fun u ok' heq => ?_) h
      cases heq
      exact hmark
    · obtain rfl := Option.some.inj h
      exact .enter ‹_›
    · obtain rfl := Option.some.inj h
      exact .leave ‹_›
  · rename_i hnot
    exact hlift (fun u ok heq => absurd heq (hnot u ok)) h

/-! ## The count -/

/-- Between the two steps, up to the release of the flag. -/
def Phase.handles : Phase → Nat
  | .delete _ | .clearCount | .clearFlag => 1
  | _ => 0

/-- Whether a thread is counted. -/
def counted : Mark × Phase → Nat
  | (.leave, _) => 1
  | (.enter, _) => 0
  | (.none, p) => p.handles

def Debug.places (d : Debug T) (t : T) : Mark × Phase := (d.marks t, phaseOf (d.base.tasks t))

theorem SendStep.counted_eq {ok : Bool} {c : Cell} {p p' : Phase} {o' : Outbox}
    (h : SendStep ok c p o' p') : counted (mark p p', p') = p.handles := by
  cases h with
  | idle hstarts =>
    cases p' with
    | idle | link b | set => rfl
    | _ => cases hstarts
  | async pc => cases (sendAsync ok c pc).2 <;> rfl
  | drain pc => cases (SessionSteps.drain c pc).2 <;> rfl
  | loadPending | loadCount => split <;> rfl
  | _ => rfl

/-- What a thread does, it does without changing whether it is counted. -/
theorem Does.counted_eq {c : Cell} {pre : Option Task} {r : Cell × Option Task} (h : Does c pre r) :
    counted (mark (phaseOf pre) (phaseOf r.2), phaseOf r.2) = (phaseOf pre).handles := by
  cases h with
  | sendPacket m hpub hrefs | disconnect hpub hrefs => rfl
  | @take op n hmem hdone =>
    show counted (mark .idle (op.handler n).phase, (op.handler n).phase) = 0
    rw [handler_phase]
    split
    · split <;> rfl
    · rfl
  | run task ok => exact (run_sendStep ok c task).counted_eq

theorem mark_self (p : Phase) : mark p p = .none := by
  cases p <;> rfl

theorem mark_enter {p p' : Phase} (h : mark p p' = .enter) : p' = .delete 0 := by
  unfold mark at h
  split at h
  · rfl
  · cases h
  · cases h

theorem mark_leave {p p' : Phase} (h : mark p p' = .leave) : p' = .loadPending := by
  unfold mark at h
  split at h
  · cases h
  · rfl
  · cases h

/-- Whether a thread is counted does not change in a step of the session. -/
theorem counted_base {d : Debug T} {s : Sys T} (h : system.next d.base s)
    (hframe : ∀ t, d.marks t ≠ .none → s.tasks t = d.base.tasks t) (t : T) :
    counted (if d.marks t = .none then mark (phaseOf (d.base.tasks t)) (phaseOf (s.tasks t))
      else d.marks t, phaseOf (s.tasks t)) = counted (d.places t) := by
  unfold Debug.places
  by_cases hmark : d.marks t = .none
  · rw [if_pos hmark, hmark]
    rcases step_does h with ⟨u, r, hdoes, rfl⟩ | ⟨op, chunk, -, -, -, rfl⟩
    · by_cases ht : t = u
      · subst ht
        have htask : (d.base.after t r).tasks t = r.2 := by
          show update d.base.tasks t r.2 t = r.2
          rw [update_self]
        rw [htask]
        exact hdoes.counted_eq
      · have htask : (d.base.after u r).tasks t = d.base.tasks t := update_of_ne ht _ _
        rw [htask, mark_self]
    · show counted (mark (phaseOf (d.base.tasks t)) (phaseOf (d.base.tasks t)), _) = _
      rw [mark_self]
  · rw [if_neg hmark, hframe t hmark]

variable [Fintype T]

/-- How many threads are counted. -/
def Debug.handling (d : Debug T) : Nat := total counted d.places

/-- **The count is that of the threads counted**, of which there is one at most, until it crashes. -/
structure Counted (d : Debug T) : Prop where
  reachable : Reachable system d.base
  placed : d.Placed
  count : d.crashed = false →
    d.handling ≤ 1 ∧ d.sendCompleteHandlingCount = BitVec.ofNat 32 d.handling

section Steps

variable {d d' : Debug T}

/-- One thread takes one of the two steps. -/
theorem handling_mark (d : Debug T) (t : T) :
    total counted (fun u => (update d.marks t .none u, phaseOf (d.base.tasks u))) + counted (d.places t)
      = d.handling + (phaseOf (d.base.tasks t)).handles := by
  have hplaces : (fun u => (update d.marks t .none u, phaseOf (d.base.tasks u)))
      = update d.places t (.none, phaseOf (d.base.tasks t)) := by
    funext u
    by_cases hu : u = t
    · subst hu
      rw [update_self, update_self]
    · rw [update_of_ne hu, update_of_ne hu]
      rfl
  rw [hplaces]
  exact total_update counted d.places t (.none, phaseOf (d.base.tasks t))

theorem Debug.handling_base {s : Sys T} (h : system.next d.base s)
    (hframe : ∀ t, d.marks t ≠ .none → s.tasks t = d.base.tasks t) :
    Debug.handling { d with
      base := s
      marks := fun t => if d.marks t = .none then mark (phaseOf (d.base.tasks t)) (phaseOf (s.tasks t))
        else d.marks t } = d.handling := by
  unfold Debug.handling total
  exact Finset.sum_congr rfl fun t _ => counted_base h hframe t

theorem toInt_count {n : Nat} (h : n ≤ 1) : 0 < (BitVec.ofNat 32 n).toInt ↔ n = 1 := by
  rcases Nat.le_one_iff_eq_zero_or_eq_one.mp h with rfl | rfl <;> decide

/-- **The step lemma.** -/
theorem Counted.step (C : Counted d) (hd : d.crashed = false) (M : d.Moves d') : Counted d' := by
  obtain ⟨hle, hcount⟩ := C.count hd
  cases M with
  | base h hframe =>
    refine ⟨.step C.reachable h, fun t => ?_, fun _ => ?_⟩
    · have hplaced := C.placed t
      by_cases hmark : d.marks t = .none
      · dsimp only
        rw [if_pos hmark]
        exact ⟨mark_enter, mark_leave⟩
      · dsimp only
        rw [if_neg hmark, hframe t hmark]
        exact hplaced
    · have hsame : Debug.handling _ = d.handling := Debug.handling_base h hframe
      rw [hsame]
      exact ⟨hle, hcount⟩
  | @enter t h =>
    have hphase := (C.placed t).1 h
    have htotal := handling_mark d t
    have hzero : counted (d.places t) = 0 := by
      unfold Debug.places
      rw [h]
      rfl
    rw [hphase, hzero] at htotal
    refine ⟨C.reachable, C.placed.unmark t, fun hcrashed => ?_⟩
    have hnot : ¬ 0 < d.sendCompleteHandlingCount.toInt := of_decide_eq_false hcrashed
    rw [hcount, toInt_count hle] at hnot
    have hnone : d.handling = 0 := by omega
    have hone : (d.fetchAdd t).handling = 1 := by
      rw [hnone] at htotal
      exact htotal
    refine ⟨hone.le, ?_⟩
    show d.sendCompleteHandlingCount + 1#32 = _
    rw [hone, hcount, hnone]
    rfl
  | @leave t h =>
    have hphase := (C.placed t).2 h
    have htotal := handling_mark d t
    have hcounted : counted (d.places t) = 1 := by
      unfold Debug.places
      rw [h]
      rfl
    rw [hphase, hcounted] at htotal
    have hone : (d.decrement t).handling + 1 = d.handling := htotal
    refine ⟨C.reachable, C.placed.unmark t, fun hcrashed => ?_⟩
    have hzero : (d.decrement t).handling = 0 := by omega
    have hd : d.handling = 1 := by omega
    refine ⟨by omega, ?_⟩
    show d.sendCompleteHandlingCount - 1#32 = _
    rw [hzero, hcount, hd]
    rfl

/-- **The run lemma.** -/
theorem counted_reachable (h : Reachable debug d) : Counted d := by
  apply h.invariant (I := Counted)
  · rintro _ ⟨s, hs, rfl⟩
    have hnone : Debug.handling ({ base := s } : Debug T) = 0 := by
      refine total_eq_zero fun t => ?_
      obtain ⟨e, mem, b, hb, u, rfl⟩ := hs
      exact Sys.forall_new (P := fun o => (phaseOf o).handles = 0) rfl rfl t
    refine ⟨.start hs, fun t => ⟨fun heq => (by cases heq), fun heq => (by cases heq)⟩, fun _ => ?_⟩
    rw [hnone]
    exact ⟨Nat.zero_le 1, rfl⟩
  · intro d d' hr C hnext
    obtain ⟨hcrashed, M⟩ := Debug.step_moves C.placed hnext
    exact C.step hcrashed M

/-- Who is about to count itself finds nobody counted but those that have released the flag. -/
theorem Counted.handling_pos (C : Counted d) {t : T} (h : d.marks t = .enter) :
    0 < d.handling ↔ ∃ u, d.marks u = .leave := by
  have hphase := (C.placed t).1 h
  obtain ⟨-, hothers⟩ := (lawful C.reachable).1.sole_owner (t := t) (by rw [hphase]; rfl)
  constructor
  · intro hpos
    obtain ⟨u, hu⟩ := exists_of_total_pos hpos
    refine ⟨u, ?_⟩
    unfold Debug.places at hu
    cases hmark : d.marks u with
    | leave => rfl
    | enter =>
      rw [hmark] at hu
      cases hu
    | none =>
      have hne : u ≠ t := by
        rintro rfl
        rw [h] at hmark
        cases hmark
      have howns := hothers u hne
      rw [hmark] at hu
      cases hp : phaseOf (d.base.tasks u) with
      | delete i | clearCount | clearFlag =>
        rw [hp] at howns
        cases howns
      | _ =>
        rw [hp] at hu
        cases hu
  · rintro ⟨u, hu⟩
    refine Nat.lt_of_lt_of_le ?_ (le_total counted d.places u)
    unfold Debug.places
    rw [hu]
    exact Nat.one_pos

/-- **One step crashes if and only if it is a worker that counts itself while another one is between its
    release of `send_flag_` and its decrement.** -/
theorem crashed_iff (C : Counted d) (hnext : debug.next d d') : d'.crashed = false ↔ Alone d d' := by
  obtain ⟨hcrashed, M⟩ := Debug.step_moves C.placed hnext
  obtain ⟨hle, hcount⟩ := C.count hcrashed
  cases M with
  | base h hframe =>
    refine iff_of_true hcrashed fun t hmark hnone => ?_
    dsimp only at hnone
    rw [if_neg (by rw [hmark]; exact fun heq => by cases heq), hmark] at hnone
    cases hnone
  | @enter t h =>
    have hpos := C.handling_pos h
    have hiff : (d.fetchAdd t).crashed = false ↔ ¬ 0 < d.handling := by
      show decide (0 < d.sendCompleteHandlingCount.toInt) = false ↔ _
      rw [decide_eq_false_iff_not, hcount, toInt_count hle]
      omega
    rw [hiff, hpos, not_exists]
    constructor
    · exact fun hnone _ _ _ u => hnone u
    · intro halone
      refine halone t h ?_
      show update d.marks t .none t = .none
      rw [update_self]
  | @leave t h =>
    refine iff_of_true hcrashed fun u hmark hnone => ?_
    have hne : u ≠ t := by
      rintro rfl
      rw [h] at hmark
      cases hmark
    have hnone : update d.marks t .none u = .none := hnone
    rw [update_of_ne hne, hmark] at hnone
    cases hnone

/-- **The check of the debug build**: it does not fire in a run in which no worker counts itself while
    another one is between its release of `send_flag_` and its decrement; and a step that is not of that
    kind makes it fire. -/
theorem debug_check : (Reachable (debug.guard Alone) d → d.crashed = false) ∧
    (Reachable debug d → debug.next d d' → (d'.crashed = false ↔ Alone d d')) := by
  refine ⟨fun h => ?_, fun h hnext => crashed_iff (counted_reachable h) hnext⟩
  cases h with
  | start hinit =>
    obtain ⟨s, -, rfl⟩ := hinit
    rfl
  | step hr hnext => exact (crashed_iff (counted_reachable hr.of_guard) hnext.1).mpr hnext.2

end Steps

/-- The `WSASend` of the packet with number `n`, as it is posted. -/
def sendOf (id n : Nat) : Op := sendOp id [some ⟨n, encode ⟨1, [2]⟩⟩]

/-- A packet is sent by the caller, and the completion comes to `t`, who counts itself. -/
def sending (id n : Nat) (t : Pair) : List (Act Pair) :=
  .sendPacket .caller ⟨⟨1, [2]⟩, true⟩ :: goes .caller 15 ++
    [.complete (sendOf id n) (List.replicate 9 0), .take t { sendOf id n with done := some 9 },
      .go t true]

theorem debug_init (t : T) : debug.init ({ base := served t } : Debug T) := ⟨_, served_init t, rfl⟩

theorem debug_next (d : Debug T) (a : Act T) (d' : Debug T) (h : d.step a = some d') :
    debug.next d d' := ⟨a, h⟩

instance (d d' : Debug T) : Decidable (Alone d d') :=
  inferInstanceAs (Decidable (∀ t, d.marks t = .enter → d'.marks t = .none → ∀ u, d.marks u ≠ .leave))

/-- The first send is handled to the end. -/
theorem debug_check_one : ∃ d d' : Debug Pair, d.crashed = false ∧ d'.crashed = false ∧
    d'.sendCompleteHandlingCount = 0#32 := by
  obtain ⟨d, hr, hp⟩ := exists_reachable_of_exec (M := debug.guard Alone) (debug_init Pair.worker)
    (next_of_decide (M := debug) (G := Alone) debug_next)
    (accepting .worker ++ sending 2 0 .worker ++ goes .worker 4)
    (fun d => (d.step (.go .worker true)).any fun d' =>
      decide (Alone d d' ∧ d'.sendCompleteHandlingCount = 0#32)) (by decide)
  obtain ⟨d', hstep, hp⟩ := (Option.any_eq_true _ _).mp hp
  obtain ⟨halone, hcount⟩ := of_decide_eq_true hp
  have hboth : (Reachable (debug.guard Alone) d → d.crashed = false) ∧
      (Reachable debug d → debug.next d d' → (d'.crashed = false ↔ Alone d d')) := debug_check
  exact ⟨d, d', hboth.1 hr, (hboth.2 hr.of_guard ⟨_, hstep⟩).mpr halone, hcount⟩

/-- **The next send is quicker**: the worker has released the flag and not counted down, and the next
    completion is taken. -/
theorem crashes : ∃ d : Debug Pair, Reachable debug d ∧ d.crashed = true := by
  obtain ⟨d, hr, hp⟩ := exists_reachable_of_exec (debug_init Pair.worker) debug_next
    (accepting .worker ++ sending 2 0 .worker ++ goes .worker 4 ++ sending 3 1 .caller)
    (fun d => d.crashed) (by decide)
  exact ⟨d, hr, hp⟩

end JunCore.SessionSteps
