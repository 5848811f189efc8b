/-
  `LFQueue::Dequeue` that returns false, and whether the queue was empty.

  `Dequeue` does not look at the queue to find out that it is empty.  It takes one off `nodeCount`, and
  if this goes below zero it puts it back and returns false.  For the time in between, and from the
  decrement to the CAS on `headStamp` of every other call, the counter is lower than what is there.

  `nodeCount_waiting` says by how much: the values that were put in and are still there are `nodeCount`
  and what the calls in progress owe to it (`Sys.owed`).  So a `Dequeue` has seen the queue empty if and
  only if nothing but the missing values has made the counter that low.

  In `failed_in_between` something else has.  On the empty queue one `Dequeue` has decremented and not
  yet incremented, a value is put in, which brings the counter back to zero, and a second `Dequeue`
  that begins after this returns false.
-/
import JunCore.Common.LFQueueOrder

set_option linter.unusedVariables false

namespace JunCore.LFQueueSteps

open Function Transition Counting

variable {T α : Type} [DecidableEq T] [DecidableEq α]

/-! ## What is waiting, and what is owed -/

/-- The values whose `Enqueue` has returned and that no `Dequeue` has taken. -/
def waiting (log : List (Event α)) : Multiset (Item α) :=
  (amount Event.returns log).filter fun x => .unlinked x ∉ log

/-- What thread by thread is missing in `nodeCount`. -/
def owes (log : List (Event α)) : Option (Pc α) → BitVec 32
  -- a node that has been unlinked before it is counted
  | some (.countNode x _ _) => if .unlinked x ∈ log then 1#32 else 0#32
  -- a node that has been counted, of a call that has not returned
  | some (.casTail x _ _) => if .unlinked x ∈ log then 0#32 else -1#32
  -- a `Dequeue` that has decremented, and neither unlinked a node nor incremented
  | some .recountNode | some .loadHead | some (.compareTail _) | some (.loadLastNext _ _)
  | some (.pushTail _ _ _) | some (.loadHeadNext _) | some (.loadData _ _) | some (.casHead _ _ _) =>
    1#32
  | _ => 0#32

/-- The unlinks that took nothing new: what was taken before, or was never linked. -/
def idleUnlinks (log : List (Event α)) : Nat :=
  Multiset.card (amount Event.unlinks log)
    - (amount Event.links log).countP fun x => .unlinked x ∈ log

/-- What is missing in `nodeCount`. -/
def Sys.owed [Fintype T] (s : Sys T α) : BitVec 32 :=
  ∑ t, owes s.log (s.threads t) + BitVec.ofNat 32 (idleUnlinks s.log)

/-- The counter and what is owed to it are 0, and fewer than 2^32 values wait. -/
def Sys.Counted [Fintype T] (s : Sys T α) : Prop :=
  s.mem.nodeCount + s.owed = 0#32 ∧ Multiset.card (waiting s.log) < 4294967296

/-! ## Calls that have seen the queue empty -/

/-- The queue, and for each thread whether its call overlaps a moment at which nothing waited. -/
structure Watched (T α : Type) where
  sys : Sys T α
  seen : T → Bool

/-- The next moment.  A call that begins with it has seen nothing before. -/
def Watched.observe (w : Watched T α) (s : Sys T α) : Watched T α where
  sys := s
  seen t := ((w.sys.threads t).isSome && w.seen t) || decide (waiting s.log = 0)

def Watched.step (w : Watched T α) (a : T × Act α) : Option (Watched T α) :=
  (LFQueueSteps.step w.sys a).map w.observe

/-- All runs of any number of threads on one queue, watched. -/
def watched : System (Watched T α) where
  init w := ∃ before, w = ⟨.new before, fun _ => false⟩
  next w w' := ∃ a, w.step a = some w'

/-- The call of thread `t` returns false: `InterlockedIncrement` and `return false`. -/
def Sys.Fails (s s' : Sys T α) (t : T) : Prop :=
  s.threads t = some .recountNode ∧ s'.threads t = none

theorem Watched.next_iff {w w' : Watched T α} :
    watched.next w w' ↔ system.next w.sys w'.sys ∧ w' = w.observe w'.sys := by
  constructor
  · rintro ⟨a, ha⟩
    obtain ⟨s, hs, rfl⟩ := Option.map_eq_some_iff.mp ha
    exact ⟨⟨a, hs⟩, rfl⟩
  · rintro ⟨⟨a, ha⟩, hw⟩
    exact ⟨a, Option.map_eq_some_iff.mpr ⟨_, ha, hw.symm⟩⟩

/-- Watching changes nothing. -/
theorem Watched.reachable {w : Watched T α} (h : Reachable watched w) : Reachable system w.sys := by
  have hproject : Projection (watched (T := T) (α := α)) system Watched.sys :=
    { init := by
        rintro _ ⟨before, rfl⟩
        exact ⟨before, rfl⟩
      next := fun w w' hnext => .inr (Watched.next_iff.mp hnext).1 }
  exact hproject.reachable h

/-- A call in progress while nothing waits has seen that. -/
theorem Watched.seen_of_waiting {w : Watched T α} (h : Reachable watched w)
    (hzero : waiting w.sys.log = 0) {t : T} {pc : Pc α} (hpc : w.sys.threads t = some pc) :
    w.seen t = true := by
  cases h with
  | start h0 =>
    obtain ⟨before, rfl⟩ := h0
    cases hpc
  | @step w₀ _ hr hnext =>
    rw [(Watched.next_iff.mp hnext).2]
    show (_ || decide (waiting w.sys.log = 0)) = true
    rw [hzero, decide_eq_true rfl, Bool.or_true]

/-- A call that goes on keeps what it has seen. -/
theorem Watched.seen_keep {w w' : Watched T α} (hnext : watched.next w w') {t : T} {pc : Pc α}
    (hpc : w.sys.threads t = some pc) (hseen : w.seen t = true) : w'.seen t = true := by
  rw [(Watched.next_iff.mp hnext).2]
  show ((w.sys.threads t).isSome && w.seen t || _) = true
  rw [hpc, hseen]
  rfl

omit [DecidableEq T] [DecidableEq α] in
/-- Only the decrement leads to the increment. -/
theorem Sys.Does.of_recountNode {s : Sys T α} {t : T} {r : Outcome α} (h : s.Does t r)
    (hpc : r.pc = some .recountNode) :
    s.threads t = some .discountNode ∧ r.event = none := by
  cases h with
  | enqueue hnone hid => cases hpc
  | dequeue hnone => cases hpc
  | @run pc hold =>
    rw [hold]
    cases pc with
    | discountNode => exact ⟨rfl, rfl⟩
    | loadTop x =>
      simp only [Pc.run] at hpc
      cases hnode : s.mem.topStamp.node <;> simp [hnode] at hpc
    | loadTailNext x p tail | casNext x p tail | loadLastNext head tail =>
      simp only [Pc.run] at hpc
      cases hnode : s.mem.next tail.node <;> simp [hnode] at hpc
    | loadHeadNext head =>
      simp only [Pc.run] at hpc
      cases hnode : s.mem.next head.node <;> simp [hnode] at hpc
    | casTop x top p below | casHead head n x | compareTail head | pushTop x h top =>
      simp only [Pc.run] at hpc
      split at hpc <;> simp at hpc
    | _ => simp [Pc.run] at hpc

omit [DecidableEq α] in
/-- A thread is about to increment because it was before, or because it has just decremented. -/
theorem recountNode_cases {s s' : Sys T α} (h : system.next s s') {t : T}
    (hpc : s'.threads t = some .recountNode) :
    s.threads t = some .recountNode ∨ (s.threads t = some .discountNode ∧ s'.log = s.log) := by
  obtain ⟨u, r, hdoes, rfl⟩ := step_does h
  by_cases hu : t = u
  · subst hu
    rw [Sys.threads_after_self] at hpc
    obtain ⟨hold, hevent⟩ := hdoes.of_recountNode hpc
    refine .inr ⟨hold, ?_⟩
    show s.log ++ r.event.toList = s.log
    rw [hevent]
    exact List.append_nil _
  · rw [Sys.threads_after hu] at hpc
    exact .inl hpc

/-- Who is about to increment can do so and return. -/
theorem Watched.fails {w : Watched T α} {t : T} (hpc : w.sys.threads t = some .recountNode) :
    ∃ w', watched.next w w' ∧ w.sys.Fails w'.sys t := by
  refine ⟨w.observe (w.sys.after t (Pc.recountNode.run w.sys.mem)), ⟨(t, .go), ?_⟩, hpc, ?_⟩
  · simp only [Watched.step, LFQueueSteps.step, hpc, Option.map_some]
  · exact Sys.threads_after_self _

/-! ## The counter falls short by what is owed -/

/-- How many values of a ledger have not been taken, in 32 bits. -/
def untaken (log : List (Event α)) : Multiset (Item α) →+ BitVec 32 where
  toFun values := BitVec.ofNat 32 (values.countP fun x => .unlinked x ∉ log)
  map_zero' := rfl
  map_add' values values' := by rw [Multiset.countP_add, BitVec.ofNat_add]

omit [DecidableEq T] in
theorem untaken_returns (log : List (Event α)) :
    untaken log (amount Event.returns log) = BitVec.ofNat 32 (Multiset.card (waiting log)) := by
  show BitVec.ofNat 32 (Multiset.countP _ _) = _
  rw [Multiset.countP_eq_card_filter]
  rfl

omit [DecidableEq T] in
/-- What a call has discounted, or has yet to count, is owed, or waits for the call to return. -/
theorem nodeOwed_eq (log : List (Event α)) (pc : Option (Pc α)) :
    nodeOwed pc = owes log pc + untaken log (returning pc) := by
  have hone : ∀ x : Item α, untaken log {x} = if .unlinked x ∈ log then 0#32 else 1#32 := by
    intro x
    show BitVec.ofNat 32 (Multiset.countP _ _) = _
    by_cases hx : .unlinked x ∈ log <;> simp [← Multiset.cons_zero, hx]
  cases pc with
  | none => rfl
  | some pc =>
    cases pc with
    | countNode x p tail | casTail x p tail =>
      rw [returning, hone, owes]
      by_cases hx : .unlinked x ∈ log <;> simp [hx]
    | _ => rfl

variable [Fintype T]

/-- Each linked value that has been taken has its unlink. -/
theorem card_unlinks {s : Sys T α} (h : Reachable system s) :
    Multiset.card (amount Event.unlinks s.log)
      = idleUnlinks s.log + (amount Event.links s.log).countP fun x => .unlinked x ∈ s.log := by
  have hle : (amount Event.links s.log).filter (fun x => .unlinked x ∈ s.log)
      ≤ amount Event.unlinks s.log := by
    refine (Multiset.le_iff_subset ((links_nodup h).filter _)).mpr fun x hx => ?_
    exact mem_unlinks.mpr (Multiset.mem_filter.mp hx).2
  have hcard := Multiset.card_le_card hle
  rw [← Multiset.countP_eq_card_filter] at hcard
  unfold idleUnlinks
  omega

/-- **The counter, and what is owed to it, are the values that wait.** -/
theorem nodeCount_waiting {s : Sys T α} (h : Reachable system s) :
    s.mem.nodeCount + s.owed = BitVec.ofNat 32 (Multiset.card (waiting s.log)) := by
  obtain ⟨-, hlinks, -, hnodes, -⟩ := balanced_reachable h
  rw [(amount_linkCount _).1, (amount_linkCount _).2, card_unlinks h,
    Multiset.card_eq_countP_add_countP (fun x => .unlinked x ∈ s.log) (amount Event.links s.log),
    BitVec.ofNat_add, BitVec.ofNat_add] at hnodes
  -- what has been linked and not taken is with a call in progress, or waits
  have hrest : BitVec.ofNat 32 ((amount Event.links s.log).countP fun x => .unlinked x ∉ s.log)
      = ∑ t, untaken s.log (returning (s.threads t))
        + BitVec.ofNat 32 (Multiset.card (waiting s.log)) := by
    rw [← untaken_returns, ← map_sum, ← map_add, ← hlinks]
    rfl
  have howed : ∑ t, nodeOwed (s.threads t)
      = ∑ t, owes s.log (s.threads t) + ∑ t, untaken s.log (returning (s.threads t)) := by
    rw [← Finset.sum_add_distrib]
    exact Finset.sum_congr rfl fun t _ => nodeOwed_eq s.log (s.threads t)
  rw [hrest, howed] at hnodes
  unfold Sys.owed
  apply add_right_cancel (b := ∑ t, untaken s.log (returning (s.threads t))
    + BitVec.ofNat 32 ((amount Event.links s.log).countP fun x => .unlinked x ∈ s.log))
  calc _ = _ := by abel
    _ = _ := hnodes
    _ = _ := by abel

/-- Nothing waits if and only if the counter and what is owed to it are 0. -/
theorem waiting_eq_zero_iff {s : Sys T α} (h : Reachable system s) :
    waiting s.log = 0 ↔ s.Counted := by
  unfold Sys.Counted
  rw [nodeCount_waiting h]
  constructor
  · intro hzero
    rw [hzero]
    exact ⟨rfl, by rw [Multiset.card_zero]; decide⟩
  · rintro ⟨hmod, hlt⟩
    have hnat := congrArg BitVec.toNat hmod
    rw [BitVec.toNat_ofNat, Nat.mod_eq_of_lt hlt] at hnat
    exact Multiset.card_eq_zero.mp hnat

/-- In a run without a stamp that comes round, every unlink takes what was linked, once. -/
theorem idleUnlinks_fresh {s : Sys T α} (h : Reachable fresh s) : idleUnlinks s.log = 0 := by
  obtain ⟨L, F, K⟩ := fits_invariant (G := fun _ _ => True) (I := Kept) Kept.new
    (fun hK _ _ hE => hK.step hE) (h.guarded fun _ _ _ => trivial)
  have hall : (amount Event.unlinks s.log).countP (fun x => .unlinked x ∈ s.log)
      = Multiset.card (amount Event.unlinks s.log) :=
    Multiset.countP_eq_card.mpr fun x hx => mem_unlinks.mp hx
  unfold idleUnlinks
  rw [K.values, Multiset.countP_add, Multiset.countP_add, hall]
  omega

/-! ## A failed `Dequeue` -/

/-- A `Dequeue` that decrements the counter below zero finds it there for want of values: before this
    step the counter and what is owed to it are 0. -/
def Accounted (w w' : Watched T α) : Prop :=
  ∀ t, w.sys.threads t = some .discountNode → w'.sys.threads t = some .recountNode → w.sys.Counted

/-- **The run lemma**: who is about to increment and return false has seen the queue empty. -/
theorem Watched.seen_of_recountNode {w : Watched T α} (h : Reachable (watched.guard Accounted) w)
    {t : T} (hpc : w.sys.threads t = some .recountNode) : w.seen t = true := by
  refine h.invariant
    (I := fun w : Watched T α => ∀ t, w.sys.threads t = some .recountNode → w.seen t = true) ?_ ?_
    t hpc
  · rintro _ ⟨before, rfl⟩ t hpc
    cases hpc
  · rintro w w' hr ih ⟨hnext, hcounted⟩ t hpc
    rcases recountNode_cases (Watched.next_iff.mp hnext).1 hpc with hold | ⟨hold, -⟩
    · exact seen_keep hnext hold (ih t hold)
    · -- at the decrement nothing waits
      have hzero := (waiting_eq_zero_iff (Watched.reachable hr.of_guard)).mpr (hcounted t hold hpc)
      exact seen_keep hnext hold (seen_of_waiting hr.of_guard hzero hold)

/-- **When a failed `Dequeue` means empty.**  In every run of any number of threads, in which each
    decrement below zero finds the counter accounted for, a call of `Dequeue` that returns false
    overlaps a moment at which no value waits.

    A decrement below zero that does not, in a call that has not seen the queue empty, leads to the
    opposite with the next step of its thread.

    As long as no stamp comes round inside of a call, no unlink is idle: what is missing in the counter
    is then what the calls in progress owe to it. -/
theorem failed_dequeue_empty :
    (∀ w w' : Watched T α, Reachable (watched.guard Accounted) w → watched.next w w' →
      ∀ t, w.sys.Fails w'.sys t → w.seen t = true) ∧
    (∀ w w' : Watched T α, Reachable watched w → watched.next w w' →
      ∀ t, w.sys.threads t = some .discountNode → w'.sys.threads t = some .recountNode →
      ¬ w.sys.Counted → w.seen t = false →
      ∃ w'', watched.next w' w'' ∧ w'.sys.Fails w''.sys t ∧ w'.seen t = false) ∧
    (∀ s : Sys T α, Reachable fresh s → idleUnlinks s.log = 0) := by
  refine ⟨fun w w' hr _ t hfails => Watched.seen_of_recountNode hr hfails.1, ?_,
    fun s => idleUnlinks_fresh⟩
  intro w w' hr hnext t hold hpc hcounted hseen
  obtain ⟨w'', hnext', hfails⟩ := Watched.fails hpc
  refine ⟨w'', hnext', hfails, ?_⟩
  obtain ⟨hsys, hobserve⟩ := Watched.next_iff.mp hnext
  have hlog : w'.sys.log = w.sys.log := by
    rcases recountNode_cases hsys hpc with h | ⟨-, h⟩
    · rw [hold] at h
      cases h
    · exact h
  have hwaiting : waiting w'.sys.log ≠ 0 := by
    rw [hlog]
    exact fun hzero => hcounted ((waiting_eq_zero_iff (Watched.reachable hr)).mp hzero)
  rw [hobserve]
  show ((w.sys.threads t).isSome && w.seen t || decide (waiting w'.sys.log = 0)) = false
  rw [hseen, decide_eq_false hwaiting, Bool.and_false]
  rfl

/-! ## Replaying a schedule -/

instance (s : Sys T α) : Decidable s.Counted :=
  inferInstanceAs (Decidable (_ ∧ _))

/-- Whether thread `t` has decremented the counter below zero. -/
def discounts (s s' : Sys T α) (t : T) : Bool :=
  match s.threads t, s'.threads t with
  | some .discountNode, some .recountNode => true
  | _, _ => false

/-- The check that goes with `Accounted`. -/
def accounts (w w' : Watched T α) : Bool :=
  decide (∀ t, discounts w.sys w'.sys t = true → w.sys.Counted)

omit [DecidableEq T] in
theorem accounted_of_accounts (w w' : Watched T α) (h : accounts w w' = true) : Accounted w w' := by
  intro t hpc hpc'
  refine of_decide_eq_true h t ?_
  unfold discounts
  rw [hpc, hpc']

theorem accounted_next (w : Watched T α) (a : T × Act α) (w' : Watched T α)
    (h : gate Watched.step accounts w a = some w') : (watched.guard Accounted).next w w' :=
  next_of_gate (M := watched) (fun _ a _ ha => ⟨a, ha⟩) accounted_of_accounts w a w' h

/-- Whether thread `t` is about to increment and return false. -/
def Sys.failing (s : Sys T α) (t : T) : Bool :=
  match s.threads t with
  | some .recountNode => true
  | _ => false

omit [DecidableEq T] [DecidableEq α] [Fintype T] in
theorem Sys.recountNode_of_failing {s : Sys T α} {t : T} (h : s.failing t = true) :
    s.threads t = some .recountNode := by
  unfold Sys.failing at h
  split at h
  · assumption
  · cases h

/-- Two calls of `Dequeue` at once, after the only value has been taken: both return false, and have
    seen the queue empty. -/
theorem failed_dequeue_empty_two : ∃ w w' : Watched Crew Nat, Reachable (watched.guard Accounted) w ∧
    w.sys.failing .second = true ∧ watched.next w w' ∧ w.sys.Fails w'.sys .consumer ∧
    w.seen .consumer = true := by
  have hinit : (watched.guard Accounted).init (⟨.new blank, fun _ => false⟩ : Watched Crew Nat) :=
    ⟨_, rfl⟩
  obtain ⟨w, hr, hp⟩ := exists_reachable_of_exec hinit accounted_next
    ((((.first, .enqueue 7) :: go .first 10) ++ (.first, .dequeue) :: go .first 10) ++
      [(.second, .dequeue), (.second, .go), (.consumer, .dequeue), (.consumer, .go)])
    (fun w => w.sys.failing .second && w.sys.failing .consumer) (by decide)
  rw [Bool.and_eq_true] at hp
  obtain ⟨w', hnext, hfails⟩ := Watched.fails (Sys.recountNode_of_failing hp.2)
  exact ⟨w, w', hr, hp.1, hnext, hfails, failed_dequeue_empty.1 w w' hr hnext .consumer hfails⟩

/-- **A `Dequeue` fails beside a value**: 7 was put in before the call of the second thread began, and
    is still there when it returns false. -/
theorem failed_in_between : ∃ w w' : Watched Crew Nat, Reachable watched w ∧ watched.next w w' ∧
    w.sys.Fails w'.sys .second ∧ w.seen .second = false ∧ waiting w.sys.log = {⟨0, 7⟩} := by
  have hinit : watched.init (⟨.new blank, fun _ => false⟩ : Watched Crew Nat) := ⟨_, rfl⟩
  obtain ⟨w, hr, hp⟩ := exists_reachable_of_exec hinit (fun _ a _ ha => ⟨a, ha⟩)
    -- the consumer has decremented, and will increment later
    ([(.consumer, .dequeue), (.consumer, .go)] ++ ((.first, .enqueue 7) :: go .first 10) ++
      [(.second, .dequeue), (.second, .go)])
    (fun w => w.sys.failing .second && !w.seen .second && decide (waiting w.sys.log = {⟨0, 7⟩}))
    (by decide)
  simp only [Bool.and_eq_true, Bool.not_eq_true', decide_eq_true_eq] at hp
  obtain ⟨w', hnext, hfails⟩ := Watched.fails (Sys.recountNode_of_failing hp.1.1)
  exact ⟨w, w', hr, hnext, hfails, hp.1.2, hp.2⟩

end JunCore.LFQueueSteps
