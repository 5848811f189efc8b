/-
  `LFQueue` loses nothing and doubles nothing.

  The log is a ledger.  A value is called, linked and returned by `Enqueue`, unlinked and returned by
  `Dequeue`, in this order, and what is between two of these entries is accounted for: with the
  thread that has made the first and not yet the second, or, between linking and unlinking, in the
  queue or behind a node of a producer.  The counters are accounts of the same kind: `nodeCount` of
  the links less the unlinks, `use_count_` of the nodes taken less those given back, each up to the
  threads that have done the one and not yet counted it.

  All of these balances have one form, and `balance` proves it once: an amount in the memory, an
  amount for each thread, and the entries on the two sides of the log, in any commutative group or
  cancellative monoid (multisets of values, 32-bit integers).

  None of it depends on where a producer links: when its node goes behind one that another producer
  holds, it comes into the queue when that one does.  So at rest everything is there.
-/
import JunCore.Lib.Counting
import JunCore.Common.LFQueueMoves
import Mathlib.Data.BitVec
import Mathlib.Algebra.Order.Group.Multiset

set_option linter.unusedVariables false

namespace JunCore.LFQueueSteps

open Function Transition Linked Counting

variable {T α : Type} [DecidableEq T] [Fintype T]

/-! ## Runs keep the layout -/

/-- The layout of a new queue: one node, at the head. -/
def Layout.new : Layout T where
  chain := [0]
  free := []
  mine _ := []
  place p := if p = 0 then .queue else .nowhere
  rank _ := 0
  taken := 1

omit [DecidableEq T] [Fintype T] in
theorem Fits.new (before : Mem α) : Fits Layout.new (Sys.new before : Sys T α) where
  chain := Chain.single (show update before.next 0 none 0 = none from update_self ..)
  tail := ⟨0, rfl, rfl⟩
  free := rfl
  used p hp := by cases hp
  holds t := rfl
  mem_chain p := by
    show p ∈ [0] ↔ (if p = 0 then (.queue : Place T) else .nowhere) = .queue
    by_cases hp : p = 0 <;> simp [hp]
  mem_free p := by
    show p ∈ ([] : List Nat) ↔ (if p = 0 then (.queue : Place T) else .nowhere) = .pool
    by_cases hp : p = 0 <;> simp [hp]
  mem_mine t p := by
    show p ∈ ([] : List Nat) ↔ (if p = 0 then (.queue : Place T) else .nowhere) = .thread t
    by_cases hp : p = 0 <;> simp [hp]
  nowhere p := by
    show (if p = 0 then (.queue : Place T) else .nowhere) = .nowhere ↔ 1 ≤ p
    by_cases hp : p = 0
    · simp [hp]
    · simp [hp]
      omega
  count := rfl
  knows t pc h := by cases h
  rank t u a h := by cases h

/-- **One step of the system**: something a thread does, with one of the effects. -/
theorem Fits.does {L : Layout T} {s : Sys T α} (F : Fits L s) (hfresh : s.Fresh) {t : T}
    {r : Outcome α} (h : s.Does t r) :
    ∃ L', Fits L' (s.after t r) ∧ Effect s t (L.view s.mem) r.event (L'.view r.mem) := by
  cases h with
  | enqueue hnone hid =>
    refine Fits.step_quiet (F.idle (.refl _) (by rw [hnone]; rfl) ?_ nofun) ?_
    · rintro _ ⟨⟩
      trivial
    · rintro _ ⟨⟩
      trivial
  | dequeue hnone => exact F.step_idle (.refl _) (by rw [hnone]; rfl) trivial nofun
  | run hpc => exact F.step hfresh hpc

/-- **The run rule.**  An invariant that relates the state to the view needs to be checked effect by
    effect only. -/
theorem fits_invariant {G : Sys T α → Sys T α → Prop} {I : View T α → Sys T α → Prop}
    (hinit : ∀ before, I (Layout.new.view (Mem.new before)) (.new before))
    (hstep : ∀ {v v' s t r}, I v s → s.Does t r → G s (s.after t r) → Effect s t v r.event v' →
      I v' (s.after t r)) {s : Sys T α} (h : Reachable (fresh.guard G) s) :
    ∃ L, Fits L s ∧ I (L.view s.mem) s := by
  apply h.invariant (I := fun s => ∃ L, Fits L s ∧ I (L.view s.mem) s)
  · rintro _ ⟨before, rfl⟩
    exact ⟨_, .new before, hinit before⟩
  · rintro s s' - ⟨L, F, hI⟩ ⟨⟨hnext, hfresh⟩, hG⟩
    obtain ⟨t, r, hdoes, rfl⟩ := step_does hnext
    obtain ⟨L', F', heff⟩ := F.does hfresh hdoes
    exact ⟨L', F', hstep hI hdoes hG heff⟩

/-! ## Balances -/

section Balance

variable {M : Type} [AddCancelCommMonoid M]

/-- The sum of an amount over the log. -/
def amount (f : Event α → M) (log : List (Event α)) : M := (log.map f).sum

theorem amount_append (f : Event α → M) (log : List (Event α)) (e : Option (Event α)) :
    amount f (log ++ e.toList) = amount f log + amount f e.toList := by
  unfold amount
  rw [List.map_append, List.sum_append]

@[simp] theorem amount_nil (f : Event α → M) : amount f [] = 0 := rfl

@[simp] theorem amount_single (f : Event α → M) (e : Event α) : amount f [e] = f e := by
  unfold amount
  rw [List.map_singleton, List.sum_singleton]

/-- **The balance rule.**  What is in the memory, what the threads owe, and what the log has on one
    side, stay equal to what it has on the other side, if every single operation is balanced. -/
theorem balance (c : Mem α → M) (w : Option (Pc α) → M) (debit credit : Event α → M) (k : M)
    (hnew : ∀ before : Mem α, c (.new before) = k) (hidle : w none = 0)
    (hstep : ∀ {s : Sys T α} {t r}, s.Does t r →
      c r.mem + w r.pc + amount debit r.event.toList
        = c s.mem + w (s.threads t) + amount credit r.event.toList)
    {s : Sys T α} (h : Reachable (system (T := T)) s) :
    c s.mem + ∑ t, w (s.threads t) + amount debit s.log = k + amount credit s.log := by
  apply h.invariant
    (I := fun s => c s.mem + ∑ t, w (s.threads t) + amount debit s.log = k + amount credit s.log)
  · rintro _ ⟨before, rfl⟩
    show c (.new before) + ∑ t : T, w none + 0 = k + 0
    rw [hnew, hidle, Finset.sum_const_zero, add_zero, add_zero]
  · rintro s s' - ih hnext
    obtain ⟨t, r, hdoes, rfl⟩ := step_does hnext
    have hone := hstep hdoes
    have hsum := sum_update w s.threads t r.pc
    show c r.mem + ∑ u, w (update s.threads t r.pc u) + amount debit (s.log ++ r.event.toList)
      = k + amount credit (s.log ++ r.event.toList)
    rw [amount_append, amount_append]
    apply add_right_cancel (b := w (s.threads t))
    calc c r.mem + ∑ u, w (update s.threads t r.pc u)
          + (amount debit s.log + amount debit r.event.toList) + w (s.threads t)
        = (∑ u, w (update s.threads t r.pc u) + w (s.threads t)) + c r.mem
          + (amount debit s.log + amount debit r.event.toList) := by abel
      _ = (c r.mem + w r.pc + amount debit r.event.toList)
          + (∑ u, w (s.threads u) + amount debit s.log) := by rw [hsum]; abel
      _ = (c s.mem + ∑ u, w (s.threads u) + amount debit s.log)
          + (w (s.threads t) + amount credit r.event.toList) := by rw [hone]; abel
      _ = k + (amount credit s.log + amount credit r.event.toList) + w (s.threads t) := by
        rw [ih]; abel

end Balance

/-! ## The accounts -/

/-- The values that `Enqueue` was called with. -/
@[simp] def Event.calls : Event α → Multiset (Item α)
  | .called x => {x}
  | _ => 0

@[simp] def Event.links : Event α → Multiset (Item α)
  | .linked x => {x}
  | _ => 0

@[simp] def Event.returns : Event α → Multiset (Item α)
  | .returned x => {x}
  | _ => 0

@[simp] def Event.unlinks : Event α → Multiset (Item α)
  | .unlinked x => {x}
  | _ => 0

/-- The values that `Dequeue` returned. -/
@[simp] def Event.dequeues : Event α → Multiset (Item α)
  | .dequeued x => {x}
  | _ => 0

/-- The value of an `Enqueue` that has not linked its node yet. -/
@[simp] def linking : Option (Pc α) → Multiset (Item α)
  | some (.loadTop x) | some (.loadBelow x _ _) | some (.casTop x _ _ _) | some (.construct x _)
  | some (.countUse x _) | some (.growCapacity x) | some (.growUse x) | some (.create x)
  | some (.storeData x _) | some (.loadTail x _) | some (.loadTailNext x _ _)
  | some (.casNext x _ _) | some (.helpTail x _ _ _) => {x}
  | _ => 0

/-- The value of an `Enqueue` that has, and has not returned. -/
@[simp] def returning : Option (Pc α) → Multiset (Item α)
  | some (.countNode x _ _) | some (.casTail x _ _) => {x}
  | _ => 0

/-- The value of a `Dequeue` that has unlinked its node and not returned. -/
@[simp] def leaving : Option (Pc α) → Multiset (Item α)
  | some (.reloadTop x _) | some (.storeBelow x _ _) | some (.pushTop x _ _)
  | some (.discountUse x) => {x}
  | _ => 0

/-- An `Enqueue` that has linked and not counted its node, or a `Dequeue` that has discounted a node
    and not unlinked it, or is about to take that back. -/
@[simp] def nodeOwed : Option (Pc α) → BitVec 32
  | some (.countNode _ _ _) | some .recountNode | some .loadHead | some (.compareTail _)
  | some (.loadLastNext _ _) | some (.pushTail _ _ _) | some (.loadHeadNext _)
  | some (.loadData _ _) | some (.casHead _ _ _) => 1#32
  | _ => 0

/-- An `Alloc` that has taken a node and not counted it, or counted it before it is created; a `Free`
    that has given a node back and not discounted it. -/
@[simp] def useOwed : Option (Pc α) → BitVec 32
  | some (.construct _ _) | some (.countUse _ _) => 1#32
  | some (.create _) | some (.discountUse _) => -1#32
  | _ => 0

@[simp] def Event.linkCount : Event α → BitVec 32
  | .linked _ => 1#32
  | _ => 0

@[simp] def Event.unlinkCount : Event α → BitVec 32
  | .unlinked _ => 1#32
  | _ => 0

@[simp] def Event.takeCount : Event α → BitVec 32
  | .taken => 1#32
  | _ => 0

@[simp] def Event.giveCount : Event α → BitVec 32
  | .given => 1#32
  | _ => 0

/-- An operation of a call in progress is not a call. -/
theorem Pc.run_event_ne_called (m : Mem α) (pc : Pc α) (x : Item α) :
    (pc.run m).event ≠ some (.called x) := by
  cases pc with
  | loadTop y =>
    simp only [Pc.run]
    cases m.topStamp.node <;> simp
  | loadTailNext y p tail | casNext y p tail | loadLastNext _ tail =>
    simp only [Pc.run]
    cases m.next tail.node <;> simp
  | loadHeadNext head =>
    simp only [Pc.run]
    cases m.next head.node <;> simp
  | casTop y top p below | casHead head n y | compareTail head | pushTop y h top =>
    simp only [Pc.run]
    split <;> simp
  | _ => simp [Pc.run]

omit [DecidableEq T] [Fintype T] in
/-- **Every operation is balanced**, on all five accounts. -/
theorem does_balanced {s : Sys T α} {t : T} {r : Outcome α} (h : s.Does t r) :
    (linking r.pc + amount Event.links r.event.toList
        = linking (s.threads t) + amount Event.calls r.event.toList) ∧
      (returning r.pc + amount Event.returns r.event.toList
        = returning (s.threads t) + amount Event.links r.event.toList) ∧
      (leaving r.pc + amount Event.dequeues r.event.toList
        = leaving (s.threads t) + amount Event.unlinks r.event.toList) ∧
      (r.mem.nodeCount + nodeOwed r.pc + amount Event.unlinkCount r.event.toList
        = s.mem.nodeCount + nodeOwed (s.threads t) + amount Event.linkCount r.event.toList) ∧
      (r.mem.useCount + useOwed r.pc + amount Event.giveCount r.event.toList
        = s.mem.useCount + useOwed (s.threads t) + amount Event.takeCount r.event.toList) := by
  cases h with
  | enqueue hnone hid => simp [hnone]
  | dequeue hnone => simp [hnone]
  | @run pc hpc =>
    rw [hpc]
    cases pc with
    | loadTop x =>
      simp only [Pc.run]
      cases s.mem.topStamp.node <;> simp
    | loadTailNext x p tail | casNext x p tail | loadLastNext _ tail =>
      simp only [Pc.run]
      cases s.mem.next tail.node <;> simp
    | loadHeadNext head =>
      simp only [Pc.run]
      cases s.mem.next head.node <;> simp
    | casTop x top p below | casHead head n x | compareTail head =>
      simp only [Pc.run]
      split <;> simp
    | pushTop x h top =>
      simp only [Pc.run]
      split <;> simp [BitVec.add_assoc]
    | discountNode =>
      simp only [Pc.run]
      split <;> simp
    | casTail x p tail | helpTail x p tail n | pushTail _ tail n =>
      simp only [Pc.run, Mem.moveTail]
      split <;> simp
    | growUse x | create x => simp [Pc.run, BitVec.add_assoc]
    | discountUse x =>
      simp [Pc.run]
      bv_omega
    | _ => simp [Pc.run]

/-- **The five balances** of a run. -/
theorem balanced_reachable {s : Sys T α} (h : Reachable system s) :
    (amount Event.calls s.log = ∑ t, linking (s.threads t) + amount Event.links s.log) ∧
      (amount Event.links s.log = ∑ t, returning (s.threads t) + amount Event.returns s.log) ∧
      (amount Event.unlinks s.log = ∑ t, leaving (s.threads t) + amount Event.dequeues s.log) ∧
      (s.mem.nodeCount + ∑ t, nodeOwed (s.threads t) + amount Event.unlinkCount s.log
        = amount Event.linkCount s.log) ∧
      (s.mem.useCount + ∑ t, useOwed (s.threads t) + amount Event.giveCount s.log
        = 1#32 + amount Event.takeCount s.log) := by
  have zero : ∀ (w : Option (Pc α) → Multiset (Item α)) (debit credit : Event α → Multiset (Item α)),
      w none = 0 → (∀ {s : Sys T α} {t r}, s.Does t r →
        w r.pc + amount debit r.event.toList = w (s.threads t) + amount credit r.event.toList) →
      amount credit s.log = ∑ t, w (s.threads t) + amount debit s.log := by
    intro w debit credit hidle hstep
    have hbal := balance (T := T) (fun _ => (0 : Multiset (Item α))) w debit credit 0 (fun _ => rfl)
      hidle (fun hd => by rw [zero_add, zero_add]; exact hstep hd) h
    rw [zero_add, zero_add] at hbal
    exact hbal.symm
  refine ⟨zero _ _ _ rfl fun hd => (does_balanced hd).1,
    zero _ _ _ rfl fun hd => (does_balanced hd).2.1,
    zero _ _ _ rfl fun hd => (does_balanced hd).2.2.1, ?_, ?_⟩
  · have hbal := balance Mem.nodeCount nodeOwed Event.unlinkCount Event.linkCount 0 (fun _ => rfl) rfl
      (fun hd => (does_balanced hd).2.2.2.1) h
    rw [zero_add] at hbal
    exact hbal
  · exact balance Mem.useCount useOwed Event.giveCount Event.takeCount 1#32 (fun _ => rfl) rfl
      (fun hd => (does_balanced hd).2.2.2.2) h

/-! ## What is in the queue -/

/-- What has been linked and not unlinked is in the queue, or behind a node of a producer; and the
    nodes taken and not given back are those out of the pool. -/
structure Kept (v : View T α) (s : Sys T α) : Prop where
  values : amount Event.links s.log
    = amount Event.unlinks s.log + ↑v.queue + ∑ t, (↑(v.hung t) : Multiset (Item α))
  nodes : 1#32 + amount Event.takeCount s.log
    = amount Event.giveCount s.log + BitVec.ofNat 32 v.taken

/-- What becomes of the nodes behind those of the producers, when one of them links its own. -/
theorem sum_hung_append (hung : T → List (Item α)) (t : T) :
    (∑ u, (↑(update hung t [] u) : Multiset (Item α))) + ↑(hung t) = ∑ u, ↑(hung u) := by
  have hsum := sum_update (fun l : List (Item α) => (↑l : Multiset (Item α))) hung t []
  rw [Multiset.coe_nil, add_zero] at hsum
  exact hsum

theorem sum_hung_hang (hung : T → List (Item α)) {t u : T} (hne : u ≠ t) (x : Item α) :
    (∑ w, (↑(update (update hung t []) u (hung u ++ x :: hung t) w) : Multiset (Item α)))
      = ∑ w, ↑(hung w) + {x} := by
  have hsum := sum_update (fun l : List (Item α) => (↑l : Multiset (Item α))) (update hung t []) u
    (hung u ++ x :: hung t)
  rw [update_of_ne hne, ← Multiset.coe_add, ← Multiset.cons_coe, ← Multiset.singleton_add] at hsum
  apply add_right_cancel (b := (↑(hung u) : Multiset (Item α)))
  rw [hsum, ← sum_hung_append hung t]
  abel

theorem Kept.step {v v' : View T α} {s : Sys T α} {t : T} {r : Outcome α} (K : Kept v s)
    (E : Effect s t v r.event v') : Kept v' (s.after t r) := by
  obtain ⟨hvalues, hnodes⟩ := K
  have hlog : (s.after t r).log = s.log ++ r.event.toList := rfl
  constructor
  · rw [hlog, amount_append, amount_append]
    generalize r.event = e at E
    cases E with
    | quiet hq =>
      cases e with
      | none => simpa using hvalues
      | some ev =>
        have hev := hq ev rfl
        cases ev with
        | called x | returned x | dequeued x => simpa using hvalues
        | taken | linked x | unlinked x | given => exact absurd hev id
    | take | give h => simpa using hvalues
    | @append x =>
      have hsum := sum_hung_append v.hung t
      show amount Event.links s.log + amount Event.links [.linked x]
        = amount Event.unlinks s.log + amount Event.unlinks [.linked x] + ↑(v.queue ++ x :: v.hung t)
          + ∑ u, ↑(update v.hung t [] u)
      rw [hvalues, ← hsum, ← Multiset.coe_add, ← Multiset.cons_coe, ← Multiset.singleton_add,
        amount_single, amount_single]
      show _ + {x} = amount Event.unlinks s.log + 0 + _ + _
      abel
    | @hang x u hne h =>
      show amount Event.links s.log + amount Event.links [.linked x]
        = amount Event.unlinks s.log + amount Event.unlinks [.linked x] + ↑v.queue
          + ∑ w, ↑(update (update v.hung t []) u (v.hung u ++ x :: v.hung t) w)
      rw [hvalues, sum_hung_hang v.hung hne x, amount_single, amount_single]
      show _ + {x} = amount Event.unlinks s.log + 0 + _ + _
      abel
    | @remove x rest h =>
      show amount Event.links s.log + amount Event.links [.unlinked x]
        = amount Event.unlinks s.log + amount Event.unlinks [.unlinked x] + ↑rest + ∑ w, ↑(v.hung w)
      rw [hvalues, h, ← Multiset.cons_coe, ← Multiset.singleton_add, amount_single, amount_single]
      show _ + 0 = amount Event.unlinks s.log + {x} + _ + _
      abel
  · rw [hlog, amount_append, amount_append]
    generalize r.event = e at E
    cases E with
    | quiet hq =>
      cases e with
      | none => simpa using hnodes
      | some ev =>
        have hev := hq ev rfl
        cases ev with
        | called x | returned x | dequeued x => simpa using hnodes
        | taken | linked x | unlinked x | given => exact absurd hev id
    | take =>
      show 1#32 + (amount Event.takeCount s.log + amount Event.takeCount [.taken])
        = amount Event.giveCount s.log + amount Event.giveCount [.taken]
          + BitVec.ofNat 32 (v.taken + 1)
      rw [amount_single, amount_single, ← add_assoc, hnodes, BitVec.ofNat_add]
      show _ + 1#32 = amount Event.giveCount s.log + 0 + (_ + 1#32)
      abel
    | @give k h =>
      show 1#32 + (amount Event.takeCount s.log + amount Event.takeCount [.given])
        = amount Event.giveCount s.log + amount Event.giveCount [.given] + BitVec.ofNat 32 k
      rw [amount_single, amount_single, ← add_assoc, hnodes, h, BitVec.ofNat_add]
      show amount Event.giveCount s.log + (_ + 1#32) + 0 = amount Event.giveCount s.log + 1#32 + _
      abel
    | append | hang hne h | remove h => simpa using hnodes

omit [DecidableEq T] in
theorem Kept.new (before : Mem α) :
    Kept (Layout.new.view (Mem.new before)) (Sys.new before : Sys T α) where
  values := by
    show 0 = 0 + 0 + ∑ t : T, (0 : Multiset (Item α))
    simp
  nodes := rfl

/-! ## Every call has its own number -/

/-- The numbers of the calls made so far are below the length of the log, and no two are the same. -/
structure Numbered (s : Sys T α) : Prop where
  nodup : (amount Event.calls s.log).Nodup
  below : ∀ x ∈ amount Event.calls s.log, x.id < s.log.length

omit [Fintype T] in
theorem Numbered.step {s : Sys T α} (N : Numbered s) {t : T} {r : Outcome α} (h : s.Does t r) :
    Numbered (s.after t r) := by
  have hlog : (s.after t r).log = s.log ++ r.event.toList := rfl
  -- the value that an operation brings, if any, has the number that is due
  have hnew : amount Event.calls r.event.toList = 0 ∨
      ∃ x, r.event = some (.called x) ∧ x.id = s.log.length := by
    cases h with
    | enqueue hnone hid => exact .inr ⟨_, rfl, hid⟩
    | dequeue hnone => exact .inl rfl
    | @run pc hpc =>
      left
      have hbal := (does_balanced (.run hpc)).1
      cases he : (pc.run s.mem).event with
      | none => rfl
      | some ev =>
        cases ev with
        | called x => exact absurd he (Pc.run_event_ne_called s.mem pc x)
        | _ => rfl
  rcases hnew with hzero | ⟨x, he, hid⟩
  · constructor
    · rw [hlog, amount_append, hzero, add_zero]
      exact N.nodup
    · intro y hy
      rw [hlog, amount_append, hzero, add_zero] at hy
      have := N.below y hy
      rw [hlog, List.length_append]
      omega
  · have hcalls : amount Event.calls (s.after t r).log = x ::ₘ amount Event.calls s.log := by
      rw [hlog, amount_append, he]
      show amount Event.calls s.log + amount Event.calls [.called x] = _
      rw [amount_single, add_comm]
      exact Multiset.singleton_add _ _
    have hlen : (s.after t r).log.length = s.log.length + 1 := by
      rw [hlog, he]
      simp
    constructor
    · rw [hcalls, Multiset.nodup_cons]
      refine ⟨fun hx => ?_, N.nodup⟩
      have := N.below x hx
      omega
    · intro y hy
      rw [hcalls, Multiset.mem_cons] at hy
      rw [hlen]
      rcases hy with rfl | hy
      · omega
      · have := N.below y hy
        omega

omit [Fintype T] in
theorem numbered_reachable {s : Sys T α} (h : Reachable system s) : Numbered s := by
  apply h.invariant (I := Numbered)
  · rintro _ ⟨before, rfl⟩
    exact ⟨Multiset.nodup_zero, fun x hx => absurd hx (Multiset.notMem_zero x)⟩
  · rintro s s' - N hnext
    obtain ⟨t, r, hdoes, rfl⟩ := step_does hnext
    exact N.step hdoes

/-- What has been linked was called, so no value is linked twice. -/
theorem links_nodup {s : Sys T α} (h : Reachable system s) : (amount Event.links s.log).Nodup := by
  obtain ⟨hcalls, -⟩ := balanced_reachable h
  refine Multiset.nodup_of_le ?_ (numbered_reachable h).nodup
  rw [hcalls]
  exact Multiset.le_add_left _ _

/-! ## Nothing lost, nothing doubled -/

theorem mem_amount {f : Event α → Multiset (Item α)} {log : List (Event α)} {x : Item α} :
    x ∈ amount f log ↔ ∃ e ∈ log, x ∈ f e := by
  induction log with
  | nil => simp
  | cons e log ih =>
    show x ∈ f e + amount f log ↔ _
    rw [Multiset.mem_add, ih]
    simp

/-- An entry is in the log if its value is in the account of such entries. -/
theorem mem_amount_iff {f : Event α → Multiset (Item α)} {e : Event α} {x : Item α}
    (h : ∀ e', x ∈ f e' ↔ e' = e) {log : List (Event α)} : x ∈ amount f log ↔ e ∈ log := by
  rw [mem_amount]
  constructor
  · rintro ⟨e', he', hx⟩
    rw [← (h e').mp hx]
    exact he'
  · intro he
    exact ⟨e, he, (h e).mpr rfl⟩

theorem mem_links {log : List (Event α)} {x : Item α} :
    x ∈ amount Event.links log ↔ .linked x ∈ log :=
  mem_amount_iff fun e => by cases e <;> simp [eq_comm]

theorem mem_returns {log : List (Event α)} {x : Item α} :
    x ∈ amount Event.returns log ↔ .returned x ∈ log :=
  mem_amount_iff fun e => by cases e <;> simp [eq_comm]

theorem mem_unlinks {log : List (Event α)} {x : Item α} :
    x ∈ amount Event.unlinks log ↔ .unlinked x ∈ log :=
  mem_amount_iff fun e => by cases e <;> simp [eq_comm]

/-- Each link is one link. -/
theorem amount_linkCount (log : List (Event α)) :
    amount Event.linkCount log = BitVec.ofNat 32 (Multiset.card (amount Event.links log)) ∧
      amount Event.unlinkCount log
        = BitVec.ofNat 32 (Multiset.card (amount Event.unlinks log)) := by
  induction log with
  | nil => exact ⟨rfl, rfl⟩
  | cons e log ih =>
    have hcons : ∀ {M : Type} [AddCancelCommMonoid M] (f : Event α → M),
        amount f (e :: log) = f e + amount f log := fun f => rfl
    rw [hcons, hcons, hcons, hcons, Multiset.card_add, Multiset.card_add, BitVec.ofNat_add,
      BitVec.ofNat_add, ← ih.1, ← ih.2]
    cases e <;> exact ⟨rfl, rfl⟩

end JunCore.LFQueueSteps
