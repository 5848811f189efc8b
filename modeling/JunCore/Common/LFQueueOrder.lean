/-
  `LFQueue` and the order of its values.

  When every CAS on `tail->next` that succeeds fills the link of a node in the queue, linking appends
  one node, and the values come out in the order of the links: what `Enqueue` returned before another
  call began is linked before it, and unlinked before it (`fifo`).

  The source does not see to that.  `headStamp` and `tailStamp` have their stamps against a node that
  is reused; `next` has none.  In `overtaken` a producer reads the tail and its empty `next`, and
  stops.  The node is dequeued, goes back to the pool, and is taken out by a second producer, whose
  constructor clears `next` again.  Now the CAS of the first one succeeds.  Its `Enqueue` returns,
  but its value is in nobody's queue until the second producer links its node, and the value it puts
  in next comes out before.
-/
import JunCore.Lib.Precedence
import JunCore.Common.LFQueueLedger

set_option linter.unusedVariables false

namespace JunCore.LFQueueSteps

open Function Transition Precedence

variable {T α : Type} [DecidableEq T]

/-- A CAS on `tail->next` that succeeds does not fill the link of a node which some `Enqueue` call
    has taken from the pool and not linked yet. -/
def Settled (s s' : Sys T α) : Prop :=
  ∀ t x p tail, s.threads t = some (.casNext x p tail) →
    s'.threads t = some (.countNode x p tail) →
    ∀ u, holdsOf (s.threads u) ≠ .built tail.node

/-! ## The order of the links -/

def Event.link? : Event α → Option (Item α)
  | .linked x => some x
  | _ => none

def Event.unlink? : Event α → Option (Item α)
  | .unlinked x => some x
  | _ => none

/-- The values in the order of their links. -/
def linksOf (log : List (Event α)) : List (Item α) := log.filterMap Event.link?

/-- The values in the order in which they left. -/
def unlinksOf (log : List (Event α)) : List (Item α) := log.filterMap Event.unlink?

theorem mem_unlinksOf {log : List (Event α)} {x : Item α} :
    x ∈ unlinksOf log ↔ .unlinked x ∈ log := by
  unfold unlinksOf
  rw [List.mem_filterMap]
  constructor
  · rintro ⟨e, he, hx⟩
    cases e with
    | unlinked y =>
      cases hx
      exact he
    | _ => cases hx
  · intro h
    exact ⟨_, h, rfl⟩

theorem coe_linksOf (log : List (Event α)) : (↑(linksOf log) : Multiset (Item α))
    = amount Event.links log := by
  induction log with
  | nil => rfl
  | cons e log ih =>
    show _ = Event.links e + amount Event.links log
    rw [← ih]
    cases e with
    | linked x => rfl
    | _ =>
      show _ = 0 + _
      rw [zero_add]
      rfl

theorem mem_linksOf {log : List (Event α)} {x : Item α} : x ∈ linksOf log ↔ .linked x ∈ log := by
  rw [← mem_links, ← coe_linksOf, Multiset.mem_coe]

/-- **The queue in order**: nothing hangs behind a node that is not in the queue, and what has been
    linked is what has left followed by what is there. -/
structure InOrder (v : View T α) (s : Sys T α) : Prop where
  straight : ∀ t, v.hung t = []
  links : linksOf s.log = unlinksOf s.log ++ v.queue

theorem InOrder.step {v v' : View T α} {s : Sys T α} {t : T} {r : Outcome α} (O : InOrder v s)
    (hdoes : s.Does t r) (hsettled : Settled s (s.after t r)) (E : Effect s t v r.event v') :
    InOrder v' (s.after t r) := by
  have hlog : (s.after t r).log = s.log ++ r.event.toList := rfl
  have hlinks : linksOf (s.after t r).log = linksOf s.log ++ linksOf r.event.toList := by
    rw [hlog]
    exact List.filterMap_append
  have hunlinks : unlinksOf (s.after t r).log = unlinksOf s.log ++ unlinksOf r.event.toList := by
    rw [hlog]
    exact List.filterMap_append
  obtain ⟨hstraight, hold⟩ := O
  have hthread : (s.after t r).threads t = r.pc := Sys.threads_after_self r
  rw [hold] at hlinks
  generalize he : r.event = e at E hlinks hunlinks
  cases E with
  | quiet hq =>
    refine ⟨hstraight, ?_⟩
    have hnone : linksOf e.toList = [] ∧ unlinksOf e.toList = [] := by
      cases e with
      | none => exact ⟨rfl, rfl⟩
      | some ev =>
        have hev := hq ev rfl
        cases ev with
        | called x | returned x | dequeued x => exact ⟨rfl, rfl⟩
        | taken | linked x | unlinked x | given => exact absurd hev id
    rw [hlinks, hunlinks, hnone.1, hnone.2, List.append_nil, List.append_nil]
  | take | give h =>
    refine ⟨hstraight, ?_⟩
    rw [hlinks, hunlinks]
    show _ ++ [] = _ ++ [] ++ _
    rw [List.append_nil, List.append_nil]
  | @append x =>
    constructor
    · intro u
      show update v.hung t [] u = []
      by_cases hu : u = t
      · subst hu
        rw [update_self]
      · rw [update_of_ne hu]
        exact hstraight u
    · rw [hlinks, hunlinks]
      show unlinksOf s.log ++ v.queue ++ [x] = unlinksOf s.log ++ [] ++ (v.queue ++ x :: v.hung t)
      rw [hstraight t, List.append_nil, List.append_assoc]
  | @hang x u hne hcollides =>
    -- this is what the side condition excludes
    obtain ⟨y, p, tail, hpc, hnone, hbuilt⟩ := hcollides (hstraight u)
    refine absurd hbuilt (hsettled t y p tail hpc ?_ u)
    rw [hthread]
    cases hdoes with
    | enqueue hidle => rw [hpc] at hidle; cases hidle
    | dequeue hidle => rw [hpc] at hidle; cases hidle
    | run hpc' =>
      rw [hpc] at hpc'
      cases hpc'
      simp only [Pc.run, hnone]
  | @remove x rest h =>
    refine ⟨hstraight, ?_⟩
    rw [hlinks, hunlinks, h]
    show unlinksOf s.log ++ x :: rest ++ [] = unlinksOf s.log ++ [x] ++ rest
    simp

/-! ## First in, first out -/

variable [Fintype T]

/-- What has returned has been linked, and what has been linked was called. -/
theorem linked_of_returned {s : Sys T α} (h : Reachable system s) {x : Item α}
    (hx : .returned x ∈ s.log) : .linked x ∈ s.log := by
  obtain ⟨-, hlinks, -⟩ := balanced_reachable h
  rw [← mem_links, hlinks, Multiset.mem_add, mem_returns]
  exact .inr hx

theorem below_of_linked {s : Sys T α} (h : Reachable system s) {x : Item α}
    (hx : .linked x ∈ s.log) : x.id < s.log.length := by
  obtain ⟨hcalls, -⟩ := balanced_reachable h
  refine (numbered_reachable h).below x ?_
  rw [hcalls, Multiset.mem_add, mem_links]
  exact .inr hx

/-- **Calls that follow each other link in this order.** -/
theorem links_in_order {s : Sys T α} (h : Reachable system s) {x y : Item α}
    (hcall : Before (.returned x) (.called y) s.log) (hy : .linked y ∈ s.log) :
    Before x y (linksOf s.log) := by
  have hall : ∀ x y, Before (.returned x) (.called y) s.log → .linked y ∈ s.log →
      Before x y (linksOf s.log) := by
    apply h.invariant (I := fun s => ∀ x y, Before (.returned x) (.called y) s.log →
      .linked y ∈ s.log → Before x y (linksOf s.log))
    · rintro _ ⟨before, rfl⟩ x y hcall hy
      cases hy
    · rintro s s' hr ih hnext x y hcall hy
      obtain ⟨t, r, hdoes, rfl⟩ := step_does hnext
      have hlog : (s.after t r).log = s.log ++ r.event.toList := rfl
      rw [hlog] at hcall hy ⊢
      cases he : r.event with
      | none =>
        rw [he] at hcall hy
        simp only [Option.toList_none, List.append_nil] at hcall hy ⊢
        exact ih x y hcall hy
      | some e =>
        rw [he] at hcall hy
        simp only [Option.toList_some] at hcall hy ⊢
        have hgrow : linksOf (s.log ++ [e]) = linksOf s.log ++ linksOf [e] := List.filterMap_append
        rcases before_snoc.mp hcall with hold | ⟨rfl, hx⟩
        · rcases List.mem_append.mp hy with hy | hy
          · rw [hgrow]
            exact (ih x y hold hy).append _
          · -- `y` is linked now, and `x` has been
            obtain rfl := (List.mem_singleton.mp hy).symm
            rw [hgrow]
            show Before x y (linksOf s.log ++ [y])
            exact before_snoc.mpr (.inr ⟨rfl, mem_linksOf.mpr (linked_of_returned hr hold.left)⟩)
        · -- `y` is called now, so it has not been linked
          have hold : .linked y ∈ s.log := by
            rcases List.mem_append.mp hy with hy | hy
            · exact hy
            · cases List.mem_singleton.mp hy
          have hlt := below_of_linked hr hold
          have hid : y.id = s.log.length := by
            cases hdoes with
            | enqueue hnone hid =>
              cases he
              exact hid
            | dequeue hnone => cases he
            | run hpc => exact absurd he (Pc.run_event_ne_called _ _ _)
          omega
  exact hall x y hcall hy

/-- **First in, first out.**  In every run in which the stamps do not come round inside of a call, and
    in which no CAS on `tail->next` fills the link of a node that another `Enqueue` holds: if one
    `Enqueue` returned before another one was called, and the value of the second has been dequeued,
    then the value of the first was dequeued before. -/
theorem fifo {s : Sys T α} (h : Reachable (fresh.guard Settled) s) {x y : Item α}
    (hcall : Before (.returned x) (.called y) s.log) (hy : .unlinked y ∈ s.log) :
    Before (.unlinked x) (.unlinked y) s.log := by
  have hsystem : Reachable system s := h.of_guard.of_guard
  obtain ⟨L, F, O⟩ := fits_invariant (I := InOrder)
    (fun before => ⟨fun _ => rfl, rfl⟩) (fun hO hdoes hset hE => hO.step hdoes hset hE) h
  have hnodup : (linksOf s.log).Nodup := by
    rw [← Multiset.coe_nodup, coe_linksOf]
    exact links_nodup hsystem
  have hleft : y ∈ unlinksOf s.log := mem_unlinksOf.mpr hy
  have hlinked : .linked y ∈ s.log := by
    refine mem_linksOf.mp ?_
    rw [O.links]
    exact List.mem_append_left _ hleft
  have hbefore := links_in_order hsystem hcall hlinked
  rw [O.links] at hbefore hnodup
  obtain ⟨e, e', hee, he, he'⟩ := (hbefore.front hnodup hleft).of_filterMap
  cases e with
  | unlinked x' =>
    cases e' with
    | unlinked y' =>
      cases he
      cases he'
      exact hee
    | _ => cases he'
  | _ => cases he

/-! ## Replaying a schedule -/

/-- The node whose link thread `t` fills in this step. -/
def filled (s s' : Sys T α) (t : T) : Option Nat :=
  match s.threads t, s'.threads t with
  | some (.casNext _ _ tail), some (.countNode _ _ _) => some tail.node
  | _, _ => none

/-- The check that goes with `Settled`. -/
def settles (s s' : Sys T α) : Bool :=
  decide (∀ t u, (filled s s' t).all fun p => decide (holdsOf (s.threads u) ≠ .built p))

omit [DecidableEq T] in
theorem settled_of_settles (s s' : Sys T α) (h : settles s s' = true) : Settled s s' := by
  intro t x p tail hpc hpc' u
  have hall := of_decide_eq_true h t u
  unfold filled at hall
  rw [hpc, hpc'] at hall
  exact of_decide_eq_true hall

/-- A fresh step, if it is settled. -/
def settledStep : Sys T α → T × Act α → Option (Sys T α) := gate freshStep settles

theorem settled_next (s : Sys T α) (a : T × Act α) (s' : Sys T α)
    (h : settledStep s a = some s') : (fresh.guard Settled).next s s' :=
  next_of_gate (M := fresh) fresh_next settled_of_settles s a s' h

/-- One thread puts in two values and takes out both. -/
theorem fifo_alone : ∃ s : Sys Unit Nat, Reachable (fresh.guard Settled) s ∧
    Before (.unlinked ⟨0, 1⟩) (.unlinked ⟨4, 2⟩) s.log := by
  have hinit : (fresh.guard Settled).init (Sys.new blank : Sys Unit Nat) := ⟨_, rfl⟩
  obtain ⟨s, hr, hp⟩ := exists_reachable_of_exec hinit settled_next
    ((((), .enqueue 1) :: go () 10) ++ (((), .enqueue 2) :: go () 10) ++
      (((), .dequeue) :: go () 10) ++ ((), .dequeue) :: go () 8)
    (fun s => decide (Before (.returned ⟨0, 1⟩) (.called ⟨4, 2⟩) s.log) &&
      s.log.contains (.unlinked ⟨4, 2⟩)) (by decide)
  simp only [Bool.and_eq_true, decide_eq_true_eq, List.contains_iff_mem] at hp
  exact ⟨s, hr, fifo hr hp.1 hp.2⟩

/-- Two producers and a consumer, who has something to put in as well. -/
inductive Crew
  | first | second | consumer
  deriving DecidableEq

instance : Fintype Crew := ⟨{.first, .second, .consumer}, fun t => by cases t <;> simp⟩

/-- The schedule of `overtaken`. -/
def overtaking : List (Crew × Act Nat) :=
  -- up to the CAS on the `next` of node 0
  (.first, .enqueue 1) :: go .first 7 ++
  -- node 0 goes back to the pool
  (.consumer, .enqueue 3) :: go .consumer 10 ++ (.consumer, .dequeue) :: go .consumer 10 ++
  -- and is taken out again
  (.second, .enqueue 2) :: go .second 6 ++
  -- the CAS succeeds
  go .first 3 ++
  (.first, .enqueue 4) :: go .first 10 ++ (.consumer, .dequeue) :: go .consumer 10

/-- **A value is overtaken**: 1 was put in before the call that puts in 4 began; 4 has come out, and
    1 is still on its way. -/
theorem overtaken : ∃ s : Sys Crew Nat, Reachable fresh s ∧
    Before (.returned ⟨0, 1⟩) (.called ⟨13, 4⟩) s.log ∧
    .dequeued ⟨13, 4⟩ ∈ s.log ∧ .unlinked ⟨0, 1⟩ ∉ s.log := by
  have hinit : fresh.init (Sys.new blank : Sys Crew Nat) := ⟨_, rfl⟩
  obtain ⟨s, hr, hp⟩ := exists_reachable_of_exec hinit fresh_next overtaking
    (fun s => decide (Before (.returned ⟨0, 1⟩) (.called ⟨13, 4⟩) s.log ∧
      .dequeued ⟨13, 4⟩ ∈ s.log ∧ .unlinked ⟨0, 1⟩ ∉ s.log)) (by decide)
  exact ⟨s, hr, of_decide_eq_true hp⟩

end JunCore.LFQueueSteps
