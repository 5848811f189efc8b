/-
  What a step of the queue may do, and the steps that do nothing to the nodes.

  Of the 28 operations only five move a node: `Alloc` takes one (from the free list, or a new one),
  the CAS on `tail->next` links one, the CAS on `headStamp` unlinks one, and `Free` gives one back.
  Linking has two cases, and the second is the one nobody intends: `Effect.append` hangs what the
  thread holds behind the queue, `Effect.hang` behind a node that another producer holds.

  The effects are stated in terms of what the chains hold (`View`), not of addresses.  The other
  operations read, count, write to a node of their own, or move the tail; `Fits.stay` is the rule for
  all of them.
-/
import JunCore.Common.LFQueueShape

set_option linter.unusedVariables false

namespace JunCore.LFQueueSteps

open Function Transition Linked

variable {T α : Type}

/-! ## The view -/

/-- What the nodes hold: the values in the queue, oldest first; the values that have been hung behind
    a thread's own node; and the number of nodes that are not in the pool. -/
structure View (T α : Type) where
  queue : List (Item α)
  hung : T → List (Item α)
  taken : Nat

def Layout.view (L : Layout T) (m : Mem α) : View T α where
  queue := L.chain.tail.map m.data
  hung t := (L.mine t).tail.map m.data
  taken := L.taken

/-- Thread `t` is about to link its node behind one that thread `u` holds and has not linked. -/
def Sys.Collides (s : Sys T α) (t u : T) : Prop :=
  ∃ x p tail, s.threads t = some (.casNext x p tail) ∧ s.mem.next tail.node = none ∧
    holdsOf (s.threads u) = .built tail.node

/-- The entries of the log that no node moves with. -/
def Event.IsQuiet : Event α → Prop
  | .called _ | .returned _ | .dequeued _ => True
  | _ => False

/-- **What a step of thread `t` can do** to the view, with what it writes to the log. -/
inductive Effect [DecidableEq T] (s : Sys T α) (t : T) :
    View T α → Option (Event α) → View T α → Prop
  | quiet {v : View T α} {e : Option (Event α)} (h : ∀ ev, e = some ev → ev.IsQuiet) :
      Effect s t v e v
  | take {v : View T α} : Effect s t v (some .taken) { v with taken := v.taken + 1 }
  | give {v : View T α} {k : Nat} (h : v.taken = k + 1) :
      Effect s t v (some .given) { v with taken := k }
  | append {v : View T α} {x : Item α} : Effect s t v (some (.linked x))
      { v with queue := v.queue ++ x :: v.hung t, hung := update v.hung t [] }
  | hang {v : View T α} {x : Item α} {u : T} (hne : u ≠ t)
      (h : v.hung u = [] → s.Collides t u) : Effect s t v (some (.linked x))
      { v with hung := update (update v.hung t []) u (v.hung u ++ x :: v.hung t) }
  | remove {v : View T α} {x : Item α} {rest : List (Item α)} (h : v.queue = x :: rest) :
      Effect s t v (some (.unlinked x)) { v with queue := rest }

/-! ## Steps that move no node -/

/-- The memory is the same but for the counters. -/
structure Mem.Same (m m' : Mem α) : Prop where
  head : m'.headStamp = m.headStamp
  tail : m'.tailStamp = m.tailStamp
  top : m'.topStamp = m.topStamp
  created : m'.created = m.created
  next : m'.next = m.next
  data : m'.data = m.data
  below : m'.below = m.below

theorem Mem.Same.refl (m : Mem α) : m.Same m := ⟨rfl, rfl, rfl, rfl, rfl, rfl, rfl⟩

theorem Mem.Same.later {W : Nat → Prop} {m m' : Mem α} (S : m.Same m') : Later W m m' where
  head := S.head ▸ .refl _
  tail := S.tail ▸ .refl _
  top := S.top ▸ .refl _
  created := Nat.le_of_eq S.created.symm
  next p n _ h := by rw [S.next]; exact h
  data p _ := by rw [S.data]
  below p _ := by rw [S.below]

/-- Knowledge is not about counters. -/
theorem Pc.Knows.same {m m' : Mem α} (S : m.Same m') {pc : Pc α} (h : pc.Knows m) :
    pc.Knows m' := by
  obtain ⟨h₁, h₂, h₃, h₄, h₅, h₆, h₇⟩ := S
  cases pc with
  | loadTop x | construct x p | countUse x p | growCapacity x | growUse x | create x
  | storeData x p | discountNode | recountNode | loadHead | reloadTop x h | discountUse x =>
    trivial
  | _ => simpa only [Knows, h₁, h₂, h₃, h₄, h₅, h₆, h₇] using h

variable [DecidableEq T] {L : Layout T} {s : Sys T α} {t : T}

/-- The other threads after a step of `t`. -/
theorem Sys.threads_after {u : T} (h : u ≠ t) (r : Outcome α) :
    (s.after t r).threads u = s.threads u := update_of_ne h _ _

theorem Sys.threads_after_self (r : Outcome α) : (s.after t r).threads t = r.pc := update_self ..

/-- What every thread knows after a step of `t`: the others by the rely rule. -/
theorem Fits.knows_after (F : Fits L s) {m' : Mem α} {pc' : Option (Pc α)} {e : Option (Event α)}
    (H : Later (L.Writes t) s.mem m') (hknows : ∀ pc, pc' = some pc → pc.Knows m') (u : T)
    (pc : Pc α) (h : (s.after t ⟨m', pc', e⟩).threads u = some pc) : pc.Knows m' := by
  by_cases hu : u = t
  · subst hu
    rw [Sys.threads_after_self] at h
    exact hknows pc h
  · rw [Sys.threads_after hu] at h
    exact F.knows_later hu H h

/-- **A step that leaves every node where it is.** -/
theorem Fits.stay (F : Fits L s) {m' : Mem α} {pc' : Option (Pc α)} {e : Option (Event α)}
    (H : Later (L.Writes t) s.mem m') (hhead : m'.headStamp = s.mem.headStamp)
    (htop : m'.topStamp = s.mem.topStamp) (hcreated : m'.created = s.mem.created)
    (hnext : ∀ p, ¬ L.Writes t p → m'.next p = s.mem.next p)
    (htail : ∃ i, m'.tailStamp.count = m'.headStamp.count + i ∧
      L.chain[i]? = some m'.tailStamp.node)
    (hholds : (holdsOf pc').Agrees m'.next (L.mine t))
    (hknows : ∀ pc, pc' = some pc → pc.Knows m')
    (haim : ∀ a, aimOf pc' = some a → L.place a = .queue ∨ aimOf (s.threads t) = some a)
    (hbuild : (holdsOf pc').Builds → (holdsOf (s.threads t)).Builds) :
    Fits L (s.after t ⟨m', pc', e⟩) where
  chain := by
    show Chain m'.next (some m'.headStamp.node) L.chain
    rw [hhead]
    exact F.chain.congr fun p hp => hnext p (not_writes_of_queue ((F.mem_chain p).mp hp))
  tail := htail
  free := by
    show Chain m'.below m'.topStamp.node L.free
    rw [htop]
    exact F.free.congr fun p hp => H.below p (not_writes_of_pool ((F.mem_free p).mp hp))
  used p hp := by
    show m'.next p ≠ none
    rw [hnext p (not_writes_of_pool ((F.mem_free p).mp hp))]
    exact F.used p hp
  holds u := by
    by_cases hu : u = t
    · subst hu
      rw [Sys.threads_after_self]
      exact hholds
    · rw [Sys.threads_after hu]
      have hsame : ∀ p ∈ L.mine u, m'.next p = s.mem.next p :=
        fun p hp => hnext p (not_writes_of_other ((F.mem_mine u p).mp hp) hu)
      have hold := F.holds u
      show (holdsOf (s.threads u)).Agrees m'.next (L.mine u)
      cases h : holdsOf (s.threads u) with
      | nothing => rw [h] at hold; exact hold
      | raw p | spent p =>
        rw [h] at hold
        refine ⟨hold.1, ?_⟩
        rw [hsame p (hold.1 ▸ List.mem_cons_self)]
        exact hold.2
      | built p =>
        rw [h] at hold
        exact Chain.congr hold hsame
  mem_chain := F.mem_chain
  mem_free := F.mem_free
  mem_mine := F.mem_mine
  nowhere p := by
    show _ ↔ m'.created ≤ p
    rw [hcreated]
    exact F.nowhere p
  count := by
    show m'.created = _
    rw [hcreated]
    exact F.count
  knows := F.knows_after H hknows
  rank u w a ha hplace hb := by
    have ha' : aimOf (s.threads u) = some a := by
      by_cases hu : u = t
      · subst hu
        rw [Sys.threads_after_self] at ha
        rcases haim a ha with hq | hold
        · rw [hq] at hplace; cases hplace
        · exact hold
      · rwa [Sys.threads_after hu] at ha
    refine F.rank u w a ha' hplace ?_
    by_cases hw : w = t
    · subst hw
      rw [Sys.threads_after_self] at hb
      exact hbuild hb
    · rwa [Sys.threads_after hw] at hb

/-- A step that only looks, or only counts. -/
theorem Fits.idle (F : Fits L s) {m' : Mem α} {pc' : Option (Pc α)} {e : Option (Event α)}
    (S : s.mem.Same m') (hholds : holdsOf pc' = holdsOf (s.threads t))
    (hknows : ∀ pc, pc' = some pc → pc.Knows s.mem)
    (haim : ∀ a, aimOf pc' = some a → L.place a = .queue ∨ aimOf (s.threads t) = some a) :
    Fits L (s.after t ⟨m', pc', e⟩) ∧ L.view m' = L.view s.mem := by
  constructor
  · refine F.stay S.later S.head S.top S.created (fun p _ => by rw [S.next]) ?_ ?_
      (fun pc h => (hknows pc h).same S) haim (fun h => hholds ▸ h)
    · rw [S.tail, S.head]
      exact F.tail
    · rw [hholds, S.next]
      exact F.holds t
  · unfold Layout.view
    rw [S.data]

omit [DecidableEq T] in
/-- The CAS on `tailStamp`, with a node that was found behind the old one. -/
theorem Fits.moveTail (F : Fits L s) {tail : Stamped Nat} {n : Nat} (hwas : tail.Was s.mem.tailStamp)
    (hrecent : s.mem.tailStamp.Recent tail)
    (hn : tail.count = s.mem.tailStamp.count → s.mem.next tail.node = some n) :
    (∃ i, (s.mem.moveTail tail n).tailStamp.count = s.mem.headStamp.count + i ∧
      L.chain[i]? = some (s.mem.moveTail tail n).tailStamp.node) ∧
    s.mem.tailStamp.Was (s.mem.moveTail tail n).tailStamp ∧
    tail.count < (s.mem.moveTail tail n).tailStamp.count := by
  unfold Mem.moveTail
  split
  · rename_i hsame
    have hcur := Stamped.eq_of_same hwas hrecent hsame
    obtain ⟨i, hcount, hi⟩ := F.tail
    refine ⟨⟨i + 1, ?_, ?_⟩, ?_, Nat.lt_succ_self _⟩
    · show tail.count + 1 = _
      rw [← hcur, hcount]
      omega
    · have hnext := F.chain.next_getElem hi
      rw [hcur, hn (by rw [hcur])] at hnext
      exact hnext.symm
    · rw [hcur]
      exact Stamped.was_move tail n
  · rename_i hsame
    exact ⟨F.tail, .refl _, Stamped.lt_of_not_same hwas hsame⟩

theorem Mem.moveTail_head (m : Mem α) (tail : Stamped Nat) (n : Nat) :
    (m.moveTail tail n).headStamp = m.headStamp := by
  unfold moveTail
  split <;> rfl

theorem Mem.moveTail_data (m : Mem α) (tail : Stamped Nat) (n p : Nat) :
    (m.moveTail tail n).data p = m.data p := by
  unfold moveTail
  split <;> rfl

/-- Moving the tail moves no node. -/
theorem Fits.push (F : Fits L s) {tail : Stamped Nat} {n : Nat} {pc' : Option (Pc α)}
    {e : Option (Event α)} (hwas : tail.Was s.mem.tailStamp)
    (hrecent : s.mem.tailStamp.Recent tail)
    (hn : tail.count = s.mem.tailStamp.count → s.mem.next tail.node = some n)
    (hholds : holdsOf pc' = holdsOf (s.threads t))
    (hknows : ∀ pc, pc' = some pc → pc.Knows (s.mem.moveTail tail n))
    (haim : aimOf pc' = none) :
    Fits L (s.after t ⟨s.mem.moveTail tail n, pc', e⟩) ∧
      L.view (s.mem.moveTail tail n) = L.view s.mem := by
  obtain ⟨htail, hlater, -⟩ := F.moveTail hwas hrecent hn
  have hother : (s.mem.moveTail tail n).headStamp = s.mem.headStamp ∧
      (s.mem.moveTail tail n).topStamp = s.mem.topStamp ∧
      (s.mem.moveTail tail n).created = s.mem.created ∧
      (s.mem.moveTail tail n).next = s.mem.next ∧ (s.mem.moveTail tail n).data = s.mem.data ∧
      (s.mem.moveTail tail n).below = s.mem.below := by
    unfold Mem.moveTail
    split
    · exact ⟨rfl, rfl, rfl, rfl, rfl, rfl⟩
    · exact ⟨rfl, rfl, rfl, rfl, rfl, rfl⟩
  obtain ⟨hhead, htop, hcreated, hnext, hdata, hbelow⟩ := hother
  constructor
  · refine F.stay ⟨hhead ▸ .refl _, hlater, htop ▸ .refl _, Nat.le_of_eq hcreated.symm,
      fun p n _ h => by rw [hnext]; exact h, fun p _ => by rw [hdata], fun p _ => by rw [hbelow]⟩
      hhead htop hcreated (fun p _ => by rw [hnext]) ?_ ?_ hknows ?_ (fun h => hholds ▸ h)
    · rw [hhead]
      exact htail
    · rw [hholds, hnext]
      exact F.holds t
    · intro a ha
      rw [haim] at ha
      cases ha
  · unfold Layout.view
    rw [hdata]

end JunCore.LFQueueSteps
