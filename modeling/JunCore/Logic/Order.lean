/-
  Jobs run in the order they entered, one at a time, on the thread that owns the object.

  The bookkeeping of `Ledger` numbers the jobs of an object by their order of entry into
  `m_jobQueue`.  `InOrder` says how far the object has got: the tickets called so far are exactly
  `0, 1, …, k-1`, those that returned are the same up to the one now running, and what waits in
  `m_jobQueue` is the rest of the jobs that entered, in order.  When the object is marked, the mark
  was set by the last job called, so nothing behind that job is ever called.

  The file ends with the actor guarantee `jobs_are_serialised`.
-/
import JunCore.Logic.Token

set_option linter.unusedVariables false
set_option linter.unusedSectionVars false

namespace JunCore.Logic

open Transition Function Counting

variable {T P O J W K : Type} [DecidableEq T] [DecidableEq P] [DecidableEq O]

/-! ## Entries of a queue, by order of entry -/

/-- The entries `PostJob` makes for the jobs `l`, entered in this order. -/
def entries (l : List J) : List (Entry J) := l.zipIdx.map fun p => ⟨p.2, p.1⟩

theorem entries_append (l : List J) (j : J) : entries (l ++ [j]) = entries l ++ [⟨l.length, j⟩] := by
  simp [entries, List.zipIdx_append]

@[simp] theorem length_entries (l : List J) : (entries l).length = l.length := by simp [entries]

/-- The entry at a place carries that place as its ticket. -/
theorem ticket_of_getElem? {l : List J} {i : Nat} {e : Entry J} (h : (entries l)[i]? = some e) :
    e.ticket = i ∧ l[i]? = some e.job := by
  simp only [entries, List.getElem?_map, Option.map_eq_some_iff] at h
  obtain ⟨p, hp, rfl⟩ := h
  rw [List.getElem?_zipIdx, Option.map_eq_some_iff] at hp
  obtain ⟨j, hj, rfl⟩ := hp
  exact ⟨by simp, hj⟩

/-! ## Which job a thread has in hand -/

/-- What a thread is doing with a job of the object. -/
inductive Stage (J : Type)
  | idle
  /-- taken out of `m_jobQueue` and not called yet -/
  | taken (e : Entry J)
  /-- called and not returned -/
  | running (n : Nat)

def stageOf : Option (Phase T O J) → Stage J
  | some (.jobStart _ e) => .taken e
  | some (.running _ n _) => .running n
  | _ => .idle

def Stage.isTaken : Stage J → Nat
  | .taken _ => 1
  | _ => 0

def Stage.isRunning : Stage J → Nat
  | .running _ => 1
  | _ => 0

/-- A thread that is not draining the object has no job of it. -/
theorem stageOf_of_drains {x : Option (Phase T O J)} (h : drains x = 0) : stageOf x = .idle := by
  cases x with
  | none => rfl
  | some ph =>
    cases ph with
    | jobStart old e | running old n is => cases h
    | _ => rfl

/-- The ticket of the job a `PostJob` call has put into `m_jobQueue`. -/
def PostPC.ticket : PostPC T → Option Nat
  | .loadMarked | .link => none
  | .count n | .cas n | .register n _ => some n

/-- The one stage that is not `idle` among those of the threads, if there is one. -/
noncomputable def soleStage (g : T → Stage J) : Stage J :=
  open Classical in if h : ∃ t, g t ≠ .idle then g h.choose else .idle

theorem soleStage_eq {g : T → Stage J} {t : T} (h : ∀ t', t' ≠ t → g t' = .idle) :
    soleStage g = g t := by
  unfold soleStage
  split
  · rename_i hex
    by_cases heq : hex.choose = t
    · rw [heq]
    · exact absurd (h _ heq) hex.choose_spec
  · rename_i hne
    by_contra hg
    exact hne ⟨t, fun h' => hg h'.symm⟩

/-- The stage the object is at: that of the thread that has a job of it. -/
noncomputable def View.stage (v : View T P O J) : Stage J := soleStage fun t => stageOf (v.loop t)

theorem View.stage_congr {v v' : View T P O J}
    (h : ∀ t, stageOf (v'.loop t) = stageOf (v.loop t)) : v'.stage = v.stage :=
  congrArg soleStage (funext h)

/-- Replacing a phase by one at the same stage changes no stage. -/
theorem stageOf_update {g : T → Option (Phase T O J)} {t : T} {x : Option (Phase T O J)}
    (h : stageOf x = stageOf (g t)) (t' : T) : stageOf (update g t x t') = stageOf (g t') := by
  by_cases heq : t' = t
  · subst heq; rw [update_self, h]
  · rw [update_of_ne heq]

section Alone

variable [Fintype T] [Fintype P]

/-- Only the thread that drains the object has a job of it. -/
theorem Owned.stage_alone {v : View T P O J} (I : Owned v) {t : T} (h : 0 < drains (v.loop t)) :
    ∀ t', t' ≠ t → stageOf (v.loop t') = .idle :=
  fun t' hne => stageOf_of_drains ((v.two_places I.le_one h).2.2.2 t' hne)

/-- ... so its stage is that of the object, and its next one will be. -/
theorem Owned.stage_eq {v : View T P O J} (I : Owned v) {t : T} (h : 0 < drains (v.loop t)) :
    v.stage = stageOf (v.loop t) ∧
      ∀ is ph, (v.flush t is ph).stage = stageOf (flushStep is v.cell ph).phase := by
  have halone := I.stage_alone h
  refine ⟨soleStage_eq halone, ?_⟩
  intro is ph
  have hnext : ∀ t', t' ≠ t → stageOf ((v.flush t is ph).loop t') = .idle := by
    intro t' hne
    simpa [View.flush, hne] using halone t' hne
  rw [View.stage, soleStage_eq hnext]
  simp [View.flush]

/-- A thread that has a job in hand drains the object. -/
theorem Owned.stage_of_hand {v : View T P O J} (I : Owned v) {t : T}
    (h : stageOf (v.loop t) ≠ .idle) : v.stage = stageOf (v.loop t) := by
  have hd : 0 < drains (v.loop t) := by
    apply Nat.pos_of_ne_zero
    intro h₀
    exact h (stageOf_of_drains h₀)
  exact (I.stage_eq hd).1

end Alone

/-! ## The invariant -/

/-- How far an object has got with its jobs, when it is at stage `st`. -/
structure Progress (c : Cell T J) (st : Stage J) : Prop where
  started : c.started = List.range c.started.length
  finished : c.finished = List.range c.finished.length
  /-- the jobs called are those that returned and the one that runs -/
  called : c.started.length = c.finished.length + st.isRunning
  last : ∀ n, st = .running n → n + 1 = c.started.length
  hand : ∀ e, st = .taken e → (entries c.entered)[c.started.length]? = some e
  bound : c.started.length + st.isTaken ≤ c.entered.length
  /-- what waits is what entered and was not taken out yet -/
  waiting : c.deletes = 0 →
    c.jobQueue.items = (entries c.entered).drop (c.started.length + st.isTaken)
  /-- the mark was set by the last job called -/
  marked : c.markedForDelete = true → ∃ m, c.markedBy = some m ∧ m + 1 = c.started.length
  unmarked : c.markedForDelete = false → c.deletes = 0
  accepted : ∀ n ∈ c.accepted, n < c.entered.length

namespace Progress

theorem new (t : T) : Progress (.new t : Cell T J) .idle where
  started := rfl
  finished := rfl
  called := rfl
  last n h := by cases h
  hand e h := by cases h
  bound := Nat.le_refl _
  waiting _ := rfl
  marked h := by cases h
  unmarked _ := rfl
  accepted n h := by cases h

/-- Only these members matter. -/
theorem congr {c c' : Cell T J} {st : Stage J} (L : Progress c st) (hl : c'.toLedger = c.toLedger)
    (hi : c'.jobQueue.items = c.jobQueue.items) (hm : c'.markedForDelete = c.markedForDelete) :
    Progress c' st where
  started := by rw [hl]; exact L.started
  finished := by rw [hl]; exact L.finished
  called := by rw [hl]; exact L.called
  last n h := by rw [hl]; exact L.last n h
  hand e h := by rw [hl]; exact L.hand e h
  bound := by rw [hl]; exact L.bound
  waiting := by rw [hl, hi]; exact L.waiting
  marked := by rw [hl, hm]; exact L.marked
  unmarked := by rw [hl, hm]; exact L.unmarked
  accepted := by rw [hl]; exact L.accepted

/-- The next ticket called, or returned, extends the count by one. -/
theorem range_snoc {l : List Nat} {n : Nat} (h : l = List.range l.length) (hn : n = l.length) :
    l ++ [n] = List.range (l ++ [n]).length := by
  rw [List.length_append, List.length_singleton, List.range_succ, ← h, hn]

/-- A job is taken out: it is the first of those that wait. -/
theorem takeOut {c : Cell T J} (L : Progress c .idle) (hd : c.deletes = 0) {e : Entry J}
    {rest : List (Entry J)} (hq : c.jobQueue.items = e :: rest) :
    Progress { c with jobQueue := c.jobQueue.unlink } (.taken e) := by
  have hwait : e :: rest = (entries c.entered).drop c.started.length := hq ▸ L.waiting hd
  have hget : (entries c.entered)[c.started.length]? = some e := by
    have := congrArg List.head? hwait
    rw [List.head?_drop] at this
    exact this.symm
  have hlt : c.started.length < c.entered.length := by
    simpa using (List.getElem?_eq_some_iff.mp hget).1
  exact { L with
    last := fun n h => by cases h
    hand := fun e' h => by cases h; exact hget
    bound := hlt
    waiting := by
      intro _
      show c.jobQueue.items.tail = (entries c.entered).drop (c.started.length + 1)
      rw [hq, ← List.drop_drop]
      exact congrArg (List.drop 1) hwait }

/-- A job is called: its ticket is the next one. -/
theorem call {c : Cell T J} {e : Entry J} (L : Progress c (.taken e))
    (hu : c.markedForDelete = false) :
    Progress { c with started := c.started ++ [e.ticket] } (.running e.ticket) := by
  have htick : e.ticket = c.started.length := (ticket_of_getElem? (L.hand e rfl)).1
  have hlen : (c.started ++ [e.ticket]).length = c.started.length + 1 := by simp
  have hcalled : c.started.length = c.finished.length := L.called
  exact { L with
    started := range_snoc L.started htick
    called := by
      show (c.started ++ [e.ticket]).length = c.finished.length + 1
      rw [hlen, hcalled]
    last := by
      intro n h
      cases h
      show e.ticket + 1 = (c.started ++ [e.ticket]).length
      rw [hlen, htick]
    hand := fun e' h => by cases h
    bound := by
      show (c.started ++ [e.ticket]).length ≤ c.entered.length
      rw [hlen]; exact L.bound
    waiting := by
      intro hd
      show c.jobQueue.items = (entries c.entered).drop (c.started ++ [e.ticket]).length
      rw [hlen]; exact L.waiting hd
    marked := fun hm => by rw [show c.markedForDelete = true from hm] at hu; cases hu }

/-- The running job sets the mark; it is the last one called. -/
theorem mark {c : Cell T J} {n : Nat} (L : Progress c (.running n)) :
    Progress { c with markedForDelete := true,
                      markedBy := if c.markedForDelete then c.markedBy else some n }
      (.running n) :=
  { L with
    marked := by
      intro _
      show ∃ m, (if c.markedForDelete then c.markedBy else some n) = some m ∧ m + 1 = _
      cases hm : c.markedForDelete with
      | true =>
        obtain ⟨m, hby, hlen⟩ := L.marked hm
        exact ⟨m, by simpa using hby, hlen⟩
      | false => exact ⟨n, by simp, L.last n rfl⟩
    unmarked := fun hu => by cases hu }

/-- The running job returns. -/
theorem ret {c : Cell T J} {n : Nat} (L : Progress c (.running n)) :
    Progress { c with finished := c.finished ++ [n] } .idle := by
  have hcalled : c.started.length = c.finished.length + 1 := L.called
  have hlast : n + 1 = c.started.length := L.last n rfl
  exact { L with
    finished := range_snoc L.finished (by omega)
    called := by
      show c.started.length = (c.finished ++ [n]).length
      rw [List.length_append]; exact hcalled
    last := fun m h => by cases h
    hand := fun e h => by cases h }

/-- The object is deleted; what waited in it is gone. -/
theorem delete {c : Cell T J} {st : Stage J} (L : Progress c st) (hm : c.markedForDelete = true) :
    Progress { c with jobQueue := {}, deletes := c.deletes + 1 } st :=
  { L with
    waiting := fun hd => by cases hd
    unmarked := fun hu => by rw [show c.markedForDelete = false from hu] at hm; cases hm }

/-- What a step of `PostJob` does to the history: it may append one entry, and the ticket it
    carries is that of a job that has entered. -/
theorem ledger_postStep (c : Cell T J) (f : PostCall T J)
    (hf : ∀ n, f.pc.ticket = some n → n < c.entered.length) :
    ((postStep c f).1.started = c.started ∧ (postStep c f).1.finished = c.finished ∧
      (postStep c f).1.markedBy = c.markedBy ∧ (postStep c f).1.deletes = c.deletes) ∧
    ((postStep c f).1.entered = c.entered ∧ (postStep c f).1.jobQueue.items = c.jobQueue.items ∨
      (postStep c f).1.entered = c.entered ++ [f.job] ∧
        (postStep c f).1.jobQueue.items = c.jobQueue.items ++ [⟨c.entered.length, f.job⟩]) ∧
    (∀ n ∈ (postStep c f).1.accepted, n ∈ c.accepted ∨ f.pc.ticket = some n) ∧
    (∀ f', (postStep c f).2.1 = some f' → ∀ n, f'.pc.ticket = some n →
      n < (postStep c f).1.entered.length) := by
  obtain ⟨j, pc⟩ := f
  cases pc with
  | loadMarked =>
    cases hm : c.markedForDelete <;> simp_all [postStep, PostPC.ticket]
  | link => simp_all [postStep, PostPC.ticket]
  | count n => simp_all [postStep, PostPC.ticket]
  | cas n =>
    cases hp : c.processing with
    | true =>
      have hmem : ∀ m ∈ c.accepted ++ [n], m ∈ c.accepted ∨ some n = some m := by
        intro m hm
        simpa [eq_comm] using hm
      simpa [postStep, hp, PostPC.ticket] using hmem
    | false => simp_all [postStep, PostPC.ticket]
  | register n r =>
    cases r with
    | loadThread | link t => simp_all [postStep, PostPC.ticket, RegPC.step]
    | count t =>
      have hmem : ∀ m ∈ c.accepted ++ [n], m ∈ c.accepted ∨ some n = some m := by
        intro m hm
        simpa [eq_comm] using hm
      simpa [postStep, RegPC.step, PostPC.ticket] using hmem

theorem post {c : Cell T J} {st : Stage J} (L : Progress c st) {f : PostCall T J}
    (hf : ∀ n, f.pc.ticket = some n → n < c.entered.length) : Progress (postStep c f).1 st := by
  obtain ⟨⟨hs, hfin, hby, hdel⟩, hent, hacc, -⟩ := ledger_postStep c f hf
  have hm := (postStep_keeps c f).2
  have hlen : c.entered.length ≤ (postStep c f).1.entered.length := by
    rcases hent with ⟨he, -⟩ | ⟨he, -⟩ <;> simp [he]
  exact {
    started := by rw [hs]; exact L.started
    finished := by rw [hfin]; exact L.finished
    called := by rw [hs, hfin]; exact L.called
    last := fun n h => by rw [hs]; exact L.last n h
    hand := by
      intro e h
      have hold := L.hand e h
      rw [hs]
      rcases hent with ⟨he, -⟩ | ⟨he, -⟩
      · rw [he]; exact hold
      · have hlt : c.started.length < (entries c.entered).length :=
          (List.getElem?_eq_some_iff.mp hold).1
        rw [he, entries_append, List.getElem?_append_left hlt]
        exact hold
    bound := by rw [hs]; exact le_trans L.bound hlen
    waiting := by
      intro hd
      have hold := L.waiting (hdel ▸ hd)
      rw [hs]
      rcases hent with ⟨he, hi⟩ | ⟨he, hi⟩
      · rw [he, hi]; exact hold
      · rw [he, hi, hold, entries_append, List.drop_append_of_le_length]
        rw [length_entries]; exact L.bound
    marked := by rw [hm, hby, hs]; exact L.marked
    unmarked := by rw [hm, hdel]; exact L.unmarked
    accepted := by
      intro n hn
      rcases hacc n hn with hn | hn
      · exact lt_of_lt_of_le (L.accepted n hn) hlen
      · exact lt_of_lt_of_le (hf n hn) hlen }

end Progress

/-- **What a step of `Flush` does to the history.**  Nothing; or it takes a job out, calls it, marks
    the object from inside it, returns from it, or deletes the object. -/
theorem ledger_flushStep (is : List (Instr T O J)) (c : Cell T J) (ph : Phase T O J) :
    ((flushStep is c ph).cell.toLedger = c.toLedger ∧
        (flushStep is c ph).cell.jobQueue.items = c.jobQueue.items ∧
        (flushStep is c ph).cell.markedForDelete = c.markedForDelete ∧
        stageOf (flushStep is c ph).phase = stageOf (some ph)) ∨
      (∃ old e rest, ph = .jobUnlink old ∧ c.jobQueue.items = e :: rest ∧
        flushStep is c ph
          = { cell := { c with jobQueue := c.jobQueue.unlink }, phase := some (.jobStart old e) }) ∨
      (∃ old e, ph = .jobStart old e ∧ flushStep is c ph
          = { cell := { c with started := c.started ++ [e.ticket] },
              phase := some (.running old e.ticket is) }) ∨
      (∃ old n rest, ph = .running old n (.markForDelete :: rest) ∧ flushStep is c ph
          = { cell := { c with markedForDelete := true,
                               markedBy := if c.markedForDelete then c.markedBy else some n },
              phase := some (.running old n rest) }) ∨
      (∃ old n, ph = .running old n [] ∧ flushStep is c ph
          = { cell := { c with finished := c.finished ++ [n] }, phase := some (.afterJob old) }) ∨
      (ph = .delete ∧ flushStep is c ph
          = { cell := { c with jobQueue := {}, deletes := c.deletes + 1 }, phase := none }) := by
  cases ph with
  | jobUnlink old =>
    cases hq : c.jobQueue.items with
    | nil => left; simp [flushStep, hq]
    | cons e rest => exact .inr (.inl ⟨old, e, rest, rfl, rfl, by simp [flushStep, hq]⟩)
  | jobStart old e => exact .inr (.inr (.inl ⟨old, e, rfl, rfl⟩))
  | running old n is' =>
    cases is' using Instr.list_cases with
    | nil => exact .inr (.inr (.inr (.inr (.inl ⟨old, n, rfl, rfl⟩))))
    | markForDelete rest => exact .inr (.inr (.inr (.inl ⟨old, n, rest, rfl, rfl⟩)))
    | setJobThread t rest | postJob o j rest => exact .inl ⟨rfl, rfl, rfl, rfl⟩
  | delete => exact .inr (.inr (.inr (.inr (.inr ⟨rfl, rfl⟩))))
  | recheckCas => left; cases hp : c.processing <;> simp [flushStep, hp, stageOf]
  | handOver r | reRegister r => cases r <;> exact .inl ⟨rfl, rfl, rfl, rfl⟩
  | flushLoadMarked | jobDequeue old | afterJob old | checkThread old | loadCount | checkMarked =>
    left; refine ⟨rfl, rfl, rfl, ?_⟩; simp only [flushStep]; split <;> rfl
  | loadOldThread | jobDequeueFail old | storeFalse => exact .inl ⟨rfl, rfl, rfl, rfl⟩

/-- No step of `Flush` touches what has entered. -/
theorem entered_flushStep (is : List (Instr T O J)) (c : Cell T J) (ph : Phase T O J) :
    (flushStep is c ph).cell.entered = c.entered := by
  rcases ledger_flushStep is c ph with ⟨hl, -⟩ | ⟨old, e, rest, -, -, hr⟩ | ⟨old, e, -, hr⟩ |
    ⟨old, n, rest, -, hr⟩ | ⟨old, n, -, hr⟩ | ⟨-, hr⟩
  · rw [hl]
  all_goals rw [hr]

/-- Only `delete jobObj` counts a deletion, and it ends the iteration. -/
theorem deletes_flushStep (is : List (Instr T O J)) (c : Cell T J) (ph : Phase T O J) :
    (flushStep is c ph).cell.deletes = c.deletes ∨
      ph = .delete ∧ (flushStep is c ph).cell.deletes = c.deletes + 1 ∧
        (flushStep is c ph).phase = none := by
  rcases ledger_flushStep is c ph with ⟨hl, -⟩ | ⟨old, e, rest, -, -, hr⟩ | ⟨old, e, -, hr⟩ |
    ⟨old, n, rest, -, hr⟩ | ⟨old, n, -, hr⟩ | ⟨rfl, hr⟩
  · left; rw [hl]
  · left; rw [hr]
  · left; rw [hr]
  · left; rw [hr]
  · left; rw [hr]
  · right; exact ⟨rfl, rfl, rfl⟩

theorem deletes_postStep (c : Cell T J) (f : PostCall T J) :
    (postStep c f).1.deletes = c.deletes := by
  obtain ⟨j, pc⟩ := f
  cases pc with
  | loadMarked => simp only [postStep]; split <;> rfl
  | link | count n => rfl
  | cas n => simp only [postStep]; split <;> rfl
  | register n r => cases r <;> rfl

/-- **The order invariant** of one object: its progress, and that the ticket of a `PostJob` call in
    flight is that of a job that has entered. -/
structure InOrder (v : View T P O J) : Prop where
  progress : Progress v.cell v.stage
  calls : ∀ a f n, v.frame a = some f → f.pc.ticket = some n → n < v.cell.entered.length

namespace InOrder

theorem initial (t : T) : InOrder (View.initial t : View T P O J) where
  progress := by
    have hidle : (View.initial t : View T P O J).stage = .idle := soleStage_eq (t := t) fun _ _ => rfl
    rw [hidle]
    exact .new t
  calls a f n h := by cases h

theorem enter {v : View T P O J} (L : InOrder v) {a : T ⊕ P} (h : v.frame a = none) (j : J) :
    InOrder (v.enter a j) where
  progress := L.progress
  calls := by
    intro a' f n hf hn
    by_cases ha : a' = a
    · subst ha
      obtain rfl : PostCall.enter j = f := by simpa [View.enter] using hf
      cases hn
    · exact L.calls a' f n (by simpa [View.enter, ha] using hf) hn

theorem take {v : View T P O J} (L : InOrder v) {t : T} (h : v.loop t = none) :
    InOrder (v.take t) where
  progress := by
    have hstage : (v.take t).stage = v.stage :=
      View.stage_congr (stageOf_update (by rw [h]; rfl))
    rw [hstage]
    exact L.progress
  calls := L.calls

theorem post {v : View T P O J} (L : InOrder v) {a : T ⊕ P} {f : PostCall T J}
    (h : v.frame a = some f) : InOrder (v.post a f) := by
  have hf : ∀ n, f.pc.ticket = some n → n < v.cell.entered.length := fun n => L.calls a f n h
  obtain ⟨-, hent, -, htick⟩ := Progress.ledger_postStep v.cell f hf
  have hlen : v.cell.entered.length ≤ (postStep v.cell f).1.entered.length := by
    rcases hent with ⟨he, -⟩ | ⟨he, -⟩ <;> simp [he]
  exact {
    progress := L.progress.post hf
    calls := by
      intro a' f' n hf' hn
      by_cases ha : a' = a
      · subst ha; exact htick f' (by simpa [View.post] using hf') n hn
      · exact lt_of_lt_of_le (L.calls a' f' n (by simpa [View.post, ha] using hf') hn) hlen }

variable [Fintype T] [Fintype P]

theorem flush {v : View T P O J} (I : Owned v) (L : InOrder v) {t : T} {ph : Phase T O J}
    (h : v.loop t = some ph) (is : List (Instr T O J)) : InOrder (v.flush t is ph) := by
  have hcalls : ∀ a f n, v.frame a = some f → f.pc.ticket = some n →
      n < (flushStep is v.cell ph).cell.entered.length := by
    rw [entered_flushStep]; exact L.calls
  refine ⟨?_, hcalls⟩
  have hold := L.progress
  -- a thread that drains the object is the one whose stage counts
  have hnow : 0 < ph.draining → v.stage = stageOf (some ph) ∧
      ∀ is ph', (v.flush t is ph').stage = stageOf (flushStep is v.cell ph').phase := by
    intro hd
    have := I.stage_eq (t := t) (by rw [h]; exact hd)
    rwa [h] at this
  show Progress (flushStep is v.cell ph).cell (v.flush t is ph).stage
  rcases ledger_flushStep is v.cell ph with ⟨hled, hitems, hmark, hst⟩ | ⟨old, e, rest, rfl, hq, hr⟩ |
    ⟨old, e, rfl, hr⟩ | ⟨old, n, rest, rfl, hr⟩ | ⟨old, n, rfl, hr⟩ | ⟨rfl, hr⟩
  · -- nothing happens to the jobs
    have hstage : (v.flush t is ph).stage = v.stage :=
      View.stage_congr (stageOf_update (by rw [hst, h]))
    rw [hstage]
    exact hold.congr hled hitems hmark
  · obtain ⟨h₁, h₂⟩ := hnow Nat.one_pos
    rw [h₁] at hold
    rw [h₂, hr]
    exact Progress.takeOut hold (hold.unmarked (I.loop t _ h).2.2) hq
  · obtain ⟨h₁, h₂⟩ := hnow Nat.one_pos
    rw [h₁] at hold
    rw [h₂, hr]
    exact Progress.call hold (I.loop t _ h).2.2
  · obtain ⟨h₁, h₂⟩ := hnow Nat.one_pos
    rw [h₁] at hold
    rw [h₂, hr]
    exact Progress.mark hold
  · obtain ⟨h₁, h₂⟩ := hnow Nat.one_pos
    rw [h₁] at hold
    rw [h₂, hr]
    exact Progress.ret hold
  · have hstage : (v.flush t is .delete).stage = v.stage :=
      View.stage_congr (stageOf_update (by rw [hr, h]; rfl))
    rw [hstage, hr]
    exact hold.delete (I.loop t _ h)

/-- **The step lemma.** -/
theorem step {v v' : View T P O J} (I : Owned v) (L : InOrder v) (h : View.Step v v') :
    InOrder v' := by
  cases h with
  | enter a j h => exact L.enter h j
  | post a f h => exact L.post h
  | take t h hq => exact L.take h
  | flush t is ph h => exact L.flush I h is
  | selfCall t is ph j h hf _ => exact (L.flush I h is).enter hf j

end InOrder

variable [Fintype T] [Fintype P]

/-- **The run lemma.** -/
theorem InOrder.of_reachable {t : T} {v : View T P O J} (h : Reachable (View.system t) v) :
    InOrder v := by
  apply h.invariant (I := InOrder)
  · rintro v rfl
    exact .initial t
  · intro v v' hr L hs
    exact L.step (.of_reachable hr) hs

theorem inOrder_reachable {prog : Program T O J W K} {s : Sys T P O J W}
    (h : Reachable (prog.system P) s) (o : O) : InOrder (s.view o) :=
  .of_reachable (view_reachable h o)

/-- Only a marked object has been deleted. -/
theorem marked_of_deletes {prog : Program T O J W K} {s : Sys T P O J W}
    (h : Reachable (prog.system P) s) {o : O} (hd : 0 < (s.cells o).deletes) :
    (s.cells o).markedForDelete = true := by
  by_contra hu
  have hzero : (s.cells o).deletes = 0 :=
    (inOrder_reachable h o).progress.unmarked (by simpa [Sys.view] using hu)
  omega

/-- The job a thread is about to call is the first of those that entered and were not called. -/
theorem next_job {prog : Program T O J W K} {s : Sys T P O J W} (h : Reachable (prog.system P) s)
    {t old : T} {o : O} {e : Entry J} (hl : s.loops t = .busy o (.jobStart old e)) :
    e.ticket = (s.cells o).started.length ∧
      (s.cells o).entered[(s.cells o).started.length]? = some e.job := by
  have hv := view_loop_eq_some.mpr hl
  have hstage : (s.view o).stage = .taken e := by
    rw [(owned_reachable h o).stage_of_hand (t := t) (by rw [hv]; simp [stageOf]), hv]; rfl
  exact ticket_of_getElem? ((inOrder_reachable h o).progress.hand e hstage)

/-! ## The actor guarantee -/

/-- **One owner, one job, in order.**  While an object is unmarked, the places it is in (queues,
    draining `Flush` calls, registrations under way) number one when `m_processing` is set and none
    otherwise, and a queue that holds it is that of the thread `m_pJobThread` names.  So no two of
    its jobs run at once, the jobs called so far are the first that entered, in that order, and the
    next one is called on the thread `m_pJobThread` names at that moment. -/
theorem jobs_are_serialised {prog : Program T O J W K} {s : Sys T P O J W}
    (h : Reachable (prog.system P) s) (o : O) (hu : (s.cells o).markedForDelete = false) :
    ((s.view o).queuedCount + (s.view o).flushCount + (s.view o).registerCount ≤ 1 ∧
      ((s.view o).queuedCount + (s.view o).flushCount + (s.view o).registerCount = 1 ↔
        (s.cells o).processing = true)) ∧
    (∀ t, o ∈ (s.queues t).items → (s.cells o).jobThread = t) ∧
    (∀ t t' old old' n n' is is', s.loops t = .busy o (.running old n is) →
      s.loops t' = .busy o (.running old' n' is') → t = t') ∧
    (s.cells o).started = List.range (s.cells o).started.length ∧
    (∀ t old e, s.loops t = .busy o (.jobStart old e) → (s.cells o).jobThread = t ∧
      e.ticket = (s.cells o).started.length ∧
      (s.cells o).entered[(s.cells o).started.length]? = some e.job) := by
  have I := owned_reachable h o
  have L := inOrder_reachable h o
  have hbusy : (s.view o).tokens = 1 → (s.cells o).processing = true := by
    intro h₁
    by_contra hne
    have h₀ : (s.view o).tokens = 0 := I.idle (by show (s.cells o).processing = false; simpa using hne)
    omega
  refine ⟨⟨I.le_one, hbusy, fun hp => I.busy hp hu⟩, ?_, ?_, L.progress.started, ?_⟩
  · intro t ht
    exact (I.queued t (view_queued_pos.mpr ht)).1
  · intro t t' old old' n n' is is' hl hl'
    exact I.one_drain hl' hl Nat.one_pos Nat.one_pos
  · intro t old e hl
    exact ⟨(I.loop t _ (view_loop_eq_some.mpr hl)).2.1, next_job h hl⟩

/-- A job has re-threaded the object and the hand-over has linked it: one place, thread 1's queue. -/
theorem jobs_are_serialised_duo : ∃ s, Reachable (duo.system (Fin 2)) s ∧
    (s.cells ()).markedForDelete = false ∧ (s.cells ()).processing = true ∧
    () ∈ (s.queues 1).items ∧ (s.cells ()).jobThread = 1 ∧
    (s.view ()).queuedCount + (s.view ()).flushCount + (s.view ()).registerCount = 1 := by
  obtain ⟨s, hr, hp⟩ := duo_reachable (Duo.post 0 .move 8 ++ Duo.run 0 13)
    (fun s => !(s.cells ()).markedForDelete && (s.cells ()).processing && (s.queues 1).items.contains ())
    (by decide)
  simp only [Bool.and_eq_true, Bool.not_eq_true', List.contains_iff_mem] at hp
  obtain ⟨⟨hu, hproc⟩, hmem⟩ := hp
  obtain ⟨⟨-, hone⟩, hqueue, -⟩ := jobs_are_serialised hr () hu
  exact ⟨s, hr, hu, hproc, hmem, hqueue 1 hmem, hone.mpr hproc⟩

end JunCore.Logic
