/-
  How many packets may wait in `send_q_`.

  `SendAsyncImpl` disconnects if there are more than `MAX_SEND_MSG` of them.  It runs only when no send
  is outstanding: a `SendPacket` that finds `send_flag_` set has put its packet into the queue and goes
  away.  While the peer does not read, there is no end to that (`waiting`).

  Where it does not happen that a `SendPacket` goes away from a queue that is too long, the queue is too
  long by no more than the calls of `SendPacket` that are in progress: each of them has put in one packet
  and has still to come to the check.
-/
import JunCore.Network.SendWakeup

set_option linter.unusedVariables false
set_option linter.unusedSectionVars false

namespace JunCore.SessionSteps

open Function Transition Network Counting

/-! ## Who has still to check -/

/-- A thread in `SendPacket`. -/
def Task.inSendPacket : Task → Nat
  | .sendPacket _ => 1
  | _ => 0

/-- A `SendPacket` that has put in its packet, and has not found the flag set, or not checked the size. -/
def Task.unchecked : Task → Nat
  | .sendPacket .count | .sendPacket (.sendAsync .cas) | .sendPacket (.sendAsync .loadCount)
  | .sendPacket (.sendAsync .loadSize) | .sendPacket (.sendAsync .overflow) => 1
  | _ => 0

theorem Task.unchecked_le (task : Task) : task.unchecked ≤ task.inSendPacket := by
  cases task with
  | sendPacket pc =>
    cases pc with
    | sendAsync pc => cases pc <;> first | exact Nat.le_refl _ | exact Nat.zero_le _
    | _ => first | exact Nat.le_refl _ | exact Nat.zero_le _
  | _ => exact Nat.zero_le _

/-- No `SendPacket` finds `send_flag_` set while more than `MAX_SEND_MSG` packets wait, unless the
    session is being disconnected; and no destructor clears `pending_disconnect_` over such a queue. -/
structure Checks {T : Type} (s s' : Sys T) : Prop where
  cas : ∀ t, s.tasks t = some (.sendPacket (.sendAsync .cas)) → s'.tasks t = some .unlock →
    s.cell.pendingDisconnect = true ∨ s.cell.sendQ.items.length ≤ 200
  clear : s.cell.pendingDisconnect = true → s'.cell.pendingDisconnect = false →
    s.cell.sendQ.items.length ≤ 200

/-! ## What a step does to the queue -/

theorem sendAsync_length (ok : Bool) (c : Cell) (pc : SendPc) :
    (sendAsync ok c pc).1.sendQ.items.length ≤ c.sendQ.items.length := by
  cases pc with
  | overflow | noPacket =>
    have hqueue : c.casPending.1.sendQ = c.sendQ := congrArg Outbox.sendQ (casPending_outbox c)
    simp only [sendAsync, hqueue, Nat.le_refl]
  | cas | commit wsa =>
    simp only [sendAsync]
    split <;> exact Nat.le_refl _
  | unlink wsa =>
    cases hitems : c.sendQ.items with
    | nil => simp only [sendAsync, hitems, Nat.le_refl]
    | cons b l =>
      simp only [sendAsync, hitems, LFQueue.unlink_items, List.tail_cons, List.length_cons]
      exact Nat.le_succ _
  | _ => exact Nat.le_refl _

theorem drain_length (c : Cell) (pc : DrainPc) :
    (drain c pc).1.sendQ.items.length ≤ c.sendQ.items.length := by
  cases pc with
  | unlink =>
    cases hitems : c.sendQ.items with
    | nil => simp only [drain, hitems, Nat.le_refl]
    | cons b l =>
      simp only [drain, hitems, LFQueue.unlink_items, List.tail_cons, List.length_cons]
      exact Nat.le_succ _
  | dequeue | dequeueFail => exact Nat.le_refl _

/-- Only a `SendPacket` is in an `Enqueue`. -/
theorem sendPacket_of_phase {task : Task} {pc : PacketPc}
    (h : (∃ b, pc = .link b ∧ task.phase = .link b) ∨ pc = .count ∧ task.phase = .count) :
    task = .sendPacket pc := by
  cases task with
  | sendPacket pc' =>
    rcases h with ⟨b, rfl, hphase⟩ | ⟨rfl, hphase⟩
    · cases pc' with
      | link b' =>
        cases hphase
        rfl
      | _ => cases hphase
    · cases pc' with
      | count => rfl
      | _ => cases hphase
  | delete id lost =>
    cases lost with
    | none => rcases h with ⟨b, -, hphase⟩ | ⟨-, hphase⟩ <;> cases hphase
    | some k => cases k <;> rcases h with ⟨b, -, hphase⟩ | ⟨-, hphase⟩ <;> cases hphase
  | send id pc' | accept id pc' | connect id pc' | destroy pc' =>
    cases pc' <;> rcases h with ⟨b, -, hphase⟩ | ⟨-, hphase⟩ <;> cases hphase
  | _ => rcases h with ⟨b, -, hphase⟩ | ⟨-, hphase⟩ <;> cases hphase

/-- Only `Enqueue` makes the queue longer. -/
theorem SendStep.length_le {ok : Bool} {c : Cell} {p p' : Phase} {o' : Outbox}
    (h : SendStep ok c p o' p') (hlink : ∀ b, p ≠ .link b) :
    o'.sendQ.items.length ≤ c.sendQ.items.length := by
  cases h with
  | link b => exact absurd rfl (hlink b)
  | async pc => exact sendAsync_length ok c pc
  | drain pc => exact drain_length c pc
  | _ => exact Nat.le_refl _

/-- A `SendPacket` that is past its `Enqueue`: who goes away from the check found the flag set, or at most
    `MAX_SEND_MSG` on the counter. -/
theorem sendAsync_unchecked (ok : Bool) (c : Cell) (pc : SendPc) :
    (sendAsync ok c pc).1.pendingDisconnect = true ∨
    (Task.sendPacket (.sendAsync pc)).unchecked
      ≤ (resume (fun pc => .sendPacket (.sendAsync pc)) .unlock (sendAsync ok c pc).2).unchecked ∨
    (pc = .cas ∧ (sendAsync ok c pc).2 = none) ∨
    ((pc = .loadCount ∨ pc = .loadSize) ∧ c.sendQ.nodeCount ≤ 200) := by
  cases pc with
  | cas =>
    cases hflag : c.sendFlag with
    | true =>
      refine .inr (.inr (.inl ⟨rfl, ?_⟩))
      simp only [sendAsync, hflag, if_true]
    | false =>
      refine .inr (.inl ?_)
      simp only [sendAsync, hflag, Bool.false_eq_true, if_false]
      exact Nat.le_refl 1
  | loadCount =>
    by_cases hpos : 0 < c.sendQ.getUseCount
    · refine .inr (.inl ?_)
      simp only [sendAsync, if_pos hpos]
      exact Nat.le_refl 1
    · refine .inr (.inr (.inr ⟨.inl rfl, ?_⟩))
      unfold LFQueue.getUseCount at hpos
      omega
  | loadSize =>
    by_cases hlong : 200 < c.sendQ.getUseCount
    · refine .inr (.inl ?_)
      simp only [sendAsync, if_pos hlong]
      exact Nat.le_refl 1
    · refine .inr (.inr (.inr ⟨.inr rfl, ?_⟩))
      unfold LFQueue.getUseCount at hlong
      omega
  | overflow | noPacket => exact .inl (congrArg Outbox.pending (casPending_outbox c))
  | _ => exact .inr (.inl (Nat.zero_le _))

/-- **One step**, outside of `Set`: the queue does not get longer by more than the calls that have still
    to check, unless a `SendPacket` goes away from the check. -/
theorem run_backlog (ok : Bool) (c : Cell) {task : Task} (hsets : task.phase.sets = false) :
    (task.run ok c).1.pendingDisconnect = true ∨
    (c.pendingDisconnect = false ∧ ((task.run ok c).1.sendQ.items.length + task.unchecked
      ≤ c.sendQ.items.length + weigh Task.unchecked (task.run ok c).2 ∨
    (task.run ok c).1.sendQ.items.length ≤ c.sendQ.items.length ∧
      ((task = .sendPacket (.sendAsync .cas) ∧ (task.run ok c).2 = some .unlock) ∨
      ((task = .sendPacket (.sendAsync .loadCount) ∨ task = .sendPacket (.sendAsync .loadSize)) ∧
        c.sendQ.nodeCount ≤ 200)))) := by
  have hstep := run_sendStep ok c task
  cases hpending : c.pendingDisconnect with
  | true => exact .inl (hstep.pending hsets hpending)
  | false =>
    by_cases hcalls : ∃ pc, task = .sendPacket pc
    · obtain ⟨pc, rfl⟩ := hcalls
      cases pc with
      | link b =>
        refine .inr ⟨rfl, .inl ?_⟩
        show (c.sendQ.items ++ [b]).length + 0 ≤ _ + 1
        rw [List.length_append]
        exact Nat.le_refl _
      | sendAsync pc =>
        have hlength : (sendAsync ok c pc).1.sendQ.items.length ≤ c.sendQ.items.length :=
          sendAsync_length ok c pc
        rcases sendAsync_unchecked ok c pc with hdone | hle | ⟨rfl, hnone⟩ | ⟨hpc, hcount⟩
        · exact .inl hdone
        · exact .inr ⟨rfl, .inl (Nat.add_le_add hlength hle)⟩
        · refine .inr ⟨rfl, .inr ⟨hlength, .inl ⟨rfl, ?_⟩⟩⟩
          show some (resume _ _ (sendAsync ok c .cas).2) = _
          rw [hnone]
          rfl
        · refine .inr ⟨rfl, .inr ⟨hlength, .inr ⟨?_, hcount⟩⟩⟩
          rcases hpc with rfl | rfl
          · exact .inl rfl
          · exact .inr rfl
      | check m | serialize m b =>
        refine .inr ⟨rfl, .inl (Nat.add_le_add ?_ (Nat.zero_le _))⟩
        exact hstep.length_le fun b h => by cases h
      | allocate m => exact .inr ⟨rfl, .inl (Nat.le_refl _)⟩
      | count => exact .inr ⟨rfl, .inl (Nat.le_refl _)⟩
    · have hzero : task.unchecked = 0 := by
        cases task with
        | sendPacket pc => exact absurd ⟨pc, rfl⟩ hcalls
        | _ => rfl
      have hlink : ∀ b, task.phase ≠ .link b := by
        intro b hphase
        exact hcalls ⟨.link b, sendPacket_of_phase (.inl ⟨b, rfl, hphase⟩)⟩
      refine .inr ⟨rfl, .inl ?_⟩
      rw [hzero]
      exact Nat.add_le_add (hstep.length_le hlink) (Nat.zero_le _)

/-! ## Each run -/

variable {T : Type} [DecidableEq T] [Fintype T]

/-- While one `SendPacket` checks, what the others have put in and not counted is theirs to check. -/
theorem lag_le {s : Sys T} (h : Reachable system s) {t : T} {pc : SendPc}
    (ht : s.tasks t = some (.sendPacket (.sendAsync pc))) (hpc : pc = .loadCount ∨ pc = .loadSize) :
    (s.cell.sendQ.items.length : Int) + 1 ≤ s.cell.sendQ.nodeCount + s.sum Task.unchecked := by
  obtain ⟨L, B⟩ := lawful h
  have howns : (phaseOf (s.tasks t)).owns = true := by
    rw [ht]
    rcases hpc with rfl | rfl <;> rfl
  have hrefs := L.refs_pos ht fun pc => by simp
  obtain ⟨-, hothers⟩ := L.sole_owner howns
  have hle : ∀ u, (weigh (fun task => task.phase.lag) (s.tasks u) : Int)
      ≤ (weigh Task.unchecked (s.tasks u) : Nat) := by
    intro u
    rw [weigh_lag]
    by_cases hu : u = t
    · subst hu
      rw [ht]
      rcases hpc with rfl | rfl <;> exact Int.le.intro 1 rfl
    · have hown := hothers u hu
      cases htask : s.tasks u with
      | none => exact Int.le_refl 0
      | some task =>
        rw [htask] at hown
        have hsets : task.phase.sets = false := by
          refine Bool.eq_false_of_not_eq_true fun hsets => ?_
          rcases setting h htask hsets with ⟨pc, rfl⟩ | ⟨hpub, -⟩
          · have := (L.destroying htask).1
            omega
          · have hlate := (blank_reachable h hpub).2 t
            rw [ht] at hlate
            cases hlate
        show task.phase.lag ≤ (task.unchecked : Int)
        cases hphase : task.phase with
        | count =>
          rw [sendPacket_of_phase (.inr ⟨rfl, hphase⟩)]
          exact Int.le_refl 1
        | async pc =>
          have hown : (Phase.async pc).owns = false := hphase ▸ hown
          cases pc with
          | unlink wsa | dequeueFail wsa => cases hown
          | _ => exact Int.natCast_nonneg _
        | drain pc =>
          rw [hphase] at hsets
          cases hsets
        | _ => exact Int.natCast_nonneg _
  have hlt : (weigh (fun task => task.phase.lag) (s.tasks t) : Int)
      < (weigh Task.unchecked (s.tasks t) : Nat) := by
    rw [ht]
    rcases hpc with rfl | rfl <;> exact Int.zero_lt_one
  have hsum : (s.sum fun task => task.phase.lag) < ((s.sum Task.unchecked : Nat) : Int) := by
    rw [show ((s.sum Task.unchecked : Nat) : Int) = ∑ u, ((weigh Task.unchecked (s.tasks u) : Nat) : Int)
      from map_sum (Nat.castAddMonoidHom Int) _ _]
    exact Finset.sum_lt_sum (fun u _ => hle u) ⟨t, Finset.mem_univ t, hlt⟩
  have hlength := queue_length h
  omega

/-- **The backlog.** -/
def Bounded (s : Sys T) : Prop :=
  s.cell.pendingDisconnect = true ∨ s.cell.sendQ.items.length ≤ 200 + s.sum Task.unchecked

/-- A step of a task outside of `Set`. -/
theorem Bounded.run {s : Sys T} (hb : Bounded s) (h : Reachable system s) {t : T} {task : Task}
    (ht : s.tasks t = some task) (ok : Bool) (hsets : task.phase.sets = false)
    (hcas : task = .sendPacket (.sendAsync .cas) → (task.run ok s.cell).2 = some .unlock →
      s.cell.pendingDisconnect = true ∨ s.cell.sendQ.items.length ≤ 200) :
    Bounded (s.after t (task.run ok s.cell)) := by
  have hsum := s.sum_after t (task.run ok s.cell) Task.unchecked
  rw [ht] at hsum
  have hsum : (s.after t (task.run ok s.cell)).sum Task.unchecked + task.unchecked
    = s.sum Task.unchecked + weigh Task.unchecked (task.run ok s.cell).2 := hsum
  rcases run_backlog ok s.cell hsets with hdone | ⟨hpending, hstep⟩
  · exact .inl hdone
  have hlong : s.cell.sendQ.items.length ≤ 200 + s.sum Task.unchecked := by
    refine hb.resolve_left fun htrue => ?_
    rw [hpending] at htrue
    cases htrue
  refine .inr ?_
  show (task.run ok s.cell).1.sendQ.items.length ≤ _
  rcases hstep with hle | ⟨hle, ⟨hcheck, hunlock⟩ | ⟨hcheck, hcount⟩⟩
  · omega
  · have hfew := (hcas hcheck hunlock).resolve_left fun htrue => by
      rw [hpending] at htrue
      cases htrue
    omega
  · have hone : task.unchecked = 1 := by rcases hcheck with rfl | rfl <;> rfl
    have hlag : (s.cell.sendQ.items.length : Int) + 1 ≤ s.cell.sendQ.nodeCount + s.sum Task.unchecked := by
      rcases hcheck with rfl | rfl
      · exact lag_le h ht (.inl rfl)
      · exact lag_le h ht (.inr rfl)
    omega

/-- `Set`, before anything is sent or in the destructor. -/
theorem Bounded.set {s : Sys T} (hb : Bounded s) (h : Reachable system s) {t : T} {task : Task}
    (ht : s.tasks t = some task) (ok : Bool) (hsets : task.phase.sets = true)
    (hclear : s.cell.pendingDisconnect = true → (task.run ok s.cell).1.pendingDisconnect = false →
      s.cell.sendQ.items.length ≤ 200) :
    Bounded (s.after t (task.run ok s.cell)) := by
  have hle : (task.run ok s.cell).1.sendQ.items.length ≤ s.cell.sendQ.items.length := by
    refine (run_sendStep ok s.cell task).length_le fun b hphase => ?_
    rw [hphase] at hsets
    cases hsets
  rcases setting h ht hsets with ⟨pc, rfl⟩ | ⟨hpub, hpub'⟩
  · obtain ⟨-, -, hothers⟩ := (lawful h).1.destroying ht
    have hzero : s.sum Task.unchecked = 0 := by
      refine total_eq_zero fun u => ?_
      by_cases hu : u = t
      · subst hu
        rw [ht]
        rfl
      · rw [hothers u hu]
        rfl
    cases hpending : ((Task.destroy pc).run ok s.cell).1.pendingDisconnect with
    | true => exact .inl hpending
    | false =>
      refine .inr (Nat.le_trans hle ?_)
      rcases hb with htrue | hfew
      · exact Nat.le_trans (hclear htrue hpending) (Nat.le_add_right _ _)
      · omega
  · have hitems := (blank_reachable h hpub).1.items
    refine .inr (Nat.le_trans hle ?_)
    rw [hitems]
    exact Nat.zero_le _

/-- **The step lemma.** -/
theorem Bounded.step {s s' : Sys T} (hb : Bounded s) (h : Reachable system s)
    (hnext : (system.guard Checks).next s s') : Bounded s' := by
  obtain ⟨hnext, hchecks⟩ := hnext
  rcases step_does hnext with ⟨t, r, hdoes, rfl⟩ | ⟨op, chunk, -, -, -, rfl⟩
  · have hsum := s.sum_after t r Task.unchecked
    generalize hpre : s.tasks t = pre at hdoes hsum
    cases hdoes with
    | sendPacket m hpub hrefs | disconnect hpub hrefs =>
      refine hb.imp id fun hle => ?_
      exact Nat.le_trans hle (Nat.add_le_add_left (Nat.le_of_eq hsum.symm) _)
    | @take op n hmem hdone =>
      have hzero : weigh Task.unchecked (some (op.handler n)) = 0 := by
        obtain ⟨id, operation, wsa, room, done⟩ := op
        cases operation with
        | recv | send =>
          show Task.unchecked (if n = 0 then _ else _) = 0
          split <;> rfl
        | accept | connect => rfl
      rw [hzero] at hsum
      refine hb.imp id fun hle => ?_
      exact Nat.le_trans hle (Nat.add_le_add_left (Nat.le_of_eq hsum.symm) _)
    | run task ok =>
      have hme : (s.after t (task.run ok s.cell)).tasks t = (task.run ok s.cell).2 := by
        show update s.tasks t _ t = _
        rw [update_self]
      cases hsets : task.phase.sets with
      | true => exact hb.set h hpre ok hsets hchecks.clear
      | false =>
        refine hb.run h hpre ok hsets fun heq hunlock => ?_
        exact hchecks.cas t (heq ▸ hpre) (hme.trans hunlock)
  · exact hb

/-- **The run lemma.** -/
theorem bounded {s : Sys T} (h : Reachable (system.guard Checks) s) : Bounded s := by
  apply h.invariant (I := Bounded)
  · rintro _ ⟨e, mem, b, hb, t, rfl⟩
    exact .inr (Nat.zero_le _)
  · intro s s' hr hb hnext
    exact hb.step hr.of_guard hnext

/-- **The backlog is bounded** in every run in which no `SendPacket` goes away from a queue that is too
    long because a send is outstanding, and no destructor clears `pending_disconnect_` over one: the
    session is being disconnected, or no more packets wait than `MAX_SEND_MSG` and one for each call of
    `SendPacket` in progress. -/
theorem send_backlog {s : Sys T} (h : Reachable (system.guard Checks) s) :
    s.cell.pendingDisconnect = true ∨
      s.cell.sendQ.items.length ≤ 200 + s.sum Task.inSendPacket := by
  refine (bounded h).imp id fun hle => Nat.le_trans hle (Nat.add_le_add_left ?_ _)
  refine Finset.sum_le_sum fun t _ => ?_
  cases s.tasks t with
  | none => exact Nat.le_refl 0
  | some task => exact task.unchecked_le

/-- Two packets, of which one waits until the other is sent. -/
theorem send_backlog_two : ∃ s : Sys Unit, s.cell.sendQ.items.length = 1 ∧
    (s.cell.pendingDisconnect = true ∨
      s.cell.sendQ.items.length ≤ 200 + s.sum Task.inSendPacket) := by
  obtain ⟨s, hr, hp⟩ := exists_reachable_of_exec (M := system.guard Checks) (served_init ())
    (next_of_gate (M := system) (g := fun s _ => decide (s.cell.sendQ.items.length ≤ 200)) step_next
      fun s s' hfew => ⟨fun _ _ _ => .inr (of_decide_eq_true hfew), fun _ _ => of_decide_eq_true hfew⟩)
    (accepting () ++ .sendPacket () ⟨⟨1, [2]⟩, true⟩ :: goes () 15 ++
      .sendPacket () ⟨⟨1, [2]⟩, true⟩ :: goes () 7)
    (fun s => decide (s.cell.sendQ.items.length = 1)) (by decide)
  exact ⟨s, of_decide_eq_true hp, send_backlog hr⟩

/-! ## A peer that does not read -/

/-- A send is outstanding, `n` packets wait behind it, and nobody is at work. -/
structure Waiting (s : Sys Unit) (n : Nat) : Prop where
  tasks : s.tasks = fun _ => none
  published : s.cell.published = true
  refs : 0 < s.cell.refs
  sock : s.cell.sock = true
  pending : s.cell.pendingDisconnect = false
  flag : s.cell.sendFlag = true
  items : s.cell.sendQ.items.length = n

/-- Another packet is put behind them. -/
theorem Waiting.more {s : Sys Unit} {n : Nat} (hw : Waiting s n) (hr : Reachable system s) :
    ∃ s', Reachable system s' ∧ Waiting s' (n + 1) := by
  obtain ⟨c, tasks⟩ := s
  obtain ⟨htasks, hpub, hrefs, hsock, hpending, hflag, hitems⟩ := hw
  dsimp only at htasks hpub hrefs hsock hpending hflag hitems
  subst htasks
  have hone : c.refs ≠ 0 := Nat.pos_iff_ne_zero.mp hrefs
  have hexec : ∃ s', exec step (.sendPacket () ⟨⟨1, []⟩, true⟩ :: goes () 7) ⟨c, fun _ => none⟩ = some s' ∧
      Waiting s' (n + 1) := by
    refine ⟨⟨{ c with
      buffers := c.buffers + 1
      sendQ := (c.sendQ.link ⟨c.buffers, encode ⟨1, []⟩⟩).increment
      entered := c.entered ++ [⟨c.buffers, encode ⟨1, []⟩⟩] }, fun _ => none⟩, ?_, ?_⟩
    · simp only [exec, step, goes, List.replicate, Sys.reaches, Sys.after, Task.run, sendPacket, sendAsync,
        resume, Cell.drop, hpub, hrefs, hsock, hpending, hflag, hone, Option.isNone_none, Option.map_some,
        Option.bind_some, Option.bind_fun_some, Bool.and_self, Bool.not_true, Bool.or_eq_true,
        Bool.not_eq_eq_eq_not, Bool.true_eq_false, Bool.false_eq_true, decide_true, if_true, if_false,
        or_self, Nat.add_eq_right, add_tsub_cancel_right, update_self, update_idem, update_eq_self]
    · refine ⟨rfl, hpub, hrefs, hsock, hpending, hflag, ?_⟩
      show (c.sendQ.items ++ [_]).length = n + 1
      rw [List.length_append, hitems]
      rfl
  obtain ⟨s', hexec, hw⟩ := hexec
  exact ⟨s', reachable_of_exec step_next _ hr hexec, hw⟩

/-- **There is no end to it**: one thread calls `SendPacket` as often as it likes. -/
theorem waiting (n : Nat) : ∃ s : Sys Unit, Reachable system s ∧ Waiting s n := by
  induction n with
  | zero =>
    obtain ⟨s, hr, hp⟩ := exists_reachable_of_exec (served_init ()) step_next
      (accepting () ++ .sendPacket () ⟨⟨1, [2]⟩, true⟩ :: goes () 15)
      (fun s => (s.tasks ()).isNone && decide (s.cell.published = true ∧ 0 < s.cell.refs ∧
        s.cell.sock = true ∧ s.cell.pendingDisconnect = false ∧ s.cell.sendFlag = true ∧
        s.cell.sendQ.items.length = 0)) (by decide)
    rw [Bool.and_eq_true, Option.isNone_iff_eq_none, decide_eq_true_eq] at hp
    obtain ⟨htasks, hpub, hrefs, hsock, hpending, hflag, hitems⟩ := hp
    exact ⟨s, hr, funext fun _ => htasks, hpub, hrefs, hsock, hpending, hflag, hitems⟩
  | succ n ih =>
    obtain ⟨s, hr, hw⟩ := ih
    exact hw.more hr

/-- **A peer that stops reading**: one thread, and more than `MAX_SEND_MSG` and one packets wait, while
    nobody disconnects. -/
theorem unbounded_backlog : ∃ s : Sys Unit, Reachable system s ∧
    ¬ (s.cell.pendingDisconnect = true ∨ s.cell.sendQ.items.length ≤ 200 + Fintype.card Unit) := by
  obtain ⟨s, hr, hw⟩ := waiting 202
  refine ⟨s, hr, ?_⟩
  rw [hw.pending, hw.items]
  decide

end JunCore.SessionSteps
