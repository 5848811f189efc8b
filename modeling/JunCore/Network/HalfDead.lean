/-
  A session works in both directions, or it is on its way out.

  The receiving goes on as long as each receive is followed by another, the sending as long as the
  completion of each `WSASend` clears the flag.  Where a handler leaves without that, it counts on the
  `OverlappedEx` it deletes: with the last reference the session ends.  If that is not the last, and
  nobody has called `Disconnect`, the session stays as it is: the other direction keeps it alive
  (`half_dead`).  Nothing else brings it there (`never_half_dead`).
-/
import JunCore.Network.SendWakeup
import JunCore.Network.UserLaws

set_option linter.unusedVariables false
set_option linter.unusedSectionVars false

namespace JunCore.SessionSteps

open Function Transition Network Counting

variable {T : Type} [DecidableEq T] [Fintype T]

/-- The end of an operation that nothing follows. -/
def Task.givesUp : Task → Bool
  | .delete _ (some _) => true
  | _ => false

/-- An operation is given up only while the session is disconnecting, or with the last reference. -/
def GivesUp (s s' : Sys T) : Prop :=
  ∀ t, isTask Task.givesUp (s.tasks t) = true → isTask Task.givesUp (s'.tasks t) = false →
    s.cell.pendingDisconnect = true ∨ s.cell.refs = 1

/-- **What was lost has its reason.** -/
structure Alive (s : Sys T) : Prop where
  send : 0 < s.cell.lostSend → s.cell.pendingDisconnect = true ∨ s.cell.refs = 0
  /-- a receive; or the connection, before there was a `User` -/
  recv : 0 < s.cell.lostRecv → s.cell.pendingDisconnect = true ∨ s.cell.refs = 0 ∨
    s.cell.life.times .created = 0

/-- What is pending stays so, except in `Set`. -/
theorem LifeStep.pending {ok : Bool} {c : Cell} {p p' : Stage} {l' : Life}
    (h : LifeStep ok c p l' p') (hends : p.ends = false) (hset : p.isSet = false)
    (hpending : c.pendingDisconnect = true) : l'.pending = true := by
  cases h with
  | cas =>
    unfold Cell.casPending
    rw [if_pos hpending]
    exact hpending
  | set e => cases hset
  | first e pc | recvAsync pc =>
    rcases recvAsync_life ok c pc with heq | ⟨heq, -⟩ <;> rw [heq] <;> exact hpending
  | onUserDisconnect | clearOwner | release | drained pc => cases hends
  | _ => exact hpending

/-- How a receive gets lost. -/
theorem LifeStep.loses {ok : Bool} {c : Cell} {p p' : Stage} {l' : Life}
    (h : LifeStep ok c p l' p') (hends : p.ends = false) :
    l'.lostRecv = c.lostRecv ∨ (∃ k, p = .giveUp k) ∨ (∃ e, p = .coming e) ∨
      p.isSet = false ∧ (c.sock = false ∨ c.pendingDisconnect = true) := by
  cases h with
  | cas =>
    left
    unfold Cell.casPending
    split <;> rfl
  | giveUp k => exact .inr (.inl ⟨k, rfl⟩)
  | failed e => exact .inr (.inr (.inl ⟨e, rfl⟩))
  | first e pc | recvAsync pc =>
    rcases recvAsync_life ok c pc with heq | ⟨-, -, hwhy⟩
    · rw [heq]
      exact .inl rfl
    · exact .inr (.inr (.inr ⟨rfl, hwhy⟩))
  | onUserDisconnect | clearOwner | release | drained pc => cases hends
  | _ => exact .inl rfl

theorem givesUp_of_stage {task : Task} {k : IOOperation} (h : task.stage = .giveUp k) :
    ∃ id, task = .delete id (some k) := by
  have hat := at_stage task
  rw [h] at hat
  cases hat with
  | giveUp htask => exact ⟨_, htask⟩
  | before hp _ | connects hp => cases hp

theorem givesUp_of_phase {task : Task} (h : task.phase = .lost) :
    ∃ id, task = .delete id (some .send) := by
  cases task with
  | delete id lost =>
    cases lost with
    | none => cases h
    | some k =>
      cases k with
      | send => exact ⟨id, rfl⟩
      | recv | accept | connect => cases h
  | sendPacket pc => cases pc <;> cases h
  | send id pc => cases pc <;> cases h
  | accept id pc => cases pc <;> cases h
  | connect id pc => cases pc <;> cases h
  | destroy pc => cases pc <;> cases h
  | post e pc | recv id pc | disconnect pc | unlock => cases h

/-- Giving up, as the guard allows it. -/
theorem Alive.giveUp {s : Sys T} {t : T} {id : Nat} {k : IOOperation} {ok : Bool}
    (ht : s.tasks t = some (.delete id (some k)))
    (hguard : GivesUp s (s.after t ((Task.delete id (some k)).run ok s.cell))) :
    Alive (s.after t ((Task.delete id (some k)).run ok s.cell)) := by
  have hend : s.cell.pendingDisconnect = true ∨ s.cell.refs - 1 = 0 := by
    have hafter : isTask Task.givesUp
        ((s.after t ((Task.delete id (some k)).run ok s.cell)).tasks t) = false := by
      show isTask Task.givesUp (update s.tasks t s.cell.drop.2 t) = false
      rw [update_self]
      exact is_drop (p := Task.givesUp) rfl s.cell
    rcases hguard t (by rw [ht]; rfl) hafter with hpending | hone
    · exact .inl hpending
    · exact .inr (by omega)
  exact ⟨fun _ => hend, fun _ => hend.imp (fun h => h) .inl⟩

/-- A step that gives up nothing. -/
theorem Alive.run {s : Sys T} (A : Alive s) (hr : Reachable system s) {t : T} {task : Task}
    (ht : s.tasks t = some task) {ok : Bool} (hnot : ∀ pc, task ≠ .destroy pc)
    (hkeeps : ∀ id k, task ≠ .delete id (some k)) : Alive (s.after t (task.run ok s.cell)) := by
  obtain ⟨L, -⟩ := lawful hr
  have V := lived hr
  have hrefs : 0 < s.cell.refs := L.refs_pos ht hnot
  have hends : task.stage.ends = false := by
    refine Bool.eq_false_of_not_eq_true fun h => ?_
    obtain ⟨pc, heq⟩ := ends_destroy h
    exact hnot pc heq
  have F : s.cell.life.Fit task.stage := by
    have F := V.stages t
    rwa [ht] at F
  have hstep := run_lifeStep ok s.cell task
  refine ⟨fun hlost => .inl ?_, fun hlost => ?_⟩
  · have hp : task.phase ≠ .lost := by
      intro hp
      obtain ⟨id, heq⟩ := givesUp_of_phase hp
      exact hkeeps id .send heq
    refine (run_sendStep ok s.cell task).pays hp (fun h => ?_) hlost
    exact (A.send h).resolve_right (by omega)
  · have hlost : 0 < (task.run ok s.cell).1.life.lostRecv := hlost
    have hpend : task.stage.isSet = false → s.cell.pendingDisconnect = true →
        (task.run ok s.cell).1.pendingDisconnect = true :=
      fun hset hpending => hstep.pending hends hset hpending
    rcases hstep.loses hends with hsame | ⟨k, hp⟩ | ⟨e, hp⟩ | ⟨hset, hwhy⟩
    · have hlost : 0 < s.cell.lostRecv := hsame ▸ hlost
      -- whoever is on the way to the connection has lost nothing yet
      have hearly : task.early = true → False := by
        intro h
        have := (L.sole_receiver ht (early_receives h)).2.1
        omega
      rcases A.recv hlost with hpending | hzero | hnone
      · refine .inl (hpend (Bool.eq_false_of_not_eq_true fun hset => hearly ?_) hpending)
        refine early_of_before ?_
        cases hp : task.stage with
        | set e => rfl
        | _ =>
          rw [hp] at hset
          cases hset
      · omega
      · rcases hstep.keeps F hends with K | ⟨⟨e, hp⟩, -⟩
        · exact .inr (.inr (K.created.trans hnone))
        · exact (hearly (early_of_before (hp ▸ rfl))).elim
    · obtain ⟨id, heq⟩ := givesUp_of_stage hp
      exact absurd heq (hkeeps id k)
    · right
      right
      rcases hstep.keeps F hends with K | ⟨⟨e', hp'⟩, -⟩
      · exact K.created.trans (hp ▸ F : s.cell.life.Fit (.coming e))
      · rw [hp] at hp'
        cases hp'
    · rcases hwhy with hsock | hpending
      · rw [V.sock hrefs] at hsock
        cases hsock
      · exact .inl (hpend hset hpending)

/-- **The rule for what is lost.** -/
theorem alive {s : Sys T} (h : Reachable (system.guard GivesUp) s) : Alive s := by
  apply h.invariant (I := Alive)
  · rintro _ ⟨e, mem, b, hb, t, rfl⟩
    exact ⟨fun hpos => absurd hpos (Nat.lt_irrefl 0), fun hpos => absurd hpos (Nat.lt_irrefl 0)⟩
  · rintro s s' hg A ⟨hnext, hguard⟩
    have hr : Reachable system s := hg.of_guard
    obtain ⟨L, -⟩ := lawful hr
    rcases step_does hnext with ⟨t, r, hdoes, rfl⟩ | ⟨op, chunk, hmem, hdone, hroom, rfl⟩
    · generalize hpre : s.tasks t = pre at hdoes
      cases hdoes with
      | sendPacket m hpub hrefs | disconnect hpub hrefs =>
        refine ⟨fun hlost => .inl ((A.send hlost).resolve_right (by omega)), fun hlost => ?_⟩
        rcases A.recv hlost with hpending | hzero | hnone
        · exact .inl hpending
        · omega
        · exact .inr (.inr hnone)
      | take hmem hdone => exact ⟨A.send, A.recv⟩
      | run task ok =>
        by_cases hdestroy : ∃ pc, task = .destroy pc
        · obtain ⟨pc, rfl⟩ := hdestroy
          have hzero : (SessionSteps.destroy s.cell pc).1.refs = 0 :=
            (destroy_refs s.cell pc).trans (L.destroying hpre).1
          exact ⟨fun _ => .inr hzero, fun _ => .inr (.inl hzero)⟩
        · by_cases hgives : ∃ id k, task = .delete id (some k)
          · obtain ⟨id, k, rfl⟩ := hgives
            exact .giveUp hpre hguard
          · exact A.run hr hpre (fun pc heq => hdestroy ⟨pc, heq⟩) fun id k heq => hgives ⟨id, k, heq⟩
    · exact ⟨A.send, A.recv⟩

/-! ## Both directions -/

/-- What a thread does for a completion, or in `SendPacket`. -/
def Task.works : Task → Bool
  | .post _ _ | .disconnect _ | .unlock | .destroy _ => false
  | _ => true

theorem works_of_holds {task : Task} (h : 0 < task.sends ∨ 0 < task.receives) :
    task.works = true ∨ task.early = true := by
  cases task with
  | post e pc => exact .inr rfl
  | disconnect pc | unlock | destroy pc => rcases h with h | h <;> cases h
  | _ => exact .inl rfl

/-- What is outstanding in a session that has grown. -/
theorem length_outstanding_recv {c : Cell} (h : ∀ op ∈ c.ops, op.early = false) :
    (c.outstanding .recv).length = (c.ops.map fun op => lostRecvs (some op.operation)).sum := by
  unfold Cell.outstanding
  generalize c.ops = l at h
  induction l with
  | nil => rfl
  | cons op l ih =>
    have hop := h op List.mem_cons_self
    rw [List.map_cons, List.sum_cons, ← ih fun o ho => h o (List.mem_cons_of_mem _ ho),
      List.filter_cons]
    obtain ⟨id, operation, wsa, room, done⟩ := op
    cases operation with
    | recv => exact Nat.add_comm _ 1
    | send => exact (Nat.zero_add _).symm
    | accept | connect => cases hop

/-- **No half-dead session**, unless an operation was given up with nobody to notice. -/
theorem never_half_dead {s : Sys T} (h : Reachable (system.guard GivesUp) s)
    (hidle : ∀ t, isTask Task.works (s.tasks t) = false) (hconnected : s.cell.published = true)
    (hrefs : 0 < s.cell.refs) (hpending : s.cell.pendingDisconnect = false) :
    (s.cell.outstanding .recv).length = 1 ∧
      (s.cell.sendFlag = true ↔ (s.cell.outstanding .send).length = 1) := by
  have hr : Reachable system s := h.of_guard
  obtain ⟨L, B⟩ := lawful hr
  have G := B (.inl hconnected)
  have A := alive h
  have hholds : ∀ t, weigh Task.sends (s.tasks t) = 0 ∧ weigh Task.receives (s.tasks t) = 0 := by
    intro t
    have hwork := hidle t
    have hearly := G.tasks t
    cases htask : s.tasks t with
    | none => exact ⟨rfl, rfl⟩
    | some task =>
      rw [htask] at hwork hearly
      by_contra hsome
      have hholds : 0 < task.sends ∨ 0 < task.receives := by
        have hsome : ¬ (task.sends = 0 ∧ task.receives = 0) := hsome
        omega
      rcases works_of_holds hholds with hyes | hyes
      · exact absurd (hyes.symm.trans hwork) nofun
      · exact absurd (hyes.symm.trans hearly) nofun
  have hsends : s.sum Task.sends = 0 := total_eq_zero fun t => (hholds t).1
  have hreceives : s.sum Task.receives = 0 := total_eq_zero fun t => (hholds t).2
  have hlostSend : s.cell.lostSend = 0 := by
    refine Nat.eq_zero_of_not_pos fun hlost => ?_
    rcases A.send hlost with hyes | hzero
    · exact absurd (hyes.symm.trans hpending) nofun
    · omega
  have hlostRecv : s.cell.lostRecv = 0 := by
    refine Nat.eq_zero_of_not_pos fun hlost => ?_
    rcases A.recv hlost with hyes | hzero | hnone
    · exact absurd (hyes.symm.trans hpending) nofun
    · omega
    · exact absurd (((lived hr).published hconnected).symm.trans hnone) nofun
  have hlaw := L.receives
  rw [← length_outstanding_recv G.ops, hlostRecv, hreceives] at hlaw
  have hflag := L.sends
  rw [← length_outstanding_send, hlostSend, hsends] at hflag
  refine ⟨hlaw.symm, ?_⟩
  cases hset : s.cell.sendFlag with
  | true =>
    rw [hset] at hflag
    exact ⟨fun _ => hflag.symm, fun _ => rfl⟩
  | false =>
    rw [hset] at hflag
    have hflag : 0 = (s.cell.outstanding .send).length := hflag
    exact ⟨nofun, fun hone => by omega⟩

def ownUp (s s' : Sys Unit) : Bool :=
  !(isTask Task.givesUp (s.tasks ())) || isTask Task.givesUp (s'.tasks ()) ||
    s.cell.pendingDisconnect || decide (s.cell.refs = 1)

theorem ownUp_spec (s s' : Sys Unit) (h : ownUp s s' = true) : GivesUp s s' := by
  intro t hbefore hafter
  rw [ownUp, hbefore, hafter] at h
  simpa using h

/-- The session of a server, connected and at rest. -/
theorem never_half_dead_connected : ∃ s : Sys Unit, (s.cell.outstanding .recv).length = 1 ∧
    (s.cell.sendFlag = true ↔ (s.cell.outstanding .send).length = 1) := by
  obtain ⟨s, hr, hp⟩ := exists_reachable_of_exec (M := system.guard GivesUp) (served_init ())
    (next_of_gate (M := system) step_next ownUp_spec) (accepting ())
    (fun s => !(isTask Task.works (s.tasks ())) && decide (s.cell.published = true ∧
      0 < s.cell.refs ∧ s.cell.pendingDisconnect = false)) (by decide)
  rw [Bool.and_eq_true, Bool.not_eq_true', decide_eq_true_eq] at hp
  obtain ⟨hidle, hconnected, hrefs, hpending⟩ := hp
  exact ⟨s, never_half_dead hr (fun t => hidle) hconnected hrefs hpending⟩

/-- The peer sends a header of zeros while a `WSASend` is outstanding. -/
def malformed : List (Act Unit) :=
  accepting () ++ .sendPacket () ⟨⟨1, [2]⟩, true⟩ :: goes () 15 ++
    .complete (recvOp 1 8191) (List.replicate 8 0) ::
    .take () { recvOp 1 8191 with done := some 8 } :: goes () 3

/-- **A half-dead session**: it is at rest, referenced and not disconnecting, a send is outstanding, and
    nobody receives. -/
theorem half_dead : ∃ s : Sys Unit, Reachable system s ∧
    (∀ t, isTask Task.works (s.tasks t) = false) ∧ s.cell.published = true ∧ 0 < s.cell.refs ∧
    s.cell.pendingDisconnect = false ∧ (s.cell.outstanding .recv).length = 0 := by
  obtain ⟨s, hr, hp⟩ := exists_reachable_of_exec (served_init ()) step_next malformed
    (fun s => !(isTask Task.works (s.tasks ())) && decide (s.cell.published = true ∧
      0 < s.cell.refs ∧ s.cell.pendingDisconnect = false ∧
      (s.cell.outstanding .recv).length = 0)) (by decide)
  rw [Bool.and_eq_true, Bool.not_eq_true', decide_eq_true_eq] at hp
  exact ⟨s, hr, fun t => hp.1, hp.2⟩

end JunCore.SessionSteps
