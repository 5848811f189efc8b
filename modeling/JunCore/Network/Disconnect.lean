/-
  What `Disconnect` reaches, and what it does not.

  `Disconnect` sets `pending_disconnect_` and then calls `CancelIoEx`, once for the whole session.  So
  whoever sees the flag knows that the call has been made, or is about to be (`Cancels`); and when it
  has been made, every operation of that moment is complete.  If nothing is posted after it, the
  session ends as soon as all completions are handled (`disconnect_ends`).

  `RecvAsync` and `SendAsync` look at the flag before they post, and not while they do.  A thread that
  has passed the check posts its operation after the one and only `CancelIoEx`, and nothing aborts that
  operation any more (`survives_disconnect`).
-/
import JunCore.Network.HalfDead

set_option linter.unusedVariables false
set_option linter.unusedSectionVars false

namespace JunCore.SessionSteps

open Function Transition Network Counting

variable {T : Type} [DecidableEq T] [Fintype T]

/-! ## The call of `CancelIoEx` -/

/-- Somebody has called `CancelIoEx`, or is about to. -/
def Cancelling (s : Sys T) : Prop :=
  .cancelled ∈ s.cell.log ∨ ∃ t, stageOf (s.tasks t) = .cancel

/-- **Whoever has set the flag calls `CancelIoEx`.** -/
structure Cancels (s : Sys T) : Prop where
  pending : s.cell.pendingDisconnect = true → s.cell.refs = 0 ∨ Cancelling s
  returned : .disconnected ∈ s.cell.log → Cancelling s

/-- What the log keeps. -/
theorem LifeStep.log {ok : Bool} {c : Cell} {p p' : Stage} {l' : Life}
    (h : LifeStep ok c p l' p') : ∃ m, l'.log = c.log ++ m := by
  cases h with
  | cas =>
    unfold Cell.casPending
    split
    · exact ⟨_, rfl⟩
    · exact ⟨[], (List.append_nil _).symm⟩
  | cancel | newUser _ | inCallback _ | handle _ _ | inHandler _ => exact ⟨_, rfl⟩
  | first e pc | recvAsync pc =>
    rcases recvAsync_life ok c pc with heq | ⟨heq, -⟩ <;> rw [heq] <;>
      exact ⟨[], (List.append_nil _).symm⟩
  | onUserDisconnect =>
    simp only [destroy]
    split
    · exact ⟨_, rfl⟩
    · exact ⟨[], (List.append_nil _).symm⟩
  | _ => exact ⟨[], (List.append_nil _).symm⟩

/-- Who sets the flag, and who returns from `Disconnect`. -/
theorem LifeStep.cancels {ok : Bool} {c : Cell} {p p' : Stage} {l' : Life}
    (h : LifeStep ok c p l' p') (hcancel : p ≠ .cancel) :
    (l'.pending = true → c.pendingDisconnect = true ∨ p' = .cancel) ∧
    (.cancelled ∈ l'.log → .cancelled ∈ c.log) ∧
    (.disconnected ∈ l'.log → .disconnected ∈ c.log ∨ c.pendingDisconnect = true ∧ p = .other) := by
  have hsame : (c.life.pending = true → c.pendingDisconnect = true ∨ p' = .cancel) ∧
      (.cancelled ∈ c.life.log → .cancelled ∈ c.log) ∧
      (.disconnected ∈ c.life.log → .disconnected ∈ c.log ∨ c.pendingDisconnect = true ∧ p = .other) :=
    ⟨.inl, id, .inl⟩
  -- a log that only gets an entry of another kind
  have hlog : ∀ m : List Event, .cancelled ∉ m → .disconnected ∉ m →
      (.cancelled ∈ c.log ++ m → .cancelled ∈ c.log) ∧
      (.disconnected ∈ c.log ++ m →
        .disconnected ∈ c.log ∨ c.pendingDisconnect = true ∧ p = .other) := by
    intro m h₁ h₂
    exact ⟨fun h => (List.mem_append.mp h).resolve_right h₁,
      fun h => .inl ((List.mem_append.mp h).resolve_right h₂)⟩
  cases h with
  | cas =>
    unfold Cell.casPending
    split
    · rename_i hpending
      refine ⟨fun _ => .inl hpending, fun h => ?_, fun _ => .inr ⟨hpending, rfl⟩⟩
      exact (List.mem_append.mp h).resolve_right (by simp)
    · exact ⟨fun _ => .inr rfl, id, .inl⟩
  | cancel => exact absurd rfl hcancel
  | newUser e => exact ⟨.inl, hlog [.created] (by decide) (by decide)⟩
  | inCallback e => exact ⟨.inl, hlog [.connected] (by decide) (by decide)⟩
  | handle huser hpacket => exact ⟨.inl, hlog [.handling] (by decide) (by decide)⟩
  | inHandler k => exact ⟨.inl, hlog [.handled] (by decide) (by decide)⟩
  | set e | release => exact ⟨fun h => absurd h Bool.false_ne_true, id, .inl⟩
  | first e pc | recvAsync pc =>
    rcases recvAsync_life ok c pc with heq | ⟨heq, -⟩ <;> rw [heq] <;> exact ⟨.inl, id, .inl⟩
  | onUserDisconnect =>
    simp only [destroy]
    split
    · rename_i e _ _
      exact ⟨.inl, hlog e.onUserDisconnect (by cases e <;> decide) (by cases e <;> decide)⟩
    · exact ⟨.inl, id, .inl⟩
  | _ => exact hsame

/-- Somebody stays on the way to `CancelIoEx`. -/
theorem Cancelling.after {s : Sys T} {t : T} {r : Cell × Option Task} (h : Cancelling s)
    (hme : stageOf (s.tasks t) ≠ .cancel) (hlog : .cancelled ∈ s.cell.log → .cancelled ∈ r.1.log) :
    Cancelling (s.after t r) := by
  refine h.imp hlog ?_
  rintro ⟨u, hu⟩
  refine ⟨u, ?_⟩
  show stageOf (update s.tasks t r.2 u) = .cancel
  rw [update_of_ne]
  · exact hu
  · rintro rfl
    exact hme hu

theorem Cancels.run {s : Sys T} (A : Cancels s) (hr : Reachable system s) {t : T} {task : Task}
    (ht : s.tasks t = some task) (ok : Bool) : Cancels (s.after t (task.run ok s.cell)) := by
  obtain ⟨L, -⟩ := lawful hr
  have hstep := run_lifeStep ok s.cell task
  obtain ⟨m, hm⟩ := hstep.log
  have hlog : .cancelled ∈ s.cell.log → .cancelled ∈ (task.run ok s.cell).1.log := by
    intro h
    rw [show (task.run ok s.cell).1.log = s.cell.log ++ m from hm]
    exact List.mem_append_left m h
  have hstage : stageOf (s.tasks t) = task.stage := by
    rw [ht]
    rfl
  by_cases hcancel : task.stage = .cancel
  · have hdone : Cancelling (s.after t (task.run ok s.cell)) := by
      left
      show .cancelled ∈ (task.run ok s.cell).1.life.log
      rw [hcancel] at hstep
      generalize stageOf (task.run ok s.cell).2 = p' at hstep
      generalize (task.run ok s.cell).1.life = l' at hstep
      cases hstep
      exact List.mem_append_right _ List.mem_cons_self
    exact ⟨fun _ => .inr hdone, fun _ => hdone⟩
  · have hme : stageOf (s.tasks t) ≠ .cancel := by rwa [hstage]
    obtain ⟨hpending, -, hreturned⟩ := hstep.cancels hcancel
    have hkeep : s.cell.pendingDisconnect = true → s.cell.refs = 0 ∨
        Cancelling (s.after t (task.run ok s.cell)) :=
      fun h => (A.pending h).imp id fun h => h.after hme hlog
    refine ⟨fun h => ?_, fun h => ?_⟩
    · rcases hpending h with hold | hnew
      · refine (hkeep hold).imp (fun hzero => ?_) id
        obtain ⟨pc, rfl⟩ := (L.unreferenced hzero).2 t task ht
        exact (destroy_refs s.cell pc).trans hzero
      · right
        right
        refine ⟨t, ?_⟩
        show stageOf (update s.tasks t _ t) = .cancel
        rwa [update_self]
    · rcases hreturned h with hold | ⟨hold, hother⟩
      · exact (A.returned hold).after hme hlog
      · refine (hkeep hold).resolve_left fun hzero => ?_
        obtain ⟨pc, rfl⟩ := (L.unreferenced hzero).2 t task ht
        cases hother

/-- **The rule for the call.** -/
theorem cancels {s : Sys T} (h : Reachable system s) : Cancels s := by
  apply h.invariant (I := Cancels)
  · rintro _ ⟨e, mem, b, hb, t, rfl⟩
    exact ⟨nofun, fun h => absurd h List.not_mem_nil⟩
  · intro s s' hr A hnext
    rcases step_does hnext with ⟨t, r, hdoes, rfl⟩ | ⟨op, chunk, hmem, hdone, hroom, rfl⟩
    · generalize hpre : s.tasks t = pre at hdoes
      have hme : pre = none → stageOf (s.tasks t) ≠ .cancel := by
        rintro rfl
        rw [hpre]
        exact nofun
      cases hdoes with
      | sendPacket m hpub hrefs | disconnect hpub hrefs =>
        refine ⟨fun h => .inr ?_, fun h => (A.returned h).after (hme rfl) id⟩
        exact ((A.pending h).resolve_left (by omega)).after (hme rfl) id
      | take hmem hdone =>
        exact ⟨fun h => (A.pending h).imp id fun h => h.after (hme rfl) id,
          fun h => (A.returned h).after (hme rfl) id⟩
      | run task ok => exact A.run hr hpre ok
    · exact ⟨A.pending, A.returned⟩

/-! ## What it aborts -/

theorem cancel_ops {task : Task} (h : task.stage = .cancel) (ok : Bool) (c : Cell) :
    (task.run ok c).1.ops = c.ops.map Op.abort := by
  have hat := at_stage task
  rw [h] at hat
  cases hat with
  | cancel htask =>
    rcases htask with hpc | rfl
    · rw [run_async hpc]
      rfl
    · rfl
  | before hp _ | connects hp => cases hp

theorem abort_done (op : Op) : op.abort.done ≠ none := by
  unfold Op.abort
  split
  · exact nofun
  · rename_i hdone
    exact hdone

/-- The system accepts no operation after `CancelIoEx`. -/
def PostsInTime (s s' : Sys T) : Prop :=
  .cancelled ∈ s.cell.log → ∀ op ∈ s'.cell.ops, op.done = none → op ∈ s.cell.ops

/-- After `CancelIoEx`, whatever the system still holds has completed. -/
theorem aborted {s : Sys T} (h : Reachable (system.guard PostsInTime) s) :
    .cancelled ∈ s.cell.log → ∀ op ∈ s.cell.ops, op.done ≠ none := by
  apply h.invariant (I := fun s => .cancelled ∈ s.cell.log → ∀ op ∈ s.cell.ops, op.done ≠ none)
  · rintro _ ⟨e, mem, b, hb, t, rfl⟩ hlog
    exact absurd hlog List.not_mem_nil
  · rintro s s' hg ih ⟨hnext, hguard⟩ hlog op hop hnone
    by_cases hold : .cancelled ∈ s.cell.log
    · exact ih hold op (hguard hold op hop hnone) hnone
    rcases step_does hnext with ⟨t, r, hdoes, rfl⟩ | ⟨o, chunk, -, -, -, rfl⟩
    · generalize s.tasks t = pre at hdoes
      cases hdoes with
      | sendPacket m hpub hrefs | disconnect hpub hrefs | take hmem hdone => exact hold hlog
      | run task ok =>
        by_cases hcancel : task.stage = .cancel
        · have hop : op ∈ s.cell.ops.map Op.abort := cancel_ops hcancel ok s.cell ▸ hop
          obtain ⟨o, -, rfl⟩ := List.mem_map.mp hop
          exact abort_done o hnone
        · exact hold (((run_lifeStep ok s.cell task).cancels hcancel).2.1 hlog)
    · exact hold hlog

/-- **`Disconnect` ends the session**: once it has returned, nothing is in progress and every completion
    is handled, no operation is left, nobody references the session, its destructor has returned, and
    `OnUserDisconnect` was called. -/
theorem disconnect_ends {s : Sys T} (h : Reachable (system.guard PostsInTime) s)
    (hreturned : .disconnected ∈ s.cell.log) (hidle : ∀ t, s.tasks t = none)
    (hhandled : ∀ op ∈ s.cell.ops, op.done = none) :
    s.cell.ops = [] ∧ s.cell.refs = 0 ∧ s.cell.destroyed = 1 ∧
      s.cell.log.count .userDisconnected = 1 := by
  have hr : Reachable system s := h.of_guard
  obtain ⟨L, -⟩ := lawful hr
  have V := lived hr
  have hcancelled : .cancelled ∈ s.cell.log := by
    refine ((cancels hr).returned hreturned).resolve_right ?_
    rintro ⟨t, ht⟩
    rw [hidle t] at ht
    cases ht
  have hops : s.cell.ops = [] := by
    refine List.eq_nil_iff_forall_not_mem.mpr fun op hop => ?_
    exact aborted h hcancelled op hop (hhandled op hop)
  have hnone : ∀ w : Task → Nat, s.sum w = 0 := fun w => total_eq_zero fun t => by
    rw [hidle t]
    rfl
  have hrefs : s.cell.refs = 0 := by
    have hlaw := L.refs
    rw [hops, hnone] at hlaw
    exact hlaw
  have hlife : 1 = s.cell.destroyed := by
    have hlaw := L.life
    rw [hrefs, hnone] at hlaw
    have hlaw : 1 = 0 + s.cell.destroyed + 0 := hlaw
    omega
  have hpub : s.cell.published = true := by
    cases hpub : s.cell.published with
    | true => rfl
    | false => exact absurd hreturned (blank_reachable hr hpub).1.disconnected
  exact ⟨hops, hrefs, hlife.symm, (V.gone (by omega)).trans (V.published hpub)⟩

def inTime (s s' : Sys Unit) : Bool :=
  !(s.cell.log.contains .cancelled) ||
    s'.cell.ops.all fun op => op.done.isSome || s.cell.ops.contains op

theorem inTime_spec (s s' : Sys Unit) (h : inTime s s' = true) : PostsInTime s s' := by
  intro hlog op hop hnone
  rw [inTime, List.contains_iff_mem.mpr hlog] at h
  have hop := List.all_eq_true.mp h op hop
  rw [hnone] at hop
  exact List.contains_iff_mem.mp hop

/-- The application disconnects, and the worker handles the aborted receive. -/
theorem disconnect_ends_idle : ∃ s : Sys Unit, s.cell.ops = [] ∧
    s.cell.log.count .userDisconnected = 1 := by
  obtain ⟨s, hr, hp⟩ := exists_reachable_of_exec (M := system.guard PostsInTime) (served_init ())
    (next_of_gate (M := system) step_next inTime_spec)
    (accepting () ++ .disconnect () :: goes () 3 ++
      .take () { recvOp 1 8191 with done := some 0 } :: goes () 6)
    (fun s => (s.tasks ()).isNone && decide (.disconnected ∈ s.cell.log ∧
      ∀ op ∈ s.cell.ops, op.done = none)) (by decide)
  rw [Bool.and_eq_true, Option.isNone_iff_eq_none, decide_eq_true_eq] at hp
  obtain ⟨hnone, hreturned, hhandled⟩ := hp
  obtain ⟨hops, -, -, hcount⟩ := disconnect_ends hr hreturned (fun t => hnone) hhandled
  exact ⟨s, hops, hcount⟩

/-- A worker, and a thread of the application. -/
inductive Pair
  | worker | caller
  deriving DecidableEq

instance : Fintype Pair := ⟨{.worker, .caller}, fun t => by cases t <;> simp⟩

/-- The worker has passed the check of `RecvAsync` when the application disconnects. -/
def overtakenPost : List (Act Pair) :=
  accepting .worker ++
    .complete (recvOp 1 8191) [1] :: .take .worker { recvOp 1 8191 with done := some 1 } ::
    goes .worker 4 ++ .disconnect .caller :: goes .caller 3 ++ goes .worker 2

/-- **A connection that `Disconnect` does not end**: the call has returned, nothing is in progress, every
    completion is handled, and a receive is outstanding that nobody will abort. -/
theorem survives_disconnect : ∃ s : Sys Pair, Reachable system s ∧ .disconnected ∈ s.cell.log ∧
    (∀ t, s.tasks t = none) ∧ (∀ op ∈ s.cell.ops, op.done = none) ∧ s.cell.ops ≠ [] ∧
    s.cell.refs ≠ 0 ∧ .userDisconnected ∉ s.cell.log := by
  obtain ⟨s, hr, hp⟩ := exists_reachable_of_exec (served_init Pair.worker) step_next overtakenPost
    (fun s => (s.tasks .worker).isNone && (s.tasks .caller).isNone &&
      decide (.disconnected ∈ s.cell.log ∧ (∀ op ∈ s.cell.ops, op.done = none) ∧ s.cell.ops ≠ [] ∧
      s.cell.refs ≠ 0 ∧ .userDisconnected ∉ s.cell.log)) (by decide)
  rw [Bool.and_eq_true, Bool.and_eq_true, Option.isNone_iff_eq_none, Option.isNone_iff_eq_none,
    decide_eq_true_eq] at hp
  obtain ⟨⟨hworker, hcaller⟩, hreturned, hrest⟩ := hp
  refine ⟨s, hr, hreturned, fun t => ?_, hrest⟩
  cases t with
  | worker => exact hworker
  | caller => exact hcaller

end JunCore.SessionSteps
