/-
  The worker waits for its handler, and the handler for `SendPacket`.

  A worker has its second place only while it is in a packet handler, and there is nobody in it but a
  `SendPacket` of this handler (`Seat`).  So a step of the server is a step of a session (`projects`)
  whose threads do not all come and go as they like (`control`).
-/
import JunCore.EchoServer.EchoServer

set_option linter.unusedVariables false
set_option linter.unusedSectionVars false

namespace JunCore.EchoServer

open Function Transition Framing Network SessionSteps Counting

variable {W : Type} [DecidableEq W]

/-! ## Who calls `SendPacket` -/

/-- A task in `SendPacket`. -/
def isCall : Task → Bool
  | .sendPacket _ => true
  | _ => false

/-- Nothing leads to `SendPacket` but its call. -/
theorem run_isCall (ok : Bool) (c : Cell) {task : Task} (h : isCall task = false) :
    isTask isCall (task.run ok c).2 = false := by
  have hcall : ∀ t : Task, t.procedure = .sendPacket → isCall t = true := by
    intro t ht
    cases t with
    | sendPacket pc => rfl
    | _ => cases ht
  refine is_run ok c fun next hnext => ?_
  have hproc : next.procedure = .sendPacket := by
    cases next with
    | sendPacket pc => rfl
    | _ => cases hnext
  rw [hproc]
  refine ⟨fun heq => ?_, Procedure.noConfusion⟩
  rw [hcall task heq.symm] at h
  cases h

theorem handler_isCall (op : Op) (n : Nat) : isCall (op.handler n) = false := by
  obtain ⟨id, operation, wsa, room, done⟩ := op
  cases operation with
  | recv | send =>
    show isCall (if n = 0 then _ else _) = false
    split <;> rfl
  | accept | connect => rfl

/-- Where `SendPacket` goes on. -/
theorem sendPacket_next (ok : Bool) (c : Cell) (pc : PacketPc) :
    (∃ pc', (sendPacket ok c pc).2 = some (.sendPacket pc')) ∨
      (sendPacket ok c pc).2 = some .unlock := by
  cases pc with
  | check m =>
    simp only [sendPacket]
    split
    · exact .inr rfl
    · exact .inl ⟨_, rfl⟩
  | serialize m b =>
    simp only [sendPacket]
    split
    · exact .inl ⟨_, rfl⟩
    · exact .inr rfl
  | allocate m | link b | count => exact .inl ⟨_, rfl⟩
  | sendAsync pc =>
    simp only [sendPacket]
    cases (sendAsync ok c pc).2 with
    | none => exact .inr rfl
    | some pc' => exact .inl ⟨_, rfl⟩

/-! ## The worker and its handler -/

theorem busy_eq_false {e : Echo W} {w : W} :
    e.busy w = false ↔ e.call w = none ∧ e.sys.tasks (.inr w) = none := by
  unfold Echo.busy
  rw [Bool.or_eq_false_iff, Option.isSome_eq_false_iff, Option.isSome_eq_false_iff,
    Option.isNone_iff_eq_none, Option.isNone_iff_eq_none]

/-- Steps of the server are steps of the session. -/
theorem projects (P : EchoProtocol) : Projection (echoSystem P) system (Echo.sys (W := W)) where
  init e h := by
    obtain ⟨mem, b, h, w, rfl⟩ := h
    exact ⟨_, _, _, _, _, rfl⟩
  next e e' h := by
    obtain ⟨a, h⟩ := h
    cases a with
    | take w op | send w ok | complete op chunk =>
      obtain ⟨s, hs, rfl⟩ := Option.map_eq_some_iff.mp h
      exact .inr ⟨_, hs⟩
    | go w ok =>
      simp only [Echo.step] at h
      split at h
      · obtain ⟨s, hs, rfl⟩ := Option.map_eq_some_iff.mp h
        exact .inr ⟨_, hs⟩
      · split at h
        · cases h
        · obtain ⟨s, hs, rfl⟩ := Option.map_eq_some_iff.mp h
          exact .inr ⟨_, hs⟩
      · obtain ⟨s, hs, rfl⟩ := Option.map_eq_some_iff.mp h
        exact .inr ⟨_, hs⟩
    | call w =>
      obtain ⟨m, hm, rfl⟩ := Option.map_eq_some_iff.mp h
      cases hs : SessionSteps.step e.sys (.sendPacket (.inr w) m) with
      | none => exact .inl rfl
      | some s => exact .inr ⟨_, hs⟩

/-- Nobody is answered who is not there. -/
theorem reply_owner {P : EchoProtocol} {c : Cell} {k : Nat} (h : (reply P c k).isSome = true) :
    c.ownerUser = true := by
  cases howner : c.ownerUser with
  | true => rfl
  | false =>
    have hnone : ∀ p, answer P false p = none := by
      intro p
      unfold answer onPacketReceived
      cases registerAll P registerPacketHandlers (UInt32.ofNat p.id) <;> rfl
    unfold reply at h
    split at h
    · cases h
    · split at h
      · rw [howner, hnone] at h
        cases h
      · cases h

/-- A worker that has called the handler is in it. -/
theorem receive_called {P : EchoProtocol} {c : Cell} (id : Nat) {k : Nat}
    (h : (reply P c k).isSome = true) :
    (∃ k', ((Task.recv id (.loop k)).run (reply P c k).isSome c).2 = some (.recv id (.inHandler k'))) ∧
      ((Task.recv id (.loop k)).run (reply P c k).isSome c).1.published = true := by
  have howner := reply_owner h
  have hreply := h
  unfold reply at hreply
  split at hreply
  · cases hreply
  · rename_i hlimit
    obtain ⟨p, rest, hpacket⟩ : ∃ p rest, recvIteration c.engine.isSome c.recvBuf = .packet p rest := by
      split at hreply
      · rename_i p rest hpacket
        exact ⟨p, rest, hpacket⟩
      · cases hreply
    rw [h, Task.run, recvComplete, if_neg hlimit, hpacket, howner]
    exact ⟨⟨_, rfl⟩, rfl⟩

/-- What a worker, the call it is to make and the call it is in say of each other. -/
structure Seat (published : Bool) (worker : Option Task) (call : Option Message)
    (inner : Option Task) : Prop where
  apart : isTask isCall worker = false
  inCall : ∀ task, inner = some task → (∃ pc, task = .sendPacket pc) ∨ task = .unlock
  inside : (call.isSome || inner.isSome) = true → ∃ id k, worker = some (.recv id (.inHandler k))
  once : call.isSome = true → inner = none
  known : call.isSome = true → published = true

/-- **The worker waits for its handler.** -/
def Control (e : Echo W) : Prop :=
  ∀ w, Seat e.sys.cell.published (e.sys.tasks (.inl w)) (e.call w) (e.sys.tasks (.inr w))

theorem Seat.idle (published : Bool) {worker : Option Task} (h : isTask isCall worker = false) :
    Seat published worker none none where
  apart := h
  inCall task htask := by cases htask
  inside hbusy := by cases hbusy
  once hcall := by cases hcall
  known hcall := by cases hcall

/-- A worker that is not in a handler has nothing to wait for. -/
theorem Seat.rests {published : Bool} {worker : Option Task} {call : Option Message}
    {inner : Option Task} (S : Seat published worker call inner)
    (h : ∀ id k, worker ≠ some (.recv id (.inHandler k))) : call = none ∧ inner = none := by
  have hbusy : (call.isSome || inner.isSome) = false := by
    refine Bool.eq_false_of_not_eq_true fun hbusy => ?_
    obtain ⟨id, k, heq⟩ := S.inside hbusy
    exact h id k heq
  rw [Bool.or_eq_false_iff, Option.isSome_eq_false_iff, Option.isSome_eq_false_iff,
    Option.isNone_iff_eq_none, Option.isNone_iff_eq_none] at hbusy
  exact hbusy

/-- One that is in `SendPacket` waits for it, and has no other call to make. -/
theorem Seat.waits {published : Bool} {worker : Option Task} {call : Option Message} {task : Task}
    (S : Seat published worker call (some task)) :
    call = none ∧ ∃ id k, worker = some (.recv id (.inHandler k)) := by
  constructor
  · refine Option.not_isSome_iff_eq_none.mp fun hsome => ?_
    cases S.once hsome
  · refine S.inside ?_
    rw [Option.isSome_some, Bool.or_true]

/-- One that goes on has waited. -/
theorem Control.waited {e : Echo W} (C : Control e) {w : W} {task : Task}
    (htask : e.sys.tasks (.inl w) = some task)
    (hwait : ∀ id k, task = .recv id (.inHandler k) → e.busy w = false) :
    e.call w = none ∧ e.sys.tasks (.inr w) = none := by
  refine busy_eq_false.mp (Bool.eq_false_of_not_eq_true fun hbusy => ?_)
  obtain ⟨id, k, heq⟩ := (C w).inside hbusy
  rw [htask] at heq
  rw [hwait id k (Option.some.inj heq)] at hbusy
  cases hbusy

theorem Seat.publish {published published' : Bool} {worker : Option Task} {call : Option Message}
    {inner : Option Task} (S : Seat published worker call inner)
    (h : published = true → published' = true) : Seat published' worker call inner :=
  { S with known := fun hcall => h (S.known hcall) }

/-! ## Whose step it is -/

theorem after_self {T : Type} [DecidableEq T] {s : Sys T} {t : T} {r : Cell × Option Task} :
    (s.after t r).tasks t = r.2 := by
  show update s.tasks t r.2 t = r.2
  rw [update_self]

theorem after_ne {T : Type} [DecidableEq T] {s : Sys T} {t u : T} {r : Cell × Option Task}
    (h : u ≠ t) : (s.after t r).tasks u = s.tasks u := by
  show update s.tasks t r.2 u = s.tasks u
  rw [update_of_ne h]

/-- After a step of worker `w` a property of every worker and its call: of `w` it is shown, of the
    others it has held before. -/
theorem after_worker {s : Sys (W ⊕ W)} {w : W} {r : Cell × Option Task}
    {I : W → Option Task → Option Task → Prop} (hself : I w r.2 (s.tasks (.inr w)))
    (hothers : ∀ u, u ≠ w → I u (s.tasks (.inl u)) (s.tasks (.inr u))) (u : W) :
    I u ((s.after (.inl w) r).tasks (.inl u)) ((s.after (.inl w) r).tasks (.inr u)) := by
  rw [after_ne Sum.inr_ne_inl]
  by_cases hu : u = w
  · subst hu
    rw [after_self]
    exact hself
  · rw [after_ne (Sum.inl_injective.ne hu)]
    exact hothers u hu

/-- After a step in the `SendPacket` of worker `w`. -/
theorem after_call {s : Sys (W ⊕ W)} {w : W} {r : Cell × Option Task}
    {I : W → Option Task → Option Task → Prop} (hself : I w (s.tasks (.inl w)) r.2)
    (hothers : ∀ u, u ≠ w → I u (s.tasks (.inl u)) (s.tasks (.inr u))) (u : W) :
    I u ((s.after (.inr w) r).tasks (.inl u)) ((s.after (.inr w) r).tasks (.inr u)) := by
  rw [after_ne Sum.inl_ne_inr]
  by_cases hu : u = w
  · subst hu
    rw [after_self]
    exact hself
  · rw [after_ne (Sum.inr_injective.ne hu)]
    exact hothers u hu

theorem run_publishes {ok : Bool} {c : Cell} {task : Task} (h : c.published = true) :
    (task.run ok c).1.published = true := by
  rcases run_published ok c task with heq | ⟨heq, -⟩
  · rw [heq]
    exact h
  · exact heq

/-- The `weak_ptr` of the `User` can be locked in a handler. -/
theorem reaches_of_call [Fintype W] {e : Echo W} (L : Laws e.sys) (C : Control e) {w : W} {m : Message}
    (hcall : e.call w = some m) : SessionSteps.step e.sys (.sendPacket (.inr w) m)
      = some (e.sys.after (.inr w)
        ({ e.sys.cell with refs := e.sys.cell.refs + 1 }, some (.sendPacket (.check m)))) := by
  have hsome : (e.call w).isSome = true := by
    rw [hcall]
    rfl
  have S := C w
  obtain ⟨id, k, htask⟩ := S.inside (by rw [hsome]; rfl)
  have hrefs : 0 < e.sys.cell.refs := L.refs_pos htask (fun pc heq => by cases heq)
  exact if_pos (Sys.reaches_iff.mpr ⟨S.once hsome, S.known hsome, hrefs⟩)

/-! ## Each step -/

section Steps

variable {P : EchoProtocol} {e : Echo W} {w : W}

theorem Control.take (C : Control e) {op : Op} {n : Nat} (htask : e.sys.tasks (.inl w) = none) :
    Control { e with
      sys := e.sys.after (.inl w)
        ({ e.sys.cell with ops := e.sys.cell.ops.erase op }, some (op.handler n)) } := by
  refine after_worker (I := fun u worker inner =>
    Seat e.sys.cell.published worker (e.call u) inner) ?_ fun u _ => C u
  obtain ⟨hcall, hinner⟩ := (C w).rests (fun id k heq => by rw [htask] at heq; cases heq)
  rw [hcall, hinner]
  exact .idle _ (handler_isCall op n)

theorem Control.go (C : Control e) {task : Task} {ok : Bool}
    (htask : e.sys.tasks (.inl w) = some task)
    (hwait : ∀ id k, task = .recv id (.inHandler k) → e.busy w = false) :
    Control { e with sys := e.sys.after (.inl w) (task.run ok e.sys.cell) } := by
  refine after_worker (I := fun u worker inner =>
    Seat (task.run ok e.sys.cell).1.published worker (e.call u) inner) ?_
      fun u _ => (C u).publish run_publishes
  obtain ⟨hcall, hinner⟩ := C.waited htask hwait
  have hnot := (C w).apart
  rw [htask] at hnot
  rw [hcall, hinner]
  exact .idle _ (run_isCall ok e.sys.cell hnot)

/-- The worker enters the handler, if the packet has one. -/
theorem Control.receive (C : Control e) {id k : Nat}
    (htask : e.sys.tasks (.inl w) = some (.recv id (.loop k))) :
    Control { e with
      sys := e.sys.after (.inl w)
        ((Task.recv id (.loop k)).run (reply P e.sys.cell k).isSome e.sys.cell)
      call := update e.call w (reply P e.sys.cell k) } := by
  refine after_worker (I := fun u worker inner =>
    Seat ((Task.recv id (.loop k)).run (reply P e.sys.cell k).isSome e.sys.cell).1.published worker
      (update e.call w (reply P e.sys.cell k) u) inner) ?_ fun u hu => ?_
  · obtain ⟨-, hinner⟩ := (C w).rests (fun id k heq => by rw [htask] at heq; cases heq)
    rw [hinner, update_self]
    constructor
    · exact run_isCall _ _ rfl
    · intro task heq
      cases heq
    · intro hbusy
      rw [Option.isSome_none, Bool.or_false] at hbusy
      obtain ⟨⟨k', hk'⟩, -⟩ := receive_called id hbusy
      exact ⟨id, k', hk'⟩
    · intro _
      rfl
    · intro hcall
      exact (receive_called id hcall).2
  · rw [update_of_ne hu]
    exact (C u).publish run_publishes

theorem Control.call (C : Control e) {m : Message} (hcall : e.call w = some m) :
    Control { e with
      sys := e.sys.after (.inr w)
        ({ e.sys.cell with refs := e.sys.cell.refs + 1 }, some (.sendPacket (.check m)))
      call := update e.call w none } := by
  refine after_call (I := fun u worker inner =>
    Seat e.sys.cell.published worker (update e.call w none u) inner) ?_ fun u hu => ?_
  · rw [update_self]
    have hbusy : ((e.call w).isSome || (e.sys.tasks (.inr w)).isSome) = true := by
      rw [hcall]
      rfl
    constructor
    · exact (C w).apart
    · intro task heq
      exact .inl ⟨_, (Option.some.inj heq).symm⟩
    · intro _
      exact (C w).inside hbusy
    · intro hnone
      cases hnone
    · intro hnone
      cases hnone
  · rw [update_of_ne hu]
    exact C u

/-- After a step of `SendPacket` there is another one, or the lock of the `User` is let go. -/
theorem inCall_run [Fintype W] (L : Laws e.sys) {task task' : Task} {ok : Bool} {id k : Nat}
    (hworker : e.sys.tasks (.inl w) = some (.recv id (.inHandler k)))
    (htask : e.sys.tasks (.inr w) = some task)
    (hcall : (∃ pc, task = .sendPacket pc) ∨ task = .unlock)
    (hnext : (task.run ok e.sys.cell).2 = some task') :
    (∃ pc, task' = .sendPacket pc) ∨ task' = .unlock := by
  rcases hcall with ⟨pc, rfl⟩ | rfl
  · have hnext : (sendPacket ok e.sys.cell pc).2 = some task' := hnext
    rcases sendPacket_next ok e.sys.cell pc with ⟨pc', hpc'⟩ | hunlock
    · rw [hpc'] at hnext
      exact .inl ⟨pc', (Option.some.inj hnext).symm⟩
    · rw [hunlock] at hnext
      exact .inr (Option.some.inj hnext).symm
  · -- the worker has a reference, too
    have hnext : (if e.sys.cell.refs = 1 then some (Task.destroy .onUserDisconnect) else none)
        = some task' := hnext
    split at hnext
    · rename_i hone
      have hnone := (L.last hone htask (fun pc heq => by cases heq)).2 (.inl w) Sum.inl_ne_inr
      rw [hworker] at hnone
      cases hnone
    · cases hnext

theorem Control.send [Fintype W] (L : Laws e.sys) (C : Control e) {task : Task} {ok : Bool}
    (htask : e.sys.tasks (.inr w) = some task) :
    Control { e with sys := e.sys.after (.inr w) (task.run ok e.sys.cell) } := by
  refine after_call (I := fun u worker inner =>
    Seat (task.run ok e.sys.cell).1.published worker (e.call u) inner) ?_
      fun u _ => (C u).publish run_publishes
  have S := C w
  rw [htask] at S
  obtain ⟨hcall, id, k, hworker⟩ := S.waits
  rw [hcall, hworker]
  constructor
  · rfl
  · intro task' hnext
    exact inCall_run L hworker htask (S.inCall task rfl) hnext
  · intro _
    exact ⟨id, k, rfl⟩
  · intro hnone
    cases hnone
  · intro hnone
    cases hnone

end Steps

/-- **The run lemma.** -/
theorem control [Fintype W] {P : EchoProtocol} {e : Echo W} (h : Reachable (echoSystem P) e) :
    Control e := by
  apply h.invariant (I := Control)
  · rintro _ ⟨mem, b, hb, w, rfl⟩ u
    exact .idle _ (Sys.forall_new (T := W ⊕ W) (P := fun o => isTask isCall o = false) rfl rfl _)
  · intro e e' hr C hnext
    obtain ⟨L, -⟩ := lawful ((projects P).reachable hr)
    cases step_moves hnext with
    | take htask hmem hdone => exact C.take htask
    | go ok htask hloop hwait => exact C.go htask hwait
    | receive htask => exact C.receive htask
    | call hcall =>
      rw [reaches_of_call L C hcall]
      exact C.call hcall
    | send ok htask => exact C.send L htask
    | complete hmem hdone hroom => exact C

end JunCore.EchoServer
