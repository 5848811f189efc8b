/-
  A session before its `User` is passed to the application.

  Until then nobody can call `SendPacket` or `Disconnect`: all there is are the steps that lead to
  the connection, and the handlers of the first completions.  `Set` runs in this time, so what it
  overwrites and throws away is what `make_shared` made (`blank_reachable`).
-/
import JunCore.Network.SessionSteps

set_option linter.unusedVariables false

namespace JunCore.SessionSteps

open Function Transition Network

variable {T : Type} [DecidableEq T]

/-- A task that only a caller of the `User`, or a send, brings about. -/
def Task.late : Task → Bool
  | .sendPacket _ | .disconnect _ | .send _ _ | .delete _ (some .send) => true
  | _ => false

/-- Nothing has been sent, and nobody has disconnected. -/
structure Blank (c : Cell) : Prop where
  sendFlag : c.sendFlag = false
  lostSend : c.lostSend = 0
  pending : c.pendingDisconnect = false
  items : c.sendQ.items = []
  arr : ∀ i, c.sendPacketArr i = none
  count : c.sendPacketCount = 0
  buffers : c.buffers = 0
  freed : c.freed = []
  entered : c.entered = []
  handed : c.handed = []
  cancelled : .cancelled ∉ c.log
  disconnected : .disconnected ∉ c.log
  ops : ∀ op ∈ c.ops, op.operation ≠ .send

theorem Blank.new (e : Engine) (buf : RingBuffer) : Blank (.new e buf) where
  sendFlag := rfl
  lostSend := rfl
  pending := rfl
  items := rfl
  arr _ := rfl
  count := rfl
  buffers := rfl
  freed := rfl
  entered := rfl
  handed := rfl
  cancelled := List.not_mem_nil
  disconnected := List.not_mem_nil
  ops _ h := absurd h List.not_mem_nil

/-- Whether a thread has a task of this kind. -/
def isTask (p : Task → Bool) : Option Task → Bool
  | some task => p task
  | none => false

theorem is_resume {p : Task → Bool} {P : Type} {inside : P → Task} {after : Task}
    (hinside : ∀ pc, p (inside pc) = false) (hafter : p after = false) (o : Option P) :
    isTask p (some (resume inside after o)) = false := by
  cases o with
  | none => exact hafter
  | some pc => exact hinside pc

/-- The end of a `shared_ptr` leads to the destructor, if to anything. -/
theorem is_drop {p : Task → Bool} (h : p (.destroy .onUserDisconnect) = false) (c : Cell) :
    isTask p c.drop.2 = false := by
  show isTask p (if c.refs = 1 then _ else _) = false
  split
  · exact h
  · rfl

/-- What a task is a place in; the last tasks of all the procedures are the same. -/
inductive Procedure
  | post | sendPacket | disconnect | recv | send | accept | connect | ending
  deriving DecidableEq

def Task.procedure : Task → Procedure
  | .post _ _ => .post
  | .sendPacket _ => .sendPacket
  | .disconnect _ => .disconnect
  | .recv _ _ => .recv
  | .send _ _ => .send
  | .accept _ _ => .accept
  | .connect _ _ => .connect
  | .delete _ _ | .unlock | .destroy _ => .ending

/-- A task that comes after `task` is of the same procedure, or one of the last. -/
def Task.leaves (task next : Task) : Bool :=
  decide (next.procedure ≠ task.procedure ∧ next.procedure ≠ .ending)

theorem run_leaves (ok : Bool) (c : Cell) (task : Task) : isTask task.leaves (task.run ok c).2 = false := by
  cases task with
  | post e pc =>
    cases pc with
    | newOverlapped | failed id => rfl
    | call id => cases ok <;> rfl
  | sendPacket pc =>
    cases pc with
    | sendAsync pc => exact is_resume (fun _ => rfl) rfl _
    | check m | serialize m b =>
      simp only [Task.run, sendPacket]
      split <;> rfl
    | allocate m | link b | count => rfl
  | disconnect pc =>
    cases pc with
    | cas =>
      show Task.leaves _ (if c.casPending.2 then _ else _) = false
      split <;> rfl
    | cancel => rfl
  | recv id pc =>
    cases pc with
    | recvAsync pc => exact is_resume (fun _ => rfl) rfl _
    | loop k =>
      simp only [Task.run, recvComplete]
      split
      · rfl
      split
      · split <;> rfl
      · split <;> rfl
    | loadPending =>
      simp only [Task.run, recvComplete]
      split <;> rfl
    | moveRear n | inHandler k => rfl
  | send id pc =>
    cases pc with
    | sendAsync pc => exact is_resume (fun _ => rfl) rfl _
    | delete i | loadPending | loadCount =>
      simp only [Task.run, sendComplete]
      split <;> rfl
    | clearCount | clearFlag => rfl
  | accept id pc =>
    cases pc with
    | recvAsync pc | drain pc => exact is_resume (fun _ => rfl) rfl _
    | cast | setsockopt | getpeername =>
      simp only [Task.run, acceptComplete]
      split <;> rfl
    | newUser | set | callback | inCallback => rfl
  | connect id pc =>
    cases pc with
    | recvAsync pc | drain pc => exact is_resume (fun _ => rfl) rfl _
    | cast | setsockopt =>
      simp only [Task.run, connectComplete]
      split <;> rfl
    | newUser | set | callback | inCallback => rfl
  | delete id lost | unlock => exact is_drop rfl c
  | destroy pc =>
    cases pc with
    | onUserDisconnect | drain pc =>
      simp only [Task.run, destroy]
      split <;> rfl
    | clearOwner | release => rfl

/-- What neither the procedure of a task nor the last tasks have comes after no step of the task. -/
theorem is_run {p : Task → Bool} (ok : Bool) (c : Cell) {task : Task}
    (h : ∀ next, p next = true → next.procedure ≠ task.procedure ∧ next.procedure ≠ .ending) :
    isTask p (task.run ok c).2 = false := by
  have hleaves := run_leaves ok c task
  cases hnext : (task.run ok c).2 with
  | none => rfl
  | some next =>
    rw [hnext] at hleaves
    cases hp : p next with
    | false => exact hp
    | true => exact absurd (h next hp) (of_decide_eq_false hleaves)

namespace Blank

variable {c : Cell}

/-- An entry of the log that is not about disconnecting. -/
theorem logged (B : Blank c) {l : List Event} (h₁ : .cancelled ∉ l) (h₂ : .disconnected ∉ l) :
    Blank { c with log := c.log ++ l } :=
  { B with
    cancelled := fun h => (List.mem_append.mp h).elim B.cancelled h₁
    disconnected := fun h => (List.mem_append.mp h).elim B.disconnected h₂ }

theorem submit (B : Blank c) (op : Op) (h : op.operation ≠ .send) :
    Blank { c with ops := op :: c.ops } :=
  { B with
    ops := fun o ho => by
      rcases List.mem_cons.mp ho with rfl | ho
      · exact h
      · exact B.ops o ho }

theorem set (B : Blank c) (sock : Bool) (e : Option Engine) (user : Bool) :
    Blank (c.set sock e user) :=
  { B with
    sendFlag := rfl
    lostSend := rfl
    pending := rfl
    count := rfl }

theorem drain (B : Blank c) (pc : DrainPc) : Blank (drain c pc).1 := by
  cases pc with
  | dequeue | dequeueFail => exact { B with items := B.items }
  | unlink =>
    simp only [SessionSteps.drain, B.items]
    exact B

theorem recvAsync (B : Blank c) (ok : Bool) (pc : RecvAsyncPc) : Blank (recvAsync ok c pc).1 := by
  cases pc with
  | check =>
    simp only [SessionSteps.recvAsync]
    split
    · exact { B with }
    · exact B
  | post =>
    cases ok with
    | false => exact { B with }
    | true =>
      have B' : Blank { c with refs := c.refs + 1, overlappeds := c.overlappeds + 1 } := { B with }
      exact B'.submit (recvOp c.overlappeds c.window) nofun
  | postZero id room => exact B.submit { recvOp id room with done := some 0 } nofun

/-- What is blank stays so, unless somebody sends or disconnects, and it leads to nothing late. -/
theorem run (B : Blank c) (ok : Bool) {task : Task} (hlate : task.late = false) :
    Blank (task.run ok c).1 ∧ isTask Task.late (task.run ok c).2 = false := by
  cases task with
  | sendPacket pc | disconnect pc | send id pc => cases hlate
  | post e pc =>
    cases pc with
    | newOverlapped | failed id => exact ⟨{ B with }, rfl⟩
    | call id =>
      cases ok with
      | false => exact ⟨B, rfl⟩
      | true => cases e <;> exact ⟨B.submit _ nofun, rfl⟩
  | recv id pc =>
    cases pc with
    | recvAsync pc => exact ⟨B.recvAsync ok pc, is_resume (p := Task.late) (fun _ => rfl) rfl _⟩
    | loop k =>
      simp only [Task.run, recvComplete]
      split
      · exact ⟨B, rfl⟩
      split
      · split
        · exact ⟨{ (B.logged (l := [.handling]) nofun nofun) with }, rfl⟩
        · exact ⟨{ B with }, rfl⟩
      · refine ⟨{ B with }, ?_⟩
        split <;> rfl
    | loadPending =>
      refine ⟨B, ?_⟩
      simp only [Task.run, recvComplete]
      split <;> rfl
    | moveRear n => exact ⟨{ B with }, rfl⟩
    | inHandler k => exact ⟨B.logged nofun nofun, rfl⟩
  | accept id pc =>
    cases pc with
    | recvAsync pc => exact ⟨B.recvAsync ok pc, is_resume (p := Task.late) (fun _ => rfl) rfl _⟩
    | drain pc => exact ⟨B.drain pc, is_resume (p := Task.late) (fun _ => rfl) rfl _⟩
    | cast | setsockopt | getpeername =>
      refine ⟨B, ?_⟩
      simp only [Task.run, acceptComplete]
      split <;> rfl
    | callback => exact ⟨{ B with }, rfl⟩
    | newUser | inCallback => exact ⟨B.logged nofun nofun, rfl⟩
    | set => exact ⟨B.set .., rfl⟩
  | connect id pc =>
    cases pc with
    | recvAsync pc => exact ⟨B.recvAsync ok pc, is_resume (p := Task.late) (fun _ => rfl) rfl _⟩
    | drain pc => exact ⟨B.drain pc, is_resume (p := Task.late) (fun _ => rfl) rfl _⟩
    | cast | setsockopt =>
      refine ⟨B, ?_⟩
      simp only [Task.run, connectComplete]
      split <;> rfl
    | callback => exact ⟨{ B with }, rfl⟩
    | newUser | inCallback => exact ⟨B.logged nofun nofun, rfl⟩
    | set => exact ⟨B.set .., rfl⟩
  | delete id lost =>
    have hzero : lostSends lost = 0 := by
      cases lost with
      | none => rfl
      | some o =>
        cases o with
        | send => cases hlate
        | _ => rfl
    refine ⟨{ B with lostSend := ?_ }, is_drop (p := Task.late) rfl c⟩
    show c.lostSend + lostSends lost = 0
    rw [B.lostSend, hzero]
  | unlock => exact ⟨{ B with }, is_drop (p := Task.late) rfl c⟩
  | destroy pc =>
    cases pc with
    | onUserDisconnect =>
      simp only [Task.run, destroy]
      split
      · rename_i e _ _
        cases e <;> exact ⟨B.logged nofun nofun, rfl⟩
      · exact ⟨B, rfl⟩
    | clearOwner => exact ⟨{ B with }, rfl⟩
    | release => exact ⟨B.set .., rfl⟩
    | drain pc =>
      simp only [Task.run, destroy]
      split
      · exact ⟨B.drain pc, rfl⟩
      · exact ⟨{ B.drain pc with }, rfl⟩

end Blank

theorem casPending_published (c : Cell) : c.casPending.1.published = c.published := by
  unfold Cell.casPending
  split <;> rfl

theorem sendAsync_published (ok : Bool) (c : Cell) (pc : SendPc) :
    (sendAsync ok c pc).1.published = c.published := by
  cases pc with
  | cas | unlink wsa | commit wsa =>
    simp only [sendAsync]
    split <;> rfl
  | overflow | noPacket => exact casPending_published c
  | _ => rfl

theorem recvAsync_published (ok : Bool) (c : Cell) (pc : RecvAsyncPc) :
    (recvAsync ok c pc).1.published = c.published := by
  cases pc with
  | check =>
    simp only [recvAsync]
    split <;> rfl
  | post | postZero id room => rfl

theorem drain_published (c : Cell) (pc : DrainPc) : (drain c pc).1.published = c.published := by
  cases pc with
  | unlink =>
    simp only [drain]
    split <;> rfl
  | dequeue | dequeueFail => rfl

/-- A task that calls the application with the `User`. -/
def Task.publishes : Task → Bool
  | .recv _ (.loop _) | .accept _ .callback | .connect _ .callback => true
  | _ => false

theorem run_published (ok : Bool) (c : Cell) (task : Task) :
    (task.run ok c).1.published = c.published ∨
      (task.run ok c).1.published = true ∧ task.publishes = true := by
  cases task with
  | post e pc =>
    left
    cases pc with
    | newOverlapped | failed id => rfl
    | call id => cases ok <;> rfl
  | sendPacket pc =>
    left
    cases pc with
    | sendAsync pc => exact sendAsync_published ok c pc
    | serialize m b =>
      simp only [Task.run, sendPacket]
      split <;> rfl
    | check m | allocate m | link b | count => rfl
  | disconnect pc =>
    left
    cases pc with
    | cas => exact casPending_published c
    | cancel => rfl
  | recv id pc =>
    cases pc with
    | recvAsync pc => exact .inl (recvAsync_published ok c pc)
    | loop k =>
      simp only [Task.run, recvComplete]
      split
      · exact .inl rfl
      split
      · split
        · exact .inr ⟨rfl, rfl⟩
        · exact .inl rfl
      · exact .inl rfl
    | moveRear n | inHandler k | loadPending => exact .inl rfl
  | send id pc =>
    left
    cases pc with
    | sendAsync pc => exact sendAsync_published ok c pc
    | delete i =>
      simp only [Task.run, sendComplete]
      split <;> rfl
    | clearCount | clearFlag | loadPending | loadCount => rfl
  | accept id pc =>
    cases pc with
    | recvAsync pc => exact .inl (recvAsync_published ok c pc)
    | drain pc => exact .inl (drain_published c pc)
    | callback => exact .inr ⟨rfl, rfl⟩
    | _ => exact .inl rfl
  | connect id pc =>
    cases pc with
    | recvAsync pc => exact .inl (recvAsync_published ok c pc)
    | drain pc => exact .inl (drain_published c pc)
    | callback => exact .inr ⟨rfl, rfl⟩
    | _ => exact .inl rfl
  | delete id lost | unlock => exact .inl rfl
  | destroy pc =>
    left
    cases pc with
    | onUserDisconnect =>
      simp only [Task.run, destroy]
      split <;> rfl
    | clearOwner | release => rfl
    | drain pc =>
      simp only [Task.run, destroy]
      split <;> exact drain_published c pc

/-- `published` is never taken back. -/
theorem published_mono {c : Cell} {pre : Option Task} {r : Cell × Option Task} (h : Does c pre r)
    (hpub : r.1.published = false) : c.published = false := by
  cases h with
  | sendPacket m _ hrefs | disconnect _ hrefs | take hmem hdone => exact hpub
  | run task ok =>
    rcases run_published ok c task with h | ⟨h, -⟩
    · rw [← h]
      exact hpub
    · rw [hpub] at h
      cases h

theorem late_handler {op : Op} (h : op.operation ≠ .send) (n : Nat) :
    (op.handler n).late = false := by
  obtain ⟨id, operation, wsa, room, done⟩ := op
  cases operation with
  | recv =>
    show Task.late (if n = 0 then _ else _) = false
    split <;> rfl
  | send => exact absurd rfl h
  | accept | connect => rfl

/-- **Before the `User` is published** nothing has been sent, and nobody is about to. -/
theorem blank_reachable {s : Sys T} (h : Reachable system s) (hpub : s.cell.published = false) :
    Blank s.cell ∧ ∀ t, isTask Task.late (s.tasks t) = false := by
  have hall : s.cell.published = false → Blank s.cell ∧ ∀ t, isTask Task.late (s.tasks t) = false := by
    apply h.invariant (I := fun s => s.cell.published = false →
      Blank s.cell ∧ ∀ t, isTask Task.late (s.tasks t) = false)
    · rintro _ ⟨e, mem, b, hb, t, rfl⟩ -
      exact ⟨.new e _, Sys.forall_new (P := fun o => isTask Task.late o = false) rfl rfl⟩
    · intro s s' hr ih hnext hpub'
      rcases step_does hnext with ⟨t, r, hdoes, rfl⟩ | ⟨op, chunk, hmem, hdone, hroom, rfl⟩
      · have hold : s.cell.published = false := published_mono hdoes hpub'
        obtain ⟨B, hlate⟩ := ih hold
        have hnew : Blank r.1 ∧ isTask Task.late r.2 = false := by
          generalize hpre : s.tasks t = pre at hdoes
          cases hdoes with
          | sendPacket m hpub hrefs | disconnect hpub hrefs =>
            rw [hold] at hpub
            cases hpub
          | take hmem hdone =>
            exact ⟨{ B with ops := fun o ho => B.ops o (List.mem_of_mem_erase ho) },
              late_handler (B.ops _ hmem) _⟩
          | run task ok =>
            have htask := hlate t
            rw [hpre] at htask
            exact B.run ok htask
        exact ⟨hnew.1, Sys.forall_after (P := fun o => isTask Task.late o = false) hnew.2
          fun u _ => hlate u⟩
      · obtain ⟨B, hlate⟩ := ih hpub'
        refine ⟨{ B with ops := fun o ho => ?_ }, hlate⟩
        rcases List.mem_cons.mp ho with rfl | ho
        · exact B.ops op hmem
        · exact B.ops o (List.mem_of_mem_erase ho)
  exact hall hpub

end JunCore.SessionSteps
