/-
  The sending part of a session.

  Few members have to do with sending (`Outbox`), and few places of a thread (`Phase`).  `SendStep`
  is the list of what a step can do there, one entry for each place, and `run_sendStep` says that
  every step of every task is on it.  What the later files prove about sending they prove along this
  list, and they do not look at the tasks again.
-/
import JunCore.Network.SessionLaws

set_option linter.unusedVariables false

namespace JunCore.SessionSteps

open Function Transition Network

/-! ## What a step looks like -/

/-- The members that have to do with sending, and what went through them. -/
structure Outbox where
  sendFlag : Bool
  pending : Bool
  sendQ : LFQueue Buffer
  arr : Nat → Option Buffer
  count : Nat
  entered : List Buffer
  handed : List (Option Buffer)
  lostSend : Nat

def Cell.outbox (c : Cell) : Outbox where
  sendFlag := c.sendFlag
  pending := c.pendingDisconnect
  sendQ := c.sendQ
  arr := c.sendPacketArr
  count := c.sendPacketCount
  entered := c.entered
  handed := c.handed
  lostSend := c.lostSend

/-- Where a thread is, if it has to do with sending. -/
inductive Phase
  | idle
  /-- `Enqueue` -/
  | link (b : Buffer)
  | count
  | async (pc : SendPc)
  -- `HandleSendComplete`
  | delete (i : Nat)
  | clearCount
  | clearFlag
  | loadPending
  | loadCount
  /-- a send that transferred nothing -/
  | lost
  -- `Set`
  | set
  | drain (pc : DrainPc)

def Task.phase : Task → Phase
  | .sendPacket (.link b) => .link b
  | .sendPacket .count => .count
  | .sendPacket (.sendAsync pc) | .send _ (.sendAsync pc) => .async pc
  | .send _ (.delete i) => .delete i
  | .send _ .clearCount => .clearCount
  | .send _ .clearFlag => .clearFlag
  | .send _ .loadPending => .loadPending
  | .send _ .loadCount => .loadCount
  | .delete _ (some .send) => .lost
  | .accept _ .set | .connect _ .set | .destroy .release => .set
  | .accept _ (.drain pc) | .connect _ (.drain pc) | .destroy (.drain pc) => .drain pc
  | _ => .idle

def phaseOf : Option Task → Phase
  | some task => task.phase
  | none => .idle

/-- The place in a procedure, unless it has returned. -/
def Phase.inside {P : Type} (f : P → Phase) : Option P → Phase
  | some pc => f pc
  | none => .idle

/-- Where a thread that had nothing to do with sending may come to. -/
def Phase.starts : Phase → Bool
  | .idle | .link _ | .set => true
  | _ => false

/-- **What a step of a thread does with the sending.** -/
inductive SendStep (ok : Bool) (c : Cell) : Phase → Outbox → Phase → Prop
  | idle {p : Phase} (h : p.starts = true) : SendStep ok c .idle c.outbox p
  /-- the CAS of `Disconnect` -/
  | pend : SendStep ok c .idle { c.outbox with pending := true } .idle
  | link (b : Buffer) :
      SendStep ok c (.link b)
        { c.outbox with sendQ := c.sendQ.link b, entered := c.entered ++ [b] } .count
  | count : SendStep ok c .count { c.outbox with sendQ := c.sendQ.increment } (.async .cas)
  | async (pc : SendPc) :
      SendStep ok c (.async pc) (sendAsync ok c pc).1.outbox
        (Phase.inside .async (sendAsync ok c pc).2)
  | delete {i : Nat} (h : i < c.sendPacketCount) :
      SendStep ok c (.delete i) { c.outbox with arr := update c.sendPacketArr i none }
        (.delete (i + 1))
  | deleted {i : Nat} (h : c.sendPacketCount ≤ i) : SendStep ok c (.delete i) c.outbox .clearCount
  | clearCount : SendStep ok c .clearCount { c.outbox with count := 0 } .clearFlag
  | clearFlag : SendStep ok c .clearFlag { c.outbox with sendFlag := false } .loadPending
  | loadPending :
      SendStep ok c .loadPending c.outbox (if c.pendingDisconnect then .idle else .loadCount)
  | loadCount :
      SendStep ok c .loadCount c.outbox (if 0 < c.sendQ.getUseCount then .async .cas else .idle)
  | lost : SendStep ok c .lost { c.outbox with lostSend := c.lostSend + 1 } .idle
  | set :
      SendStep ok c .set
        { c.outbox with sendFlag := false, pending := false, count := 0, lostSend := 0 }
        (.drain .dequeue)
  | drain (pc : DrainPc) :
      SendStep ok c (.drain pc) (drain c pc).1.outbox (Phase.inside .drain (drain c pc).2)

/-! ## That it does -/

theorem drop_phase (c : Cell) : phaseOf c.drop.2 = .idle := by
  show phaseOf (if c.refs = 1 then _ else _) = .idle
  split <;> rfl

theorem phase_resume {P : Type} {inside : P → Task} {after : Task} {f : P → Phase}
    (hinside : ∀ pc, (inside pc).phase = f pc) (hafter : after.phase = .idle) (o : Option P) :
    phaseOf (some (resume inside after o)) = Phase.inside f o := by
  cases o with
  | none => exact hafter
  | some pc => exact hinside pc

/-- `RecvAsync` has nothing to do with it. -/
theorem recvAsync_outbox (ok : Bool) (c : Cell) (pc : RecvAsyncPc) :
    (recvAsync ok c pc).1.outbox = c.outbox := by
  cases pc with
  | check =>
    simp only [recvAsync]
    split <;> rfl
  | post | postZero id room => rfl

theorem casPending_outbox (c : Cell) :
    c.casPending.1.outbox = { c.outbox with pending := true } := by
  unfold Cell.casPending
  split
  · rename_i hpending
    rw [← hpending]
    rfl
  · rfl

theorem recvAsync_sendStep (ok : Bool) (c : Cell) (pc : RecvAsyncPc) {inside : RecvAsyncPc → Task}
    {after : Task} (hinside : ∀ pc, (inside pc).phase = .idle) (hafter : after.phase = .idle) :
    SendStep ok c .idle (recvAsync ok c pc).1.outbox
      (phaseOf (some (resume inside after (recvAsync ok c pc).2))) := by
  rw [recvAsync_outbox]
  refine .idle ?_
  cases (recvAsync ok c pc).2 with
  | none =>
    show after.phase.starts = true
    rw [hafter]
    rfl
  | some pc' =>
    show (inside pc').phase.starts = true
    rw [hinside]
    rfl

theorem sendPacket_sendStep (ok : Bool) (c : Cell) (pc : PacketPc) :
    SendStep ok c (Task.sendPacket pc).phase (sendPacket ok c pc).1.outbox
      (phaseOf (sendPacket ok c pc).2) := by
  cases pc with
  | check m =>
    simp only [sendPacket]
    split <;> exact .idle rfl
  | allocate m => exact .idle rfl
  | serialize m b =>
    simp only [sendPacket]
    split <;> exact .idle rfl
  | link b => exact .link b
  | count => exact .count
  | sendAsync pc =>
    simp only [sendPacket]
    rw [phase_resume (f := .async) (fun _ => rfl) rfl]
    exact .async pc

theorem recvComplete_sendStep (ok : Bool) (c : Cell) (id : Nat) (pc : RecvPc) :
    SendStep ok c .idle (recvComplete ok c id pc).1.outbox (phaseOf (recvComplete ok c id pc).2) := by
  cases pc with
  | moveRear n | inHandler k => exact .idle rfl
  | loop k =>
    simp only [recvComplete]
    split
    · exact .idle rfl
    split
    · split <;> exact .idle rfl
    · split <;> exact .idle rfl
  | loadPending =>
    simp only [recvComplete]
    split <;> exact .idle rfl
  | recvAsync pc => exact recvAsync_sendStep ok c pc (fun _ => rfl) rfl

theorem sendComplete_sendStep (ok : Bool) (c : Cell) (id : Nat) (pc : SentPc) :
    SendStep ok c (Task.send id pc).phase (sendComplete ok c id pc).1.outbox
      (phaseOf (sendComplete ok c id pc).2) := by
  cases pc with
  | delete i =>
    simp only [sendComplete]
    split
    · rename_i h
      exact .delete h
    · rename_i h
      exact .deleted (Nat.le_of_not_lt h)
  | clearCount => exact .clearCount
  | clearFlag => exact .clearFlag
  | loadPending =>
    have hphase : phaseOf (sendComplete ok c id .loadPending).2
        = if c.pendingDisconnect then .idle else .loadCount := by
      simp only [sendComplete]
      split <;> rfl
    rw [hphase]
    exact .loadPending
  | loadCount =>
    have hphase : phaseOf (sendComplete ok c id .loadCount).2
        = if 0 < c.sendQ.getUseCount then .async .cas else .idle := by
      simp only [sendComplete]
      split <;> rfl
    rw [hphase]
    exact .loadCount
  | sendAsync pc =>
    simp only [sendComplete]
    rw [phase_resume (f := .async) (fun _ => rfl) rfl]
    exact .async pc

theorem acceptComplete_sendStep (ok : Bool) (c : Cell) (id : Nat) (pc : AcceptPc) :
    SendStep ok c (Task.accept id pc).phase (acceptComplete ok c id pc).1.outbox
      (phaseOf (acceptComplete ok c id pc).2) := by
  cases pc with
  | cast | setsockopt | getpeername =>
    simp only [acceptComplete]
    split <;> exact .idle rfl
  | newUser | callback | inCallback => exact .idle rfl
  | set => exact .set
  | drain pc =>
    simp only [acceptComplete]
    rw [phase_resume (f := .drain) (fun _ => rfl) rfl]
    exact .drain pc
  | recvAsync pc => exact recvAsync_sendStep ok c pc (fun _ => rfl) rfl

theorem connectComplete_sendStep (ok : Bool) (c : Cell) (id : Nat) (pc : ConnectPc) :
    SendStep ok c (Task.connect id pc).phase (connectComplete ok c id pc).1.outbox
      (phaseOf (connectComplete ok c id pc).2) := by
  cases pc with
  | cast | setsockopt =>
    simp only [connectComplete]
    split <;> exact .idle rfl
  | newUser | callback | inCallback => exact .idle rfl
  | set => exact .set
  | drain pc =>
    simp only [connectComplete]
    rw [phase_resume (f := .drain) (fun _ => rfl) rfl]
    exact .drain pc
  | recvAsync pc => exact recvAsync_sendStep ok c pc (fun _ => rfl) rfl

theorem destroy_sendStep (ok : Bool) (c : Cell) (pc : DestroyPc) :
    SendStep ok c (Task.destroy pc).phase (destroy c pc).1.outbox (phaseOf (destroy c pc).2) := by
  cases pc with
  | onUserDisconnect =>
    simp only [destroy]
    split <;> exact .idle rfl
  | clearOwner => exact .idle rfl
  | release => exact .set
  | drain pc =>
    have h : SendStep ok c (.drain pc) (drain c pc).1.outbox (Phase.inside .drain (drain c pc).2) :=
      .drain pc
    simp only [destroy]
    cases hpc : (drain c pc).2 with
    | none =>
      rw [hpc] at h
      exact h
    | some pc' =>
      rw [hpc] at h
      exact h

/-- **Every step of a task is one of these.** -/
theorem run_sendStep (ok : Bool) (c : Cell) (task : Task) :
    SendStep ok c task.phase (task.run ok c).1.outbox (phaseOf (task.run ok c).2) := by
  cases task with
  | post e pc =>
    cases pc with
    | newOverlapped | failed id => exact .idle rfl
    | call id => cases ok <;> exact .idle rfl
  | sendPacket pc => exact sendPacket_sendStep ok c pc
  | disconnect pc =>
    cases pc with
    | cas =>
      show SendStep ok c .idle c.casPending.1.outbox (Task.phase (if c.casPending.2 then _ else _))
      rw [casPending_outbox]
      split <;> exact .pend
    | cancel => exact .idle rfl
  | recv id pc => exact recvComplete_sendStep ok c id pc
  | send id pc => exact sendComplete_sendStep ok c id pc
  | accept id pc => exact acceptComplete_sendStep ok c id pc
  | connect id pc => exact connectComplete_sendStep ok c id pc
  | delete id lost =>
    have hlost : SendStep ok c (Task.delete id lost).phase
        { c.outbox with lostSend := c.lostSend + lostSends lost } .idle := by
      cases lost with
      | none => exact .idle rfl
      | some k =>
        cases k with
        | send => exact .lost
        | recv | accept | connect => exact .idle rfl
    show SendStep ok c _ _ (phaseOf c.drop.2)
    rw [drop_phase]
    exact hlost
  | unlock =>
    show SendStep ok c .idle c.outbox (phaseOf c.drop.2)
    rw [drop_phase]
    exact .idle rfl
  | destroy pc => exact destroy_sendStep ok c pc

/-- Only `SendPacket` puts anything into the queue. -/
theorem run_entered (ok : Bool) (c : Cell) {task : Task} (h : ∀ b, task ≠ .sendPacket (.link b)) :
    (task.run ok c).1.entered = c.entered := by
  have hphase : ∀ b, task.phase ≠ .link b := by
    intro b hb
    cases task with
    | sendPacket pc =>
      cases pc with
      | link b' => exact h b' rfl
      | _ => cases hb
    | send id pc => cases pc <;> cases hb
    | delete id lost =>
      cases lost with
      | none => cases hb
      | some k => cases k <;> cases hb
    | accept id pc | connect id pc | destroy pc => cases pc <;> cases hb
    | _ => cases hb
  have hstep := run_sendStep ok c task
  have hentered : (task.run ok c).1.outbox.entered = c.entered := by
    generalize task.phase = p at hstep hphase
    generalize (task.run ok c).1.outbox = o at hstep
    generalize phaseOf (task.run ok c).2 = p' at hstep
    cases hstep with
    | link b => exact absurd rfl (hphase b)
    | async pc =>
      cases pc with
      | cas | unlink wsa | commit wsa =>
        simp only [sendAsync]
        split <;> rfl
      | overflow | noPacket => exact congrArg Outbox.entered (casPending_outbox c)
      | _ => rfl
    | drain pc =>
      cases pc with
      | unlink =>
        simp only [drain]
        split <;> rfl
      | _ => rfl
    | _ => rfl
  exact hentered

end JunCore.SessionSteps
