/-
  The life of a session's `User`.

  The handler that connects a session creates its `User`, and the destructor of the session says
  goodbye to it; in between, the packet handlers are called with it.  `Life` is what this is about, and
  the log; `Stage` says where a thread is in it.  `HandleAcceptComplete` and `HandleConnectComplete` go
  through the same stages, in another order.  As for the sending, `LifeStep` is the list of what a
  step can do, and `run_lifeStep` says that every step of every task is on it.
-/
import JunCore.Network.SessionLaws

set_option linter.unusedVariables false

namespace JunCore.SessionSteps

open Function Transition Network

/-! ## What a step looks like -/

/-- The members that say what has become of the session, what it has received, and what was done with
    its `User`. -/
structure Life where
  sock : Bool
  pending : Bool
  recvBuf : RingBuffer
  engine : Option Engine
  ownerUser : Bool
  published : Bool
  lostRecv : Nat
  log : List Event

def Cell.life (c : Cell) : Life where
  sock := c.sock
  pending := c.pendingDisconnect
  recvBuf := c.recvBuf
  engine := c.engine
  ownerUser := c.ownerUser
  published := c.published
  lostRecv := c.lostRecv
  log := c.log

/-- Where a thread is. -/
inductive Stage
  | other
  /-- `Disconnect`, after its CAS -/
  | cancel
  /-- the end of an operation that nothing follows -/
  | giveUp (k : IOOperation)
  -- on the way to the connection
  | coming (e : Engine)
  | checked (e : Engine)
  | newUser (e : Engine)
  | set (e : Engine)
  | drain (e : Engine)
  | callback (e : Engine)
  | inCallback (e : Engine)
  | first (e : Engine) (pc : RecvAsyncPc)
  -- `HandleRecvComplete`
  | recv (pc : RecvPc)
  -- `~Session`
  | ending (pc : DestroyPc)

def SendPc.stage : SendPc → Stage
  | .cancel => .cancel
  | _ => .other

def Task.stage : Task → Stage
  | .post e _ => .coming e
  | .accept _ .cast => .coming .server
  | .connect _ .cast => .coming .client
  | .accept _ .setsockopt | .accept _ .getpeername => .checked .server
  | .connect _ .setsockopt => .checked .client
  | .accept _ .newUser => .newUser .server
  | .connect _ .newUser => .newUser .client
  | .accept _ .set => .set .server
  | .connect _ .set => .set .client
  | .accept _ (.drain _) => .drain .server
  | .connect _ (.drain _) => .drain .client
  | .accept _ .callback => .callback .server
  | .connect _ .callback => .callback .client
  | .accept _ .inCallback => .inCallback .server
  | .connect _ .inCallback => .inCallback .client
  | .accept _ (.recvAsync pc) => .first .server pc
  | .connect _ (.recvAsync pc) => .first .client pc
  | .recv _ pc => .recv pc
  | .sendPacket (.sendAsync pc) | .send _ (.sendAsync pc) => pc.stage
  | .disconnect .cancel => .cancel
  | .delete _ (some k) => .giveUp k
  | .destroy pc => .ending pc
  | _ => .other

def stageOf : Option Task → Stage
  | some task => task.stage
  | none => .other

/-- The place in a procedure, or what comes after it. -/
def Stage.inside {P : Type} (f : P → Stage) (after : Stage) : Option P → Stage
  | some pc => f pc
  | none => after

/-- Where `Set` is followed by what: `OnSessionConnect` comes before the first receive,
    `OnConnectComplete` after it. -/
def Stage.afterSet : Engine → Stage
  | .server => .callback .server
  | .client => .first .client .check

def Stage.afterCallback : Engine → Stage
  | .server => .first .server .check
  | .client => .other

def Stage.afterFirst : Engine → Stage
  | .server => .other
  | .client => .callback .client

/-- What the end of a `shared_ptr` leads to. -/
def Stage.dropped (c : Cell) : Stage := if c.refs = 1 then .ending .onUserDisconnect else .other

/-- **What a step of a thread does with the life of the session.** -/
inductive LifeStep (ok : Bool) (c : Cell) : Stage → Life → Stage → Prop
  | keep : LifeStep ok c .other c.life .other
  | drop : LifeStep ok c .other c.life (.dropped c)
  /-- the CAS of `Disconnect` -/
  | cas : LifeStep ok c .other c.casPending.1.life (if c.casPending.2 then .cancel else .other)
  | cancel :
      LifeStep ok c .cancel { c.life with log := c.log ++ [.cancelled, .disconnected] } .other
  | giveUp (k : IOOperation) :
      LifeStep ok c (.giveUp k) { c.life with lostRecv := c.lostRecv + lostRecvs (some k) }
        (.dropped c)
  /-- `PostAcceptEx` or `PostConnectEx`, or an error exit -/
  | coming (e : Engine) {p : Stage} (h : p = .coming e ∨ p = .other ∨ p = .giveUp e.operation) :
      LifeStep ok c (.coming e) c.life p
  | failed (e : Engine) :
      LifeStep ok c (.coming e) { c.life with lostRecv := c.lostRecv + 1 } .other
  | cast {e : Engine} (h : c.engine = some e) : LifeStep ok c (.coming e) c.life (.checked e)
  | checked (e : Engine) {p : Stage}
      (h : p = .checked e ∨ p = .newUser e ∨ p = .giveUp e.operation) :
      LifeStep ok c (.checked e) c.life p
  | newUser (e : Engine) :
      LifeStep ok c (.newUser e) { c.life with log := c.log ++ [.created] } (.set e)
  | set (e : Engine) :
      LifeStep ok c (.set e)
        { c.life with
          sock := true
          pending := false
          recvBuf := c.recvBuf.clear
          engine := some e
          ownerUser := true } (.drain e)
  | drain (e : Engine) {p : Stage} (h : p = .drain e ∨ p = .afterSet e) :
      LifeStep ok c (.drain e) c.life p
  | callback (e : Engine) :
      LifeStep ok c (.callback e) { c.life with published := true } (.inCallback e)
  | inCallback (e : Engine) :
      LifeStep ok c (.inCallback e) { c.life with log := c.log ++ [.connected] } (.afterCallback e)
  | first (e : Engine) (pc : RecvAsyncPc) :
      LifeStep ok c (.first e pc) (recvAsync ok c pc).1.life
        (Stage.inside (.first e) (.afterFirst e) (recvAsync ok c pc).2)
  | moveRear (n : Nat) :
      LifeStep ok c (.recv (.moveRear n)) { c.life with recvBuf := c.recvBuf.moveRear n }
        (.recv (.loop 0))
  | tooMany (k : Nat) : LifeStep ok c (.recv (.loop k)) c.life (.giveUp .recv)
  /-- a packet handler is called -/
  | handle {k : Nat} {p : Packet} {rest : RingBuffer} (huser : c.ownerUser = true)
      (hpacket : recvIteration c.engine.isSome c.recvBuf = .packet p rest) :
      LifeStep ok c (.recv (.loop k))
        { c.life with recvBuf := rest, published := true, log := c.log ++ [.handling] }
        (.recv (.inHandler (k + 1)))
  /-- nobody wants the packet -/
  | skip {k : Nat} {p : Packet} {rest : RingBuffer}
      (hpacket : recvIteration c.engine.isSome c.recvBuf = .packet p rest) :
      LifeStep ok c (.recv (.loop k)) { c.life with recvBuf := rest } (.recv (.loop (k + 1)))
  | leave {k : Nat} (rest : RingBuffer) {p : Stage} (h : p = .recv .loadPending ∨ p = .giveUp .recv) :
      LifeStep ok c (.recv (.loop k)) { c.life with recvBuf := rest } p
  | loadPending {p : Stage} (h : p = .recv (.recvAsync .check) ∨ p = .giveUp .recv) :
      LifeStep ok c (.recv .loadPending) c.life p
  | inHandler (k : Nat) :
      LifeStep ok c (.recv (.inHandler k)) { c.life with log := c.log ++ [.handled] }
        (.recv (.loop k))
  | recvAsync (pc : RecvAsyncPc) :
      LifeStep ok c (.recv (.recvAsync pc)) (recvAsync ok c pc).1.life
        (Stage.inside (fun pc => .recv (.recvAsync pc)) .other (recvAsync ok c pc).2)
  | onUserDisconnect :
      LifeStep ok c (.ending .onUserDisconnect) (destroy c .onUserDisconnect).1.life
        (.ending .clearOwner)
  | clearOwner :
      LifeStep ok c (.ending .clearOwner) { c.life with ownerUser := false } (.ending .release)
  | release :
      LifeStep ok c (.ending .release)
        { c.life with
          sock := false
          pending := false
          recvBuf := c.recvBuf.clear
          engine := none
          ownerUser := false }
        (.ending (.drain .dequeue))
  | drained (pc : DrainPc) :
      LifeStep ok c (.ending (.drain pc)) c.life
        (Stage.inside (fun pc => .ending (.drain pc)) .other (SessionSteps.drain c pc).2)

/-! ## That it does -/

theorem drop_stage (c : Cell) : stageOf c.drop.2 = .dropped c := by
  show stageOf (if c.refs = 1 then _ else _) = if c.refs = 1 then _ else _
  split <;> rfl

theorem stage_resume {P : Type} {inside : P → Task} {after : Task} {f : P → Stage} {p : Stage}
    (hinside : ∀ pc, (inside pc).stage = f pc) (hafter : after.stage = p) (o : Option P) :
    stageOf (some (resume inside after o)) = Stage.inside f p o := by
  cases o with
  | none => exact hafter
  | some pc => exact hinside pc

theorem drain_life (c : Cell) (pc : DrainPc) : (drain c pc).1.life = c.life := by
  cases pc with
  | unlink =>
    simp only [drain]
    split <;> rfl
  | dequeue | dequeueFail => rfl

/-- `SendAsync` has to do with it only where it disconnects. -/
theorem sendAsync_lifeStep (ok : Bool) (c : Cell) (pc : SendPc) :
    LifeStep ok c pc.stage (sendAsync ok c pc).1.life
      (Stage.inside SendPc.stage .other (sendAsync ok c pc).2) := by
  cases pc with
  | cas | reloadCount | unlink wsa | commit wsa =>
    simp only [sendAsync]
    split <;> exact .keep
  | loadCount | loadSize | loop wsa | dequeue wsa =>
    simp only [sendAsync]
    split <;> exact .keep
  | storeFalse | dequeueFail wsa | postZero id wsa => exact .keep
  | post wsa => cases ok <;> exact .keep
  | overflow | noPacket =>
    have hstep : LifeStep ok c .other c.casPending.1.life
        (if c.casPending.2 then .cancel else .other) := .cas
    cases hcas : c.casPending.2 with
    | true =>
      rw [hcas] at hstep
      simp only [sendAsync, hcas]
      exact hstep
    | false =>
      rw [hcas] at hstep
      simp only [sendAsync, hcas]
      exact hstep
  | cancel => exact .cancel

theorem sendPacket_lifeStep (ok : Bool) (c : Cell) (pc : PacketPc) :
    LifeStep ok c (Task.sendPacket pc).stage (sendPacket ok c pc).1.life
      (stageOf (sendPacket ok c pc).2) := by
  cases pc with
  | check m | serialize m b =>
    simp only [sendPacket]
    split <;> exact .keep
  | allocate m | link b | count => exact .keep
  | sendAsync pc =>
    simp only [sendPacket]
    rw [stage_resume (f := SendPc.stage) (p := .other) (fun _ => rfl) rfl]
    exact sendAsync_lifeStep ok c pc

theorem sendComplete_lifeStep (ok : Bool) (c : Cell) (id : Nat) (pc : SentPc) :
    LifeStep ok c (Task.send id pc).stage (sendComplete ok c id pc).1.life
      (stageOf (sendComplete ok c id pc).2) := by
  cases pc with
  | delete i | loadPending | loadCount =>
    simp only [sendComplete]
    split <;> exact .keep
  | clearCount | clearFlag => exact .keep
  | sendAsync pc =>
    simp only [sendComplete]
    rw [stage_resume (f := SendPc.stage) (p := .other) (fun _ => rfl) rfl]
    exact sendAsync_lifeStep ok c pc

theorem recvComplete_lifeStep (ok : Bool) (c : Cell) (id : Nat) (pc : RecvPc) :
    LifeStep ok c (.recv pc) (recvComplete ok c id pc).1.life
      (stageOf (recvComplete ok c id pc).2) := by
  cases pc with
  | moveRear n => exact .moveRear n
  | loop k =>
    simp only [recvComplete]
    split
    · exact .tooMany k
    split
    · rename_i p rest hpacket
      split
      · rename_i huser
        exact .handle (Bool.and_eq_true_iff.mp huser).2 hpacket
      · exact .skip hpacket
    · split
      · exact .leave _ (.inl rfl)
      · exact .leave _ (.inr rfl)
  | inHandler k => exact .inHandler k
  | loadPending =>
    simp only [recvComplete]
    split
    · exact .loadPending (.inr rfl)
    · exact .loadPending (.inl rfl)
  | recvAsync pc =>
    simp only [recvComplete]
    rw [stage_resume (f := fun pc => .recv (.recvAsync pc)) (p := .other) (fun _ => rfl) rfl]
    exact .recvAsync pc

theorem acceptComplete_lifeStep (ok : Bool) (c : Cell) (id : Nat) (pc : AcceptPc) :
    LifeStep ok c (Task.accept id pc).stage (acceptComplete ok c id pc).1.life
      (stageOf (acceptComplete ok c id pc).2) := by
  cases pc with
  | cast =>
    simp only [acceptComplete]
    split
    · rename_i hengine
      exact .cast hengine
    · exact .coming .server (.inr (.inr rfl))
  | setsockopt =>
    cases ok with
    | true => exact .checked .server (.inl rfl)
    | false => exact .checked .server (.inr (.inr rfl))
  | getpeername =>
    cases ok with
    | true => exact .checked .server (.inr (.inl rfl))
    | false => exact .checked .server (.inr (.inr rfl))
  | newUser => exact .newUser .server
  | set => exact .set .server
  | drain pc =>
    simp only [acceptComplete]
    rw [drain_life]
    cases (drain c pc).2 with
    | none => exact .drain .server (.inr rfl)
    | some pc' => exact .drain .server (.inl rfl)
  | callback => exact .callback .server
  | inCallback => exact .inCallback .server
  | recvAsync pc =>
    simp only [acceptComplete]
    rw [stage_resume (f := .first .server) (p := .other) (fun _ => rfl) rfl]
    exact .first .server pc

theorem connectComplete_lifeStep (ok : Bool) (c : Cell) (id : Nat) (pc : ConnectPc) :
    LifeStep ok c (Task.connect id pc).stage (connectComplete ok c id pc).1.life
      (stageOf (connectComplete ok c id pc).2) := by
  cases pc with
  | cast =>
    simp only [connectComplete]
    split
    · rename_i hengine
      exact .cast hengine
    · exact .coming .client (.inr (.inr rfl))
  | setsockopt =>
    cases ok with
    | true => exact .checked .client (.inr (.inl rfl))
    | false => exact .checked .client (.inr (.inr rfl))
  | newUser => exact .newUser .client
  | set => exact .set .client
  | drain pc =>
    simp only [connectComplete]
    rw [drain_life]
    cases (drain c pc).2 with
    | none => exact .drain .client (.inr rfl)
    | some pc' => exact .drain .client (.inl rfl)
  | recvAsync pc =>
    simp only [connectComplete]
    rw [stage_resume (f := .first .client) (p := .callback .client) (fun _ => rfl) rfl]
    exact .first .client pc
  | callback => exact .callback .client
  | inCallback => exact .inCallback .client

theorem destroy_lifeStep (ok : Bool) (c : Cell) (pc : DestroyPc) :
    LifeStep ok c (.ending pc) (destroy c pc).1.life (stageOf (destroy c pc).2) := by
  cases pc with
  | onUserDisconnect =>
    have hnext : (destroy c .onUserDisconnect).2 = some (.destroy .clearOwner) := by
      simp only [destroy]
      split <;> rfl
    rw [hnext]
    exact .onUserDisconnect
  | clearOwner => exact .clearOwner
  | release => exact .release
  | drain pc =>
    have hlife := drain_life c pc
    have hstep : LifeStep ok c (.ending (.drain pc)) c.life
        (Stage.inside (fun pc => .ending (.drain pc)) .other (drain c pc).2) := .drained pc
    simp only [destroy]
    cases hpc : (drain c pc).2 with
    | none =>
      rw [hpc, ← hlife] at hstep
      exact hstep
    | some pc' =>
      rw [hpc, ← hlife] at hstep
      exact hstep

/-- **Every step of a task is one of these.** -/
theorem run_lifeStep (ok : Bool) (c : Cell) (task : Task) :
    LifeStep ok c task.stage (task.run ok c).1.life (stageOf (task.run ok c).2) := by
  cases task with
  | post e pc =>
    cases pc with
    | newOverlapped => exact .coming e (.inl rfl)
    | call id =>
      cases ok with
      | true => exact .coming e (.inr (.inl rfl))
      | false => exact .coming e (.inl rfl)
    | failed id => exact .failed e
  | sendPacket pc => exact sendPacket_lifeStep ok c pc
  | disconnect pc =>
    cases pc with
    | cas =>
      have hstep : LifeStep ok c .other c.casPending.1.life
          (if c.casPending.2 then .cancel else .other) := .cas
      show LifeStep ok c .other c.casPending.1.life (Task.stage (if c.casPending.2 then _ else _))
      split
      · rename_i hcas
        rw [if_pos hcas] at hstep
        exact hstep
      · rename_i hcas
        rw [if_neg hcas] at hstep
        exact hstep
    | cancel => exact .cancel
  | recv id pc => exact recvComplete_lifeStep ok c id pc
  | send id pc => exact sendComplete_lifeStep ok c id pc
  | accept id pc => exact acceptComplete_lifeStep ok c id pc
  | connect id pc => exact connectComplete_lifeStep ok c id pc
  | delete id lost =>
    show LifeStep ok c _ _ (stageOf c.drop.2)
    rw [drop_stage]
    cases lost with
    | none => exact .drop
    | some k => exact .giveUp k
  | unlock =>
    show LifeStep ok c _ _ (stageOf c.drop.2)
    rw [drop_stage]
    exact .drop
  | destroy pc => exact destroy_lifeStep ok c pc

end JunCore.SessionSteps
