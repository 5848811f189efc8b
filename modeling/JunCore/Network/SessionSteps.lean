/-
  `JunCore/network/Session.h`, `Session.cpp`, `User.h`, and the completion handlers of
  `IOCPManager.cpp`: the life of one session, one atomic step at a time.

  A session begins in `PostAcceptEx` or `PostConnectEx` and ends with its destructor.  In between any
  number of threads work on it: those that call `SendPacket` or `Disconnect` through a `User`, and
  the IOCP workers, which take completions from the port and run the handler of each.  Every access
  to what they share is a step of its own, and the steps come in any order.

  What a callback of the application calls (a packet handler that answers, say) is a call like any
  other, made by a thread of its own: that the callback waits for it is one of the interleavings.

  The system holds the `OverlappedEx` of each operation in progress and of each completion that no
  worker has taken.  It may complete an operation at any time, with any number of bytes the call has
  room for; `CancelIoEx` completes those in progress with none.  Whether a call of the system
  succeeds is the `ok` of the step.

  The file is the program and no more: its members and locals, a history that no step reads, and
  `Task.run`, which is one step of each of the procedures.
-/
import JunCore.Lib.Transition
import JunCore.Common.LFQueue
import JunCore.Network.Receive
import Mathlib.Algebra.GroupWithZero.Nat
import Mathlib.Data.Fintype.Basic

set_option linter.unusedVariables false

namespace JunCore.SessionSteps

open Function Transition Network

/-! ## Data -/

/-- A `std::vector<char>` that `SendPacket` has allocated, with its number. -/
structure Buffer where
  id : Nat
  bytes : List UInt8
  deriving DecidableEq

/-- The argument of `SendPacket`, and whether `SerializeToArray` will succeed on it. -/
structure Message where
  packet : Packet
  serializes : Bool

/-- Which engine a session belongs to: the two subclasses of `NetBase`. -/
inductive Engine
  | server | client
  deriving DecidableEq

/-- `IOOperation`, without `IO_DISCONNECT`, which nothing posts. -/
inductive IOOperation
  | recv | send | accept | connect
  deriving DecidableEq

/-- An `OverlappedEx` with its number and the call it was made for. -/
structure Op where
  id : Nat
  operation : IOOperation
  /-- the `wsaBuf` of a `WSASend`; `none` is a null pointer -/
  wsaBuf : List (Option Buffer) := []
  /-- how many bytes the call can transfer -/
  room : Nat := 0
  /-- how many it did, once it has completed -/
  done : Option Nat := none
  deriving DecidableEq

/-- The `OverlappedEx` of a `WSASend` on these buffers. -/
def sendOp (id : Nat) (wsa : List (Option Buffer)) : Op where
  id := id
  operation := .send
  wsaBuf := wsa
  room := (wsa.map fun b => (b.map (·.bytes.length)).getD 0).sum

/-- The `OverlappedEx` of a `WSARecv` into windows of this many bytes. -/
def recvOp (id room : Nat) : Op where
  id := id
  operation := .recv
  room := room

/-- `CancelIoEx` on an operation. -/
def Op.abort (op : Op) : Op := if op.done = none then { op with done := some 0 } else op

/-- The members of `Session`, the count of the `shared_ptr`s to it, and the operations that the
    system holds for it. -/
structure Session where
  /-- `sock_ != INVALID_SOCKET` -/
  sock : Bool
  sendFlag : Bool
  pendingDisconnect : Bool
  sendQ : LFQueue Buffer
  sendPacketArr : Nat → Option Buffer
  sendPacketCount : Nat
  recvBuf : RingBuffer
  engine : Option Engine
  /-- `owner_user_ != nullptr` -/
  ownerUser : Bool
  refs : Nat
  ops : List Op

/-- What the log keeps. -/
inductive Event
  /-- `new User` -/
  | created
  /-- `OnSessionConnect(user)` or `OnConnectComplete(user, true)` has returned -/
  | connected
  /-- a packet handler is called -/
  | handling
  /-- it returns -/
  | handled
  /-- `CancelIoEx` -/
  | cancelled
  /-- a call of `Disconnect` has returned -/
  | disconnected
  /-- `OnUserDisconnect(owner_user_)` is called -/
  | userDisconnected
  /-- `delete user` -/
  | userDeleted
  deriving DecidableEq

/-- What has happened so far.  No step reads it, except that nobody can call a `User` before
    `published`. -/
structure History where
  /-- how many buffers were allocated, and the numbers of those deleted -/
  buffers : Nat
  freed : List Nat
  /-- the same for the `OverlappedEx` -/
  overlappeds : Nat
  deleted : List Nat
  /-- the buffers in the order in which they entered `send_q_` -/
  entered : List Buffer
  /-- the buffers passed to `WSASend` -/
  handed : List (Option Buffer)
  /-- the `User` has been passed to the application -/
  published : Bool
  /-- how often the owner of a set `send_flag_` was left without anything to follow it -/
  lostSend : Nat
  /-- and how often a receive was, or what leads to the first one -/
  lostRecv : Nat
  /-- how often `~Session` has returned -/
  destroyed : Nat
  log : List Event

/-- A session with its history. -/
structure Cell extends Session, History

/-- `make_shared<Session>()`, `sock_` and `SetEngine` in `PostAcceptEx` or `PostConnectEx`. -/
def Cell.new (e : Engine) (buf : RingBuffer) : Cell where
  sock := true
  sendFlag := false
  pendingDisconnect := false
  sendQ := {}
  sendPacketArr _ := none
  sendPacketCount := 0
  recvBuf := buf
  engine := some e
  ownerUser := false
  refs := 1
  ops := []
  buffers := 0
  freed := []
  overlappeds := 0
  deleted := []
  entered := []
  handed := []
  published := false
  lostSend := 0
  lostRecv := 0
  destroyed := 0
  log := []

/-! ## Where a thread is -/

/-- `Disconnect`. -/
inductive DisconnectPc
  | cas
  | cancel

/-- `SendAsync` and `SendAsyncImpl`.  `wsa` is the local `wsaBuf`, and `preparedCount` its length. -/
inductive SendPc
  | cas
  | loadCount
  | storeFalse
  | reloadCount
  -- `SendAsyncImpl`
  | loadSize
  /-- the queue is too long: `Disconnect()` -/
  | overflow
  | loop (wsa : List (Option Buffer))
  | dequeue (wsa : List (Option Buffer))
  | dequeueFail (wsa : List (Option Buffer))
  | unlink (wsa : List (Option Buffer))
  | commit (wsa : List (Option Buffer))
  /-- "no packet to send": `Disconnect()` -/
  | noPacket
  | cancel
  | post (wsa : List (Option Buffer))
  | postZero (id : Nat) (wsa : List (Option Buffer))

/-- `SendPacket`. -/
inductive PacketPc
  | check (m : Message)
  | allocate (m : Message)
  | serialize (m : Message) (b : Buffer)
  | link (b : Buffer)
  | count
  | sendAsync (pc : SendPc)

/-- `RecvAsync`. -/
inductive RecvAsyncPc
  | check
  | post
  | postZero (id : Nat) (room : Nat)

/-- `HandleRecvComplete`; `k` is `loopCount`. -/
inductive RecvPc
  | moveRear (n : Nat)
  | loop (k : Nat)
  | inHandler (k : Nat)
  | loadPending
  | recvAsync (pc : RecvAsyncPc)

/-- `HandleSendComplete`. -/
inductive SentPc
  | delete (i : Nat)
  | clearCount
  | clearFlag
  | loadPending
  | loadCount
  | sendAsync (pc : SendPc)

/-- The loop of `Set` that empties `send_q_`. -/
inductive DrainPc
  | dequeue
  | dequeueFail
  | unlink

/-- `HandleAcceptComplete`. -/
inductive AcceptPc
  | cast
  | setsockopt
  | getpeername
  | newUser
  | set
  | drain (pc : DrainPc)
  | callback
  | inCallback
  | recvAsync (pc : RecvAsyncPc)

/-- `HandleConnectComplete`. -/
inductive ConnectPc
  | cast
  | setsockopt
  | newUser
  | set
  | drain (pc : DrainPc)
  | recvAsync (pc : RecvAsyncPc)
  | callback
  | inCallback

/-- `PostAcceptEx` or `PostConnectEx`, from `new OverlappedEx` on. -/
inductive PostPc
  | newOverlapped
  | call (id : Nat)
  | failed (id : Nat)

/-- `~Session`, `Release` and the `Set` in it. -/
inductive DestroyPc
  | onUserDisconnect
  | clearOwner
  | release
  | drain (pc : DrainPc)

/-- What a thread is doing, the workers with the `OverlappedEx` of this number.  All of them hold a
    `shared_ptr` to the session, except the last. -/
inductive Task
  | post (e : Engine) (pc : PostPc)
  | sendPacket (pc : PacketPc)
  | disconnect (pc : DisconnectPc)
  | recv (id : Nat) (pc : RecvPc)
  | send (id : Nat) (pc : SentPc)
  | accept (id : Nat) (pc : AcceptPc)
  | connect (id : Nat) (pc : ConnectPc)
  /-- `delete p_overlapped`; `lost` is the operation, unless its handler ran to the end -/
  | delete (id : Nat) (lost : Option IOOperation)
  /-- the end of a local `shared_ptr` -/
  | unlock
  | destroy (pc : DestroyPc)

/-! ## Steps of the procedures -/

/-- Go on with what the sub-procedure returns to, unless it is still running. -/
def resume {P : Type} (inside : P → Task) (after : Task) : Option P → Task
  | some pc => inside pc
  | none => after

/-- The CAS of `Disconnect`. -/
def Cell.casPending (c : Cell) : Cell × Bool :=
  if c.pendingDisconnect then ({ c with log := c.log ++ [.disconnected] }, false)
  else ({ c with pendingDisconnect := true }, true)

/-- `CancelIoEx`, with which `Disconnect` ends. -/
def Cell.cancelIoEx (c : Cell) : Cell :=
  { c with ops := c.ops.map Op.abort, log := c.log ++ [.cancelled, .disconnected] }

/-- `SendAsync` and `SendAsyncImpl`. -/
def sendAsync (ok : Bool) (c : Cell) : SendPc → Cell × Option SendPc
  | .cas => if c.sendFlag then (c, none) else ({ c with sendFlag := true }, some .loadCount)
  | .loadCount => (c, some (if 0 < c.sendQ.getUseCount then .loadSize else .storeFalse))
  | .storeFalse => ({ c with sendFlag := false }, some .reloadCount)
  | .reloadCount => (c, if 0 < c.sendQ.getUseCount then some .cas else none)
  | .loadSize => (c, some (if 200 < c.sendQ.getUseCount then .overflow else .loop []))
  | .overflow | .noPacket =>
    ({ c.casPending.1 with lostSend := c.lostSend + 1 },
      if c.casPending.2 then some .cancel else none)
  | .loop wsa =>
    (c, some (if wsa.length < 200 ∧ 0 < c.sendQ.getUseCount then .dequeue wsa else .commit wsa))
  | .dequeue wsa =>
    ({ c with sendQ := c.sendQ.decrement },
      some (if c.sendQ.decrement.nodeCount < 0 then .dequeueFail wsa else .unlink wsa))
  | .dequeueFail wsa =>
    ({ c with sendQ := c.sendQ.increment }, some (.loop (wsa ++ [c.sendPacketArr wsa.length])))
  | .unlink wsa =>
    match c.sendQ.items with
    | [] => (c, some (.unlink wsa))
    | b :: _ =>
      ({ c with
          sendQ := c.sendQ.unlink
          sendPacketArr := update c.sendPacketArr wsa.length (some b) },
        some (.loop (wsa ++ [some b])))
  | .commit wsa =>
    if wsa = [] then (c, some .noPacket)
    else ({ c with sendPacketCount := wsa.length }, some (.post wsa))
  | .cancel => (c.cancelIoEx, none)
  | .post wsa =>
    ({ c with
        refs := c.refs + 1
        overlappeds := c.overlappeds + 1
        handed := c.handed ++ wsa
        ops := if ok then sendOp c.overlappeds wsa :: c.ops else c.ops },
      if ok then none else some (.postZero c.overlappeds wsa))
  | .postZero id wsa => ({ c with ops := { sendOp id wsa with done := some 0 } :: c.ops }, none)

/-- The windows of the receive buffer that `RecvAsync` passes to `WSARecv`. -/
def Cell.window (c : Cell) : Nat := c.recvBuf.directEnqueueSize + c.recvBuf.remainEnqueueSize

/-- `RecvAsync`. -/
def recvAsync (ok : Bool) (c : Cell) : RecvAsyncPc → Cell × Option RecvAsyncPc
  | .check =>
    if !c.sock || c.pendingDisconnect then ({ c with lostRecv := c.lostRecv + 1 }, none)
    else (c, some .post)
  | .post =>
    ({ c with
        refs := c.refs + 1
        overlappeds := c.overlappeds + 1
        ops := if ok then recvOp c.overlappeds c.window :: c.ops else c.ops },
      if ok then none else some (.postZero c.overlappeds c.window))
  | .postZero id room => ({ c with ops := { recvOp id room with done := some 0 } :: c.ops }, none)

/-- `while (send_q_.Dequeue(&packet_data)) delete packet_data;` -/
def drain (c : Cell) : DrainPc → Cell × Option DrainPc
  | .dequeue =>
    ({ c with sendQ := c.sendQ.decrement },
      some (if c.sendQ.decrement.nodeCount < 0 then .dequeueFail else .unlink))
  | .dequeueFail => ({ c with sendQ := c.sendQ.increment }, none)
  | .unlink =>
    match c.sendQ.items with
    | [] => (c, some .unlink)
    | b :: _ => ({ c with sendQ := c.sendQ.unlink, freed := c.freed ++ [b.id] }, some .dequeue)

/-- The assignments of `Set`. -/
def Cell.set (c : Cell) (sock : Bool) (engine : Option Engine) (user : Bool) : Cell :=
  { c with
    sock := sock
    sendFlag := false
    pendingDisconnect := false
    sendPacketCount := 0
    recvBuf := c.recvBuf.clear
    engine := engine
    ownerUser := user
    lostSend := 0 }

/-- The end of a `shared_ptr`: the last one runs the destructor. -/
def Cell.drop (c : Cell) : Cell × Option Task :=
  ({ c with refs := c.refs - 1 }, if c.refs = 1 then some (.destroy .onUserDisconnect) else none)

/-- An iteration of the loop of `HandleRecvComplete`: a packet and the buffer behind it, or how the
    loop is left, and with what in the buffer. -/
inductive Iteration
  | packet (p : Packet) (rest : RingBuffer)
  | leave (e : Exit) (rest : RingBuffer)

def recvIteration (engine : Bool) (rb : RingBuffer) : Iteration :=
  if rb.getUseSize < 8 then .leave .headerShort rb
  else
    let packetLen := readLE (rb.peek 4)
    if !isValidPacketSize packetLen then .leave (.invalidLength packetLen) rb
    else if rb.getUseSize < packetLen then .leave (.incomplete packetLen) rb
    else
      let packet := rb.dequeue packetLen
      if engine then .packet (packetOf packet.1) packet.2 else .leave .noEngine packet.2

/-- `recvLoop` is this iteration, again and again. -/
theorem recvLoop_succ (engine : Bool) (n : Nat) (rb : RingBuffer) :
    (∃ p rest bytes, recvIteration engine rb = .packet p rest ∧
      recvLoop engine (n + 1) rb = (recvLoop engine n rest).after p bytes) ∨
    ∃ e rest bytes, recvIteration engine rb = .leave e rest ∧
      recvLoop engine (n + 1) rb = ⟨[], bytes, rest, e⟩ := by
  simp only [recvIteration, recvLoop]
  split
  · exact .inr ⟨_, _, _, rfl, rfl⟩
  split
  · exact .inr ⟨_, _, _, rfl, rfl⟩
  split
  · exact .inr ⟨_, _, _, rfl, rfl⟩
  split
  · exact .inl ⟨_, _, _, rfl, rfl⟩
  · exact .inr ⟨_, _, _, rfl, rfl⟩

/-- `HandleRecvComplete`.  A packet is passed on if somebody has registered for it and it parses,
    which is the `ok` of the step. -/
def recvComplete (ok : Bool) (c : Cell) (id : Nat) : RecvPc → Cell × Option Task
  | .moveRear n => ({ c with recvBuf := c.recvBuf.moveRear n }, some (.recv id (.loop 0)))
  | .loop k =>
    if 1000 < k + 1 then (c, some (.delete id (some .recv)))
    else
      match recvIteration c.engine.isSome c.recvBuf with
      | .packet p rest =>
        if ok && c.ownerUser then
          ({ c with recvBuf := rest, published := true, log := c.log ++ [.handling] },
            some (.recv id (.inHandler (k + 1))))
        else ({ c with recvBuf := rest }, some (.recv id (.loop (k + 1))))
      | .leave e rest =>
        ({ c with recvBuf := rest },
          some (if e.isBreak then .recv id .loadPending else .delete id (some .recv)))
  | .inHandler k => ({ c with log := c.log ++ [.handled] }, some (.recv id (.loop k)))
  | .loadPending =>
    (c, some (if c.pendingDisconnect then .delete id (some .recv) else .recv id (.recvAsync .check)))
  | .recvAsync pc =>
    ((recvAsync ok c pc).1,
      some (resume (fun pc => .recv id (.recvAsync pc)) (.delete id none) (recvAsync ok c pc).2))

/-- `HandleSendComplete`. -/
def sendComplete (ok : Bool) (c : Cell) (id : Nat) : SentPc → Cell × Option Task
  | .delete i =>
    if i < c.sendPacketCount then
      ({ c with
          freed := c.freed ++ ((c.sendPacketArr i).map (·.id)).toList
          sendPacketArr := update c.sendPacketArr i none },
        some (.send id (.delete (i + 1))))
    else (c, some (.send id .clearCount))
  | .clearCount => ({ c with sendPacketCount := 0 }, some (.send id .clearFlag))
  | .clearFlag => ({ c with sendFlag := false }, some (.send id .loadPending))
  | .loadPending =>
    (c, some (if c.pendingDisconnect then .delete id none else .send id .loadCount))
  | .loadCount =>
    (c, some (if 0 < c.sendQ.getUseCount then .send id (.sendAsync .cas) else .delete id none))
  | .sendAsync pc =>
    ((sendAsync ok c pc).1,
      some (resume (fun pc => .send id (.sendAsync pc)) (.delete id none) (sendAsync ok c pc).2))

/-- `HandleAcceptComplete`, up to the `PostAcceptEx` for the next session. -/
def acceptComplete (ok : Bool) (c : Cell) (id : Nat) : AcceptPc → Cell × Option Task
  | .cast =>
    (c, some (if c.engine = some .server then .accept id .setsockopt else .delete id (some .accept)))
  | .setsockopt => (c, some (if ok then .accept id .getpeername else .delete id (some .accept)))
  | .getpeername => (c, some (if ok then .accept id .newUser else .delete id (some .accept)))
  | .newUser => ({ c with log := c.log ++ [.created] }, some (.accept id .set))
  | .set => (c.set true (some .server) true, some (.accept id (.drain .dequeue)))
  | .drain pc =>
    ((drain c pc).1,
      some (resume (fun pc => .accept id (.drain pc)) (.accept id .callback) (drain c pc).2))
  | .callback => ({ c with published := true }, some (.accept id .inCallback))
  | .inCallback => ({ c with log := c.log ++ [.connected] }, some (.accept id (.recvAsync .check)))
  | .recvAsync pc =>
    ((recvAsync ok c pc).1,
      some (resume (fun pc => .accept id (.recvAsync pc)) (.delete id none) (recvAsync ok c pc).2))

/-- `HandleConnectComplete`. -/
def connectComplete (ok : Bool) (c : Cell) (id : Nat) : ConnectPc → Cell × Option Task
  | .cast =>
    (c, some (if c.engine = some .client then .connect id .setsockopt else .delete id (some .connect)))
  | .setsockopt => (c, some (if ok then .connect id .newUser else .delete id (some .connect)))
  | .newUser => ({ c with log := c.log ++ [.created] }, some (.connect id .set))
  | .set => (c.set true (some .client) true, some (.connect id (.drain .dequeue)))
  | .drain pc =>
    ((drain c pc).1,
      some (resume (fun pc => .connect id (.drain pc)) (.connect id (.recvAsync .check))
        (drain c pc).2))
  | .recvAsync pc =>
    ((recvAsync ok c pc).1,
      some (resume (fun pc => .connect id (.recvAsync pc)) (.connect id .callback)
        (recvAsync ok c pc).2))
  | .callback => ({ c with published := true }, some (.connect id .inCallback))
  | .inCallback => ({ c with log := c.log ++ [.connected] }, some (.delete id none))

/-- `SendPacket`. -/
def sendPacket (ok : Bool) (c : Cell) : PacketPc → Cell × Option Task
  | .check m =>
    (c, some (if !c.sock || c.pendingDisconnect then .unlock else .sendPacket (.allocate m)))
  | .allocate m =>
    ({ c with buffers := c.buffers + 1 },
      some (.sendPacket (.serialize m ⟨c.buffers, encode m.packet⟩)))
  | .serialize m b =>
    if m.serializes then (c, some (.sendPacket (.link b)))
    else ({ c with freed := c.freed ++ [b.id] }, some .unlock)
  | .link b =>
    ({ c with sendQ := c.sendQ.link b, entered := c.entered ++ [b] }, some (.sendPacket .count))
  | .count => ({ c with sendQ := c.sendQ.increment }, some (.sendPacket (.sendAsync .cas)))
  | .sendAsync pc =>
    ((sendAsync ok c pc).1,
      some (resume (fun pc => .sendPacket (.sendAsync pc)) .unlock (sendAsync ok c pc).2))

/-- The operation that makes a session of an engine. -/
def Engine.operation : Engine → IOOperation
  | .server => .accept
  | .client => .connect

/-- The rest of `PostAcceptEx` or `PostConnectEx`. -/
def postOperation (ok : Bool) (c : Cell) (e : Engine) : PostPc → Cell × Option Task
  | .newOverlapped =>
    ({ c with refs := c.refs + 1, overlappeds := c.overlappeds + 1 },
      some (.post e (.call c.overlappeds)))
  | .call id =>
    if ok then ({ c with ops := { id := id, operation := e.operation } :: c.ops }, some .unlock)
    else (c, some (.post e (.failed id)))
  | .failed id =>
    ({ c with
        refs := c.refs - 1
        deleted := c.deleted ++ [id]
        lostRecv := c.lostRecv + 1 }, some .unlock)

/-- What `OnUserDisconnect` adds to the log: `Client::OnUserDisconnect` deletes the user,
    `GameServer::OnUserDisconnect` does not. -/
def Engine.onUserDisconnect : Engine → List Event
  | .server => [.userDisconnected]
  | .client => [.userDisconnected, .userDeleted]

/-- `~Session`. -/
def destroy (c : Cell) : DestroyPc → Cell × Option Task
  | .onUserDisconnect =>
    match c.engine, c.ownerUser with
    | some e, true => ({ c with log := c.log ++ e.onUserDisconnect }, some (.destroy .clearOwner))
    | _, _ => (c, some (.destroy .clearOwner))
  | .clearOwner => ({ c with ownerUser := false }, some (.destroy .release))
  | .release => (c.set false none false, some (.destroy (.drain .dequeue)))
  | .drain pc =>
    match (drain c pc).2 with
    | some pc' => ((drain c pc).1, some (.destroy (.drain pc')))
    | none => ({ (drain c pc).1 with destroyed := c.destroyed + 1 }, none)

/-- What an `OverlappedEx` takes with it when nothing follows it: a send, the set `send_flag_`;
    any other, the receiving. -/
def lostSends : Option IOOperation → Nat
  | some .send => 1
  | _ => 0

def lostRecvs : Option IOOperation → Nat
  | none | some .send => 0
  | _ => 1

/-- **One step of a thread.** -/
def Task.run (ok : Bool) (c : Cell) : Task → Cell × Option Task
  | .post e pc => postOperation ok c e pc
  | .sendPacket pc => SessionSteps.sendPacket ok c pc
  | .disconnect .cas =>
    (c.casPending.1, some (if c.casPending.2 then .disconnect .cancel else .unlock))
  | .disconnect .cancel => (c.cancelIoEx, some .unlock)
  | .recv id pc => recvComplete ok c id pc
  | .send id pc => sendComplete ok c id pc
  | .accept id pc => acceptComplete ok c id pc
  | .connect id pc => connectComplete ok c id pc
  | .delete id lost =>
    ({ c.drop.1 with
        deleted := c.deleted ++ [id]
        lostSend := c.lostSend + lostSends lost
        lostRecv := c.lostRecv + lostRecvs lost }, c.drop.2)
  | .unlock => c.drop
  | .destroy pc => SessionSteps.destroy c pc

/-! ## All interleavings -/

/-- The session, and what each thread is doing with it. -/
structure Sys (T : Type) where
  cell : Cell
  tasks : T → Option Task

/-- The next step of a thread, or of the system. -/
inductive Act (T : Type)
  /-- `User::SendPacket` -/
  | sendPacket (t : T) (m : Message)
  /-- `User::Disconnect` -/
  | disconnect (t : T)
  /-- `GetQueuedCompletionStatus` returns this -/
  | take (t : T) (op : Op)
  | go (t : T) (ok : Bool)
  /-- an operation completes; a receive with these bytes -/
  | complete (op : Op) (chunk : List UInt8)

/-- What `RunWorkerThread` does with a completion of `n` bytes. -/
def Op.handler (op : Op) (n : Nat) : Task :=
  match op.operation with
  | .recv => if n = 0 then .delete op.id (some .recv) else .recv op.id (.moveRear n)
  | .send => if n = 0 then .delete op.id (some .send) else .send op.id (.delete 0)
  | .accept => .accept op.id .cast
  | .connect => .connect op.id .cast

/-- The system completes an operation. -/
def Cell.complete (c : Cell) (op : Op) (chunk : List UInt8) : Cell :=
  { c with
    ops := { op with done := some chunk.length } :: c.ops.erase op
    recvBuf := if op.operation = .recv then c.recvBuf.fillWindows chunk else c.recvBuf }

variable {T : Type} [DecidableEq T]

/-- The system after thread `t` has gone on. -/
def Sys.after (s : Sys T) (t : T) (r : Cell × Option Task) : Sys T :=
  ⟨r.1, update s.tasks t r.2⟩

/-- Whether a thread can lock the `weak_ptr` of a `User`. -/
def Sys.reaches (s : Sys T) (t : T) : Bool :=
  (s.tasks t).isNone && s.cell.published && decide (0 < s.cell.refs)

/-- A step of the system; `none` when it cannot be taken. -/
def step (s : Sys T) : Act T → Option (Sys T)
  | .sendPacket t m =>
    if s.reaches t then
      some (s.after t ({ s.cell with refs := s.cell.refs + 1 }, some (.sendPacket (.check m))))
    else none
  | .disconnect t =>
    if s.reaches t then
      some (s.after t ({ s.cell with refs := s.cell.refs + 1 }, some (.disconnect .cas)))
    else none
  | .take t op =>
    match s.tasks t, op.done with
    | none, some n =>
      if op ∈ s.cell.ops then
        some (s.after t ({ s.cell with ops := s.cell.ops.erase op }, some (op.handler n)))
      else none
    | _, _ => none
  | .go t ok => (s.tasks t).map fun task => s.after t (task.run ok s.cell)
  | .complete op chunk =>
    if op ∈ s.cell.ops ∧ op.done = none ∧ chunk.length ≤ op.room then
      some { s with cell := s.cell.complete op chunk }
    else none

/-- `PostAcceptEx` or `PostConnectEx` has made a session. -/
def Sys.new (e : Engine) (buf : RingBuffer) (t : T) : Sys T :=
  ⟨.new e buf, update (fun _ => none) t (some (.post e .newOverlapped))⟩

/-- **All runs of a session**, with any number of threads. -/
def system : System (Sys T) where
  init s := ∃ e mem b h t, s = .new e (.new mem b h) t
  next s s' := ∃ a, step s a = some s'

/-- **What a thread may do next**, and what becomes of its task. -/
inductive Does (c : Cell) : Option Task → Cell × Option Task → Prop
  | sendPacket (m : Message) (hpub : c.published = true) (hrefs : 0 < c.refs) :
      Does c none ({ c with refs := c.refs + 1 }, some (.sendPacket (.check m)))
  | disconnect (hpub : c.published = true) (hrefs : 0 < c.refs) :
      Does c none ({ c with refs := c.refs + 1 }, some (.disconnect .cas))
  | take {op : Op} {n : Nat} (hmem : op ∈ c.ops) (hdone : op.done = some n) :
      Does c none ({ c with ops := c.ops.erase op }, some (op.handler n))
  | run (task : Task) (ok : Bool) : Does c (some task) (task.run ok c)

omit [DecidableEq T] in
theorem Sys.reaches_iff {s : Sys T} {t : T} : s.reaches t = true ↔
    s.tasks t = none ∧ s.cell.published = true ∧ 0 < s.cell.refs := by
  unfold Sys.reaches
  rw [Bool.and_eq_true, Bool.and_eq_true, decide_eq_true_eq, Option.isNone_iff_eq_none, and_assoc]

/-- What all threads satisfy at first. -/
theorem Sys.forall_new {e : Engine} {buf : RingBuffer} {t : T} {P : Option Task → Prop}
    (hme : P (some (.post e .newOverlapped))) (hothers : P none) (u : T) :
    P ((Sys.new e buf t).tasks u) := by
  show P (update (fun _ => none) t _ u)
  by_cases hu : u = t
  · subst hu
    rw [update_self]
    exact hme
  · rw [update_of_ne hu]
    exact hothers

/-- What all threads satisfy after one of them has gone on. -/
theorem Sys.forall_after {s : Sys T} {t : T} {r : Cell × Option Task} {P : Option Task → Prop}
    (hme : P r.2) (hothers : ∀ u, u ≠ t → P (s.tasks u)) (u : T) : P ((s.after t r).tasks u) := by
  show P (update s.tasks t r.2 u)
  by_cases hu : u = t
  · subst hu
    rw [update_self]
    exact hme
  · rw [update_of_ne hu]
    exact hothers u hu

/-- Every step is something a thread does, or the system completes an operation. -/
theorem step_does {s s' : Sys T} (h : system.next s s') :
    (∃ t r, Does s.cell (s.tasks t) r ∧ s' = s.after t r) ∨
    ∃ op chunk, op ∈ s.cell.ops ∧ op.done = none ∧ chunk.length ≤ op.room ∧
      s' = { s with cell := s.cell.complete op chunk } := by
  obtain ⟨a, h⟩ := h
  cases a with
  | sendPacket t m =>
    simp only [step] at h
    split at h
    · rename_i hreach
      obtain ⟨htask, hpub, hrefs⟩ := Sys.reaches_iff.mp hreach
      exact .inl ⟨t, _, htask ▸ .sendPacket m hpub hrefs, (Option.some.inj h).symm⟩
    · cases h
  | disconnect t =>
    simp only [step] at h
    split at h
    · rename_i hreach
      obtain ⟨htask, hpub, hrefs⟩ := Sys.reaches_iff.mp hreach
      exact .inl ⟨t, _, htask ▸ .disconnect hpub hrefs, (Option.some.inj h).symm⟩
    · cases h
  | take t op =>
    simp only [step] at h
    split at h
    · rename_i n htask hdone
      split at h
      · rename_i hmem
        exact .inl ⟨t, _, htask ▸ .take hmem hdone, (Option.some.inj h).symm⟩
      · cases h
    · cases h
  | go t ok =>
    simp only [step] at h
    cases htask : s.tasks t with
    | none =>
      rw [htask] at h
      cases h
    | some task =>
      rw [htask] at h
      exact .inl ⟨t, _, htask ▸ .run task ok, (Option.some.inj h).symm⟩
  | complete op chunk =>
    simp only [step] at h
    split at h
    · rename_i hop
      exact .inr ⟨op, chunk, hop.1, hop.2.1, hop.2.2, (Option.some.inj h).symm⟩
    · cases h

end JunCore.SessionSteps
