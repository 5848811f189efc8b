/-
  `EchoServer/EchoServer.h`, `EchoServer.cpp` and `echo_message.proto`: a session of the echo server.

  The server registers one packet handler, for `EchoRequest`, which passes an `EchoResponse` with the
  same message to `User::SendPacket`.  The handler is called by the worker that takes the packet out of
  the stream, and this worker goes on when the handler has returned.  Apart from that the server does
  nothing with a session: it calls neither `SendPacket` nor `Disconnect` on its own.

  So a session of the server is a session as any other, in which each worker has a second place, the
  one in the `SendPacket` that its handler has called; `Sys` has it as a caller of its own.  The worker
  waits for it.  What protobuf makes of the messages is a parameter.
-/
import JunCore.Network.Dispatch
import JunCore.Network.Receiving

set_option linter.unusedVariables false
set_option linter.unusedSectionVars false

namespace JunCore.EchoServer

open Function Transition Framing Network SessionSteps

/-! ## The messages -/

/-- `message EchoRequest` -/
structure EchoRequest where
  message : List UInt8
  deriving DecidableEq

/-- `message EchoResponse` -/
structure EchoResponse where
  message : List UInt8
  timestamp : Int := 0
  deriving DecidableEq

/-- The types of `echo_message.proto`. -/
inductive EchoType
  | request | response

abbrev EchoType.Msg : EchoType → Type
  | .request => EchoRequest
  | .response => EchoResponse

/-- The names of the two types, and what protobuf does with their messages. -/
abbrev EchoProtocol := Protocol EchoType EchoType.Msg

/-- A response, as `SendPacket` is called with it. -/
def EchoProtocol.toSend (P : EchoProtocol) (response : EchoResponse) : Message where
  packet := (P.message .response response).packet
  serializes := (P.message .response response).serializes

/-- `HandleEchoRequest`: what it passes to `SendPacket`. -/
def handleEchoRequest (user : Unit) (request : EchoRequest) : EchoResponse where
  message := request.message

/-- `RegisterPacketHandlers`. -/
def registerPacketHandlers : List (Registration EchoType.Msg Unit EchoResponse) :=
  [⟨.request, handleEchoRequest⟩]

/-- `OnPacketReceived` on a session that has this owner or has none: what `SendPacket` is called
    with, if it is. -/
def answer (P : EchoProtocol) (owner : Bool) (p : Packet) : Option Message :=
  (onPacketReceived (registerAll P registerPacketHandlers) (if owner then some () else none) p).map
    P.toSend

/-- What comes of the `OnPacketReceived` in this iteration of the loop of `HandleRecvComplete`, if it
    gets there. -/
def reply (P : EchoProtocol) (c : Cell) (k : Nat) : Option Message :=
  if 1000 < k + 1 then none
  else
    match recvIteration c.engine.isSome c.recvBuf with
    | .packet p _ => answer P c.ownerUser p
    | .leave _ _ => none

/-! ## All interleavings -/

/-- A session of the server and its workers; those that may make it with `PostAcceptEx` are among them. -/
structure Echo (W : Type) where
  /-- `.inl w` is the worker, `.inr w` the `SendPacket` it is in -/
  sys : Sys (W ⊕ W)
  /-- what the handler that a worker is in will call `SendPacket` with -/
  call : W → Option Message
  /-- the bytes received so far -/
  received : List UInt8

/-- The next step of a worker, or of the system. -/
inductive EchoAct (W : Type)
  /-- `GetQueuedCompletionStatus` returns this -/
  | take (w : W) (op : Op)
  | go (w : W) (ok : Bool)
  /-- `user.SendPacket(response)` -/
  | call (w : W)
  /-- the next step in it -/
  | send (w : W) (ok : Bool)
  | complete (op : Op) (chunk : List UInt8)

variable {W : Type} [DecidableEq W]

/-- Whether the handler that a worker has called has something to do. -/
def Echo.busy (e : Echo W) (w : W) : Bool := (e.call w).isSome || (e.sys.tasks (.inr w)).isSome

/-- A step of the server; `none` when it cannot be taken. -/
def Echo.step (P : EchoProtocol) (e : Echo W) : EchoAct W → Option (Echo W)
  | .take w op => (SessionSteps.step e.sys (.take (.inl w) op)).map fun s => { e with sys := s }
  | .go w ok =>
    match e.sys.tasks (.inl w) with
    | some (.recv _ (.loop k)) =>
      (SessionSteps.step e.sys (.go (.inl w) (reply P e.sys.cell k).isSome)).map fun s =>
        { e with sys := s, call := update e.call w (reply P e.sys.cell k) }
    | some (.recv _ (.inHandler _)) =>
      if e.busy w then none
      else (SessionSteps.step e.sys (.go (.inl w) ok)).map fun s => { e with sys := s }
    | _ => (SessionSteps.step e.sys (.go (.inl w) ok)).map fun s => { e with sys := s }
  | .call w =>
    -- if the `weak_ptr` could not be locked, there would be nobody to send to
    (e.call w).map fun m =>
      { e with
        sys := (SessionSteps.step e.sys (.sendPacket (.inr w) m)).getD e.sys
        call := update e.call w none }
  | .send w ok => (SessionSteps.step e.sys (.go (.inr w) ok)).map fun s => { e with sys := s }
  | .complete op chunk =>
    (SessionSteps.step e.sys (.complete op chunk)).map fun s =>
      { e with
        sys := s
        received := if op.operation = .recv then e.received ++ chunk else e.received }

/-- **All runs of a session of the server**, with any number of workers. -/
def echoSystem (P : EchoProtocol) : System (Echo W) where
  init e := ∃ mem b h w, e = ⟨.new .server (.new mem b h) (.inl w), fun _ => none, []⟩
  next e e' := ∃ a, e.step P a = some e'

/-- **What may happen next.** -/
inductive Moves (P : EchoProtocol) (e : Echo W) : Echo W → Prop
  | take {w : W} {op : Op} {n : Nat} (htask : e.sys.tasks (.inl w) = none) (hmem : op ∈ e.sys.cell.ops)
      (hdone : op.done = some n) :
      Moves P e { e with
        sys := e.sys.after (.inl w)
          ({ e.sys.cell with ops := e.sys.cell.ops.erase op }, some (op.handler n)) }
  | go {w : W} {task : Task} (ok : Bool) (htask : e.sys.tasks (.inl w) = some task)
      (hloop : ∀ id k, task ≠ .recv id (.loop k))
      (hwait : ∀ id k, task = .recv id (.inHandler k) → e.busy w = false) :
      Moves P e { e with sys := e.sys.after (.inl w) (task.run ok e.sys.cell) }
  | receive {w : W} {id k : Nat} (htask : e.sys.tasks (.inl w) = some (.recv id (.loop k))) :
      Moves P e { e with
        sys := e.sys.after (.inl w)
          ((Task.recv id (.loop k)).run (reply P e.sys.cell k).isSome e.sys.cell)
        call := update e.call w (reply P e.sys.cell k) }
  | call {w : W} {m : Message} (hcall : e.call w = some m) :
      Moves P e { e with
        sys := (SessionSteps.step e.sys (.sendPacket (.inr w) m)).getD e.sys
        call := update e.call w none }
  | send {w : W} {task : Task} (ok : Bool) (htask : e.sys.tasks (.inr w) = some task) :
      Moves P e { e with sys := e.sys.after (.inr w) (task.run ok e.sys.cell) }
  | complete {op : Op} {chunk : List UInt8} (hmem : op ∈ e.sys.cell.ops) (hdone : op.done = none)
      (hroom : chunk.length ≤ op.room) :
      Moves P e { e with
        sys := { e.sys with cell := e.sys.cell.complete op chunk }
        received := if op.operation = .recv then e.received ++ chunk else e.received }

/-- A step of a thread that has a task. -/
theorem step_go {T : Type} [DecidableEq T] {s s' : Sys T} {t : T} {ok : Bool}
    (h : SessionSteps.step s (.go t ok) = some s') :
    ∃ task, s.tasks t = some task ∧ s' = s.after t (task.run ok s.cell) := by
  obtain ⟨task, htask, hs'⟩ := Option.map_eq_some_iff.mp h
  exact ⟨task, htask, hs'.symm⟩

/-- Every step is one of these. -/
theorem step_moves {P : EchoProtocol} {e e' : Echo W} (h : (echoSystem P).next e e') :
    Moves P e e' := by
  obtain ⟨a, h⟩ := h
  cases a with
  | take w op =>
    obtain ⟨s, hs, rfl⟩ := Option.map_eq_some_iff.mp h
    simp only [SessionSteps.step] at hs
    split at hs
    · rename_i n htask hdone
      split at hs
      · rename_i hmem
        rw [← Option.some.inj hs]
        exact .take htask hmem hdone
      · cases hs
    · cases hs
  | go w ok =>
    simp only [Echo.step] at h
    split at h
    · rename_i id k htask
      obtain ⟨s, hs, rfl⟩ := Option.map_eq_some_iff.mp h
      obtain ⟨task, htask', rfl⟩ := step_go hs
      rw [htask] at htask'
      obtain rfl : Task.recv id (.loop k) = task := Option.some.inj htask'
      exact .receive htask
    · rename_i id k htask
      split at h
      · cases h
      · rename_i hbusy
        obtain ⟨s, hs, rfl⟩ := Option.map_eq_some_iff.mp h
        obtain ⟨task, htask', rfl⟩ := step_go hs
        rw [htask] at htask'
        obtain rfl : Task.recv id (.inHandler k) = task := Option.some.inj htask'
        refine .go ok htask (fun id k heq => by cases heq) fun id k heq => ?_
        exact Bool.eq_false_of_not_eq_true hbusy
    · rename_i hloop hhandler
      obtain ⟨s, hs, rfl⟩ := Option.map_eq_some_iff.mp h
      obtain ⟨task, htask, rfl⟩ := step_go hs
      refine .go ok htask (fun id k heq => ?_) fun id k heq => ?_
      · exact absurd (htask.trans (congrArg some heq)) (hloop id k)
      · exact absurd (htask.trans (congrArg some heq)) (hhandler id k)
  | call w =>
    obtain ⟨m, hm, rfl⟩ := Option.map_eq_some_iff.mp h
    exact .call hm
  | send w ok =>
    obtain ⟨s, hs, rfl⟩ := Option.map_eq_some_iff.mp h
    obtain ⟨task, htask, rfl⟩ := step_go hs
    exact .send ok htask
  | complete op chunk =>
    obtain ⟨s, hs, rfl⟩ := Option.map_eq_some_iff.mp h
    simp only [SessionSteps.step] at hs
    split at hs
    · rename_i hop
      rw [← Option.some.inj hs]
      exact .complete hop.1 hop.2.1 hop.2.2
    · cases hs

end JunCore.EchoServer
