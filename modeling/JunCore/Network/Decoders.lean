/-
  `ProcessUnifiedPacket` of `JunCore/protocol/UnifiedPacketHeader.h`, beside `HandleRecvComplete`.

  The one is given a buffer that is to hold one packet and nothing else; the other cuts packets off a
  stream.  On a buffer that came in as one receive they do the same, if what counts is how many packets
  are passed to `OnPacketReceived` (`decoders_agree`).  To count the calls of handlers is not enough: a
  packet of an id without a handler makes none, and the one behind it makes one
  (`unknown_packet_first`).
-/
import JunCore.Network.Dispatch

set_option linter.unusedVariables false

namespace JunCore.Network

variable {Handler : Type}

/-! ## The two decoders -/

/-- What a decoder returns, and the handlers it has called, with their payloads. -/
structure Processed (Handler : Type) where
  returns : Bool
  calls : List (Handler × List UInt8)
  deriving DecidableEq

/-- `ProcessUnifiedPacket` -/
def processUnifiedPacket (packetData : List UInt8) (handlers : UInt32 → Option Handler) : Processed Handler :=
  if packetData.length < 8 then ⟨false, []⟩
  else
    let headerLength := readLE (packetData.take 4)
    let packetId := readLE ((packetData.drop 4).take 4)
    if !isValidPacketSize headerLength || headerLength != packetData.length then ⟨false, []⟩
    else
      match handlers (UInt32.ofNat packetId) with
      | none => ⟨false, []⟩
      | some handler => ⟨true, [(handler, packetData.drop 8)]⟩

/-- The same table in an engine: a closure that is called for a user and a payload. -/
def engineHandlers (handlers : UInt32 → Option Handler) :
    UInt32 → Option (PacketHandler Unit (Handler × List UInt8)) :=
  fun id => (handlers id).map fun handler _ payload => some (handler, payload)

/-- The calls of handlers in a completion, on a session that has an owner. -/
def Outcome.calls (out : Outcome) (handlers : UInt32 → Option Handler) : List (Handler × List UInt8) :=
  out.dispatched.filterMap (onPacketReceived (engineHandlers handlers) (some ()))

/-! ## What they have in common -/

/-- `ProcessUnifiedPacket` wants the length of the buffer, and a handler. -/
theorem processUnifiedPacket_spec (b : List UInt8) (handlers : UInt32 → Option Handler) :
    processUnifiedPacket b handlers =
      if isValidPacketSize b.length = true ∧ readLE (b.take 4) = b.length then
        match onPacketReceived (engineHandlers handlers) (some ()) (packetOf b) with
        | none => ⟨false, []⟩
        | some call => ⟨true, [call]⟩
      else ⟨false, []⟩ := by
  unfold processUnifiedPacket
  by_cases hshort : b.length < 8
  · rw [if_pos hshort, if_neg]
    rintro ⟨hvalid, -⟩
    have := (isValidPacketSize_iff.mp hvalid).1
    omega
  · rw [if_neg hshort]
    by_cases hlength : readLE (b.take 4) = b.length
    · cases hvalid : isValidPacketSize b.length with
      | false => simp [hlength, hvalid]
      | true =>
        simp only [hlength, hvalid, bne_self_eq_false, Bool.not_true, Bool.or_false, Bool.false_eq_true, if_false,
          and_self, if_true, onPacketReceived, engineHandlers, packetOf]
        cases handlers (UInt32.ofNat (readLE ((b.drop 4).take 4))) <;> rfl
    · have hne : (readLE (b.take 4) != b.length) = true := by simpa using hlength
      simp [hlength, hne]

/-- The loop leaves nothing and has dispatched one packet: the stream was that packet. -/
theorem cutLoop_single (n : Nat) (s : List UInt8) (p : Packet) :
    (cutLoop true (n + 2) s).dispatched = [p] ∧ (cutLoop true (n + 2) s).buf = [] ↔
      (isValidPacketSize s.length = true ∧ readLE (s.take 4) = s.length) ∧ p = packetOf s := by
  rcases cutLoop_cases true (n + 1) s with ⟨e, heq, hstop, -⟩ | ⟨q, rest, bytes, hcut, hs, heq⟩
  · rw [heq]
    refine ⟨fun h => (by cases h.1), fun ⟨⟨hvalid, hlength⟩, hp⟩ => ?_⟩
    -- the decoder would have cut it off
    have hmin := (isValidPacketSize_iff.mp hvalid).1
    exact absurd (cutPacket_frame.mpr ⟨by omega, hlength ▸ hvalid, by omega, rfl, rfl⟩) (hstop _ _)
  · obtain ⟨hlen, hvalid, hle, rfl, rfl⟩ := cutPacket_frame.mp hcut
    rw [heq]
    simp only [if_true, LoopResult.after, List.cons.injEq]
    constructor
    · rintro ⟨⟨rfl, hnone⟩, hbuf⟩
      -- nothing dispatched and nothing left: there was no rest
      have hrest : s.drop (readLE (s.take 4)) = [] := by
        rcases cutLoop_cases true n (s.drop (readLE (s.take 4))) with ⟨e, heq', -, -⟩ | ⟨q', rest', bytes', -, -, heq'⟩
        · rwa [heq'] at hbuf
        · rw [heq'] at hnone
          simp [LoopResult.after] at hnone
      have hlength : readLE (s.take 4) = s.length := Nat.le_antisymm hle (List.drop_eq_nil_iff.mp hrest)
      exact ⟨⟨hlength ▸ hvalid, hlength⟩, by rw [hlength, List.take_length]⟩
    · rintro ⟨⟨-, hlength⟩, rfl⟩
      rw [hlength, List.take_length, List.drop_length]
      exact ⟨⟨rfl, rfl⟩, rfl⟩

/-! ## Agreement -/

/-- **The two decoders agree.**  `ProcessUnifiedPacket` returns `true` and calls a handler with a payload
    exactly if the same bytes, as one completion on a fresh session, make exactly one call of
    `OnPacketReceived`, which calls that handler with that payload, and leave nothing in `recv_buf_`; and
    in all other cases it returns `false` and calls no handler. -/
theorem decoders_agree (b : List UInt8) (hb : b.length ≤ 8191) (handlers : UInt32 → Option Handler) (c : Conn)
    (hfresh : c.buffered = [] ∧ c.session.engine = true) (now : Nat) (pending pending' : Bool) :
    let out := c.outcome b now pending pending'
    (∀ handler payload, processUnifiedPacket b handlers = ⟨true, [(handler, payload)]⟩ ↔
      ∃ p, out.dispatched = [p] ∧
        onPacketReceived (engineHandlers handlers) (some ()) p = some (handler, payload) ∧
        out.session.recvBuf.contents = []) ∧
    ((∀ handler payload, processUnifiedPacket b handlers ≠ ⟨true, [(handler, payload)]⟩) →
      processUnifiedPacket b handlers = ⟨false, []⟩) := by
  intro out
  have hfit : b.length ≤ c.session.recvBuf.getFreeSize := by
    have hempty : c.session.recvBuf.getUseSize = 0 := by
      rw [← RingBuffer.length_contents]
      exact congrArg List.length hfresh.1
    rw [RingBuffer.getFreeSize_eq, hempty]
    exact hb
  obtain ⟨hdispatched, -, hbuf, -⟩ := outcome_eq hfit now pending pending'
  rw [hfresh.1, hfresh.2, List.nil_append] at hdispatched hbuf
  have hsingle : ∀ p, out.dispatched = [p] ∧ out.session.recvBuf.contents = [] ↔
      (isValidPacketSize b.length = true ∧ readLE (b.take 4) = b.length) ∧ p = packetOf b := by
    intro p
    show (c.outcome b now pending pending').dispatched = [p] ∧
      (c.outcome b now pending pending').session.recvBuf.contents = [] ↔ _
    rw [hdispatched, hbuf]
    exact cutLoop_single 998 b p
  rw [processUnifiedPacket_spec]
  refine ⟨fun handler payload => ⟨fun h => ?_, ?_⟩, fun h => ?_⟩
  · split at h
    · rename_i hpacket
      obtain ⟨hone, hnothing⟩ := (hsingle (packetOf b)).2 ⟨hpacket, rfl⟩
      refine ⟨packetOf b, hone, ?_, hnothing⟩
      cases hcall : onPacketReceived (engineHandlers handlers) (some ()) (packetOf b) with
      | none => simp [hcall] at h
      | some call => simpa [hcall] using h
    · simp at h
  · rintro ⟨p, hone, hcall, hnothing⟩
    obtain ⟨hpacket, rfl⟩ := (hsingle p).1 ⟨hone, hnothing⟩
    rw [if_pos hpacket, hcall]
  · split
    · rename_i hpacket
      simp only [if_pos hpacket] at h
      cases hcall : onPacketReceived (engineHandlers handlers) (some ()) (packetOf b) with
      | none => rfl
      | some call =>
        rw [hcall] at h
        exact absurd rfl (h call.1 call.2)
    · rfl

/-- A packet of nine bytes. -/
theorem decoders_agree_nine :
    processUnifiedPacket [9, 0, 0, 0, 7, 0, 0, 0, 42] (fun id => if id = 7 then some "echo" else none)
        = ⟨true, [("echo", [42])]⟩ ∧
      ∃ p, (fresh.outcome [9, 0, 0, 0, 7, 0, 0, 0, 42] 0 false false).dispatched = [p] := by
  have hagree := (decoders_agree [9, 0, 0, 0, 7, 0, 0, 0, 42] (by decide)
    (fun id => if id = 7 then some "echo" else none) fresh ⟨RingBuffer.contents_new _ _ _, rfl⟩ 0 false false).1
  have hprocess : processUnifiedPacket [9, 0, 0, 0, 7, 0, 0, 0, 42] (fun id => if id = 7 then some "echo" else none)
      = ⟨true, [("echo", [42])]⟩ := by decide
  obtain ⟨p, hp, -⟩ := (hagree "echo" [42]).1 hprocess
  exact ⟨hprocess, p, hp⟩

/-- A packet of an unknown id, and one of a known id behind it: exactly one handler is called and nothing is
    left, but `ProcessUnifiedPacket` returns `false`. -/
theorem unknown_packet_first :
    let b : List UInt8 := [8, 0, 0, 0, 1, 0, 0, 0, 8, 0, 0, 0, 2, 0, 0, 0]
    let handlers : UInt32 → Option Unit := fun id => if id = 2 then some () else none
    let out := fresh.outcome b 0 false false
    (out.calls handlers = [((), [])] ∧ out.session.recvBuf.contents = []) ∧
      processUnifiedPacket b handlers = ⟨false, []⟩ ∧
      ¬ (processUnifiedPacket b handlers = ⟨true, [((), [])]⟩ ↔
        out.calls handlers = [((), [])] ∧ out.session.recvBuf.contents = []) := by
  intro b handlers out
  have hstream : out.calls handlers = [((), [])] ∧ out.session.recvBuf.contents = [] := by decide
  have hbuffer : processUnifiedPacket b handlers = ⟨false, []⟩ := by decide
  refine ⟨hstream, hbuffer, fun h => ?_⟩
  have htrue := h.2 hstream
  rw [hbuffer] at htrue
  cases htrue

end JunCore.Network
