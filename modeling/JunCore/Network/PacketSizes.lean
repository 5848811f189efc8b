/-
  The sizes of packets, on both sides of a connection.

  The receiver takes lengths from `MIN_PACKET_SIZE` to `MAX_PACKET_SIZE` and gives a connection up at the
  first one that is not: `HandleRecvComplete` returns without a new receive.  The sender never asks.
  `SendPacket` and `SerializeUnifiedPacket` cast the total size to the 32 bits of the header, whatever it
  is, so a message beyond `MAX_PACKET_SIZE` is reported as sent, and ends the connection of the peer
  (`sizes_agree`, `sent_too_long`).
-/
import JunCore.Network.Codec

set_option linter.unusedVariables false

namespace JunCore.Network

/-! ## The two sides -/

/-- What a call of `SendPacket` does: what it returns, and the vector it puts into `send_q_`. -/
structure Sent where
  returns : Bool
  enqueued : Option (List UInt8)

/-- `Session::SendPacket`, on a session with this socket and this `pending_disconnect_`. -/
def ProtoMessage.sendPacketOn (m : ProtoMessage) (sock : Option Nat) (pending : Bool) : Sent :=
  if sock.isNone || pending then ⟨false, none⟩
  else
    match m.sendPacket with
    | none => ⟨false, none⟩
    | some packetData => ⟨true, some packetData⟩

/-- The header both encoders write for a message. -/
def ProtoMessage.header (m : ProtoMessage) : List UInt8 :=
  (initializePacketHeader (UInt32.ofNat (8 + m.payload.length)) (fnv1a m.fullName)).bytes

/-- `Invalid packet length` -/
def Exit.isInvalid : Exit → Bool
  | .invalidLength _ => true
  | _ => false

/-- Whether `HandleRecvComplete` rejects a length when these bytes come in. -/
def Conn.rejects (c : Conn) (bytes : List UInt8) : Bool := (c.outcome bytes 0 false false).exit.isInvalid

/-! ## What is to hold -/

/-- The length field of a packet. -/
def lengthField (packet : List UInt8) : Nat := readLE (packet.take 4)

/-- The length field says how many bytes there are, and the receiver takes it. -/
def WellSized (packet : List UInt8) : Prop :=
  lengthField packet = packet.length ∧ isValidPacketSize (lengthField packet) = true

/-- **Sender and receiver agree on sizes**: what `SendPacket` says it has sent is well sized; it queues
    nothing when it says that it has not; and of the messages that serialize, it refuses those that the
    peer rejects. -/
structure SizesAgree (m : ProtoMessage) (sock : Option Nat) (pending : Bool) (peer : Conn) : Prop where
  sent : (m.sendPacketOn sock pending).returns = true →
    ∃ packet, (m.sendPacketOn sock pending).enqueued = some packet ∧ WellSized packet
  refused : (m.sendPacketOn sock pending).returns = false → (m.sendPacketOn sock pending).enqueued = none
  same : sock.isSome = true → pending = false → m.serializes = true →
    ((m.sendPacketOn sock pending).returns = false ↔ peer.rejects m.header = true)

/-! ## The encoders -/

theorem serializeUnifiedPacket_head (m : ProtoMessage) :
    ∃ rest, m.serializeUnifiedPacket = m.header ++ rest ∧ rest.length = m.payload.length := by
  have hlen : m.header.length = 8 := length_bytes _
  cases hser : m.serializes with
  | true =>
    refine ⟨m.payload, ?_, rfl⟩
    simp only [ProtoMessage.serializeUnifiedPacket, hser, if_true]
    exact overlay_header _ _
  | false =>
    -- the zeros stay
    refine ⟨List.replicate m.payload.length 0, ?_, List.length_replicate⟩
    simp only [ProtoMessage.serializeUnifiedPacket, hser, Bool.false_eq_true, if_false]
    rw [overlay, List.take_zero, List.nil_append, length_bytes, List.drop_replicate]
    have hrest : 8 + m.payload.length - (0 + 8) = m.payload.length := by omega
    rw [hrest]
    rfl

/-- `SendPacket` enqueues what `SerializeUnifiedPacket` returns. -/
theorem sendPacket_some {m : ProtoMessage} (h : m.serializes = true) :
    m.sendPacket = some m.serializeUnifiedPacket := by
  simp only [ProtoMessage.sendPacket, ProtoMessage.serializeUnifiedPacket, h, if_true]
  rfl

theorem sendPacket_none {m : ProtoMessage} (h : m.serializes = false) : m.sendPacket = none := by
  simp [ProtoMessage.sendPacket, h]

theorem lengthField_header (m : ProtoMessage) (rest : List UInt8) :
    lengthField (m.header ++ rest) = (8 + m.payload.length) % 2 ^ 32 := by
  have hlen : ∀ n, (writeLE 4 n).length = 4 := length_writeLE 4
  rw [lengthField, ProtoMessage.header, UnifiedPacketHeader.bytes, List.append_assoc, List.take_left' (hlen _),
    readLE_writeLE (UInt32.toNat_lt _)]
  exact UInt32.toNat_ofNat'

/-- **What the encoders write is well sized** exactly within `MAX_PACKET_SIZE`. -/
theorem wellSized_serializeUnifiedPacket (m : ProtoMessage) :
    WellSized m.serializeUnifiedPacket ↔ 8 + m.payload.length ≤ 4 * 1024 * 1024 := by
  obtain ⟨rest, heq, hrest⟩ := serializeUnifiedPacket_head m
  have hlen : m.header.length = 8 := length_bytes _
  rw [WellSized, isValidPacketSize_iff, heq, lengthField_header, List.length_append, hlen, hrest]
  constructor
  · rintro ⟨hsize, -, hmax⟩
    rwa [hsize] at hmax
  · intro hmax
    rw [Nat.mod_eq_of_lt (by omega)]
    exact ⟨rfl, by omega, hmax⟩

/-! ## The receiver -/

/-- The length is looked at as soon as a header is there. -/
theorem cutLoop_header {s : List UInt8} (hlen : s.length = 8) (engine : Bool) (n : Nat) :
    (cutLoop engine (n + 2) s).exit.isInvalid = !isValidPacketSize (readLE (s.take 4)) := by
  rw [cutLoop, if_neg (by omega)]
  dsimp only
  cases hvalid : isValidPacketSize (readLE (s.take 4)) with
  | false => rfl
  | true =>
    have hmin := (isValidPacketSize_iff.mp hvalid).1
    simp only [Bool.not_true, Bool.false_eq_true, if_false]
    split
    · rfl
    · -- a packet without a payload is complete
      rename_i hsize
      rw [List.drop_eq_nil_of_le (by omega)]
      cases engine <;> rfl

theorem rejects_header {peer : Conn} (hpeer : peer.buffered = []) (m : ProtoMessage) :
    peer.rejects m.header = !isValidPacketSize ((8 + m.payload.length) % 2 ^ 32) := by
  have hlen : m.header.length = 8 := length_bytes _
  have hfit : m.header.length ≤ peer.session.recvBuf.getFreeSize := by
    have hempty : peer.session.recvBuf.getUseSize = 0 := by
      rw [← RingBuffer.length_contents]
      exact congrArg List.length hpeer
    rw [RingBuffer.getFreeSize_eq, hempty, hlen]
    omega
  have hexit := (outcome_eq hfit 0 false false).2.2.2.1
  have hfield := lengthField_header m []
  rw [hpeer, List.nil_append] at hexit
  rw [List.append_nil] at hfield
  rw [Conn.rejects, hexit, cutLoop_header hlen]
  exact congrArg (fun size => !isValidPacketSize size) hfield

/-! ## Both sides -/

/-- **When sizes agree**: for every message, session and peer.  `SendPacket` and the peer agree exactly if
    nothing is sent anyway, or the packet is within `MAX_PACKET_SIZE`; and so it is with the buffer
    of `SerializeUnifiedPacket`. -/
theorem sizes_agree (m : ProtoMessage) (sock : Option Nat) (pending : Bool) (peer : Conn)
    (hpeer : peer.buffered = []) :
    (SizesAgree m sock pending peer ↔ sock = none ∨ pending = true ∨ m.serializes = false ∨
      8 + m.payload.length ≤ 4 * 1024 * 1024) ∧
    (WellSized m.serializeUnifiedPacket ↔ 8 + m.payload.length ≤ 4 * 1024 * 1024) := by
  refine ⟨?_, wellSized_serializeUnifiedPacket m⟩
  have hclosed : sock = none ∨ pending = true → m.sendPacketOn sock pending = ⟨false, none⟩ := by
    rintro (rfl | rfl)
    · rfl
    · simp [ProtoMessage.sendPacketOn]
  cases sock with
  | none =>
    simp only [true_or, iff_true]
    have hsend := hclosed (.inl rfl)
    exact ⟨by simp [hsend], by simp [hsend], by simp⟩
  | some fd =>
    cases pending with
    | true =>
      simp only [true_or, or_true, iff_true]
      have hsend := hclosed (.inr rfl)
      exact ⟨by simp [hsend], by simp [hsend], by simp⟩
    | false =>
      cases hser : m.serializes with
      | false =>
        simp only [true_or, or_true, iff_true]
        have hsend : m.sendPacketOn (some fd) false = ⟨false, none⟩ := by
          simp [ProtoMessage.sendPacketOn, sendPacket_none hser]
        exact ⟨by simp [hsend], by simp [hsend], by simp [hser]⟩
      | true =>
        have hsend : m.sendPacketOn (some fd) false = ⟨true, some m.serializeUnifiedPacket⟩ := by
          simp [ProtoMessage.sendPacketOn, sendPacket_some hser]
        simp only [reduceCtorEq, Bool.false_eq_true, Bool.true_eq_false, false_or]
        rw [← wellSized_serializeUnifiedPacket m]
        refine ⟨fun h => ?_, fun h => ⟨fun _ => ?_, by simp [hsend], fun _ _ _ => ?_⟩⟩
        · obtain ⟨packet, hpacket, hsized⟩ := h.sent (by rw [hsend])
          rw [hsend] at hpacket
          rwa [Option.some.inj hpacket]
        · exact ⟨_, by rw [hsend], h⟩
        · have hmax := (wellSized_serializeUnifiedPacket m).1 h
          have hvalid : isValidPacketSize ((8 + m.payload.length) % 2 ^ 32) = true := by
            rw [Nat.mod_eq_of_lt (by omega), isValidPacketSize_iff]
            omega
          rw [hsend, rejects_header hpeer, hvalid]
          simp

/-- A short message, on an open connection. -/
theorem sizes_agree_three : fresh.buffered = [] ∧ SizesAgree ⟨[97], [1, 2, 3], true⟩ (some 4) false fresh ∧
    WellSized (ProtoMessage.serializeUnifiedPacket ⟨[97], [1, 2, 3], true⟩) := by
  have hfresh : fresh.buffered = [] := RingBuffer.contents_new _ _ _
  obtain ⟨hsend, hserialize⟩ := sizes_agree ⟨[97], [1, 2, 3], true⟩ (some 4) false fresh hfresh
  exact ⟨hfresh, hsend.2 (.inr (.inr (.inr (by decide)))), hserialize.2 (by decide)⟩

/-- One byte more than `MAX_PACKET_SIZE`: `SendPacket` returns `true`, and the peer rejects the packet; the
    buffer of `SerializeUnifiedPacket` is no better. -/
theorem sent_too_long :
    let m : ProtoMessage := ⟨[97], List.replicate (4 * 1024 * 1024 - 7) 0, true⟩
    (m.sendPacketOn (some 4) false).returns = true ∧ fresh.rejects m.header = true ∧
      ¬ SizesAgree m (some 4) false fresh ∧ ¬ WellSized m.serializeUnifiedPacket := by
  intro m
  have hsize : m.payload.length = 4 * 1024 * 1024 - 7 := List.length_replicate
  have hsend : m.sendPacketOn (some 4) false = ⟨true, some m.serializeUnifiedPacket⟩ := by
    simp only [ProtoMessage.sendPacketOn, sendPacket_some (show m.serializes = true from rfl)]
    rfl
  have hreject : fresh.rejects m.header = true := by
    have hfresh : fresh.buffered = [] := RingBuffer.contents_new _ _ _
    rw [rejects_header hfresh, hsize]
    decide
  refine ⟨by rw [hsend], hreject, fun h => ?_, ?_⟩
  · have := (h.same rfl rfl rfl).2 hreject
    rw [hsend] at this
    cases this
  · rw [wellSized_serializeUnifiedPacket, hsize]
    decide

end JunCore.Network
