/-
  `Session::SendPacket` and `SerializeUnifiedPacket`, `InitializePacketHeader`, and `fnv1a` of
  `core/base.h`: from a protobuf message to the bytes on the wire, and back.

  The server and the client have an encoder each.  Both allocate a vector of zeros, lay the header
  over its first eight bytes and let protobuf write behind it; they differ in who fills the header
  and in what a failing `SerializeToArray` leads to.  `sendPacket_eq` and `serializeUnifiedPacket_eq`
  bring both down to `encode`, the format the decoder was proved against.

  What protobuf makes of a message is a list of bytes, `ByteSizeLong` is their number, and the name
  of the type is a C string: the hash stops at a NUL.
-/
import JunCore.Network.Receive

set_option linter.unusedVariables false

namespace JunCore.Network

/-! ## The packet id -/

/-- `while (*s) { hash ^= *s++; hash *= 16777619u; }`. -/
def fnv1aLoop (hash : UInt32) : List UInt8 → UInt32
  | [] => hash
  | c :: s => if c = 0 then hash else fnv1aLoop ((hash ^^^ c.toUInt32) * 16777619) s

/-- `fnv1a(const char*)`. -/
def fnv1a (s : List UInt8) : UInt32 := fnv1aLoop 2166136261 s

/-! ## The header -/

structure UnifiedPacketHeader where
  length : UInt32
  packetId : UInt32

/-- The eight bytes of a header in memory. -/
def UnifiedPacketHeader.bytes (h : UnifiedPacketHeader) : List UInt8 :=
  writeLE 4 h.length.toNat ++ writeLE 4 h.packetId.toNat

/-- `InitializePacketHeader`. -/
def initializePacketHeader (totalLength id : UInt32) : UnifiedPacketHeader where
  length := totalLength
  packetId := id

@[simp] theorem length_bytes (h : UnifiedPacketHeader) : h.bytes.length = 8 := by
  simp [UnifiedPacketHeader.bytes]

/-- Overwrite the bytes of a vector from `p` on. -/
def overlay (v : List UInt8) (p : Nat) (l : List UInt8) : List UInt8 :=
  v.take p ++ l ++ v.drop (p + l.length)

/-! ## The two encoders -/

/-- What an encoder asks of a protobuf message. -/
structure ProtoMessage where
  /-- `GetDescriptor()->full_name()` -/
  fullName : List UInt8
  /-- what `SerializeToArray` writes; `ByteSizeLong()` is its length -/
  payload : List UInt8
  /-- whether `SerializeToArray` succeeds -/
  serializes : Bool

/-- `Session::SendPacket`, up to the queue: the vector it enqueues, unless the message does not
    serialize. -/
def ProtoMessage.sendPacket (m : ProtoMessage) : Option (List UInt8) :=
  let totalSize := 8 + m.payload.length
  let packetId := fnv1a m.fullName
  let header : UnifiedPacketHeader := { length := UInt32.ofNat totalSize, packetId := packetId }
  let packetData := overlay (List.replicate totalSize 0) 0 header.bytes
  if m.serializes then some (overlay packetData 8 m.payload) else none

/-- `SerializeUnifiedPacket`; it does not ask whether the message serialized. -/
def ProtoMessage.serializeUnifiedPacket (m : ProtoMessage) : List UInt8 :=
  let totalPacketSize := 8 + m.payload.length
  let header := initializePacketHeader (UInt32.ofNat totalPacketSize) (fnv1a m.fullName)
  let packetData := overlay (List.replicate totalPacketSize 0) 0 header.bytes
  if m.serializes then overlay packetData 8 m.payload else packetData

/-- What the receiver is to make of the message. -/
def ProtoMessage.packet (m : ProtoMessage) : Packet where
  id := (fnv1a m.fullName).toNat
  payload := m.payload

/-- A message within `MAX_PACKET_SIZE` that serializes. -/
def ProtoMessage.Sendable (m : ProtoMessage) : Prop :=
  m.serializes = true ∧ 8 + m.payload.length ≤ 4 * 1024 * 1024

/-- A header over the first bytes, the payload over the others, and the zeros are gone. -/
theorem overlay_header (h : UnifiedPacketHeader) (payload : List UInt8) :
    overlay (overlay (List.replicate (8 + payload.length) 0) 0 h.bytes) 8 payload
      = h.bytes ++ payload := by
  have hlen := length_bytes h
  have hhead : overlay (List.replicate (8 + payload.length) 0) 0 h.bytes
      = h.bytes ++ List.replicate payload.length 0 := by
    rw [overlay, List.take_zero, List.nil_append, hlen, List.drop_replicate]
    congr 2
    omega
  rw [hhead, overlay, List.take_left' hlen, List.drop_append, List.drop_eq_nil_of_le (by omega)]
  simp [hlen]

/-- A total size that fits is what the header says. -/
theorem bytes_of_size {size : Nat} (h : size ≤ 4 * 1024 * 1024) (id : UInt32) :
    (initializePacketHeader (UInt32.ofNat size) id).bytes = writeLE 4 size ++ writeLE 4 id.toNat := by
  have hsize : (UInt32.ofNat size).toNat = size := by
    rw [UInt32.toNat_ofNat']
    omega
  rw [UnifiedPacketHeader.bytes, initializePacketHeader, hsize]

theorem serializeUnifiedPacket_eq {m : ProtoMessage} (h : m.Sendable) :
    m.serializeUnifiedPacket = encode m.packet := by
  obtain ⟨hser, hsize⟩ := h
  simp only [ProtoMessage.serializeUnifiedPacket, hser, if_true]
  rw [overlay_header, bytes_of_size hsize]
  rfl

theorem sendPacket_eq {m : ProtoMessage} (h : m.Sendable) : m.sendPacket = some (encode m.packet) := by
  rw [← serializeUnifiedPacket_eq h]
  obtain ⟨hser, -⟩ := h
  simp only [ProtoMessage.sendPacket, ProtoMessage.serializeUnifiedPacket, hser, if_true]
  rfl

theorem fits_packet {m : ProtoMessage} (h : m.Sendable) : m.packet.Fits :=
  ⟨UInt32.toNat_lt _, h.2⟩

/-! ## The decoder -/

/-- One iteration takes an encoded packet off. -/
theorem cutLoop_encode {p : Packet} (h : p.Fits) (n : Nat) (t : List UInt8) :
    cutLoop true (n + 1) (encode p ++ t) = (cutLoop true n t).after p (encode p) := by
  have hcut := cut_encode h t
  rcases cutLoop_cases true n (encode p ++ t) with ⟨e, -, hstop, -⟩ | ⟨q, rest, bytes, hq, hs, heq⟩
  · exact absurd hcut (hstop p t)
  · rw [hcut] at hq
    cases hq
    rw [heq, if_pos rfl, ← List.append_cancel_right hs]

/-- **The loop inverts the encoder**, as long as it may go round often enough. -/
theorem cutLoop_flatMap {ps : List Packet} (h : ∀ p ∈ ps, p.Fits) {n : Nat} (hn : ps.length < n) :
    cutLoop true n (ps.flatMap encode) = ⟨ps, ps.flatMap encode, [], .headerShort⟩ := by
  induction ps generalizing n with
  | nil =>
    obtain ⟨k, rfl⟩ : ∃ k, n = k + 1 := ⟨n - 1, by simp at hn; omega⟩
    rfl
  | cons p ps ih =>
    obtain ⟨k, rfl⟩ : ∃ k, n = k + 1 := ⟨n - 1, by simp at hn; omega⟩
    rw [List.flatMap_cons, cutLoop_encode (h p List.mem_cons_self),
      ih (fun q hq => h q (List.mem_cons_of_mem _ hq)) (by simp at hn; omega)]
    rfl

/-! ## The round trip -/

/-- Encode a packet that was received: `InitializePacketHeader`, and the payload behind it. -/
def reencode (p : Packet) : List UInt8 :=
  (initializePacketHeader (UInt32.ofNat (8 + p.payload.length)) (UInt32.ofNat p.id)).bytes ++ p.payload

theorem reencode_eq {p : Packet} (h : p.Fits) : reencode p = encode p := by
  obtain ⟨hid, hsize⟩ := h
  have hid' : (UInt32.ofNat p.id).toNat = p.id := by
    rw [UInt32.toNat_ofNat']
    omega
  rw [reencode, bytes_of_size hsize, hid']
  rfl

/-- **The codec's round trip.**  The two encoders agree on every message; the loop of
    `HandleRecvComplete`, run on the packets of any list of messages one behind the other, finds
    their ids and payloads and nothing else; and a packet found is encoded as it came. -/
theorem codec_round_trip (ms : List ProtoMessage) (h : ∀ m ∈ ms, m.Sendable) :
    (∀ m ∈ ms, m.sendPacket = some m.serializeUnifiedPacket) ∧
    (∀ n, ms.length < n → cutLoop true n (ms.flatMap ProtoMessage.serializeUnifiedPacket)
      = ⟨ms.map fun m => ⟨(fnv1a m.fullName).toNat, m.payload⟩,
          ms.flatMap ProtoMessage.serializeUnifiedPacket, [], .headerShort⟩) ∧
    ∀ m ∈ ms, reencode ⟨(fnv1a m.fullName).toNat, m.payload⟩ = m.serializeUnifiedPacket := by
  have hbytes : ms.flatMap ProtoMessage.serializeUnifiedPacket
      = (ms.map ProtoMessage.packet).flatMap encode := by
    rw [List.flatMap_map]
    exact List.flatMap_congr fun m hm => serializeUnifiedPacket_eq (h m hm)
  refine ⟨fun m hm => ?_, fun n hn => ?_, fun m hm => ?_⟩
  · rw [sendPacket_eq (h m hm), serializeUnifiedPacket_eq (h m hm)]
  · have hfits : ∀ p ∈ ms.map ProtoMessage.packet, p.Fits := by
      intro p hp
      obtain ⟨m, hm, rfl⟩ := List.mem_map.mp hp
      exact fits_packet (h m hm)
    rw [hbytes]
    exact cutLoop_flatMap hfits (by rwa [List.length_map])
  · rw [serializeUnifiedPacket_eq (h m hm)]
    exact reencode_eq (fits_packet (h m hm))

/-- A message with an empty payload, and one with three bytes. -/
theorem codec_round_trip_two :
    let ms : List ProtoMessage := [⟨[97], [], true⟩, ⟨[97, 46, 98], [1, 2, 3], true⟩]
    (∀ m ∈ ms, m.Sendable) ∧ ms.flatMap ProtoMessage.serializeUnifiedPacket
      = [8, 0, 0, 0, 44, 41, 12, 228, 11, 0, 0, 0, 12, 245, 139, 16, 1, 2, 3] ∧
    ∀ n, ms.length < n → cutLoop true n (ms.flatMap ProtoMessage.serializeUnifiedPacket)
      = ⟨ms.map fun m => ⟨(fnv1a m.fullName).toNat, m.payload⟩,
          ms.flatMap ProtoMessage.serializeUnifiedPacket, [], .headerShort⟩ := by
  intro ms
  have h : ∀ m ∈ ms, m.Sendable := by
    intro m hm
    rcases List.mem_cons.mp hm with rfl | hm
    · exact ⟨rfl, by decide⟩
    · obtain rfl := List.mem_singleton.mp hm
      exact ⟨rfl, by decide⟩
  exact ⟨h, by decide, (codec_round_trip ms h).2.1⟩

end JunCore.Network
