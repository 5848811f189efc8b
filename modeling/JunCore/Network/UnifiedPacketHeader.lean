/-
  `JunCore/protocol/UnifiedPacketHeader.h`: the wire format.

  A packet is an 8-byte header, the total length and the packet id, both little-endian `uint32_t`,
  and then the payload.  `packetGrammar` is the reference decoder: a length is read as soon as its
  four bytes are there; one outside of `MIN_PACKET_SIZE .. MAX_PACKET_SIZE` stops the decoder for
  good; any other one waits for the packet to be complete.

  The decoder inverts the encoder (`frames_encode`), and a stream that is being sent packet by
  packet never looks bad on the way (`not_bad_of_encode`).
-/
import JunCore.Lib.Framing
import Mathlib.Algebra.Group.Nat.Defs

set_option linter.unusedVariables false

namespace JunCore.Network

open Framing

/-! ## Little-endian integers -/

def readLE : List UInt8 → Nat
  | [] => 0
  | b :: bs => b.toNat + 256 * readLE bs

/-- The `k` low bytes of `n`. -/
def writeLE : Nat → Nat → List UInt8
  | 0, _ => []
  | k + 1, n => UInt8.ofNat n :: writeLE k (n / 256)

@[simp] theorem length_writeLE (k n : Nat) : (writeLE k n).length = k := by
  induction k generalizing n with
  | zero => rfl
  | succ k ih => simp [writeLE, ih]

theorem readLE_writeLE {k n : Nat} (h : n < 256 ^ k) : readLE (writeLE k n) = n := by
  induction k generalizing n with
  | zero => simp only [Nat.pow_zero] at h; simp [writeLE, readLE]; omega
  | succ k ih =>
    have hdiv : n / 256 < 256 ^ k := by
      rw [Nat.div_lt_iff_lt_mul (by omega)]
      rwa [Nat.pow_succ] at h
    rw [writeLE, readLE, ih hdiv, UInt8.toNat_ofNat']
    omega

/-! ## Packets -/

/-- What `OnPacketReceived` is given. -/
structure Packet where
  id : Nat
  payload : List UInt8
  deriving DecidableEq

/-- `IsValidPacketSize`, with `MIN_PACKET_SIZE` the 8 bytes of the header and `MAX_PACKET_SIZE`
    4 MiB. -/
def isValidPacketSize (size : Nat) : Bool := 8 ≤ size && size ≤ 4 * 1024 * 1024

/-- The packet in a complete block of bytes: the id behind the length, the payload behind both. -/
def packetOf (bytes : List UInt8) : Packet where
  id := readLE ((bytes.drop 4).take 4)
  payload := bytes.drop 8

/-- One step of the reference decoder. -/
def cutPacket (s : List UInt8) : Cut UInt8 Packet :=
  if s.length < 4 then .short
  else if !isValidPacketSize (readLE (s.take 4)) then .bad
  else if s.length < readLE (s.take 4) then .short
  else .frame (packetOf (s.take (readLE (s.take 4)))) (s.drop (readLE (s.take 4)))

/-- When the decoder cuts a packet off, its length is valid and its bytes are there. -/
theorem cutPacket_frame {s rest : List UInt8} {p : Packet} :
    cutPacket s = .frame p rest ↔ 4 ≤ s.length ∧ isValidPacketSize (readLE (s.take 4)) = true ∧
      readLE (s.take 4) ≤ s.length ∧ p = packetOf (s.take (readLE (s.take 4))) ∧
      rest = s.drop (readLE (s.take 4)) := by
  unfold cutPacket
  split
  · simp; omega
  · split
    · rename_i h
      simp only [reduceCtorEq, false_iff]
      intro ⟨_, h', _⟩
      simp [h'] at h
    · split
      · simp; omega
      · rename_i h₁ h₂ h₃
        simp only [Bool.not_eq_true', Bool.not_eq_false] at h₂
        simp only [Cut.frame.injEq]
        exact ⟨fun ⟨hp, hr⟩ => ⟨by omega, h₂, by omega, hp.symm, hr.symm⟩,
          fun ⟨_, _, _, hp, hr⟩ => ⟨hp.symm, hr.symm⟩⟩

theorem cutPacket_bad {s : List UInt8} :
    cutPacket s = .bad ↔ 4 ≤ s.length ∧ isValidPacketSize (readLE (s.take 4)) = false := by
  unfold cutPacket
  split
  · simp; omega
  · split
    · rename_i h₁ h₂
      simp only [Bool.not_eq_true'] at h₂
      exact ⟨fun _ => ⟨by omega, h₂⟩, fun _ => rfl⟩
    · rename_i h₁ h₂
      simp only [Bool.not_eq_true', Bool.not_eq_false] at h₂
      split <;> simp [h₂]

theorem isValidPacketSize_iff {size : Nat} :
    isValidPacketSize size = true ↔ 8 ≤ size ∧ size ≤ 4 * 1024 * 1024 := by
  simp [isValidPacketSize]

/-- **The reference decoder.** -/
def packetGrammar : Grammar UInt8 Packet where
  cut := cutPacket
  shrinks := by
    intro s x rest h
    obtain ⟨_, hv, hle, _, rfl⟩ := cutPacket_frame.mp h
    rw [isValidPacketSize_iff] at hv
    rw [List.length_drop]
    omega
  frame_append := by
    intro s x rest t h
    obtain ⟨h₁, hv, hle, rfl, rfl⟩ := cutPacket_frame.mp h
    rw [cutPacket_frame, List.take_append_of_le_length h₁, List.take_append_of_le_length hle,
      List.drop_append_of_le_length hle]
    exact ⟨by simp; omega, hv, by simp; omega, rfl, rfl⟩
  bad_append := by
    intro s t h
    obtain ⟨h₁, hv⟩ := cutPacket_bad.mp h
    rw [cutPacket_bad, List.take_append_of_le_length h₁]
    exact ⟨by simp; omega, hv⟩

@[simp] theorem packetGrammar_cut (s : List UInt8) : packetGrammar.cut s = cutPacket s := rfl

/-- Nothing comes of nothing. -/
theorem cutPacket_nil : cutPacket [] = .short := rfl

/-! ## Encoding -/

/-- `InitializePacketHeader` and the payload behind it. -/
def encode (p : Packet) : List UInt8 :=
  writeLE 4 (8 + p.payload.length) ++ writeLE 4 p.id ++ p.payload

@[simp] theorem length_encode (p : Packet) : (encode p).length = 8 + p.payload.length := by
  simp [encode]; omega

/-- A packet the format can carry. -/
def Packet.Fits (p : Packet) : Prop := p.id < 2 ^ 32 ∧ 8 + p.payload.length ≤ 4 * 1024 * 1024

theorem cut_encode {p : Packet} (h : p.Fits) (t : List UInt8) :
    packetGrammar.cut (encode p ++ t) = .frame p t := by
  have hlen : readLE ((encode p ++ t).take 4) = 8 + p.payload.length := by
    have : (encode p ++ t).take 4 = writeLE 4 (8 + p.payload.length) := by
      rw [encode, List.append_assoc, List.append_assoc, List.take_left' (by simp)]
    rw [this, readLE_writeLE (by have := h.2; omega)]
  have hsize := length_encode p
  rw [packetGrammar_cut, cutPacket_frame, hlen, List.take_left' hsize, List.drop_left' hsize]
  refine ⟨by rw [List.length_append, hsize]; omega,
    isValidPacketSize_iff.mpr ⟨by omega, h.2⟩, by rw [List.length_append, hsize]; omega, ?_, rfl⟩
  obtain ⟨id, payload⟩ := p
  have hid : ((encode ⟨id, payload⟩).drop 4).take 4 = writeLE 4 id := by
    rw [encode, List.append_assoc, List.drop_left' (by simp), List.take_left' (by simp)]
  have hpay : (encode ⟨id, payload⟩).drop 8 = payload := by
    rw [encode, List.drop_left' (by simp)]
  rw [packetOf, hid, hpay, readLE_writeLE (by exact h.1)]

/-- **The decoder inverts the encoder.** -/
theorem frames_encode {ps : List Packet} (h : ∀ p ∈ ps, p.Fits) :
    packetGrammar.frames (ps.flatMap encode) = ps ∧
      packetGrammar.leftover (ps.flatMap encode) = [] := by
  induction ps with
  | nil =>
    apply Grammar.read_stop
    intro x rest hc
    rw [packetGrammar_cut, List.flatMap_nil, cutPacket_nil] at hc
    cases hc
  | cons p ps ih =>
    obtain ⟨h₁, h₂⟩ := ih fun q hq => h q (List.mem_cons_of_mem _ hq)
    obtain ⟨h₃, h₄⟩ := Grammar.read_frame (G := packetGrammar)
      (cut_encode (h p List.mem_cons_self) (ps.flatMap encode))
    rw [List.flatMap_cons, h₃, h₄, h₁, h₂]
    exact ⟨rfl, rfl⟩

/-- What has arrived of a stream of packets never stops the decoder for good. -/
theorem not_bad_of_encode {ps : List Packet} (h : ∀ p ∈ ps, p.Fits) {s t : List UInt8}
    (hs : ps.flatMap encode = s ++ t) : packetGrammar.cut (packetGrammar.leftover s) ≠ .bad := by
  intro hbad
  -- then the rest of the stream would be left over, with its bad start
  have hleft : packetGrammar.leftover (s ++ t) = packetGrammar.leftover s ++ t := by
    rw [(Grammar.read_append (G := packetGrammar) s t).2]
    refine (Grammar.read_stop fun x rest hc => ?_).2
    rw [packetGrammar.bad_append t hbad] at hc
    cases hc
  rw [← hs, (frames_encode h).2] at hleft
  have hnil : packetGrammar.leftover s = [] := (List.append_eq_nil_iff.mp hleft.symm).1
  rw [hnil, packetGrammar_cut, cutPacket_nil] at hbad
  cases hbad

end JunCore.Network
