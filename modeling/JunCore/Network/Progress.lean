/-
  What `HandleRecvComplete` leaves to be done.

  Two things should be true when it returns on a healthy session: nothing complete is left waiting
  in the buffer, and a receive that can bring something is armed.  Each depends on a number in the
  code.  `MAX_LOOP_COUNT` counts the last iteration, the one that finds no packet, so it allows for
  999 packets and not 1000.  And the ring buffer holds 8191 bytes, while `MAX_PACKET_SIZE` accepts
  packets of up to 4 MiB: one that is longer than the buffer fills it, and the receive armed then
  has no room, which the system reports as zero bytes, the sign of a closed connection.
-/
import JunCore.Network.Receive

set_option linter.unusedVariables false

namespace JunCore.Network

open Transition Framing

/-! ## Receive progress -/

/-- **Receive progress, up to the guard.**  On a stream of packets, on a session with an engine and
    no pending disconnect: when `HandleRecvComplete` returns, every complete packet has been
    dispatched, none is left in the buffer and the next receive is armed, if and only if this
    completion has made at most 999 packets complete. -/
theorem receive_progress {c : Conn} (h : Reachable connSystem c) {chunk : List UInt8}
    (hc : c.Completion chunk) (he : c.session.engine = true) {ps : List Packet}
    (hfits : ∀ p ∈ ps, p.Fits) {future : List UInt8}
    (hs : ps.flatMap encode = c.received ++ chunk ++ future) (now : Nat) :
    ((c.complete chunk now false false).dispatched = packetGrammar.frames (c.received ++ chunk) ∧
      (∀ p rest, packetGrammar.cut (c.complete chunk now false false).buffered ≠ .frame p rest) ∧
      (c.complete chunk now false false).armed.isSome = true) ↔
    (packetGrammar.frames (c.received ++ chunk)).length
      ≤ (packetGrammar.frames c.received).length + 999 := by
  have A := inStep_reachable h
  obtain ⟨hframes, hleft⟩ := A.ahead hc.inFlight chunk
  have hgood : packetGrammar.cut (packetGrammar.leftover (c.buffered ++ chunk)) ≠ .bad := by
    rw [← hleft]
    exact not_bad_of_encode hfits hs
  -- the guard stops the loop, unless fewer than 1000 packets are complete in the buffer
  have hguard := cutLoop_isBreak 1000 (c.buffered ++ chunk) hgood
  have hcount : (packetGrammar.frames (c.received ++ chunk)).length
      ≤ (packetGrammar.frames c.received).length + 999 ↔
      (cutLoop true 1000 (c.buffered ++ chunk)).exit.isBreak = true := by
    rw [hguard, hframes, List.length_append, (A.settled hc.inFlight).1]
    omega
  rw [hcount]
  constructor
  · rintro ⟨-, -, harmed⟩
    have := (break_of_armed hc.fits harmed).1
    rwa [he] at this
  · intro hbreak
    obtain ⟨-, -, -, -, -, hsock, hwin⟩ := outcome_eq hc.fits now false false
    have harmed : (c.complete chunk now false false).armed.isSome = true := by
      show (c.outcome chunk now false false).window.isSome = true
      rw [hwin, he, hbreak, Option.isSome_iff_exists]
      exact ⟨_, Session.recvAsync_eq_some.mpr ⟨⟨hsock ▸ A.socket hc.inFlight, rfl⟩, rfl⟩⟩
    have A' := A.complete hc now false false
    exact ⟨(A'.settled harmed).1, A'.waiting harmed, harmed⟩

/-- A single packet arrives. -/
theorem receive_progress_fresh :
    (fresh.complete (encode ⟨7, [42]⟩) 0 false false).dispatched
        = packetGrammar.frames (fresh.received ++ encode ⟨7, [42]⟩) ∧
      (∀ p rest, packetGrammar.cut (fresh.complete (encode ⟨7, [42]⟩) 0 false false).buffered
        ≠ .frame p rest) ∧
      (fresh.complete (encode ⟨7, [42]⟩) 0 false false).armed.isSome = true := by
  have hfits : ∀ p ∈ [(⟨7, [42]⟩ : Packet)], p.Fits := by
    intro p hp
    obtain rfl := List.mem_singleton.mp hp
    exact ⟨by decide, by decide⟩
  have hs : [(⟨7, [42]⟩ : Packet)].flatMap encode
      = fresh.received ++ encode ⟨7, [42]⟩ ++ [] := by simp [fresh]
  refine (receive_progress fresh_reachable (fresh_completion (by decide) (by decide)) rfl hfits
    hs 0).mpr ?_
  rw [← List.append_nil (fresh.received ++ _), ← hs, (frames_encode hfits).1]
  simp

/-- Packets without payload, all of them in one completion: from 1000 on, the loop ends at its
    guard. -/
theorem fresh_disarmed {n : Nat} {chunk : List UInt8}
    (hchunk : chunk = (List.replicate n (⟨0, []⟩ : Packet)).flatMap encode) (hn : 1000 ≤ n)
    (hc : fresh.Completion chunk) : (fresh.complete chunk 0 false false).armed = none := by
  have hfits : ∀ p ∈ List.replicate n (⟨0, []⟩ : Packet), p.Fits := by
    intro p hp
    obtain rfl := (List.mem_replicate.mp hp).2
    exact ⟨by decide, by decide⟩
  obtain ⟨hframes, hleft⟩ := frames_encode hfits
  rw [← hchunk] at hframes hleft
  have hguard := cutLoop_isBreak 1000 chunk (by rw [hleft, packetGrammar_cut, cutPacket_nil]; simp)
  rw [hframes, List.length_replicate] at hguard
  cases harmed : (fresh.complete chunk 0 false false).armed with
  | none => rfl
  | some w =>
    have hbreak := (break_of_armed hc.fits (by rw [harmed]; rfl)).1
    rw [show fresh.buffered = [] from RingBuffer.contents_new _ _ _, List.nil_append] at hbreak
    have := hguard.mp hbreak
    omega

/-- **A thousand packets at once.**  1000 packets without payload, 8000 bytes, arrive in one
    completion.  All of them are well formed, and the receive is not armed again. -/
theorem thousand_packets_disarm : Reachable connSystem fresh ∧ fresh.session.engine = true ∧
    (∀ p ∈ List.replicate 1000 (⟨0, []⟩ : Packet), p.Fits ∧ (encode p).length ≤ 8191) ∧
    fresh.Completion ((List.replicate 1000 (⟨0, []⟩ : Packet)).flatMap encode) ∧
    fresh.received = [] ∧
    (fresh.complete ((List.replicate 1000 (⟨0, []⟩ : Packet)).flatMap encode) 0 false false).armed
      = none := by
  obtain ⟨chunk, hchunk⟩ :
      ∃ chunk, chunk = (List.replicate 1000 (⟨0, []⟩ : Packet)).flatMap encode := ⟨_, rfl⟩
  have hlen : chunk.length = 8000 := by
    rw [hchunk, List.length_flatMap, List.map_replicate, List.sum_replicate_nat, length_encode]
    rfl
  have hc : fresh.Completion chunk := fresh_completion (by omega) (by omega)
  refine ⟨fresh_reachable, rfl, ?_, ?_⟩
  · intro p hp
    obtain rfl := (List.mem_replicate.mp hp).2
    exact ⟨⟨by decide, by decide⟩, by decide⟩
  · rw [← hchunk]
    exact ⟨hc, rfl, fresh_disarmed hchunk (Nat.le_refl _) hc⟩

/-! ## Room for the rest of a packet -/

/-- **Room for the rest of a packet.**  When `HandleRecvComplete` has accepted a length, finds the
    packet incomplete and arms a receive, the windows of that receive have room if and only if less
    than 8191 bytes of the packet have arrived; so they always do when the length accepted fits into
    the ring buffer. -/
theorem room_for_the_rest {c : Conn} (h : Reachable connSystem c) {chunk : List UInt8}
    (hc : c.Completion chunk) {now : Nat} {pending pending' : Bool} {len : Nat} {w : Nat × Nat}
    (hexit : (c.outcome chunk now pending pending').exit = .incomplete len)
    (hw : (c.complete chunk now pending pending').armed = some w) :
    (0 < w.1 + w.2 ↔ (packetGrammar.leftover (c.received ++ chunk)).length < 8191) ∧
      (len ≤ 8191 → 0 < w.1 + w.2) := by
  have A' := (inStep_reachable h).complete hc now pending pending'
  have harmed : (c.complete chunk now pending pending').armed.isSome = true := by rw [hw]; rfl
  obtain ⟨-, -, hbuf, hex, -⟩ := outcome_eq hc.fits now pending pending'
  obtain ⟨hbreak, -, hfree⟩ := armed_eq_some hc.fits hw
  have hfree : w.1 + w.2 = 8191 - (c.complete chunk now pending pending').buffered.length := by
    rw [hfree, RingBuffer.getFreeSize_eq, Conn.buffered, RingBuffer.length_contents]
  have hleft : (c.complete chunk now pending pending').buffered
      = packetGrammar.leftover (c.received ++ chunk) := (A'.settled harmed).2
  have hshort : (c.complete chunk now pending pending').buffered.length < len := by
    have := (cutLoop_break c.session.engine 1000 (c.buffered ++ chunk) hbreak).2 len (hex ▸ hexit)
    rwa [← hbuf] at this
  rw [hleft] at hfree hshort
  omega

/-- A header of a packet of 9 bytes arrives. -/
theorem room_for_the_rest_fresh :
    (fresh.outcome [9, 0, 0, 0, 7, 0, 0, 0] 0 false false).exit = .incomplete 9 ∧
      ∃ w, (fresh.complete [9, 0, 0, 0, 7, 0, 0, 0] 0 false false).armed = some w ∧ 0 < w.1 + w.2 := by
  have hexit : (fresh.outcome [9, 0, 0, 0, 7, 0, 0, 0] 0 false false).exit = .incomplete 9 := by decide
  have hw : (fresh.complete [9, 0, 0, 0, 7, 0, 0, 0] 0 false false).armed = some (8183, 0) := by decide
  exact ⟨hexit, _, hw, (room_for_the_rest fresh_reachable (fresh_completion (by simp) (by simp)) hexit
    hw).2 (by omega)⟩

/-- The first 8191 bytes of a packet of 8192 arrive in one completion. -/
theorem fresh_full {rest chunk : List UInt8} (hchunk : chunk = [0, 32, 0, 0, 0, 0, 0, 0] ++ rest)
    (hrest : rest.length = 8183) : fresh.Completion chunk ∧
      (fresh.outcome chunk 0 false false).exit = .incomplete 8192 ∧
      (fresh.complete chunk 0 false false).armed = some (0, 0) := by
  have hlen : chunk.length = 8191 := by
    have hheader : ([0, 32, 0, 0, 0, 0, 0, 0] : List UInt8).length = 8 := rfl
    rw [hchunk, List.length_append]
    omega
  have hc : fresh.Completion chunk := fresh_completion (by omega) (by omega)
  have hread : readLE (chunk.take 4) = 8192 := by
    rw [show chunk.take 4 = [0, 32, 0, 0] by rw [hchunk]; rfl]
    decide
  have hloop : cutLoop fresh.session.engine 1000 (fresh.buffered ++ chunk)
      = ⟨[], [], chunk, .incomplete 8192⟩ := by
    rw [show fresh.buffered = [] from RingBuffer.contents_new _ _ _, List.nil_append,
      cutLoop_incomplete (by omega) (by rw [hread]; rfl) (by omega), hread]
  obtain ⟨-, -, hbuf, hexit, -, hsock, hwin⟩ := outcome_eq hc.fits 0 false false
  rw [hloop] at hbuf hexit hwin
  refine ⟨hc, hexit, ?_⟩
  show (fresh.outcome chunk 0 false false).window = _
  have hsize : (fresh.outcome chunk 0 false false).session.recvBuf.getFreeSize = 0 := by
    rw [RingBuffer.getFreeSize_eq, ← RingBuffer.length_contents, hbuf, hlen]
  obtain ⟨hdirect, hremain⟩ := Nat.add_eq_zero_iff.mp hsize
  rw [hwin]
  exact Session.recvAsync_eq_some.mpr ⟨⟨by rw [hsock]; rfl, rfl⟩, by rw [hdirect, hremain]⟩

/-- **A packet longer than the buffer.**  A length of 8192 is accepted, and 8191 bytes of the packet
    arrive: the receive armed for the rest has no room at all. -/
theorem no_room_for_the_rest : Reachable connSystem fresh ∧
    fresh.Completion ([0, 32, 0, 0, 0, 0, 0, 0] ++ List.replicate 8183 0) ∧
    (fresh.outcome ([0, 32, 0, 0, 0, 0, 0, 0] ++ List.replicate 8183 0) 0 false false).exit
      = .incomplete 8192 ∧
    (fresh.complete ([0, 32, 0, 0, 0, 0, 0, 0] ++ List.replicate 8183 0) 0 false false).armed
      = some (0, 0) :=
  ⟨fresh_reachable, fresh_full rfl List.length_replicate⟩

end JunCore.Network
