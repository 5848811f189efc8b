/-
  `JunCore/network/IOCPManager.cpp`, `HandleRecvComplete`, and `Session::RecvAsync`.

  A receive is armed with the two free windows of the ring buffer.  When it completes with `n` bytes
  in them, `HandleRecvComplete` takes the bytes in, cuts off and dispatches what packets it can, and
  arms the next receive, unless it left the loop by an error.  The loop is bounded by
  `MAX_LOOP_COUNT`, which the definition uses as its recursion argument.

  The same loop on plain lists is `cutLoop`; `recvLoop_eq` says that the one on the ring buffer does
  what it does, whatever the wrap-around.  Against the reference decoder `cutLoop` is then easy to
  place: what it dispatches is what the decoder reads, and what it leaves is what the decoder has
  still to read (`cutLoop_reads`).

  A connection is the session with the bytes received so far.  Its runs are all ways of cutting a
  stream, any stream, into completions that fit the windows.
-/
import JunCore.Lib.Transition
import JunCore.Common.RingBuffer
import JunCore.Network.UnifiedPacketHeader

set_option linter.unusedVariables false

namespace JunCore.Network

open Transition Framing

/-! ## The session -/

/-- What receiving uses of a `Session`. -/
structure Session where
  /-- `sock_`; `none` is `INVALID_SOCKET` -/
  sock : Option Nat
  recvBuf : RingBuffer
  lastRecvTime : Nat
  /-- whether `GetEngine()` is not null -/
  engine : Bool

/-- `RecvAsync`: the lengths of the two windows it passes to `WSARecv`, if it gets there.  `pending`
    is `pending_disconnect_` as it is read here. -/
def Session.recvAsync (s : Session) (pending : Bool) : Option (Nat × Nat) :=
  if s.sock.isNone || pending then none
  else some (s.recvBuf.directEnqueueSize, s.recvBuf.remainEnqueueSize)

theorem Session.recvAsync_eq_some {s : Session} {pending : Bool} {w : Nat × Nat} :
    s.recvAsync pending = some w ↔ (s.sock.isSome = true ∧ pending = false) ∧
      w = (s.recvBuf.directEnqueueSize, s.recvBuf.remainEnqueueSize) := by
  unfold Session.recvAsync
  cases s.sock <;> cases pending <;> simp [eq_comm]

/-- How `HandleRecvComplete` leaves its loop. -/
inductive Exit
  /-- `break`: not even a header is there -/
  | headerShort
  /-- `break`: a packet of this length is not complete yet -/
  | incomplete (len : Nat)
  /-- `return`: `MAX_LOOP_COUNT` -/
  | loopLimit
  /-- `return`: not a valid packet length -/
  | invalidLength (len : Nat)
  /-- `return`: nobody to dispatch to -/
  | noEngine
  deriving DecidableEq

/-- What a run of the loop does: the packets dispatched, the bytes taken out of the buffer, what is
    left of the buffer, and how it ends. -/
structure LoopResult (Buf : Type) where
  dispatched : List Packet
  taken : List UInt8
  buf : Buf
  exit : Exit

/-- An iteration that dispatches `p`, taken out as `bytes`, and then goes on. -/
def LoopResult.after {Buf : Type} (p : Packet) (bytes : List UInt8) (r : LoopResult Buf) :
    LoopResult Buf :=
  { r with dispatched := p :: r.dispatched, taken := bytes ++ r.taken }

/-- The loop of `HandleRecvComplete`, with `n` iterations left before the guard stops it. -/
def recvLoop (engine : Bool) : Nat → RingBuffer → LoopResult RingBuffer
  | 0, rb => ⟨[], [], rb, .loopLimit⟩
  | n + 1, rb =>
    if rb.getUseSize < 8 then ⟨[], [], rb, .headerShort⟩
    else
      let packetLen := readLE (rb.peek 4)
      if !isValidPacketSize packetLen then ⟨[], [], rb, .invalidLength packetLen⟩
      else if rb.getUseSize < packetLen then ⟨[], [], rb, .incomplete packetLen⟩
      else
        let packet := rb.dequeue packetLen
        if engine then (recvLoop engine n packet.2).after (packetOf packet.1) packet.1
        else ⟨[], packet.1, packet.2, .noEngine⟩

/-- What one call of `HandleRecvComplete` does. -/
structure Outcome where
  session : Session
  dispatched : List Packet
  taken : List UInt8
  exit : Exit
  /-- the windows of the receive it arms, if it arms one -/
  window : Option (Nat × Nat)

/-- `HandleRecvComplete(session, ioSize)` at time `now`.  `pending` is `pending_disconnect_` as read
    after the loop, `pending'` as read again inside of `RecvAsync`. -/
def handleRecvComplete (s : Session) (ioSize now : Nat) (pending pending' : Bool) : Outcome :=
  let r := recvLoop s.engine 1000 (s.recvBuf.moveRear ioSize)
  let s' := { s with recvBuf := r.buf, lastRecvTime := now }
  { session := s', dispatched := r.dispatched, taken := r.taken, exit := r.exit
    window := match r.exit with
      | .headerShort | .incomplete _ => if pending then none else s'.recvAsync pending'
      | .loopLimit | .invalidLength _ | .noEngine => none }

/-! ## The loop on lists -/

/-- The loop, run on the bytes the buffer stands for. -/
def cutLoop (engine : Bool) : Nat → List UInt8 → LoopResult (List UInt8)
  | 0, s => ⟨[], [], s, .loopLimit⟩
  | n + 1, s =>
    if s.length < 8 then ⟨[], [], s, .headerShort⟩
    else
      let packetLen := readLE (s.take 4)
      if !isValidPacketSize packetLen then ⟨[], [], s, .invalidLength packetLen⟩
      else if s.length < packetLen then ⟨[], [], s, .incomplete packetLen⟩
      else if engine then
        (cutLoop engine n (s.drop packetLen)).after (packetOf (s.take packetLen)) (s.take packetLen)
      else ⟨[], s.take packetLen, s.drop packetLen, .noEngine⟩

/-- **The refinement.**  The loop on the ring buffer is the loop on its contents. -/
theorem recvLoop_eq (engine : Bool) (n : Nat) (rb : RingBuffer) :
    (recvLoop engine n rb).dispatched = (cutLoop engine n rb.contents).dispatched ∧
      (recvLoop engine n rb).taken = (cutLoop engine n rb.contents).taken ∧
      (recvLoop engine n rb).buf.contents = (cutLoop engine n rb.contents).buf ∧
      (recvLoop engine n rb).exit = (cutLoop engine n rb.contents).exit := by
  induction n generalizing rb with
  | zero => exact ⟨rfl, rfl, rfl, rfl⟩
  | succ n ih =>
    simp only [recvLoop, cutLoop, rb.peek_eq, rb.length_contents]
    split
    · exact ⟨rfl, rfl, rfl, rfl⟩
    split
    · exact ⟨rfl, rfl, rfl, rfl⟩
    split
    · exact ⟨rfl, rfl, rfl, rfl⟩
    obtain ⟨hbytes, hrest⟩ := rb.dequeue_eq (readLE (rb.contents.take 4))
    split
    · obtain ⟨h₁, h₂, h₃, h₄⟩ := ih (rb.dequeue (readLE (rb.contents.take 4))).2
      rw [hrest] at h₁ h₂ h₃ h₄
      exact ⟨by simp [LoopResult.after, h₁, hbytes], by simp [LoopResult.after, h₂, hbytes], h₃, h₄⟩
    · exact ⟨rfl, hbytes, hrest, rfl⟩

/-! ## The loop and the reference decoder -/

/-- Leaving the loop by `break`. -/
def Exit.isBreak : Exit → Bool
  | .headerShort | .incomplete _ => true
  | .loopLimit | .invalidLength _ | .noEngine => false

/-- The first iteration of the loop: it ends the loop on a stream no packet can be cut off, or it
    takes out the packet the decoder cuts off. -/
theorem cutLoop_cases (engine : Bool) (n : Nat) (s : List UInt8) :
    (∃ e, cutLoop engine (n + 1) s = ⟨[], [], s, e⟩ ∧ (∀ p rest, packetGrammar.cut s ≠ .frame p rest) ∧
      (e = .headerShort ∨ (∃ len, e = .incomplete len ∧ s.length < len) ∨
        packetGrammar.cut s = .bad ∧ e = .invalidLength (readLE (s.take 4)))) ∨
    ∃ p rest bytes, packetGrammar.cut s = .frame p rest ∧ s = bytes ++ rest ∧
      cutLoop engine (n + 1) s
        = if engine then (cutLoop engine n rest).after p bytes else ⟨[], bytes, rest, .noEngine⟩ := by
  simp only [cutLoop, packetGrammar_cut]
  split
  · rename_i hlen
    refine .inl ⟨_, rfl, fun p rest hc => ?_, .inl rfl⟩
    obtain ⟨_, hv, hle, _, _⟩ := cutPacket_frame.mp hc
    rw [isValidPacketSize_iff] at hv
    omega
  split
  · rename_i hlen hv
    have hbad : cutPacket s = .bad := cutPacket_bad.mpr ⟨by omega, by simpa using hv⟩
    refine .inl ⟨_, rfl, fun p rest hc => ?_, .inr (.inr ⟨hbad, rfl⟩)⟩
    rw [hbad] at hc; cases hc
  split
  · rename_i hlen hv hinc
    refine .inl ⟨_, rfl, fun p rest hc => ?_, .inr (.inl ⟨_, rfl, hinc⟩)⟩
    obtain ⟨_, _, hle, _, _⟩ := cutPacket_frame.mp hc
    omega
  · rename_i hlen hv hcomp
    exact .inr ⟨_, _, s.take (readLE (s.take 4)),
      cutPacket_frame.mpr ⟨by omega, by simpa using hv, by omega, rfl, rfl⟩,
      (List.take_append_drop _ _).symm, rfl⟩

/-- **What the loop does is what the reference decoder does.**  Nothing gets lost; what was
    dispatched is the front of what the decoder reads; and unless a packet was thrown away for want
    of an engine, the decoder reads on from what is left. -/
theorem cutLoop_reads (engine : Bool) (n : Nat) (s : List UInt8) :
    s = (cutLoop engine n s).taken ++ (cutLoop engine n s).buf ∧
      (cutLoop engine n s).dispatched <+: packetGrammar.frames s ∧
      ((cutLoop engine n s).exit ≠ .noEngine → ∀ t, packetGrammar.frames (s ++ t)
          = (cutLoop engine n s).dispatched ++ packetGrammar.frames ((cutLoop engine n s).buf ++ t) ∧
        packetGrammar.leftover (s ++ t)
          = packetGrammar.leftover ((cutLoop engine n s).buf ++ t)) := by
  induction n generalizing s with
  | zero => exact ⟨rfl, List.nil_prefix, fun _ t => ⟨rfl, rfl⟩⟩
  | succ n ih =>
    rcases cutLoop_cases engine n s with ⟨e, heq, -, -⟩ | ⟨p, rest, bytes, hcut, hs, heq⟩
    · rw [heq]
      exact ⟨rfl, List.nil_prefix, fun _ t => ⟨rfl, rfl⟩⟩
    · obtain ⟨hframes, -⟩ := Grammar.read_frame hcut
      cases engine with
      | false =>
        rw [heq]
        exact ⟨hs, List.nil_prefix, fun hne => absurd rfl hne⟩
      | true =>
        obtain ⟨h₁, h₂, h₃⟩ := ih rest
        rw [heq]
        simp only [if_true, LoopResult.after]
        refine ⟨by rw [List.append_assoc, ← h₁]; exact hs, ?_, fun hne t => ?_⟩
        · rw [hframes]
          exact List.cons_prefix_cons.mpr ⟨rfl, h₂⟩
        · obtain ⟨h₄, h₅⟩ := Grammar.read_frame (packetGrammar.frame_append t hcut)
          rw [h₄, h₅, (h₃ hne t).1, (h₃ hne t).2]
          exact ⟨rfl, rfl⟩

/-- After a `break` nothing complete is left, and an incomplete packet is shorter than it says. -/
theorem cutLoop_break (engine : Bool) (n : Nat) (s : List UInt8)
    (h : (cutLoop engine n s).exit.isBreak = true) :
    (∀ p rest, packetGrammar.cut (cutLoop engine n s).buf ≠ .frame p rest) ∧
      ∀ len, (cutLoop engine n s).exit = .incomplete len → (cutLoop engine n s).buf.length < len := by
  induction n generalizing s with
  | zero => cases h
  | succ n ih =>
    rcases cutLoop_cases engine n s with ⟨e, heq, hstop, he⟩ | ⟨p, rest, bytes, hcut, hs, heq⟩
    · rw [heq]
      refine ⟨hstop, fun len hexit => ?_⟩
      have hexit : e = .incomplete len := hexit
      rcases he with rfl | ⟨len', rfl, hlt⟩ | ⟨-, rfl⟩
      · cases hexit
      · cases hexit; exact hlt
      · cases hexit
    · cases engine with
      | false => rw [heq] at h; cases h
      | true =>
        rw [heq] at h ⊢
        exact ih rest h

/-- A packet that is accepted and not complete ends the loop. -/
theorem cutLoop_incomplete {engine : Bool} {n : Nat} {s : List UInt8} (h : 8 ≤ s.length)
    (hv : isValidPacketSize (readLE (s.take 4)) = true) (hlt : s.length < readLE (s.take 4)) :
    cutLoop engine (n + 1) s = ⟨[], [], s, .incomplete (readLE (s.take 4))⟩ := by
  simp only [cutLoop]
  rw [if_neg (by omega), hv, if_pos hlt]
  rfl

/-- **When the guard bites.**  With an engine, and on a stream that never looks bad, the loop ends by
    a `break` exactly if there are fewer complete packets than iterations. -/
theorem cutLoop_isBreak (n : Nat) (s : List UInt8)
    (hgood : packetGrammar.cut (packetGrammar.leftover s) ≠ .bad) :
    (cutLoop true n s).exit.isBreak = true ↔ (packetGrammar.frames s).length < n := by
  induction n generalizing s with
  | zero => simp [cutLoop, Exit.isBreak]
  | succ n ih =>
    rcases cutLoop_cases true n s with ⟨e, heq, hstop, he⟩ | ⟨p, rest, bytes, hcut, hs, heq⟩
    · obtain ⟨hframes, hleft⟩ := Grammar.read_stop hstop
      rw [hleft] at hgood
      have hbreak : e.isBreak = true := by
        rcases he with rfl | ⟨len, rfl, -⟩ | ⟨hbad, -⟩
        · rfl
        · rfl
        · exact absurd hbad hgood
      rw [heq, hframes]
      simp [hbreak]
    · obtain ⟨hframes, hleft⟩ := Grammar.read_frame hcut
      rw [hleft] at hgood
      rw [heq, hframes]
      simp only [if_true, LoopResult.after, List.length_cons, Nat.add_lt_add_iff_right]
      exact ih rest hgood

/-! ## A connection -/

/-- A session, and what has happened on it. -/
structure Conn where
  session : Session
  received : List UInt8
  /-- the bytes taken out of the receive buffer -/
  consumed : List UInt8
  /-- the packets passed to `OnPacketReceived` -/
  dispatched : List Packet
  /-- the windows of the receive in flight -/
  armed : Option (Nat × Nat)

/-- What `HandleRecvComplete` does when the receive in flight has put `chunk` into its windows. -/
def Conn.outcome (c : Conn) (chunk : List UInt8) (now : Nat) (pending pending' : Bool) : Outcome :=
  handleRecvComplete { c.session with recvBuf := c.session.recvBuf.fillWindows chunk } chunk.length
    now pending pending'

/-- The connection after a completion. -/
def Conn.complete (c : Conn) (chunk : List UInt8) (now : Nat) (pending pending' : Bool) : Conn :=
  let out := c.outcome chunk now pending pending'
  { session := out.session
    received := c.received ++ chunk
    consumed := c.consumed ++ out.taken
    dispatched := c.dispatched ++ out.dispatched
    armed := out.window }

/-- The bytes in the receive buffer. -/
def Conn.buffered (c : Conn) : List UInt8 := c.session.recvBuf.contents

/-- A completion of the receive in flight: at least one byte (`RunWorkerThread` keeps the others
    away), at most what the windows hold. -/
structure Conn.Completion (c : Conn) (chunk : List UInt8) : Prop where
  inFlight : c.armed.isSome = true
  nonempty : 1 ≤ chunk.length
  fits : chunk.length ≤ c.session.recvBuf.getFreeSize

/-- All runs of all connections: the buffer is empty at first, the first receive is armed by
    `RecvAsync`, and each completion may come at any time, with any bytes. -/
def connSystem : System Conn where
  init c := c.buffered = [] ∧ c.received = [] ∧ c.consumed = [] ∧ c.dispatched = [] ∧
    c.armed = c.session.recvAsync false
  next c c' := ∃ chunk now pending pending', c.Completion chunk ∧
    c' = c.complete chunk now pending pending'

/-- One call of `HandleRecvComplete`, on the bytes: the loop runs on what was buffered and what came
    in, and the next receive is armed with what is free afterwards. -/
theorem outcome_eq {c : Conn} {chunk : List UInt8} (hfit : chunk.length ≤ c.session.recvBuf.getFreeSize)
    (now : Nat) (pending pending' : Bool) :
    let out := c.outcome chunk now pending pending'
    let r := cutLoop c.session.engine 1000 (c.buffered ++ chunk)
    out.dispatched = r.dispatched ∧ out.taken = r.taken ∧ out.session.recvBuf.contents = r.buf ∧
      out.exit = r.exit ∧ out.session.engine = c.session.engine ∧
      out.session.sock = c.session.sock ∧
      out.window = if r.exit.isBreak && !pending then out.session.recvAsync pending' else none := by
  have hcontents := c.session.recvBuf.contents_receive hfit
  obtain ⟨h₁, h₂, h₃, h₄⟩ := recvLoop_eq c.session.engine 1000
    ((c.session.recvBuf.fillWindows chunk).moveRear chunk.length)
  rw [hcontents] at h₁ h₂ h₃ h₄
  refine ⟨h₁, h₂, h₃, h₄, rfl, rfl, ?_⟩
  simp only [Conn.buffered, ← h₄]
  simp only [Conn.outcome, handleRecvComplete]
  split
  all_goals
    rename_i hexit
    rw [hexit]
    cases pending <;> simp [Exit.isBreak]

/-- **The connection invariant.**  Nothing is lost; what was dispatched is the front of what the
    reference decoder reads; and while a receive is in flight, the decoder has read exactly that, and
    has the buffered bytes still to read. -/
structure InStep (c : Conn) : Prop where
  conserved : c.received = c.consumed ++ c.buffered
  front : c.dispatched <+: packetGrammar.frames c.received
  ahead : c.armed.isSome = true → ∀ t,
    packetGrammar.frames (c.received ++ t) = c.dispatched ++ packetGrammar.frames (c.buffered ++ t) ∧
      packetGrammar.leftover (c.received ++ t) = packetGrammar.leftover (c.buffered ++ t)
  waiting : c.armed.isSome = true → ∀ p rest, packetGrammar.cut c.buffered ≠ .frame p rest
  socket : c.armed.isSome = true → c.session.sock.isSome = true

/-- A receive is only armed after a `break`, on a valid socket, and with all that is free. -/
theorem armed_eq_some {c : Conn} {chunk : List UInt8}
    (hfit : chunk.length ≤ c.session.recvBuf.getFreeSize) {now : Nat} {pending pending' : Bool}
    {w : Nat × Nat} (h : (c.complete chunk now pending pending').armed = some w) :
    (cutLoop c.session.engine 1000 (c.buffered ++ chunk)).exit.isBreak = true ∧
      c.session.sock.isSome = true ∧
      w.1 + w.2 = (c.complete chunk now pending pending').session.recvBuf.getFreeSize := by
  obtain ⟨-, -, -, -, -, hsock, hwin⟩ := outcome_eq hfit now pending pending'
  have h : (c.outcome chunk now pending pending').window = some w := h
  rw [hwin] at h
  split at h
  · rename_i hb
    rw [Bool.and_eq_true] at hb
    obtain ⟨⟨hs, -⟩, rfl⟩ := Session.recvAsync_eq_some.mp h
    rw [hsock] at hs
    exact ⟨hb.1, hs, rfl⟩
  · cases h

theorem break_of_armed {c : Conn} {chunk : List UInt8}
    (hfit : chunk.length ≤ c.session.recvBuf.getFreeSize) {now : Nat} {pending pending' : Bool}
    (h : (c.complete chunk now pending pending').armed.isSome = true) :
    (cutLoop c.session.engine 1000 (c.buffered ++ chunk)).exit.isBreak = true ∧
      c.session.sock.isSome = true := by
  obtain ⟨w, hw⟩ := Option.isSome_iff_exists.mp h
  obtain ⟨hbreak, hsock, -⟩ := armed_eq_some hfit hw
  exact ⟨hbreak, hsock⟩

namespace InStep

theorem initial {c : Conn} (h : connSystem.init c) : InStep c := by
  obtain ⟨hb, hr, hc, hd, ha⟩ := h
  exact {
    conserved := by rw [hr, hc, hb]; rfl
    front := by rw [hd]; exact List.nil_prefix
    ahead := by
      intro _ t
      rw [hr, hd, hb]; exact ⟨rfl, rfl⟩
    waiting := by
      intro _ p rest hcut
      rw [hb, packetGrammar_cut, cutPacket_nil] at hcut; cases hcut
    socket := by
      intro harmed
      obtain ⟨w, hw⟩ := Option.isSome_iff_exists.mp harmed
      exact (Session.recvAsync_eq_some.mp (ha ▸ hw)).1.1 }

/-- **The step lemma.** -/
theorem complete {c : Conn} (A : InStep c) {chunk : List UInt8} (hc : c.Completion chunk) (now : Nat)
    (pending pending' : Bool) : InStep (c.complete chunk now pending pending') := by
  obtain ⟨hdis, htaken, hbuf, -, -, hsock, -⟩ := outcome_eq hc.fits now pending pending'
  obtain ⟨hread, hfront, hahead⟩ := cutLoop_reads c.session.engine 1000 (c.buffered ++ chunk)
  obtain ⟨hframes, hleft⟩ := A.ahead hc.inFlight chunk
  have hbuf : (c.complete chunk now pending pending').buffered
      = (cutLoop c.session.engine 1000 (c.buffered ++ chunk)).buf := hbuf
  have hdis : (c.complete chunk now pending pending').dispatched
      = c.dispatched ++ (cutLoop c.session.engine 1000 (c.buffered ++ chunk)).dispatched :=
    congrArg (c.dispatched ++ ·) hdis
  exact {
    conserved := by
      rw [hbuf]
      show c.received ++ chunk = (c.consumed ++ (c.outcome chunk now pending pending').taken) ++ _
      rw [htaken, A.conserved, List.append_assoc, List.append_assoc, ← hread]
    front := by
      rw [hdis]
      show _ <+: packetGrammar.frames (c.received ++ chunk)
      rw [hframes]
      exact (List.prefix_append_right_inj _).mpr hfront
    ahead := by
      intro harmed t
      obtain ⟨hbreak, -⟩ := break_of_armed hc.fits harmed
      have hne : (cutLoop c.session.engine 1000 (c.buffered ++ chunk)).exit ≠ .noEngine := by
        intro he; rw [he] at hbreak; cases hbreak
      obtain ⟨h₁, h₂⟩ := A.ahead hc.inFlight (chunk ++ t)
      obtain ⟨h₃, h₄⟩ := hahead hne t
      rw [List.append_assoc] at h₃ h₄
      rw [hbuf, hdis]
      show packetGrammar.frames (c.received ++ chunk ++ t) = _ ∧
        packetGrammar.leftover (c.received ++ chunk ++ t) = _
      rw [List.append_assoc, h₁, h₂, h₃, h₄, List.append_assoc]
      exact ⟨rfl, rfl⟩
    waiting := by
      intro harmed
      rw [hbuf]
      exact (cutLoop_break _ _ _ (break_of_armed hc.fits harmed).1).1
    socket := by
      intro harmed
      show (c.outcome chunk now pending pending').session.sock.isSome = true
      rw [hsock]
      exact (break_of_armed hc.fits harmed).2 }

end InStep

/-- **The run lemma.** -/
theorem inStep_reachable {c : Conn} (h : Reachable connSystem c) : InStep c := by
  apply h.invariant (I := InStep)
  · intro c hc
    exact .initial hc
  · rintro c c' - A ⟨chunk, now, pending, pending', hc, rfl⟩
    exact A.complete hc now pending pending'

/-- While a receive is in flight, exactly the complete packets have been dispatched, and the
    buffer holds what is left over. -/
theorem InStep.settled {c : Conn} (A : InStep c) (h : c.armed.isSome = true) :
    c.dispatched = packetGrammar.frames c.received ∧
      c.buffered = packetGrammar.leftover c.received := by
  obtain ⟨hf, hl⟩ := A.ahead h []
  obtain ⟨hnone, hsame⟩ := Grammar.read_stop (A.waiting h)
  rw [List.append_nil, List.append_nil] at hf hl
  rw [hnone, List.append_nil] at hf
  exact ⟨hf.symm, by rw [hl, hsame]⟩

/-! ## Framing agrees with the grammar -/

/-- **Framing agrees with the reference decoder.**  For every stream and every way of cutting it into
    completions: the packets dispatched so far are the front of what the decoder reads in the bytes
    received so far, so nothing at or behind an invalid length is among them, and the bytes consumed
    and the bytes buffered are the bytes received, whichever way the loop was left. -/
theorem framing_agrees {c : Conn} (h : Reachable connSystem c) :
    c.dispatched <+: packetGrammar.frames c.received ∧
      c.received = c.consumed ++ c.session.recvBuf.contents :=
  ⟨(inStep_reachable h).front, (inStep_reachable h).conserved⟩

/-- **Nothing after an invalid length.**  Once the bytes received run into one, no completion
    dispatches anything any more. -/
theorem nothing_after_bad {c : Conn} (h : Reachable connSystem c) {chunk : List UInt8}
    (hc : c.Completion chunk) (hbad : packetGrammar.cut (packetGrammar.leftover c.received) = .bad)
    (now : Nat) (pending pending' : Bool) :
    (c.complete chunk now pending pending').dispatched = c.dispatched := by
  have A := inStep_reachable h
  have hfront : (c.complete chunk now pending pending').dispatched
      <+: packetGrammar.frames (c.received ++ chunk) := (A.complete hc now pending pending').front
  rw [Grammar.frames_of_bad hbad, ← (A.settled hc.inFlight).1] at hfront
  have hmore : c.dispatched <+: (c.complete chunk now pending pending').dispatched :=
    List.prefix_append _ _
  exact hfront.eq_of_length_le hmore.length_le

/-- A connection whose first receive is armed. -/
def fresh : Conn where
  session := ⟨some 1, .new (fun _ => 0) 0 rfl, 0, true⟩
  received := []
  consumed := []
  dispatched := []
  armed := some (8191, 0)

theorem fresh_reachable : Reachable connSystem fresh :=
  .start ⟨RingBuffer.contents_new _ _ _, rfl, rfl, rfl, rfl⟩

theorem fresh_completion {chunk : List UInt8} (h₁ : 1 ≤ chunk.length) (h₂ : chunk.length ≤ 8191) :
    fresh.Completion chunk :=
  ⟨rfl, h₁, h₂⟩

/-- One packet arrives, and the first byte of the next. -/
theorem framing_agrees_fresh : ∃ c, Reachable connSystem c ∧ c.dispatched = [⟨7, [42]⟩] ∧
    c.dispatched <+: packetGrammar.frames c.received ∧
    c.received = c.consumed ++ c.session.recvBuf.contents := by
  have hr : Reachable connSystem (fresh.complete [9, 0, 0, 0, 7, 0, 0, 0, 42, 8] 0 false false) :=
    fresh_reachable.step ⟨_, 0, false, false, fresh_completion (by simp) (by simp), rfl⟩
  exact ⟨_, hr, by decide, framing_agrees hr⟩

end JunCore.Network
