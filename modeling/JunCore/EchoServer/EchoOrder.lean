/-
  The echoes leave in the order of the requests.

  The bytes of a session go from one to the next: the receive in the system, the worker that takes its
  completion, the packet handler, the `SendPacket` in it, the send queue, the `WSASend`.  There is only
  one at a time that receives (`serial`), it waits for its handler, and the handler waits for
  `SendPacket`; so the answers enter the queue in the order of the requests, and the queue keeps the
  order (`streaming`).

  `out` are the answers to what has been cut off the stream so far.  While a worker reads, it has used
  up exactly the stream up to what is in the buffer (`Ahead`), and it owes nothing: all answers have
  entered the queue, unless the session is disconnecting, when no more will.  While it waits for its
  handler, it owes the last one (`Owes`).
-/
import JunCore.EchoServer.EchoHandler

set_option linter.unusedVariables false
set_option linter.unusedSectionVars false

namespace JunCore.EchoServer

open Function Transition Framing Network SessionSteps Counting

variable {W : Type} [DecidableEq W]

/-! ## What is owed -/

/-- The packets of these messages, and no others, have entered the send queue. -/
def Sent (c : Cell) (out : List Message) : Prop :=
  c.entered.map (·.bytes) = out.map fun m => encode m.packet

/-- All answers have entered the queue, unless the session is disconnecting. -/
def Settled (c : Cell) (out : List Message) : Prop := Sent c out ∨ c.pendingDisconnect = true

/-- What a worker owes, by the call its handler is to make and the call it is in: nothing, or the last
    of the answers. -/
def Owes (c : Cell) (out : List Message) : Option Message → Option Task → Prop
  | some m, _ | none, some (.sendPacket (.check m)) => ∃ l, out = l ++ [m] ∧ Settled c l
  | none, some (.sendPacket (.allocate m)) => ∃ l, out = l ++ [m] ∧ Sent c l
  | none, some (.sendPacket (.serialize m b)) =>
    ∃ l, out = l ++ [m] ∧ Sent c l ∧ b.bytes = encode m.packet
  | none, some (.sendPacket (.link b)) =>
    ∃ l m, out = l ++ [m] ∧ Sent c l ∧ b.bytes = encode m.packet
  | none, _ => Settled c out

theorem Sent.keep {c c' : Cell} {out : List Message} (S : Sent c out) (h : c'.entered = c.entered) :
    Sent c' out := by
  unfold Sent
  rw [h]
  exact S

theorem Settled.keep {c c' : Cell} {out : List Message} (S : Settled c out)
    (h : c'.entered = c.entered)
    (hpending : c.pendingDisconnect = true → c'.pendingDisconnect = true) : Settled c' out :=
  S.imp (fun hsent => hsent.keep h) hpending

theorem Owes.keep {c c' : Cell} {out : List Message} {call : Option Message} {inner : Option Task}
    (O : Owes c out call inner) (h : c'.entered = c.entered)
    (hpending : c.pendingDisconnect = true → c'.pendingDisconnect = true) :
    Owes c' out call inner := by
  have hsettled : Settled c out → Settled c' out := fun S => S.keep h hpending
  have hlast : ∀ m, (∃ l, out = l ++ [m] ∧ Settled c l) → ∃ l, out = l ++ [m] ∧ Settled c' l := by
    intro m ⟨l, hl, S⟩
    exact ⟨l, hl, S.keep h hpending⟩
  cases call with
  | some m => exact hlast m O
  | none =>
    cases inner with
    | none => exact hsettled O
    | some task =>
      cases task with
      | sendPacket pc =>
        cases pc with
        | check m => exact hlast m O
        | allocate m =>
          obtain ⟨l, hl, S⟩ := O
          exact ⟨l, hl, S.keep h⟩
        | serialize m b =>
          obtain ⟨l, hl, S, hb⟩ := O
          exact ⟨l, hl, S.keep h, hb⟩
        | link b =>
          obtain ⟨l, m, hl, S, hb⟩ := O
          exact ⟨l, m, hl, S.keep h, hb⟩
        | count | sendAsync pc => exact hsettled O
      | _ => exact hsettled O

/-- **`SendPacket` pays**: at its end the answer is in the queue, or the session is disconnecting. -/
theorem owes_run {ok : Bool} {c : Cell} {out : List Message} {task : Task}
    (O : Owes c out none (some task)) (htask : (∃ pc, task = .sendPacket pc) ∨ task = .unlock)
    (hsock : c.sock = true) (hserializes : ∀ m ∈ out, m.serializes = true)
    (hpending : c.pendingDisconnect = true → (task.run ok c).1.pendingDisconnect = true)
    (hnext : ∀ task', (task.run ok c).2 = some task' →
      (∃ pc, task' = .sendPacket pc) ∨ task' = .unlock) :
    Owes (task.run ok c).1 out none (task.run ok c).2 := by
  rcases htask with ⟨pc, rfl⟩ | rfl
  · cases pc with
    | check m =>
      obtain ⟨l, hl, S⟩ := O
      cases hpend : c.pendingDisconnect with
      | true =>
        simp only [Task.run, sendPacket, hpend, Bool.or_true]
        exact .inr hpend
      | false =>
        simp only [Task.run, sendPacket, hpend, hsock]
        refine ⟨l, hl, S.resolve_right ?_⟩
        rw [hpend]
        exact Bool.false_ne_true
    | allocate m =>
      obtain ⟨l, hl, S⟩ := O
      exact ⟨l, hl, S, rfl⟩
    | serialize m b =>
      obtain ⟨l, hl, S, hb⟩ := O
      have hm : m.serializes = true := hserializes m (by rw [hl]; simp)
      simp only [Task.run, sendPacket, hm]
      exact ⟨l, m, hl, S, hb⟩
    | link b =>
      obtain ⟨l, m, hl, S, hb⟩ := O
      refine .inl ?_
      show (c.entered ++ [b]).map (·.bytes) = _
      rw [List.map_append, show c.entered.map (·.bytes) = _ from S, hl, List.map_append]
      simp [hb]
    | count => exact O
    | sendAsync pc =>
      have hentered : ((Task.sendPacket (.sendAsync pc)).run ok c).1.entered = c.entered :=
        run_entered ok c (fun b heq => by cases heq)
      have S : Settled ((Task.sendPacket (.sendAsync pc)).run ok c).1 out :=
        Settled.keep O hentered hpending
      show Owes _ out none (some (resume _ _ _))
      cases (sendAsync ok c pc).2 <;> exact S
  · have S : Settled (Task.run ok c .unlock).1 out := O
    cases hafter : (Task.run ok c .unlock).2 with
    | none => exact S
    | some task' =>
      rcases hnext task' hafter with ⟨pc, rfl⟩ | rfl
      · have hdrop : (if c.refs = 1 then some (Task.destroy .onUserDisconnect) else none)
            = some (.sendPacket pc) := hafter
        split at hdrop <;> cases hdrop
      · exact S

/-! ## What has been read -/

/-- The answers to what is in a stream. -/
def answers (P : EchoProtocol) (s : List UInt8) : List Message :=
  (packetGrammar.frames s).filterMap (answer P true)

theorem answers_append (P : EchoProtocol) (s t : List UInt8) : answers P s <+: answers P (s ++ t) :=
  (Grammar.frames_append s t).filterMap (answer P true)

/-- What `SendPacket` is called with serializes. -/
theorem answers_serialize {P : EchoProtocol} {s : List UInt8} {m : Message} (h : m ∈ answers P s) :
    m.serializes = true := by
  obtain ⟨p, -, hp⟩ := List.mem_filterMap.mp h
  obtain ⟨response, -, rfl⟩ := Option.map_eq_some_iff.mp hp
  rfl

/-- The step of a worker in the loop of `HandleRecvComplete`: the packet it takes out is answered, or
    gets no answer. -/
structure Received (P : EchoProtocol) (c : Cell) (k : Nat) (r : Cell × Option Task) : Prop where
  ahead : ∀ s out, packetGrammar.Ahead (answer P true) s out c.recvBuf.contents →
    packetGrammar.Ahead (answer P true) s (out ++ (reply P c k).toList) r.1.recvBuf.contents
  reads : ∀ rb, (stageOf r.2).reads r.1.recvBuf = some rb → rb = r.1.recvBuf
  before : (stageOf r.2).before = false
  ownerUser : r.1.ownerUser = c.ownerUser
  pending : r.1.pendingDisconnect = c.pendingDisconnect

theorem received (P : EchoProtocol) {c : Cell} (id k : Nat) (hengine : c.engine ≠ none)
    (howner : c.ownerUser = true) :
    Received P c k ((Task.recv id (.loop k)).run (reply P c k).isSome c) := by
  have hsome : c.engine.isSome = true := Option.isSome_iff_ne_none.mpr hengine
  have hnone : ∀ {s : List UInt8} {out : List Message} {rest : List UInt8},
      packetGrammar.Ahead (answer P true) s out rest →
        packetGrammar.Ahead (answer P true) s (out ++ (none : Option Message).toList) rest := by
    intro s out rest A
    rwa [Option.toList_none, List.append_nil]
  by_cases hlimit : 1000 < k + 1
  · have hreply : reply P c k = none := if_pos hlimit
    rw [hreply]
    simp only [Task.run, recvComplete, if_pos hlimit]
    refine ⟨fun s out A => ?_, fun rb hrb => (by cases hrb), rfl, rfl, rfl⟩
    rw [hreply]
    exact hnone A
  · cases hit : recvIteration c.engine.isSome c.recvBuf with
    | packet p rest =>
      have hreply : reply P c k = answer P true p := by
        unfold reply
        rw [if_neg hlimit, hit, howner]
      have hcut : packetGrammar.cut c.recvBuf.contents = .frame p rest.contents :=
        recvIteration_packet (hsome ▸ hit)
      simp only [Task.run, recvComplete, if_neg hlimit, hit, howner, Bool.and_true]
      cases hanswer : answer P true p with
      | none =>
        rw [hreply, hanswer]
        refine ⟨fun s out A => ?_, fun rb hrb => (Option.some.inj hrb).symm, rfl, howner.symm, rfl⟩
        rw [hreply]
        exact A.cut hcut
      | some m =>
        rw [hreply, hanswer]
        refine ⟨fun s out A => ?_, fun rb hrb => (Option.some.inj hrb).symm, rfl, howner.symm, rfl⟩
        rw [hreply]
        exact A.cut hcut
    | leave e rest =>
      have hreply : reply P c k = none := by
        unfold reply
        rw [if_neg hlimit, hit]
      have hrest : rest = c.recvBuf := recvIteration_leave (hsome ▸ hit)
      simp only [Task.run, recvComplete, if_neg hlimit, hit]
      refine ⟨fun s out A => ?_, fun rb hrb => ?_, ?_, rfl, rfl⟩
      · rw [hreply, hrest]
        exact hnone A
      · split at hrb
        · exact (Option.some.inj hrb).symm
        · cases hrb
      · split <;> rfl

/-- What whoever has the receive buffer knows, or is to have it: `before` there is a `User`, nothing
    has been received; who `reads` has answered all that is no longer in the buffer, and owes no more
    than this. -/
structure Knows (P : EchoProtocol) (c : Cell) (received : List UInt8) (out : List Message)
    (before : Bool) (reads : Option RingBuffer) (call : Option Message) (inner : Option Task) :
    Prop where
  start : before = true → received = [] ∧ out = []
  ahead : ∀ rb, reads = some rb → packetGrammar.Ahead (answer P true) received out rb.contents
  owner : ∀ rb, reads = some rb → c.ownerUser = true
  owes : ∀ rb, reads = some rb → Owes c out call inner

section Knows

variable {P : EchoProtocol} {c c' : Cell} {received : List UInt8} {out : List Message}
  {before : Bool} {reads : Option RingBuffer} {call : Option Message} {inner : Option Task}

/-- Who does not have the buffer knows at most that there was nothing in it yet. -/
theorem Knows.early (hstart : before = true → received = [] ∧ out = []) (hreads : reads = none) :
    Knows P c received out before reads call inner where
  start := hstart
  ahead rb h := by
    rw [hreads] at h
    cases h
  owner rb h := by
    rw [hreads] at h
    cases h
  owes rb h := by
    rw [hreads] at h
    cases h

/-- Who has nothing to do with it need not know. -/
theorem Knows.nothing (hbefore : before = false) (hreads : reads = none) :
    Knows P c received out before reads call inner := by
  refine .early (fun h => ?_) hreads
  rw [hbefore] at h
  cases h

theorem Knows.keep (K : Knows P c received out before reads call inner) (Q : c.Quiet c')
    (h : c'.entered = c.entered) : Knows P c' received out before reads call inner where
  start := K.start
  ahead := K.ahead
  owner rb hrb := Q.ownerUser.trans (K.owner rb hrb)
  owes rb hrb := (K.owes rb hrb).keep h Q.pending

end Knows

/-- **The answers keep step with the stream.** -/
structure InStep (P : EchoProtocol) (e : Echo W) (out : List Message) : Prop where
  read : out <+: answers P e.received
  sent : e.sys.cell.entered.map (·.bytes) <+: out.map fun m => encode m.packet
  workers : ∀ w, Knows P e.sys.cell e.received out (stageOf (e.sys.tasks (.inl w))).before
    ((stageOf (e.sys.tasks (.inl w))).reads e.sys.cell.recvBuf) (e.call w) (e.sys.tasks (.inr w))
  ops : ∀ op ∈ e.sys.cell.ops,
    Knows P e.sys.cell e.received out op.early (op.reads e.sys.cell.recvBuf) none none
  room : ∀ op ∈ e.sys.cell.ops, ∀ rb, op.reads e.sys.cell.recvBuf = some rb → op.done = none →
    op.room ≤ e.sys.cell.recvBuf.getFreeSize

/-! ## Each step -/

section Steps

variable [Fintype W] {P : EchoProtocol} {e : Echo W} {out : List Message}

/-- A step of worker `w`: what it knows afterwards, and what the others do. -/
theorem knows_after {received : List UInt8} {f : W → Option Message} {w : W}
    {r : Cell × Option Task}
    (hself : Knows P r.1 received out (stageOf r.2).before ((stageOf r.2).reads r.1.recvBuf) (f w)
      (e.sys.tasks (.inr w)))
    (hothers : ∀ u, u ≠ w → Knows P r.1 received out (stageOf (e.sys.tasks (.inl u))).before
      ((stageOf (e.sys.tasks (.inl u))).reads r.1.recvBuf) (f u) (e.sys.tasks (.inr u))) (u : W) :
    Knows P r.1 received out (stageOf ((e.sys.after (.inl w) r).tasks (.inl u))).before
      ((stageOf ((e.sys.after (.inl w) r).tasks (.inl u))).reads r.1.recvBuf) (f u)
      ((e.sys.after (.inl w) r).tasks (.inr u)) :=
  after_worker (I := fun u worker inner =>
    Knows P r.1 received out (stageOf worker).before ((stageOf worker).reads r.1.recvBuf) (f u) inner)
    hself hothers u

/-- A step in the `SendPacket` of worker `w`. -/
theorem knows_after_call {received : List UInt8} {f : W → Option Message} {w : W}
    {r : Cell × Option Task}
    (hself : Knows P r.1 received out (stageOf (e.sys.tasks (.inl w))).before
      ((stageOf (e.sys.tasks (.inl w))).reads r.1.recvBuf) (f w) r.2)
    (hothers : ∀ u, u ≠ w → Knows P r.1 received out (stageOf (e.sys.tasks (.inl u))).before
      ((stageOf (e.sys.tasks (.inl u))).reads r.1.recvBuf) (f u) (e.sys.tasks (.inr u))) (u : W) :
    Knows P r.1 received out (stageOf ((e.sys.after (.inr w) r).tasks (.inl u))).before
      ((stageOf ((e.sys.after (.inr w) r).tasks (.inl u))).reads r.1.recvBuf) (f u)
      ((e.sys.after (.inr w) r).tasks (.inr u)) :=
  after_call (I := fun u worker inner =>
    Knows P r.1 received out (stageOf worker).before ((stageOf worker).reads r.1.recvBuf) (f u) inner)
    hself hothers u

/-- Operations of which none has the buffer need not know. -/
theorem knows_of_idle {c : Cell} {received : List UInt8}
    (hidle : ∀ op ∈ c.ops, op.early = false ∧ ∀ rb, op.reads rb = none) :
    ∀ op ∈ c.ops, Knows P c received out op.early (op.reads c.recvBuf) none none := by
  intro op hop
  obtain ⟨hearly, hreads⟩ := hidle op hop
  exact .nothing hearly (hreads _)

/-- They need no room. -/
theorem room_of_idle {c : Cell} (hidle : ∀ op ∈ c.ops, op.early = false ∧ ∀ rb, op.reads rb = none) :
    ∀ op ∈ c.ops, ∀ rb, op.reads c.recvBuf = some rb → op.done = none →
      op.room ≤ c.recvBuf.getFreeSize := by
  intro op hop rb hrb
  have hnone := (hidle op hop).2
  exact absurd (hrb.symm.trans (hnone _)) (Option.some_ne_none rb)

theorem InStep.take (A : InStep P e out) (C : Control e) {w : W} {op : Op} {n : Nat}
    (htask : e.sys.tasks (.inl w) = none) (hmem : op ∈ e.sys.cell.ops) (hdone : op.done = some n) :
    InStep P { e with
      sys := e.sys.after (.inl w)
        ({ e.sys.cell with ops := e.sys.cell.ops.erase op }, some (op.handler n)) } out where
  read := A.read
  sent := A.sent
  workers := by
    refine knows_after (e := e) (f := e.call)
      (r := ({ e.sys.cell with ops := e.sys.cell.ops.erase op }, some (op.handler n))) ?_ fun u _ => ?_
    · obtain ⟨hcall, hinner⟩ := (C w).rests (fun id k heq => by rw [htask] at heq; cases heq)
      rw [hcall, hinner]
      have K := A.ops op hmem
      exact ⟨fun h => K.start (handler_before h), fun rb h => K.ahead rb (handler_reads hdone h),
        fun rb h => K.owner rb (handler_reads hdone h), fun rb h => K.owes rb (handler_reads hdone h)⟩
    · exact (A.workers u).keep ⟨rfl, rfl, id⟩ rfl
  ops o ho := (A.ops o (List.mem_of_mem_erase ho)).keep ⟨rfl, rfl, id⟩ rfl
  room o ho := A.room o (List.mem_of_mem_erase ho)

/-- The packet that was taken out is answered. -/
theorem InStep.receive (A : InStep P e out) (hr : Reachable system e.sys) (C : Control e) {w : W}
    {id k : Nat} (htask : e.sys.tasks (.inl w) = some (.recv id (.loop k))) :
    InStep P { e with
      sys := e.sys.after (.inl w)
        ((Task.recv id (.loop k)).run (reply P e.sys.cell k).isSome e.sys.cell)
      call := update e.call w (reply P e.sys.cell k) } (out ++ (reply P e.sys.cell k).toList) := by
  obtain ⟨L, -⟩ := lawful hr
  have hrefs : 0 < e.sys.cell.refs := L.refs_pos htask (fun pc heq => by cases heq)
  have K := A.workers w
  rw [htask] at K
  have howner : e.sys.cell.ownerUser = true := K.owner _ rfl
  have R := received P id k ((lived hr).engine hrefs) howner
  obtain ⟨hops, -, hothers⟩ := L.sole_receiver htask Nat.one_pos
  obtain ⟨hcall, hinner⟩ := (C w).rests (fun id k heq => by rw [htask] at heq; cases heq)
  have hentered : ((Task.recv id (.loop k)).run (reply P e.sys.cell k).isSome e.sys.cell).1.entered
      = e.sys.cell.entered := run_entered _ _ (fun b heq => by cases heq)
  have hidle := run_ops_idle (reply P e.sys.cell k).isSome (.recv id (.loop k)) hops rfl
    (fun e heq => by cases heq)
  have A' := R.ahead _ _ (K.ahead _ rfl)
  constructor
  · exact A'.front
  · have hsent : ((Task.recv id (.loop k)).run (reply P e.sys.cell k).isSome
        e.sys.cell).1.entered.map (·.bytes)
        <+: (out ++ (reply P e.sys.cell k).toList).map fun m => encode m.packet := by
      rw [hentered, List.map_append]
      exact A.sent.trans (List.prefix_append _ _)
    exact hsent
  · refine knows_after (f := update e.call w (reply P e.sys.cell k)) ?_ fun u hu => ?_
    · rw [hinner, update_self]
      have O := K.owes _ rfl
      rw [hcall, hinner] at O
      refine ⟨fun h => ?_, fun rb h => ?_, fun rb _ => R.ownerUser.trans howner, fun rb _ => ?_⟩
      · rw [R.before] at h
        cases h
      · rw [R.reads rb h]
        exact A'
      · have S : Settled ((Task.recv id (.loop k)).run (reply P e.sys.cell k).isSome e.sys.cell).1 out :=
          Settled.keep O hentered fun h => R.pending.trans h
        cases hreply : reply P e.sys.cell k with
        | none =>
          rw [hreply] at S
          rw [Option.toList_none, List.append_nil]
          exact S
        | some m =>
          rw [hreply] at S
          exact ⟨out, rfl, S⟩
    · obtain ⟨hbefore, hreads⟩ := stage_of_weigh (hothers (.inl u) (Sum.inl_injective.ne hu))
      exact .nothing hbefore (hreads _)
  · exact knows_of_idle hidle
  · exact room_of_idle hidle

/-- The handler calls `SendPacket`. -/
theorem InStep.call (A : InStep P e out) {w : W} {m : Message} (hcall : e.call w = some m) :
    InStep P { e with
      sys := e.sys.after (.inr w)
        ({ e.sys.cell with refs := e.sys.cell.refs + 1 }, some (.sendPacket (.check m)))
      call := update e.call w none } out where
  read := A.read
  sent := A.sent
  workers := by
    refine knows_after_call (e := e) (f := update e.call w none)
      (r := ({ e.sys.cell with refs := e.sys.cell.refs + 1 }, some (.sendPacket (.check m)))) ?_
      fun u hu => ?_
    · have K := A.workers w
      rw [hcall] at K
      rw [update_self]
      exact ⟨K.start, K.ahead, K.owner, K.owes⟩
    · rw [update_of_ne hu]
      exact (A.workers u).keep ⟨rfl, rfl, id⟩ rfl
  ops o ho := (A.ops o ho).keep ⟨rfl, rfl, id⟩ rfl
  room := A.room

theorem receives_of_call {task : Task} (h : (∃ pc, task = .sendPacket pc) ∨ task = .unlock) :
    task.stage.receives = false ∧ task.recvPc = none ∧ ∀ e, task.stage ≠ .coming e := by
  rcases h with ⟨pc, rfl⟩ | rfl
  · cases pc with
    | sendAsync pc =>
      cases pc <;> exact ⟨rfl, rfl, fun e h => by cases h⟩
    | _ => exact ⟨rfl, rfl, fun e h => by cases h⟩
  · exact ⟨rfl, rfl, fun e h => by cases h⟩

/-- What `SendPacket` puts into the queue is the answer that is owed. -/
theorem sent_of_run {ok : Bool} {c : Cell} {task : Task} (O : Owes c out none (some task))
    (hsent : c.entered.map (·.bytes) <+: out.map fun m => encode m.packet) :
    (task.run ok c).1.entered.map (·.bytes) <+: out.map fun m => encode m.packet := by
  by_cases hlink : ∃ b, task = .sendPacket (.link b)
  · obtain ⟨b, rfl⟩ := hlink
    obtain ⟨l, m, hl, S, hb⟩ := O
    show (c.entered ++ [b]).map (·.bytes) <+: _
    rw [List.map_append, show c.entered.map (·.bytes) = _ from S, hl, List.map_append,
      List.map_singleton, List.map_singleton, hb]
  · rw [run_entered ok c fun b heq => hlink ⟨b, heq⟩]
    exact hsent

/-- A step in `SendPacket`. -/
theorem InStep.send (A : InStep P e out) (hr : Reachable system e.sys) (C : Control e) {w : W}
    {task : Task} {ok : Bool} (htask : e.sys.tasks (.inr w) = some task) :
    InStep P { e with sys := e.sys.after (.inr w) (task.run ok e.sys.cell) } out := by
  obtain ⟨L, -⟩ := lawful hr
  have S := C w
  rw [htask] at S
  obtain ⟨hcall, id, k, hworker⟩ := S.waits
  have hinCall := S.inCall task rfl
  obtain ⟨hreceives, hrecv, hcoming⟩ := receives_of_call hinCall
  have Q := quiet_of_stage hreceives ok e.sys.cell
  obtain ⟨hops, -, hothers⟩ := L.sole_receiver hworker Nat.one_pos
  have hidle := run_ops_idle ok task hops hrecv hcoming
  have K := A.workers w
  rw [hworker, hcall, htask] at K
  have O : Owes e.sys.cell out none (some task) := K.owes _ rfl
  constructor
  · exact A.read
  · exact sent_of_run O A.sent
  · refine knows_after_call (f := e.call) ?_ fun u hu => ?_
    · rw [hworker, hcall, Q.recvBuf]
      refine ⟨K.start, K.ahead, fun rb h => Q.ownerUser.trans (K.owner rb h), fun rb h => ?_⟩
      exact owes_run O hinCall ((lived hr).sock (L.refs_pos hworker (fun pc heq => by cases heq)))
        (fun m hm => answers_serialize (A.read.subset hm)) Q.pending
        fun task' hnext => inCall_run L hworker htask hinCall hnext
    · obtain ⟨hbefore, hreads⟩ := stage_of_weigh (hothers (.inl u) (Sum.inl_injective.ne hu))
      exact .nothing hbefore (hreads _)
  · exact knows_of_idle hidle
  · exact room_of_idle hidle

/-- The system completes an operation. -/
theorem InStep.complete (A : InStep P e out) (hr : Reachable system e.sys) {op : Op}
    {chunk : List UInt8} (hmem : op ∈ e.sys.cell.ops) (hdone : op.done = none)
    (hroom : chunk.length ≤ op.room) :
    InStep P { e with
      sys := { e.sys with cell := e.sys.cell.complete op chunk }
      received := if op.operation = .recv then e.received ++ chunk else e.received } out := by
  obtain ⟨L, -⟩ := lawful hr
  have K := A.ops op hmem
  by_cases hkind : op.operation = .recv
  · obtain ⟨hops, hworkers⟩ := L.sole_op hmem hkind
    have hreads : op.reads e.sys.cell.recvBuf = some e.sys.cell.recvBuf := by
      unfold Op.reads
      rw [hkind, hdone]
    have hfree : chunk.length ≤ e.sys.cell.recvBuf.getFreeSize :=
      hroom.trans (A.room op hmem _ hreads hdone)
    have hbuf : (e.sys.cell.complete op chunk).recvBuf = e.sys.cell.recvBuf.fillWindows chunk :=
      if_pos hkind
    rw [if_pos hkind]
    constructor
    · exact A.read.trans (answers_append P e.received chunk)
    · exact A.sent
    · intro w
      obtain ⟨hbefore, hnone⟩ := stage_of_weigh (hworkers (.inl w))
      exact .nothing hbefore (hnone _)
    · intro o ho
      rcases List.mem_cons.mp ho with rfl | ho
      · refine ⟨fun hearly => ?_, fun rb hrb => ?_, fun rb _ => K.owner _ hreads,
          fun rb _ => K.owes _ hreads⟩
        · have hearly : op.early = true := hearly
          unfold Op.early at hearly
          rw [hkind] at hearly
          cases hearly
        · have hrb : Op.reads (e.sys.cell.complete op chunk).recvBuf
              { op with done := some chunk.length } = some rb := hrb
          rw [hbuf] at hrb
          rw [contents_of_complete hfree hrb]
          exact (K.ahead _ hreads).arrive chunk
      · obtain ⟨hearly, hnone⟩ := op_of_lostRecvs (hops o ho)
        exact .nothing hearly (hnone _)
    · intro o ho rb hrb hnot
      rcases List.mem_cons.mp ho with rfl | ho
      · cases hnot
      · have hnone := (op_of_lostRecvs (hops o ho)).2
        exact absurd (hrb.symm.trans (hnone _)) (Option.some_ne_none rb)
  · have hbuf : (e.sys.cell.complete op chunk).recvBuf = e.sys.cell.recvBuf := if_neg hkind
    have Q : e.sys.cell.Quiet (e.sys.cell.complete op chunk) := ⟨hbuf, rfl, id⟩
    have hnone : ∀ n rb, Op.reads rb { op with done := some n } = none := by
      intro n rb
      obtain ⟨id, operation, wsa, room, done⟩ := op
      cases operation with
      | recv => exact absurd rfl hkind
      | send | accept | connect => rfl
    rw [if_neg hkind]
    constructor
    · exact A.read
    · exact A.sent
    · intro w
      have Kw := (A.workers w).keep Q rfl
      rw [← hbuf] at Kw
      exact Kw
    · intro o ho
      rcases List.mem_cons.mp ho with rfl | ho
      · exact .early K.start (hnone _ _)
      · have Ko := (A.ops o (List.mem_of_mem_erase ho)).keep Q rfl
        rw [← hbuf] at Ko
        exact Ko
    · intro o ho rb hrb hnot
      rcases List.mem_cons.mp ho with rfl | ho
      · cases hnot
      · have hrb : o.reads (e.sys.cell.complete op chunk).recvBuf = some rb := hrb
        show o.room ≤ (e.sys.cell.complete op chunk).recvBuf.getFreeSize
        rw [hbuf] at hrb ⊢
        exact A.room o (List.mem_of_mem_erase ho) rb hrb hnot

theorem stage_of_reads {p : Stage} {rb rb' : RingBuffer} (h : p.reads rb = some rb') :
    p.ends = false ∧ p.isSet = false := by
  cases p with
  | ending pc | set e => cases h
  | _ => exact ⟨rfl, rfl⟩

/-- A step of the worker that has the buffer costs it nothing. -/
theorem Knows.hold {ok : Bool} {c : Cell} {task : Task} {received : List UInt8} {before : Bool}
    {rb : RingBuffer}
    (K : Knows P c received out before (task.stage.reads c.recvBuf) none none)
    (hrb : task.stage.reads c.recvBuf = some rb) (hentered : (task.run ok c).1.entered = c.entered) :
    (task.run ok c).1.ownerUser = true ∧ Settled (task.run ok c).1 out := by
  have hstep := run_lifeStep ok c task
  obtain ⟨hends, hset⟩ := stage_of_reads hrb
  constructor
  · have howner : (task.run ok c).1.ownerUser = (task.stage.isSet || c.ownerUser) :=
      (hstep.frame hends).2.2.1
    rw [howner, hset, K.owner rb hrb]
    rfl
  · have S : Settled c out := K.owes rb hrb
    exact S.keep hentered (hstep.pending hends hset)

/-- What a step of the worker leaves of what it knows. -/
theorem Knows.run {ok : Bool} {c : Cell} {task : Task} {received : List UInt8}
    (K : Knows P c received out task.stage.before (task.stage.reads c.recvBuf) none none)
    (hloop : ∀ id k, task ≠ .recv id (.loop k))
    (hentered : (task.run ok c).1.entered = c.entered) (hnone : out = [] → c.entered = []) :
    Knows P (task.run ok c).1 received out (stageOf (task.run ok c).2).before
      ((stageOf (task.run ok c).2).reads (task.run ok c).1.recvBuf) none none := by
  have hstep := run_lifeStep ok c task
  have hstage : ∀ k, task.stage ≠ .recv (.loop k) := by
    intro k hk
    obtain ⟨id, heq⟩ := recv_of_stage hk
    exact hloop id k heq
  -- either it had the buffer, or `Set` has cleared it
  have hreads : ∀ rb, (stageOf (task.run ok c).2).reads (task.run ok c).1.recvBuf = some rb →
      task.stage.reads c.recvBuf = some rb ∨
        (∃ e, task.stage = .set e) ∧ rb.contents = [] ∧ received = [] ∧ out = [] := by
    intro rb hrb
    rcases hstep.reads hstage hrb with hold | ⟨⟨e, hset⟩, rfl⟩
    · exact .inl hold
    · obtain ⟨hreceived, hout⟩ := K.start (by rw [hset]; rfl)
      exact .inr ⟨⟨e, hset⟩, c.recvBuf.contents_clear, hreceived, hout⟩
  constructor
  · intro hbefore
    exact K.start (hstep.stays_before hbefore)
  · intro rb hrb
    rcases hreads rb hrb with hold | ⟨-, hcontents, hreceived, hout⟩
    · exact K.ahead rb hold
    · rw [hcontents, hreceived, hout]
      exact .start _ _ _
  · intro rb hrb
    rcases hreads rb hrb with hold | ⟨⟨e, hset⟩, -⟩
    · exact (K.hold hold hentered).1
    · have hends : task.stage.ends = false := by
        rw [hset]
        rfl
      have howner : (task.run ok c).1.ownerUser = (task.stage.isSet || c.ownerUser) :=
        (hstep.frame hends).2.2.1
      rw [howner, hset]
      rfl
  · intro rb hrb
    rcases hreads rb hrb with hold | ⟨-, -, -, hout⟩
    · exact (K.hold hold hentered).2
    · refine .inl ?_
      unfold Sent
      rw [hentered, hout, hnone hout]
      rfl

/-- A worker goes on, other than in the loop. -/
theorem InStep.go (A : InStep P e out) (hr : Reachable system e.sys) (C : Control e) {w : W}
    {task : Task} {ok : Bool} (htask : e.sys.tasks (.inl w) = some task)
    (hloop : ∀ id k, task ≠ .recv id (.loop k))
    (hwait : ∀ id k, task = .recv id (.inHandler k) → e.busy w = false) :
    InStep P { e with sys := e.sys.after (.inl w) (task.run ok e.sys.cell) } out := by
  obtain ⟨L, -⟩ := lawful hr
  obtain ⟨hcall, hinner⟩ := C.waited htask hwait
  have hapart := (C w).apart
  rw [htask] at hapart
  have hentered : (task.run ok e.sys.cell).1.entered = e.sys.cell.entered := by
    refine run_entered ok _ fun b heq => ?_
    rw [heq] at hapart
    cases hapart
  have K := A.workers w
  rw [htask, hcall, hinner] at K
  have hnone : out = [] → e.sys.cell.entered = [] := by
    intro hout
    have hsent := A.sent
    rw [hout] at hsent
    exact List.map_eq_nil_iff.mp (List.prefix_nil.mp hsent)
  have hside := quiet_or_sole L htask ok
  -- an operation that has the buffer had it before, and nobody has touched it; or it was posted now
  have hop : ∀ op ∈ (task.run ok e.sys.cell).1.ops, ∀ rb,
      op.reads (task.run ok e.sys.cell).1.recvBuf = some rb →
      (e.sys.cell.Quiet (task.run ok e.sys.cell).1 ∧ ∃ o ∈ e.sys.cell.ops,
        o.reads e.sys.cell.recvBuf = some rb ∧ (op.done = none → op.room = o.room ∧ o.done = none)) ∨
      (task.run ok e.sys.cell).1.recvBuf = e.sys.cell.recvBuf ∧
        task.stage.reads e.sys.cell.recvBuf = some rb ∧ op.room = e.sys.cell.window := by
    intro op hop rb hrb
    rcases run_reads_op hop hrb with ⟨o, ho, horb, hroom⟩ | ⟨⟨pc, hpc⟩, rfl, hroom⟩
    · rcases hside with Q | ⟨hops, -⟩
      · rw [Q.recvBuf] at horb
        exact .inl ⟨Q, o, ho, horb, hroom⟩
      · exact absurd (horb.symm.trans ((op_of_lostRecvs (hops o ho)).2 _)) (Option.some_ne_none rb)
    · obtain ⟨hreads, hbuf⟩ := run_recvAsync hpc ok e.sys.cell
      rw [hbuf]
      exact .inr ⟨rfl, hreads, hroom⟩
  constructor
  · exact A.read
  · show List.map (·.bytes) (task.run ok e.sys.cell).1.entered <+: _
    rw [hentered]
    exact A.sent
  · refine knows_after (f := e.call) ?_ fun u hu => ?_
    · rw [hcall, hinner]
      exact K.run hloop hentered hnone
    · rcases hside with Q | ⟨-, hothers⟩
      · rw [Q.recvBuf]
        exact (A.workers u).keep Q hentered
      · obtain ⟨hbefore, hreads⟩ := stage_of_weigh (hothers (.inl u) (Sum.inl_injective.ne hu))
        exact .nothing hbefore (hreads _)
  · intro op hmem
    constructor
    · intro hearly
      rcases run_early_op hmem hearly with ⟨o, ho, hoearly⟩ | ⟨e', hcoming⟩
      · exact (A.ops o ho).start hoearly
      · exact K.start (by rw [show stageOf (some task) = .coming e' from hcoming]; rfl)
    · intro rb hrb
      rcases hop op hmem rb hrb with ⟨Q, o, ho, horb, -⟩ | ⟨-, hreads, -⟩
      · exact (A.ops o ho).ahead rb horb
      · exact K.ahead rb hreads
    · intro rb hrb
      rcases hop op hmem rb hrb with ⟨Q, o, ho, horb, -⟩ | ⟨-, hreads, -⟩
      · exact ((A.ops o ho).keep Q hentered).owner rb horb
      · exact (K.hold hreads hentered).1
    · intro rb hrb
      rcases hop op hmem rb hrb with ⟨Q, o, ho, horb, -⟩ | ⟨-, hreads, -⟩
      · exact ((A.ops o ho).keep Q hentered).owes rb horb
      · exact (K.hold hreads hentered).2
  · intro op hmem rb hrb hdone
    show op.room ≤ (task.run ok e.sys.cell).1.recvBuf.getFreeSize
    rcases hop op hmem rb hrb with ⟨Q, o, ho, horb, hsame⟩ | ⟨hbuf, -, hroom⟩
    · obtain ⟨hroom, hodone⟩ := hsame hdone
      rw [Q.recvBuf, hroom]
      exact A.room o ho rb horb hodone
    · rw [hbuf, hroom]
      exact Nat.le_refl _

end Steps

/-! ## Every run -/

/-- **The run lemma.** -/
theorem inStep [Fintype W] {P : EchoProtocol} {e : Echo W} (h : Reachable (echoSystem P) e) :
    ∃ out, InStep P e out := by
  apply h.invariant (I := fun e => ∃ out, InStep P e out)
  · rintro _ ⟨mem, b, hb, w, rfl⟩
    refine ⟨[], List.nil_prefix, List.nil_prefix, fun u => ?_, fun op hop => ?_, fun op hop => ?_⟩
    · have hnone : ∀ rb, (stageOf ((Sys.new .server (.new mem b hb) (Sum.inl w)).tasks (Sum.inl u))).reads rb
          = none :=
        Sys.forall_new (T := W ⊕ W) (P := fun o => ∀ rb, (stageOf o).reads rb = none) (fun rb => rfl)
          (fun rb => rfl) _
      exact .early (fun _ => ⟨rfl, rfl⟩) (hnone _)
    · exact absurd hop List.not_mem_nil
    · exact absurd hop List.not_mem_nil
  · rintro e e' hreach ⟨out, A⟩ hnext
    have hr := (projects P).reachable hreach
    have C := control hreach
    cases step_moves hnext with
    | take htask hmem hdone => exact ⟨out, A.take C htask hmem hdone⟩
    | go ok htask hloop hwait => exact ⟨out, A.go hr C htask hloop hwait⟩
    | receive htask => exact ⟨_, A.receive hr C htask⟩
    | call hcall =>
      rw [reaches_of_call (lawful hr).1 C hcall]
      exact ⟨out, A.call hcall⟩
    | send ok htask => exact ⟨out, A.send hr C htask⟩
    | complete hmem hdone hroom => exact ⟨out, A.complete hr hmem hdone hroom⟩

/-- The `EchoRequest` in a packet, if it is one, and well-formed. -/
def request (P : EchoProtocol) (p : Packet) : Option EchoRequest :=
  if P.packetId .request = UInt32.ofNat p.id then P.parse .request p.payload else none

/-- The `EchoRequest`s in a stream. -/
def requests (P : EchoProtocol) (s : List UInt8) : List EchoRequest :=
  (packetGrammar.frames s).filterMap (request P)

/-- The packet of the `EchoResponse` with the message of a request. -/
def echo (P : EchoProtocol) (q : EchoRequest) : List UInt8 :=
  encode (P.message .response ({ message := q.message } : EchoResponse)).packet

/-- A request is answered with its echo, and nothing else is. -/
theorem answer_eq (P : EchoProtocol) (p : Packet) :
    (answer P true p).map (fun m => encode m.packet) = (request P p).map (echo P) := by
  unfold answer onPacketReceived request
  rw [find_registerAll]
  by_cases hid : P.packetId .request = UInt32.ofNat p.id
  · have hfind : registerPacketHandlers.reverse.find?
        (fun r => decide (P.packetId r.type = UInt32.ofNat p.id))
          = some ⟨.request, handleEchoRequest⟩ :=
      List.find?_cons_of_pos (decide_eq_true hid)
    rw [hfind, if_pos hid, if_pos rfl]
    show Option.map _ (Option.map _ (Option.map _ (P.parse .request p.payload))) = _
    cases P.parse .request p.payload <;> rfl
  · have hfind : registerPacketHandlers.reverse.find?
        (fun r => decide (P.packetId r.type = UInt32.ofNat p.id)) = none :=
      List.find?_cons_of_neg (by simpa using hid)
    rw [hfind, if_neg hid]
    rfl

theorem answers_eq (P : EchoProtocol) (s : List UInt8) :
    (answers P s).map (fun m => encode m.packet) = (requests P s).map (echo P) := by
  unfold answers requests
  rw [List.map_filterMap, List.map_filterMap]
  exact List.filterMap_congr fun p _ => answer_eq P p

/-- What has been passed to `WSASend` are the echoes of the first requests. -/
theorem handed_echoes [Fintype W] {P : EchoProtocol} {e : Echo W} (h : Reachable (echoSystem P) e) :
    e.sys.cell.handed.map (Option.map fun b => b.bytes)
      <+: (requests P e.received).map fun q => some (echo P q) := by
  obtain ⟨out, A⟩ := inStep h
  have hhanded := (streaming ((projects P).reachable h)).handed
  have hentered : (e.sys.cell.entered.map some).map (Option.map fun b => b.bytes)
      = (e.sys.cell.entered.map (·.bytes)).map some := by
    rw [List.map_map, List.map_map]
    rfl
  have hanswers : ((answers P e.received).map fun m => encode m.packet).map some
      = (requests P e.received).map fun q => some (echo P q) := by
    rw [answers_eq, List.map_map]
    rfl
  -- handed over, entered, sent, answered
  refine (hhanded.map _).trans ?_
  rw [hentered]
  refine (A.sent.map some).trans ?_
  rw [← hanswers]
  exact (A.read.map _).map some

/-- **The echoes leave in the order of the requests.**  Of every session, whatever its workers do,
    at most one worker handles a receive, at most one receive is outstanding, and not both; and the
    packets that a session of the echo server has passed to `WSASend` are the echoes of the first
    requests in the bytes it has received, in their order. -/
theorem echo_order (P : EchoProtocol) :
    (∀ (T : Type) [DecidableEq T] [Fintype T] (s : Sys T), Reachable system s → Serial s) ∧
    ∀ (W : Type) [DecidableEq W] [Fintype W] (e : Echo W), Reachable (echoSystem P) e →
      e.sys.cell.handed.map (Option.map fun b => b.bytes)
        <+: (requests P e.received).map fun q => some (echo P q) :=
  ⟨fun T _ _ s h => serial h, fun W _ _ e h => handed_echoes h⟩

/-! ## A request and its echo -/

/-- What protobuf makes of `string message = 1`, if it has less than 128 bytes. -/
def stringField (l : List UInt8) : List UInt8 :=
  if l = [] then [] else 10 :: UInt8.ofNat l.length :: l

def parseStringField : List UInt8 → Option (List UInt8)
  | [] => some []
  | 10 :: n :: l => if l.length = n.toNat then some l else none
  | _ => none

/-- The protocol, for short messages without a timestamp. -/
def shortMessages : EchoProtocol where
  fullName
    | .request => ['e', 'c', 'h', 'o', '.', 'E', 'c', 'h', 'o', 'R', 'e', 'q', 'u', 'e', 's', 't'].map
        fun c => UInt8.ofNat c.toNat
    | .response => ['e', 'c', 'h', 'o', '.', 'E', 'c', 'h', 'o', 'R', 'e', 's', 'p', 'o', 'n', 's',
        'e'].map fun c => UInt8.ofNat c.toNat
  serialize
    | .request, q => stringField q.message
    | .response, r => stringField r.message
  parse
    | .request, l => (parseStringField l).map fun m => { message := m }
    | .response, l => (parseStringField l).map fun m => { message := m }

/-- A session of the server with one worker, which made it. -/
def echoServed : Echo Unit where
  sys := .new .server (.new (fun _ => 0) 0 aligned_zero) (.inl ())
  call _ := none
  received := []

theorem echoServed_init : (echoSystem shortMessages).init echoServed := ⟨_, _, _, _, rfl⟩

/-- The worker goes on, and all it asks of the system succeeds. -/
def works (n : Nat) : List (EchoAct Unit) := List.replicate n (.go () true)

/-- An `EchoRequest` with one character, and the first byte of the next packet. -/
def oneRequest : List UInt8 := [11, 0, 0, 0, 192, 161, 149, 126, 10, 1, 65, 11]

/-- It arrives, and the handler sends the answer. -/
def oneEcho : List (EchoAct Unit) :=
  works 3 ++ .complete ⟨0, .accept, [], 0, none⟩ [] :: .take () ⟨0, .accept, [], 0, some 0⟩ ::
    works 12 ++ .complete (recvOp 1 8191) oneRequest ::
    .take () { recvOp 1 8191 with done := some 12 } :: works 2 ++
    .call () :: List.replicate 15 (.send () true)

theorem echo_order_one : ∃ e : Echo Unit, e.sys.cell.handed.length = 1 ∧
    e.sys.cell.handed.map (Option.map fun b => b.bytes)
      <+: (requests shortMessages e.received).map fun q => some (echo shortMessages q) := by
  obtain ⟨e, hr, hp⟩ := exists_reachable_of_exec (M := echoSystem shortMessages)
    echoServed_init (fun e a e' h => ⟨a, h⟩) oneEcho
    (fun e => decide (e.sys.cell.handed.length = 1)) (by decide +kernel)
  exact ⟨e, of_decide_eq_true hp, (echo_order shortMessages).2 Unit e hr⟩

end JunCore.EchoServer
