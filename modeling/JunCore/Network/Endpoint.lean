/-
  A session as one end of a connection: what it has received, and what it has made of that.

  `SessionSteps` says what every thread does with a session; here the bytes that the receives have
  brought and the packets that `HandleRecvComplete` has passed to `OnPacketReceived` are written down
  beside it.  The buffer has one owner at a time (`Receiving`), so what the owner knows of it is enough:
  the packets dispatched are those the reference decoder has read so far, and the bytes in the buffer
  are still to be read.  When the receive is outstanding again, no complete packet is left in them.

  This is `framing_agrees` for the session as it runs, with all its workers and callers.
-/
import JunCore.Network.Receiving

set_option linter.unusedVariables false
set_option linter.unusedSectionVars false

namespace JunCore.SessionSteps

open Function Transition Framing Network

variable {T : Type} [DecidableEq T]

/-! ## The session with its stream -/

/-- The packet that the next step of this task cuts off, for `OnPacketReceived`. -/
def cutOff (c : Cell) : Option Task → Option Packet
  | some (.recv _ (.loop k)) =>
    if 1000 < k + 1 then none
    else
      match recvIteration c.engine.isSome c.recvBuf with
      | .packet p _ => some p
      | .leave _ _ => none
  | _ => none

/-- One end of a connection. -/
structure Endpoint (T : Type) where
  sys : Sys T
  /-- the bytes received so far -/
  received : List UInt8
  /-- the packets passed to `OnPacketReceived` -/
  dispatched : List Packet

/-- The bytes that a step brings. -/
def Act.brings : Act T → List UInt8
  | .complete op chunk => if op.operation = .recv then chunk else []
  | _ => []

/-- The packet that it takes out. -/
def Endpoint.takes (e : Endpoint T) : Act T → Option Packet
  | .go t _ => cutOff e.sys.cell (e.sys.tasks t)
  | _ => none

/-- A step of the session. -/
def Endpoint.step (e : Endpoint T) (a : Act T) : Option (Endpoint T) :=
  (SessionSteps.step e.sys a).map fun s =>
    { sys := s, received := e.received ++ a.brings, dispatched := e.dispatched ++ (e.takes a).toList }

/-- All runs of a session, from `PostAcceptEx` or `PostConnectEx` on. -/
def endpointSystem : System (Endpoint T) where
  init e := system.init e.sys ∧ e.received = [] ∧ e.dispatched = []
  next e e' := ∃ a, e.step a = some e'

theorem endpoint_projects : Projection (endpointSystem (T := T)) system Endpoint.sys where
  init _ h := h.1
  next e e' h := by
    obtain ⟨a, h⟩ := h
    obtain ⟨s, hs, rfl⟩ := Option.map_eq_some_iff.mp h
    exact .inr ⟨a, hs⟩

/-- **What may happen next**: a thread does something, and may take out a packet, or the system
    completes an operation, and may bring bytes. -/
theorem endpoint_does {e e' : Endpoint T} (h : endpointSystem.next e e') :
    (∃ t r, Does e.sys.cell (e.sys.tasks t) r ∧ e' = ⟨e.sys.after t r, e.received,
      e.dispatched ++ (cutOff e.sys.cell (e.sys.tasks t)).toList⟩) ∨
    ∃ op chunk, op ∈ e.sys.cell.ops ∧ op.done = none ∧ chunk.length ≤ op.room ∧
      e' = ⟨{ e.sys with cell := e.sys.cell.complete op chunk },
        e.received ++ (if op.operation = .recv then chunk else []), e.dispatched⟩ := by
  obtain ⟨a, h⟩ := h
  obtain ⟨s, hs, rfl⟩ := Option.map_eq_some_iff.mp h
  have hplain : ∀ s' : Sys T, (⟨s', e.received ++ [], e.dispatched ++ (none : Option Packet).toList⟩ :
      Endpoint T) = ⟨s', e.received, e.dispatched ++ (none : Option Packet).toList⟩ := by
    intro s'
    rw [List.append_nil]
  cases a with
  | sendPacket t m =>
    simp only [SessionSteps.step] at hs
    split at hs
    · rename_i hreach
      obtain ⟨htask, hpub, hrefs⟩ := Sys.reaches_iff.mp hreach
      rw [← Option.some.inj hs]
      refine .inl ⟨t, ({ e.sys.cell with refs := e.sys.cell.refs + 1 },
        some (.sendPacket (.check m))), ?_, ?_⟩
      · rw [htask]
        exact .sendPacket m hpub hrefs
      · rw [htask]
        exact hplain _
    · cases hs
  | disconnect t =>
    simp only [SessionSteps.step] at hs
    split at hs
    · rename_i hreach
      obtain ⟨htask, hpub, hrefs⟩ := Sys.reaches_iff.mp hreach
      rw [← Option.some.inj hs]
      refine .inl ⟨t, ({ e.sys.cell with refs := e.sys.cell.refs + 1 }, some (.disconnect .cas)), ?_, ?_⟩
      · rw [htask]
        exact .disconnect hpub hrefs
      · rw [htask]
        exact hplain _
    · cases hs
  | take t op =>
    simp only [SessionSteps.step] at hs
    split at hs
    · rename_i n htask hdone
      split at hs
      · rename_i hmem
        rw [← Option.some.inj hs]
        refine .inl ⟨t, ({ e.sys.cell with ops := e.sys.cell.ops.erase op }, some (op.handler n)), ?_, ?_⟩
        · rw [htask]
          exact .take hmem hdone
        · rw [htask]
          exact hplain _
      · cases hs
    · cases hs
  | go t ok =>
    obtain ⟨task, htask, rfl⟩ := Option.map_eq_some_iff.mp hs
    refine .inl ⟨t, task.run ok e.sys.cell, ?_, ?_⟩
    · rw [htask]
      exact .run task ok
    · exact congrArg (Endpoint.mk _ · _) (List.append_nil _)
  | complete op chunk =>
    simp only [SessionSteps.step] at hs
    split at hs
    · rename_i hop
      rw [← Option.some.inj hs]
      refine .inr ⟨op, chunk, hop.1, hop.2.1, hop.2.2, ?_⟩
      exact congrArg (Endpoint.mk _ _) (List.append_nil _)
    · cases hs

/-! ## What the owner of the buffer knows -/

/-- The stages at which no complete packet is in the buffer. -/
def Stage.waits : Stage → Bool
  | .drain _ | .callback .server | .inCallback .server | .first _ _ => true
  | .recv .loadPending | .recv (.recvAsync _) => true
  | _ => false

/-- What whoever has the receive buffer knows, or is to have it: `before` there is a `User`, nothing
    has been received; who `reads` has dispatched all that is no longer in the buffer; who `waits` has
    left no complete packet in it. -/
structure Reader (received : List UInt8) (out : List Packet) (before waits : Bool)
    (reads : Option RingBuffer) : Prop where
  start : before = true → received = [] ∧ out = []
  ahead : ∀ rb, reads = some rb → packetGrammar.Ahead some received out rb.contents
  still : waits = true → ∀ rb, reads = some rb → ∀ p rest, packetGrammar.cut rb.contents ≠ .frame p rest

/-- Who has nothing to do with it need not know. -/
theorem Reader.nothing {received : List UInt8} {out : List Packet} {before waits : Bool}
    {reads : Option RingBuffer} (hbefore : before = false) (hreads : reads = none) :
    Reader received out before waits reads where
  start h := by
    rw [hbefore] at h
    cases h
  ahead rb h := by
    rw [hreads] at h
    cases h
  still _ rb h := by
    rw [hreads] at h
    cases h

/-- A buffer that was cleared before anything was received. -/
theorem Reader.cleared {received : List UInt8} {out : List Packet} {before waits : Bool}
    {rb : RingBuffer} (hreceived : received = []) (hout : out = []) (hrb : rb.contents = []) :
    Reader received out before waits (some rb) where
  start _ := ⟨hreceived, hout⟩
  ahead rb' h := by
    rw [← Option.some.inj h, hrb, hreceived, hout]
    exact .start _ _ _
  still _ rb' h p rest hcut := by
    rw [← Option.some.inj h, hrb, packetGrammar_cut, cutPacket_nil] at hcut
    cases hcut

/-- **The dispatching keeps step with the stream.** -/
structure Reading (e : Endpoint T) : Prop where
  read : e.dispatched <+: packetGrammar.frames e.received
  tasks : ∀ t, Reader e.received e.dispatched (stageOf (e.sys.tasks t)).before
    (stageOf (e.sys.tasks t)).waits ((stageOf (e.sys.tasks t)).reads e.sys.cell.recvBuf)
  ops : ∀ op ∈ e.sys.cell.ops,
    Reader e.received e.dispatched op.early op.done.isNone (op.reads e.sys.cell.recvBuf)
  room : ∀ op ∈ e.sys.cell.ops, ∀ rb, op.reads e.sys.cell.recvBuf = some rb → op.done = none →
    op.room ≤ e.sys.cell.recvBuf.getFreeSize

/-! ## Single steps -/

/-- Nobody waits who did not, unless the buffer was cleared. -/
theorem LifeStep.stays_waiting {ok : Bool} {c : Cell} {p p' : Stage} {l' : Life}
    (h : LifeStep ok c p l' p') (hloop : ∀ k, p ≠ .recv (.loop k)) (hp' : p'.waits = true) :
    p.waits = true ∨ ∃ e, p = .set e := by
  cases h with
  | set e => exact .inr ⟨e, rfl⟩
  | drain e hp => exact .inl rfl
  | drop | giveUp k =>
    unfold Stage.dropped at hp'
    split at hp' <;> cases hp'
  | cas => split at hp' <;> cases hp'
  | coming e hp | checked e hp => rcases hp with rfl | rfl | rfl <;> cases hp'
  | callback e | inCallback e =>
    cases e with
    | server => exact .inl rfl
    | client => cases hp'
  | first e pc => exact .inl rfl
  | tooMany k | handle huser hpacket | skip hpacket | leave rest hp => exact absurd rfl (hloop _)
  | loadPending hp => exact .inl rfl
  | recvAsync pc => exact .inl rfl
  | drained pc => cases hpc : (SessionSteps.drain c pc).2 <;> rw [hpc] at hp' <;> cases hp'
  | _ => cases hp'

/-- After a `break` no complete packet is left. -/
theorem recvIteration_break {rb rest : RingBuffer} {x : Exit}
    (h : recvIteration true rb = .leave x rest) (hx : x.isBreak = true) (p : Packet)
    (rest' : List UInt8) : packetGrammar.cut rb.contents ≠ .frame p rest' := by
  intro hcut
  rw [packetGrammar_cut] at hcut
  obtain ⟨-, hvalid, hle, -, -⟩ := cutPacket_frame.mp hcut
  have hmin := (isValidPacketSize_iff.mp hvalid).1
  have hlen := rb.length_contents
  unfold recvIteration at h
  split at h
  · omega
  · simp only [rb.peek_eq] at h
    split at h
    · rename_i hinvalid
      rw [hvalid] at hinvalid
      cases hinvalid
    · split at h
      · omega
      · cases h

/-- **An iteration of the loop**: the packet it takes out is the next one, and if it is the last,
    nothing complete is left. -/
theorem run_loop {c : Cell} (ok : Bool) (id k : Nat) (hengine : c.engine ≠ none)
    {received : List UInt8} {out : List Packet}
    (A : packetGrammar.Ahead some received out c.recvBuf.contents) :
    packetGrammar.Ahead some received (out ++ (cutOff c (some (.recv id (.loop k)))).toList)
      ((Task.recv id (.loop k)).run ok c).1.recvBuf.contents ∧
    Reader received (out ++ (cutOff c (some (.recv id (.loop k)))).toList)
      (stageOf ((Task.recv id (.loop k)).run ok c).2).before
      (stageOf ((Task.recv id (.loop k)).run ok c).2).waits
      ((stageOf ((Task.recv id (.loop k)).run ok c).2).reads
        ((Task.recv id (.loop k)).run ok c).1.recvBuf) := by
  have hsome : c.engine.isSome = true := Option.isSome_iff_ne_none.mpr hengine
  by_cases hlimit : 1000 < k + 1
  · simp only [cutOff, Task.run, recvComplete, if_pos hlimit, Option.toList_none, List.append_nil]
    exact ⟨A, .nothing rfl rfl⟩
  · cases hit : recvIteration c.engine.isSome c.recvBuf with
    | packet p rest =>
      have A' := A.cut (recvIteration_packet (hsome ▸ hit))
      simp only [cutOff, Task.run, recvComplete, if_neg hlimit, hit]
      have hreader : Reader received (out ++ (some p).toList) false false (some rest) :=
        ⟨Bool.noConfusion, fun rb hrb => (Option.some.inj hrb) ▸ A', Bool.noConfusion⟩
      split
      · exact ⟨A', hreader⟩
      · exact ⟨A', hreader⟩
    | leave x rest =>
      obtain rfl : rest = c.recvBuf := recvIteration_leave (hsome ▸ hit)
      simp only [cutOff, Task.run, recvComplete, if_neg hlimit, hit, Option.toList_none, List.append_nil]
      refine ⟨A, ?_⟩
      split
      · rename_i hbreak
        refine ⟨Bool.noConfusion, fun rb hrb => (Option.some.inj hrb) ▸ A, fun _ rb hrb p rest => ?_⟩
        rw [← Option.some.inj hrb]
        exact recvIteration_break (hsome ▸ hit) hbreak p rest
      · exact .nothing rfl rfl

/-- Only the loop takes anything out. -/
theorem cutOff_eq_none (c : Cell) {task : Task} (h : ∀ id k, task ≠ .recv id (.loop k)) :
    cutOff c (some task) = none := by
  unfold cutOff
  split
  · rename_i id k heq
    exact absurd (Option.some.inj heq) (h id k)
  · rfl

/-- What a step of a task, outside of the loop, leaves of what it knows. -/
theorem Reader.run {ok : Bool} {c : Cell} {task : Task} {received : List UInt8} {out : List Packet}
    (K : Reader received out task.stage.before task.stage.waits (task.stage.reads c.recvBuf))
    (hloop : ∀ id k, task ≠ .recv id (.loop k)) :
    Reader received out (stageOf (task.run ok c).2).before (stageOf (task.run ok c).2).waits
      ((stageOf (task.run ok c).2).reads (task.run ok c).1.recvBuf) := by
  have hstep := run_lifeStep ok c task
  have hstage : ∀ k, task.stage ≠ .recv (.loop k) := by
    intro k hk
    obtain ⟨id, heq⟩ := recv_of_stage hk
    exact hloop id k heq
  -- either it had the buffer, or `Set` has cleared it
  have hreads : ∀ rb, (stageOf (task.run ok c).2).reads (task.run ok c).1.recvBuf = some rb →
      task.stage.reads c.recvBuf = some rb ∨
        (∃ e, task.stage = .set e) ∧ rb.contents = [] ∧ received = [] ∧ out = [] := by
    intro rb hrb
    rcases hstep.reads hstage hrb with hold | ⟨⟨e, hset⟩, rfl⟩
    · exact .inl hold
    · obtain ⟨hreceived, hout⟩ := K.start (by rw [hset]; rfl)
      exact .inr ⟨⟨e, hset⟩, c.recvBuf.contents_clear, hreceived, hout⟩
  constructor
  · intro hbefore
    exact K.start (hstep.stays_before hbefore)
  · intro rb hrb
    rcases hreads rb hrb with hold | ⟨-, hcontents, hreceived, hout⟩
    · exact K.ahead rb hold
    · have C : Reader received out false false (some rb) := .cleared hreceived hout hcontents
      exact C.ahead rb rfl
  · intro hwaits rb hrb
    rcases hreads rb hrb with hold | ⟨-, hcontents, hreceived, hout⟩
    · rcases hstep.stays_waiting hstage hwaits with hwas | ⟨e, hset⟩
      · exact K.still hwas rb hold
      · rw [hset] at hold
        cases hold
    · have C : Reader received out false true (some rb) := .cleared hreceived hout hcontents
      exact C.still rfl rb rfl

/-! ## Each step -/

section Steps

variable [Fintype T] {e : Endpoint T}

/-- A step of thread `t`: what it knows afterwards, and what the others do. -/
theorem readers_after {s : Sys T} {t : T} {r : Cell × Option Task} {received : List UInt8}
    {out : List Packet}
    (hself : Reader received out (stageOf r.2).before (stageOf r.2).waits ((stageOf r.2).reads r.1.recvBuf))
    (hothers : ∀ u, u ≠ t → Reader received out (stageOf (s.tasks u)).before
      (stageOf (s.tasks u)).waits ((stageOf (s.tasks u)).reads r.1.recvBuf)) (u : T) :
    Reader received out (stageOf ((s.after t r).tasks u)).before (stageOf ((s.after t r).tasks u)).waits
      ((stageOf ((s.after t r).tasks u)).reads (s.after t r).cell.recvBuf) :=
  Sys.forall_after (P := fun o =>
    Reader received out (stageOf o).before (stageOf o).waits ((stageOf o).reads r.1.recvBuf)) hself hothers u

/-- A thread comes to the session. -/
theorem Reading.enter (A : Reading e) {t : T} {task : Task} (refs : Nat)
    (hstage : task.stage = .other) : Reading
      ⟨e.sys.after t ({ e.sys.cell with refs := refs }, some task), e.received, e.dispatched⟩ where
  read := A.read
  tasks := by
    refine readers_after ?_ fun u _ => A.tasks u
    rw [show stageOf (some task) = .other from hstage]
    exact .nothing rfl rfl
  ops := A.ops
  room := A.room

/-- A worker takes a completion. -/
theorem Reading.take (A : Reading e) {t : T} {op : Op} {n : Nat} (hmem : op ∈ e.sys.cell.ops)
    (hdone : op.done = some n) : Reading
      ⟨e.sys.after t ({ e.sys.cell with ops := e.sys.cell.ops.erase op }, some (op.handler n)),
        e.received, e.dispatched⟩ where
  read := A.read
  tasks := by
    refine readers_after ?_ fun u _ => A.tasks u
    have K := A.ops op hmem
    have hwaits : (op.handler n).stage.waits = false := by
      unfold Op.handler
      cases op.operation with
      | recv | send => cases n <;> rfl
      | accept | connect => rfl
    refine ⟨fun h => K.start (handler_before h), fun rb h => K.ahead rb (handler_reads hdone h), fun h => ?_⟩
    rw [show stageOf (some (op.handler n)) = (op.handler n).stage from rfl, hwaits] at h
    cases h
  ops o ho := A.ops o (List.mem_of_mem_erase ho)
  room o ho := A.room o (List.mem_of_mem_erase ho)

/-- Operations of which none has the buffer need not know, and need no room. -/
theorem readers_of_idle {c : Cell} {out : List Packet} (received : List UInt8)
    (hidle : ∀ op ∈ c.ops, op.early = false ∧ ∀ rb, op.reads rb = none) :
    (∀ op ∈ c.ops, Reader received out op.early op.done.isNone (op.reads c.recvBuf)) ∧
      ∀ op ∈ c.ops, ∀ rb, op.reads c.recvBuf = some rb → op.done = none →
        op.room ≤ c.recvBuf.getFreeSize := by
  constructor
  · intro op hop
    obtain ⟨hearly, hreads⟩ := hidle op hop
    exact .nothing hearly (hreads _)
  · intro op hop rb hrb
    exact absurd (hrb.symm.trans ((hidle op hop).2 _)) (Option.some_ne_none rb)

/-- An iteration of the loop of `HandleRecvComplete`. -/
theorem Reading.loop (A : Reading e) (hr : Reachable system e.sys) {t : T} {id k : Nat} (ok : Bool)
    (htask : e.sys.tasks t = some (.recv id (.loop k))) : Reading
      ⟨e.sys.after t ((Task.recv id (.loop k)).run ok e.sys.cell), e.received,
        e.dispatched ++ (cutOff e.sys.cell (some (.recv id (.loop k)))).toList⟩ := by
  obtain ⟨L, -⟩ := lawful hr
  have hrefs : 0 < e.sys.cell.refs := L.refs_pos htask (fun pc heq => by cases heq)
  have K := A.tasks t
  rw [htask] at K
  obtain ⟨A', K'⟩ := run_loop ok id k ((lived hr).engine hrefs) (K.ahead _ rfl)
  obtain ⟨hops, -, hothers⟩ := L.sole_receiver htask Nat.one_pos
  obtain ⟨hknow, hroom⟩ := readers_of_idle e.received
    (run_ops_idle ok (.recv id (.loop k)) hops rfl (fun e heq => by cases heq))
  constructor
  · have hfront := A'.front
    rwa [List.filterMap_some] at hfront
  · refine readers_after K' fun u hu => ?_
    obtain ⟨hbefore, hreads⟩ := stage_of_weigh (hothers u hu)
    exact .nothing hbefore (hreads _)
  · exact hknow
  · exact hroom

/-- A step outside of the loop. -/
theorem Reading.run (A : Reading e) (hr : Reachable system e.sys) {t : T} {task : Task} (ok : Bool)
    (htask : e.sys.tasks t = some task) (hloop : ∀ id k, task ≠ .recv id (.loop k)) :
    Reading ⟨e.sys.after t (task.run ok e.sys.cell), e.received, e.dispatched⟩ := by
  obtain ⟨L, -⟩ := lawful hr
  have K := A.tasks t
  rw [htask] at K
  have hside := quiet_or_sole L htask ok
  -- an operation that has the buffer had it before, and nobody has touched it; or it was posted now
  have hop : ∀ op ∈ (task.run ok e.sys.cell).1.ops, ∀ rb,
      op.reads (task.run ok e.sys.cell).1.recvBuf = some rb →
      ((task.run ok e.sys.cell).1.recvBuf = e.sys.cell.recvBuf ∧ ∃ o ∈ e.sys.cell.ops,
        o.reads e.sys.cell.recvBuf = some rb ∧ (op.done = none → op.room = o.room ∧ o.done = none)) ∨
      (task.run ok e.sys.cell).1.recvBuf = e.sys.cell.recvBuf ∧ task.stage.waits = true ∧
        task.stage.reads e.sys.cell.recvBuf = some rb ∧ op.room = e.sys.cell.window := by
    intro op hop rb hrb
    rcases run_reads_op hop hrb with ⟨o, ho, horb, hroom⟩ | ⟨⟨pc, hpc⟩, rfl, hroom⟩
    · rcases hside with Q | ⟨hops, -⟩
      · rw [Q.recvBuf] at horb
        exact .inl ⟨Q.recvBuf, o, ho, horb, hroom⟩
      · exact absurd (horb.symm.trans ((op_of_lostRecvs (hops o ho)).2 _)) (Option.some_ne_none rb)
    · obtain ⟨hreads, hbuf⟩ := run_recvAsync hpc ok e.sys.cell
      rw [hbuf]
      refine .inr ⟨rfl, ?_, hreads, hroom⟩
      rcases stage_of_recv hpc with hp | ⟨e', hp⟩ <;> rw [hp] <;> rfl
  constructor
  · exact A.read
  · refine readers_after (K.run hloop) fun u hu => ?_
    rcases hside with Q | ⟨-, hothers⟩
    · rw [Q.recvBuf]
      exact A.tasks u
    · obtain ⟨hbefore, hreads⟩ := stage_of_weigh (hothers u hu)
      exact .nothing hbefore (hreads _)
  · intro op hmem
    constructor
    · intro hearly
      rcases run_early_op hmem hearly with ⟨o, ho, hoearly⟩ | ⟨e', hcoming⟩
      · exact (A.ops o ho).start hoearly
      · exact K.start (by rw [show stageOf (some task) = .coming e' from hcoming]; rfl)
    · intro rb hrb
      rcases hop op hmem rb hrb with ⟨-, o, ho, horb, -⟩ | ⟨-, -, hreads, -⟩
      · exact (A.ops o ho).ahead rb horb
      · exact K.ahead rb hreads
    · intro hdone rb hrb
      rcases hop op hmem rb hrb with ⟨-, o, ho, horb, hsame⟩ | ⟨-, hwaits, hreads, -⟩
      · obtain ⟨-, hodone⟩ := hsame (Option.isNone_iff_eq_none.mp hdone)
        exact (A.ops o ho).still (Option.isNone_iff_eq_none.mpr hodone) rb horb
      · exact K.still hwaits rb hreads
  · intro op hmem rb hrb hdone
    show op.room ≤ (task.run ok e.sys.cell).1.recvBuf.getFreeSize
    rcases hop op hmem rb hrb with ⟨hbuf, o, ho, horb, hsame⟩ | ⟨hbuf, -, -, hroom⟩
    · obtain ⟨hroom, hodone⟩ := hsame hdone
      rw [hbuf, hroom]
      exact A.room o ho rb horb hodone
    · rw [hbuf, hroom]
      exact Nat.le_refl _

/-- The system completes an operation. -/
theorem Reading.complete (A : Reading e) (hr : Reachable system e.sys) {op : Op} {chunk : List UInt8}
    (hmem : op ∈ e.sys.cell.ops) (hdone : op.done = none) (hroom : chunk.length ≤ op.room) : Reading
      ⟨{ e.sys with cell := e.sys.cell.complete op chunk },
        e.received ++ (if op.operation = .recv then chunk else []), e.dispatched⟩ := by
  obtain ⟨L, -⟩ := lawful hr
  have K := A.ops op hmem
  by_cases hkind : op.operation = .recv
  · obtain ⟨hops, hworkers⟩ := L.sole_op hmem hkind
    have hreads : op.reads e.sys.cell.recvBuf = some e.sys.cell.recvBuf := by
      unfold Op.reads
      rw [hkind, hdone]
    have hfree : chunk.length ≤ e.sys.cell.recvBuf.getFreeSize :=
      hroom.trans (A.room op hmem _ hreads hdone)
    have hbuf : (e.sys.cell.complete op chunk).recvBuf = e.sys.cell.recvBuf.fillWindows chunk :=
      if_pos hkind
    rw [if_pos hkind]
    constructor
    · exact A.read.trans (Grammar.frames_append e.received chunk)
    · intro t
      obtain ⟨hbefore, hnone⟩ := stage_of_weigh (hworkers t)
      exact .nothing hbefore (hnone _)
    · intro o ho
      rcases List.mem_cons.mp ho with rfl | ho
      · refine ⟨fun hearly => ?_, fun rb hrb => ?_, nofun⟩
        · have hearly : op.early = true := hearly
          unfold Op.early at hearly
          rw [hkind] at hearly
          cases hearly
        · have hrb : Op.reads (e.sys.cell.complete op chunk).recvBuf
              { op with done := some chunk.length } = some rb := hrb
          rw [hbuf] at hrb
          rw [contents_of_complete hfree hrb]
          exact (K.ahead _ hreads).arrive chunk
      · obtain ⟨hearly, hnone⟩ := op_of_lostRecvs (hops o ho)
        exact .nothing hearly (hnone _)
    · intro o ho rb hrb hnot
      rcases List.mem_cons.mp ho with rfl | ho
      · cases hnot
      · have hnone := (op_of_lostRecvs (hops o ho)).2
        exact absurd (hrb.symm.trans (hnone _)) (Option.some_ne_none rb)
  · have hbuf : (e.sys.cell.complete op chunk).recvBuf = e.sys.cell.recvBuf := if_neg hkind
    have hnone : ∀ n rb, Op.reads rb { op with done := some n } = none := by
      intro n rb
      obtain ⟨id, operation, wsa, room, done⟩ := op
      cases operation with
      | recv => exact absurd rfl hkind
      | send | accept | connect => rfl
    rw [if_neg hkind, List.append_nil]
    constructor
    · exact A.read
    · intro t
      have Kt := A.tasks t
      rw [← hbuf] at Kt
      exact Kt
    · intro o ho
      rcases List.mem_cons.mp ho with rfl | ho
      · refine ⟨K.start, fun rb hrb => ?_, nofun⟩
        exact absurd (hrb.symm.trans (hnone _ _)) (Option.some_ne_none rb)
      · have Ko := A.ops o (List.mem_of_mem_erase ho)
        rw [← hbuf] at Ko
        exact Ko
    · intro o ho rb hrb hnot
      rcases List.mem_cons.mp ho with rfl | ho
      · cases hnot
      · have hrb : o.reads (e.sys.cell.complete op chunk).recvBuf = some rb := hrb
        show o.room ≤ (e.sys.cell.complete op chunk).recvBuf.getFreeSize
        rw [hbuf] at hrb ⊢
        exact A.room o (List.mem_of_mem_erase ho) rb hrb hnot

end Steps

/-! ## Every run -/

/-- **The run lemma.** -/
theorem reading [Fintype T] {e : Endpoint T} (h : Reachable endpointSystem e) : Reading e := by
  apply h.invariant (I := Reading)
  · rintro ⟨s, received, dispatched⟩ ⟨⟨eng, mem, b, hb, t, hs⟩, hreceived, hout⟩
    obtain rfl : received = [] := hreceived
    obtain rfl : dispatched = [] := hout
    obtain rfl : s = .new eng (.new mem b hb) t := hs
    refine ⟨List.nil_prefix, fun u => ?_, fun op hop => absurd hop List.not_mem_nil,
      fun op hop => absurd hop List.not_mem_nil⟩
    have hreads : ∀ rb, (stageOf ((Sys.new eng (.new mem b hb) t).tasks u)).reads rb = none :=
      Sys.forall_new (P := fun o => ∀ rb, (stageOf o).reads rb = none) (fun rb => rfl) (fun rb => rfl) u
    refine ⟨fun _ => ⟨rfl, rfl⟩, fun rb hrb => ?_, fun _ rb hrb => ?_⟩
    · exact absurd (hrb.symm.trans (hreads _)) (Option.some_ne_none rb)
    · exact absurd (hrb.symm.trans (hreads _)) (Option.some_ne_none rb)
  · intro e e' hreach A hnext
    have hr := endpoint_projects.reachable hreach
    rcases endpoint_does hnext with ⟨t, r, hdoes, rfl⟩ | ⟨op, chunk, hmem, hdone, hroom, rfl⟩
    · generalize hpre : e.sys.tasks t = pre at hdoes
      cases hdoes with
      | sendPacket m hpub hrefs =>
        rw [show (cutOff e.sys.cell none).toList = [] from rfl, List.append_nil]
        exact A.enter _ rfl
      | disconnect hpub hrefs =>
        rw [show (cutOff e.sys.cell none).toList = [] from rfl, List.append_nil]
        exact A.enter _ rfl
      | take hmem hdone =>
        rw [show (cutOff e.sys.cell none).toList = [] from rfl, List.append_nil]
        exact A.take hmem hdone
      | run task ok =>
        by_cases hloop : ∃ id k, task = .recv id (.loop k)
        · obtain ⟨id, k, rfl⟩ := hloop
          exact A.loop hr ok hpre
        · have hother : ∀ id k, task ≠ .recv id (.loop k) := fun id k heq => hloop ⟨id, k, heq⟩
          rw [cutOff_eq_none _ hother, Option.toList_none, List.append_nil]
          exact A.run hr ok hpre hother
    · exact A.complete hr hmem hdone hroom

/-- **Framing on a running session.**  Whatever its workers and callers do, the packets passed to
    `OnPacketReceived` are the first of those that the reference decoder reads in the bytes received;
    and while a receive is outstanding, they are all of them. -/
theorem session_framing [Fintype T] {e : Endpoint T} (h : Reachable endpointSystem e) :
    e.dispatched <+: packetGrammar.frames e.received ∧
      ∀ op ∈ e.sys.cell.outstanding .recv, op.done = none →
        e.dispatched = packetGrammar.frames e.received := by
  have A := reading h
  refine ⟨A.read, fun op hop hdone => ?_⟩
  obtain ⟨hmem, hkind⟩ := List.mem_filter.mp hop
  have hreads : op.reads e.sys.cell.recvBuf = some e.sys.cell.recvBuf := by
    unfold Op.reads
    rw [of_decide_eq_true hkind, hdone]
  have K := A.ops op hmem
  have hall := K.ahead _ hreads []
  have hstop := Grammar.read_stop (K.still (Option.isNone_iff_eq_none.mpr hdone) _ hreads)
  rw [List.append_nil, List.append_nil, List.filterMap_some, List.filterMap_some, hstop.1,
    List.append_nil] at hall
  exact hall.symm

/-- A session of a server with nothing received yet. -/
def endpoint (t : T) : Endpoint T := ⟨served t, [], []⟩

theorem endpoint_init [Fintype T] (t : T) : (endpointSystem : System (Endpoint T)).init (endpoint t) :=
  ⟨served_init t, rfl, rfl⟩

theorem endpoint_next (e : Endpoint T) (a : Act T) (e' : Endpoint T) (h : e.step a = some e') :
    (endpointSystem : System (Endpoint T)).next e e' := ⟨a, h⟩

/-- A packet arrives, and the first byte of the next; then the receive is outstanding again. -/
def onePacket (t : T) : List (Act T) :=
  accepting t ++ .complete (recvOp 1 8191) [9, 0, 0, 0, 7, 0, 0, 0, 42, 8] ::
    .take t { recvOp 1 8191 with done := some 10 } :: goes t 8

theorem session_framing_one : ∃ e : Endpoint Unit, Reachable endpointSystem e ∧
    e.dispatched = [⟨7, [42]⟩] ∧ e.dispatched = packetGrammar.frames e.received := by
  obtain ⟨e, hr, hp⟩ := exists_reachable_of_exec (endpoint_init ()) endpoint_next (onePacket ())
    (fun e => decide (e.dispatched = [⟨7, [42]⟩] ∧ recvOp 2 8190 ∈ e.sys.cell.outstanding .recv))
    (by decide +kernel)
  obtain ⟨hout, hmem⟩ := of_decide_eq_true hp
  exact ⟨e, hr, hout, (session_framing hr).2 _ hmem rfl⟩

end JunCore.SessionSteps
