/-
  `StressClient/StressClient.h` and `StressClient.cpp`: a session of the stress client.

  Each session has a thread of its own, the `SessionWorker`.  It puts a message into `sentMessages`, then
  calls `SendPacket` with the request; `HandleEchoResponse` takes a message from the queue for every
  response and compares the two.  Nobody else sends.  So the requests enter the send queue in the order of
  the messages, and none is left out, until the session is disconnecting (`InTurn`).

  The slot of a session is found by its `User` once `OnConnectComplete` has been called.  The worker ends
  when `SendPacket` returns false; here it may go on, and what it sends then is refused, too.  What follows
  `OnUserDisconnect` is another session.
-/
import JunCore.EchoServer.EchoOrder
import JunCore.Network.Endpoint

set_option linter.unusedVariables false
set_option linter.unusedSectionVars false

namespace JunCore.EchoServer

open Function Transition Framing Network SessionSteps

/-! ## The messages -/

def MESSAGE_MIN_SIZE : Nat := 10

def MESSAGE_MAX_SIZE : Nat := 100

/-- What `GenerateRandomMessage` may return: so many characters from `'A'` to `'Z'`. -/
def Generated (message : List UInt8) : Prop :=
  MESSAGE_MIN_SIZE ≤ message.length ∧ message.length ≤ MESSAGE_MAX_SIZE ∧
    ∀ c ∈ message, 65 ≤ c ∧ c ≤ 90

instance : DecidablePred Generated := fun message =>
  have hletters : Decidable (∀ c ∈ message, 65 ≤ c ∧ c ≤ 90) :=
    @List.decidableBAll _ _ (fun c => @instDecidableAnd _ _ (UInt8.decLe 65 c) (UInt8.decLe c 90)) message
  @instDecidableAnd _ _ (Nat.decLe _ _) (@instDecidableAnd _ _ (Nat.decLe _ _) hletters)

/-- The request and the response with this message. -/
def EchoType.of (message : List UInt8) : (t : EchoType) → t.Msg
  | .request => ({ message := message } : EchoRequest)
  | .response => ({ message := message } : EchoResponse)

/-- A request, as `SendPacket` is called with it. -/
def EchoProtocol.toAsk (P : EchoProtocol) (message : List UInt8) : Message where
  packet := (P.message .request (EchoType.request.of message)).packet
  serializes := (P.message .request (EchoType.request.of message)).serializes

/-! ## The two streams -/

section Streams

variable {P : EchoProtocol}

/-- The messages of a type in these packets. -/
def messagesIn (P : EchoProtocol) (t : EchoType) (packets : List Packet) : List t.Msg :=
  packets.filterMap fun p => if P.packetId t = UInt32.ofNat p.id then P.parse t p.payload else none

end Streams

/-! ## The client -/

/-- `HandleEchoResponse`, when the slot is found: `sentMessages` after the `Dequeue`, and whether the
    response is the one expected. -/
def handleEchoResponse (sentMessages : List (List UInt8)) (response : EchoResponse) :
    List (List UInt8) × Bool :=
  match sentMessages with
  | [] => ([], false)
  | expected :: rest => (rest, expected == response.message)

/-- `RegisterPacketHandlers`. -/
def stressHandlers : List (Registration EchoType.Msg Unit EchoResponse) :=
  [⟨.response, fun _ response => response⟩]

/-- A session of the client. -/
structure Stress (T : Type) where
  /-- `none` is the `SessionWorker`, `some t` any other thread -/
  session : Endpoint (Option T)
  sentMessages : List (List UInt8)
  /-- the message that is in the queue, but `SendPacket` has not been called with it yet -/
  request : Option (List UInt8)
  /-- whether an assertion of `HandleEchoResponse` has failed -/
  failed : Bool
  /-- all messages so far -/
  messages : List (List UInt8)

inductive StressAct (T : Type)
  /-- `sentMessages.Enqueue(message)` -/
  | enqueue (message : List UInt8)
  /-- `user->SendPacket(request)` -/
  | sendPacket
  /-- any other step: `Disconnect`, or of another thread, or of the system -/
  | session (a : Act (Option T))

variable {T : Type} [DecidableEq T]

/-- Whether this step may come.  Between `Enqueue` and `SendPacket` the `SessionWorker` does nothing else,
    and it does not take completions. -/
def Stress.allows (e : Stress T) : Act (Option T) → Bool
  | .sendPacket _ _ | .take none _ => false
  | .disconnect none => e.request.isNone
  | _ => true

/-- The response that `HandleEchoResponse` is called with in this step. -/
def Stress.response (P : EchoProtocol) (e : Stress T) (a : Act (Option T)) : Option EchoResponse :=
  (e.session.takes a).bind
    (onPacketReceived (registerAll P stressHandlers) (if e.session.sys.cell.ownerUser then some () else none))

/-- `HandleEchoResponse`. -/
def Stress.handle (e : Stress T) : Option EchoResponse → Stress T
  | none => e
  | some response =>
    -- `FindSessionData`
    if e.session.sys.cell.published then
      { e with
        sentMessages := (handleEchoResponse e.sentMessages response).1
        failed := e.failed || !(handleEchoResponse e.sentMessages response).2 }
    else { e with failed := true }

/-- A step of the client; `none` when it cannot be taken. -/
def Stress.step (P : EchoProtocol) (e : Stress T) : StressAct T → Option (Stress T)
  | .enqueue message =>
    if Generated message ∧ e.session.sys.cell.published = true ∧ e.request = none ∧
        (e.session.sys.tasks none).isNone then
      some { e with
        sentMessages := e.sentMessages ++ [message]
        request := some message
        messages := e.messages ++ [message] }
    else none
  | .sendPacket =>
    -- if the `weak_ptr` cannot be locked, there is nobody to send to
    e.request.map fun message =>
      { e with
        session := (e.session.step (.sendPacket none (P.toAsk message))).getD e.session
        request := none }
  | .session a =>
    if e.allows a then
      (e.session.step a).map fun session => { e.handle (e.response P a) with session := session }
    else none

/-- **All runs of a session of the client**, from `PostConnectEx` on. -/
def stressClient (P : EchoProtocol) : System (Stress T) where
  init e := ∃ mem b h t, e = ⟨⟨.new .client (.new mem b h) (some t), [], []⟩, [], none, false, []⟩
  next e e' := ∃ a, e.step P a = some e'

/-- The handler touches nothing else. -/
theorem handle_frame (e : Stress T) (r : Option EchoResponse) : (e.handle r).session = e.session ∧
    (e.handle r).request = e.request ∧ (e.handle r).messages = e.messages := by
  cases r with
  | none => exact ⟨rfl, rfl, rfl⟩
  | some response =>
    simp only [Stress.handle]
    split <;> exact ⟨rfl, rfl, rfl⟩

/-- **What may happen next.** -/
inductive Stresses (P : EchoProtocol) (e : Stress T) : Stress T → Prop
  | enqueue {message : List UInt8} (hgenerated : Generated message)
      (hpub : e.session.sys.cell.published = true) (hrequest : e.request = none)
      (hidle : e.session.sys.tasks none = none) :
      Stresses P e { e with
        sentMessages := e.sentMessages ++ [message]
        request := some message
        messages := e.messages ++ [message] }
  | sendPacket {message : List UInt8} (hrequest : e.request = some message) :
      Stresses P e { e with
        session := (e.session.step (.sendPacket none (P.toAsk message))).getD e.session
        request := none }
  | session {a : Act (Option T)} {session : Endpoint (Option T)} (hallows : e.allows a = true)
      (hstep : e.session.step a = some session) :
      Stresses P e { e.handle (e.response P a) with session := session }

theorem step_stresses {P : EchoProtocol} {e e' : Stress T} (h : (stressClient P).next e e') :
    Stresses P e e' := by
  obtain ⟨a, h⟩ := h
  cases a with
  | enqueue message =>
    simp only [Stress.step] at h
    split at h
    · rename_i hok
      rw [← Option.some.inj h]
      exact .enqueue hok.1 hok.2.1 hok.2.2.1 (Option.isNone_iff_eq_none.mp hok.2.2.2)
    · cases h
  | sendPacket =>
    obtain ⟨message, hrequest, rfl⟩ := Option.map_eq_some_iff.mp h
    exact .sendPacket hrequest
  | session a =>
    simp only [Stress.step] at h
    split at h
    · rename_i hallows
      obtain ⟨session, hsession, rfl⟩ := Option.map_eq_some_iff.mp h
      exact .session hallows hsession
    · cases h

/-- Steps of the client are steps of a session. -/
theorem stress_projects (P : EchoProtocol) :
    Projection (stressClient P) endpointSystem (Stress.session (T := T)) where
  init e h := by
    obtain ⟨mem, b, h, t, rfl⟩ := h
    exact ⟨⟨_, _, _, _, _, rfl⟩, rfl, rfl⟩
  next e e' h := by
    cases step_stresses h with
    | enqueue => exact .inl rfl
    | @sendPacket message hrequest =>
      cases hs : e.session.step (.sendPacket none (P.toAsk message)) with
      | none => exact .inl rfl
      | some session => exact .inr ⟨_, hs⟩
    | session hallows hstep => exact .inr ⟨_, hstep⟩

/-! ## The requests enter in turn -/

/-- **The requests keep step with the messages.**  What has entered the send queue are the first of them,
    and all of them but what the `SessionWorker` still owes, as long as the session is referenced. -/
structure InTurn (P : EchoProtocol) (s : Sys (Option T)) (messages : List (List UInt8))
    (request : Option (List UInt8)) : Prop where
  entered : s.cell.entered.map (·.bytes) <+: (messages.map P.toAsk).map fun m => encode m.packet
  owes : 0 < s.cell.refs → Owes s.cell (messages.map P.toAsk) (request.map P.toAsk) (s.tasks none)
  worker : request ≠ none → s.tasks none = none
  others : ∀ t, isTask isCall (s.tasks (some t)) = false
  start : s.cell.published = false → messages = [] ∧ request = none
  generated : ∀ message ∈ messages, Generated message

/-- Who is not in `SendPacket` and is not to call it owes nothing. -/
theorem owes_iff {c : Cell} {out : List Message} {inner : Option Task} (h : isTask isCall inner = false) :
    Owes c out none inner ↔ Settled c out := by
  cases inner with
  | none => exact Iff.rfl
  | some task =>
    cases task with
    | sendPacket pc => cases h
    | _ => exact Iff.rfl

section Steps

variable [Fintype T] {P : EchoProtocol} {s s' : Sys (Option T)} {messages : List (List UInt8)}
  {request : Option (List UInt8)}

/-- Before the `User` is published there is nothing to keep. -/
theorem InTurn.early (hr : Reachable system s) (hpub : s.cell.published = false) :
    InTurn P s [] none := by
  obtain ⟨B, hlate⟩ := blank_reachable hr hpub
  have hcalls : ∀ t, isTask isCall (s.tasks t) = false := by
    intro t
    have hlate := hlate t
    cases htask : s.tasks t with
    | none => rfl
    | some task =>
      rw [htask] at hlate
      cases task with
      | sendPacket pc => cases hlate
      | _ => rfl
  refine ⟨?_, fun hrefs => (owes_iff (hcalls none)).mpr (.inl ?_), fun h => absurd rfl h,
    fun t => hcalls (some t), fun _ => ⟨rfl, rfl⟩, fun message hmem => absurd hmem List.not_mem_nil⟩
  · rw [B.entered]
    exact List.nil_prefix
  · unfold Sent
    rw [B.entered]
    rfl

/-- A step that sends nothing, while the `SessionWorker` stays where it is. -/
theorem InTurn.keep (A : InTurn P s messages request) (hentered : s'.cell.entered = s.cell.entered)
    (hrefs : 0 < s'.cell.refs → 0 < s.cell.refs ∧
      (s.cell.pendingDisconnect = true → s'.cell.pendingDisconnect = true))
    (hpub : s'.cell.published = false → s.cell.published = false) (hworker : s'.tasks none = s.tasks none)
    (hothers : ∀ t, isTask isCall (s'.tasks (some t)) = false) : InTurn P s' messages request where
  entered := by
    rw [hentered]
    exact A.entered
  owes h := by
    obtain ⟨hbefore, hpending⟩ := hrefs h
    rw [hworker]
    exact (A.owes hbefore).keep hentered hpending
  worker h := hworker.trans (A.worker h)
  others := hothers
  start h := A.start (hpub h)
  generated := A.generated

/-- A step of a thread, other than in `Set` or in the destructor, takes back no `Disconnect`. -/
theorem run_pends (hr : Reachable system s) {t : Option T} {task : Task} (htask : s.tasks t = some task)
    {ok : Bool} (hpub : (task.run ok s.cell).1.published = true) (hrefs : 0 < (task.run ok s.cell).1.refs) :
    0 < s.cell.refs ∧ (s.cell.pendingDisconnect = true → (task.run ok s.cell).1.pendingDisconnect = true) := by
  obtain ⟨L, -⟩ := lawful hr
  have hbefore := L.refs_run htask hrefs
  refine ⟨hbefore, ?_⟩
  cases hsets : task.phase.sets with
  | false => exact (run_sendStep ok s.cell task).pending hsets
  | true =>
    rcases setting hr htask hsets with ⟨pc, rfl⟩ | ⟨-, hunpub⟩
    · have := (L.destroying htask).1
      omega
    · rw [hunpub ok] at hpub
      cases hpub

/-- A step of another thread. -/
theorem InTurn.other (A : InTurn P s messages request) (hr : Reachable system s) {t : T} {task : Task}
    (htask : s.tasks (some t) = some task) (ok : Bool)
    (hpub : (task.run ok s.cell).1.published = true) :
    InTurn P (s.after (some t) (task.run ok s.cell)) messages request := by
  have hcall : isCall task = false := by
    have hcall := A.others t
    rwa [htask] at hcall
  refine A.keep (run_entered ok s.cell fun b heq => ?_) (run_pends hr htask hpub) (fun h => ?_)
    (after_ne (Option.some_ne_none t).symm) fun u => ?_
  · rw [heq] at hcall
    cases hcall
  · rw [show (task.run ok s.cell).1.published = false from h] at hpub
    cases hpub
  · by_cases hu : u = t
    · subst hu
      rw [after_self]
      exact run_isCall ok s.cell hcall
    · rw [after_ne fun heq => hu (Option.some.inj heq)]
      exact A.others u

/-- A step of the `SessionWorker`. -/
theorem InTurn.own (A : InTurn P s messages request) (hr : Reachable system s) {task : Task}
    (htask : s.tasks none = some task) (ok : Bool)
    (hpub : (task.run ok s.cell).1.published = true) :
    InTurn P (s.after none (task.run ok s.cell)) messages request := by
  obtain ⟨L, -⟩ := lawful hr
  obtain rfl : request = none := by
    by_contra hrequest
    rw [A.worker hrequest] at htask
    cases htask
  have hsame : ∀ t, isTask isCall ((s.after none (task.run ok s.cell)).tasks (some t)) = false := by
    intro t
    rw [after_ne (Option.some_ne_none t)]
    exact A.others t
  have hstart : (task.run ok s.cell).1.published = false →
      messages = [] ∧ (none : Option (List UInt8)) = none := by
    intro h
    rw [hpub] at h
    cases h
  cases hcall : isCall task with
  | true =>
    obtain ⟨pc, rfl⟩ : ∃ pc, task = .sendPacket pc := by
      cases task with
      | sendPacket pc => exact ⟨pc, rfl⟩
      | _ => cases hcall
    have hrefs := L.refs_pos htask fun pc heq => by cases heq
    have O := A.owes hrefs
    rw [htask] at O
    refine ⟨sent_of_run O A.entered, fun hrefs' => ?_, fun h => absurd rfl h, hsame, hstart, A.generated⟩
    rw [after_self]
    refine owes_run O (.inl ⟨pc, rfl⟩) ((lived hr).sock hrefs) (fun m hm => ?_)
      (run_pends hr htask hpub hrefs').2 fun next hnext => ?_
    · obtain ⟨message, -, rfl⟩ := List.mem_map.mp hm
      rfl
    · have hnext : (sendPacket ok s.cell pc).2 = some next := hnext
      rcases sendPacket_next ok s.cell pc with ⟨pc', hpc'⟩ | hunlock
      · rw [hpc'] at hnext
        exact .inl ⟨pc', (Option.some.inj hnext).symm⟩
      · rw [hunlock] at hnext
        exact .inr (Option.some.inj hnext).symm
  | false =>
    have hentered : (task.run ok s.cell).1.entered = s.cell.entered := by
      refine run_entered ok s.cell fun b heq => ?_
      rw [heq] at hcall
      cases hcall
    refine ⟨?_, fun hrefs => ?_, fun h => absurd rfl h, hsame, hstart, A.generated⟩
    · show (task.run ok s.cell).1.entered.map (·.bytes) <+: _
      rw [hentered]
      exact A.entered
    · obtain ⟨hbefore, hpending⟩ := run_pends hr htask hpub hrefs
      have O := A.owes hbefore
      rw [htask] at O
      have hidle : isTask isCall (some task) = false := hcall
      rw [after_self]
      exact (owes_iff (run_isCall ok s.cell hcall)).mpr
        (((owes_iff hidle).mp O).keep hentered hpending)

/-- The `SessionWorker` puts a message into its queue. -/
theorem InTurn.enqueue (A : InTurn P s messages none) {message : List UInt8}
    (hgenerated : Generated message) (hpub : s.cell.published = true) (hidle : s.tasks none = none) :
    InTurn P s (messages ++ [message]) (some message) where
  entered := by
    rw [List.map_append, List.map_append]
    exact A.entered.trans (List.prefix_append _ _)
  owes hrefs := by
    have O := A.owes hrefs
    rw [hidle] at O
    exact ⟨messages.map P.toAsk, List.map_append, O⟩
  worker _ := hidle
  others := A.others
  start h := by
    rw [hpub] at h
    cases h
  generated m hm := by
    rcases List.mem_append.mp hm with hold | hnew
    · exact A.generated m hold
    · rw [List.mem_singleton.mp hnew]
      exact hgenerated

/-- It calls `SendPacket`, or finds that there is no session. -/
theorem InTurn.call {message : List UInt8} (A : InTurn P s messages (some message)) :
    InTurn P ((step s (.sendPacket none (P.toAsk message))).getD s) messages none := by
  have hidle := A.worker (Option.some_ne_none message)
  cases hpub : s.cell.published with
  | false => cases (A.start hpub).2
  | true =>
    simp only [step]
    split
    · rename_i hreach
      obtain ⟨-, -, hrefs⟩ := Sys.reaches_iff.mp hreach
      refine ⟨A.entered, fun _ => ?_, fun h => absurd rfl h, fun t => ?_, fun h => ?_, A.generated⟩
      · show Owes _ _ none ((s.after none _).tasks none)
        rw [after_self]
        exact A.owes hrefs
      · show isTask isCall ((s.after none _).tasks (some t)) = false
        rw [after_ne (Option.some_ne_none t)]
        exact A.others t
      · rw [show s.cell.published = false from h] at hpub
        cases hpub
    · rename_i hreach
      have hzero : ¬ 0 < s.cell.refs := fun hrefs => hreach (Sys.reaches_iff.mpr ⟨hidle, hpub, hrefs⟩)
      refine ⟨A.entered, fun hrefs => absurd hrefs hzero, fun h => absurd rfl h, A.others, fun h => ?_,
        A.generated⟩
      rw [show s.cell.published = false from h] at hpub
      cases hpub

/-- A thread begins something that is not `SendPacket`. -/
theorem InTurn.begins (A : InTurn P s messages request) {t : Option T} {r : Cell × Option Task}
    (hidle : s.tasks t = none) (hrequest : t = none → request = none) (hcell : r.1.entered = s.cell.entered)
    (hrefs : 0 < r.1.refs → 0 < s.cell.refs) (hpending : r.1.pendingDisconnect = s.cell.pendingDisconnect)
    (hpub : r.1.published = s.cell.published) (hcall : isTask isCall r.2 = false) :
    InTurn P (s.after t r) messages request := by
  have hentered : r.1.entered.map (·.bytes) <+: (messages.map P.toAsk).map fun m => encode m.packet := by
    rw [hcell]
    exact A.entered
  have hothers : ∀ u, isTask isCall ((s.after t r).tasks (some u)) = false := by
    intro u
    by_cases hu : some u = t
    · rw [hu, after_self]
      exact hcall
    · rw [after_ne hu]
      exact A.others u
  have hstart : r.1.published = false → messages = [] ∧ request = none := fun h => A.start (hpub ▸ h)
  refine ⟨hentered, fun h => ?_, fun h => ?_, hothers, hstart, A.generated⟩
  · have O := (A.owes (hrefs h)).keep hcell fun h => hpending.trans h
    by_cases ht : t = none
    · subst ht
      rw [hidle, hrequest rfl] at O
      rw [hrequest rfl, after_self]
      exact (owes_iff hcall).mpr O
    · rw [after_ne (Ne.symm ht)]
      exact O
  · rw [after_ne fun heq => h (hrequest heq.symm)]
    exact A.worker h

/-- A step that the `SessionWorker` does not take for itself. -/
theorem InTurn.session {e : Stress T} (A : InTurn P e.session.sys messages e.request)
    (hr : Reachable system e.session.sys) {a : Act (Option T)} (hallows : e.allows a = true)
    (hstep : step e.session.sys a = some s') : InTurn P s' messages e.request := by
  have hr' : Reachable system s' := hr.step ⟨a, hstep⟩
  cases a with
  | sendPacket t m => cases hallows
  | disconnect t =>
    simp only [step] at hstep
    split at hstep
    · rename_i hreach
      obtain ⟨hidle, -, hrefs⟩ := Sys.reaches_iff.mp hreach
      rw [← Option.some.inj hstep]
      refine A.begins hidle (fun ht => ?_) rfl (fun _ => hrefs) rfl rfl rfl
      subst ht
      exact Option.isNone_iff_eq_none.mp hallows
    · cases hstep
  | take t op =>
    simp only [step] at hstep
    split at hstep
    · rename_i n hidle hdone
      split at hstep
      · rw [← Option.some.inj hstep]
        refine A.begins hidle (fun ht => ?_) rfl id rfl rfl (handler_isCall op n)
        subst ht
        cases hallows
      · cases hstep
    · cases hstep
  | go t ok =>
    obtain ⟨task, htask, rfl⟩ := step_go hstep
    cases hpub : (task.run ok e.session.sys.cell).1.published with
    | false =>
      -- then it was not published before, either
      obtain ⟨rfl, hrequest⟩ := A.start (published_mono (.run task ok) hpub)
      rw [hrequest]
      exact .early hr' hpub
    | true =>
      cases t with
      | none => exact A.own hr htask ok hpub
      | some t => exact A.other hr htask ok hpub
  | complete op chunk =>
    simp only [step] at hstep
    split at hstep
    · rw [← Option.some.inj hstep]
      exact A.keep rfl (fun h => ⟨h, id⟩) id rfl A.others
    · cases hstep

end Steps

/-- **The run lemma.** -/
theorem inTurn [Fintype T] {P : EchoProtocol} {e : Stress T} (h : Reachable (stressClient P) e) :
    InTurn P e.session.sys e.messages e.request := by
  apply h.invariant (I := fun e : Stress T => InTurn P e.session.sys e.messages e.request)
  · rintro _ ⟨mem, b, hb, t, rfl⟩
    exact .early (.start ⟨_, _, _, _, _, rfl⟩) rfl
  · intro e e' hreach A hnext
    have hr := endpoint_projects.reachable ((stress_projects P).reachable hreach)
    cases step_stresses hnext with
    | enqueue hgenerated hpub hrequest hidle =>
      rw [hrequest] at A
      exact A.enqueue hgenerated hpub hidle
    | @sendPacket message hrequest =>
      rw [hrequest] at A
      have hsys : ((e.session.step (.sendPacket none (P.toAsk message))).getD e.session).sys
          = (step e.session.sys (.sendPacket none (P.toAsk message))).getD e.session.sys := by
        unfold Endpoint.step
        cases step e.session.sys (.sendPacket none (P.toAsk message)) <;> rfl
      show InTurn P ((e.session.step (.sendPacket none (P.toAsk message))).getD e.session).sys _ none
      rw [hsys]
      exact A.call
    | session hallows hstep =>
      obtain ⟨s', hs', rfl⟩ := Option.map_eq_some_iff.mp hstep
      obtain ⟨-, hrequest, hmessages⟩ := handle_frame e (e.response P _)
      show InTurn P s' (e.handle _).messages (e.handle _).request
      rw [hrequest, hmessages]
      exact A.session hr hallows hs'

end JunCore.EchoServer
