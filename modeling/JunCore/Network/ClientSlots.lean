/-
  `Client.cpp`, `HandleConnectComplete` and `~Session`: where a client's connections are.

  A client is to have `targetConnectionCount_` connections.  Each of them is a slot: yet to be posted by
  `StartClient`, with an outstanding `ConnectEx`, a live session, counted in `pendingConnectCount_`, or in
  the batch that the reconnect thread works off.

  The slot is handed on by whoever loses it: `TriggerReconnect` in the failed completion and in
  `OnUserDisconnect`.  A `PostConnectEx` that returns false hands it on to nobody: neither loop looks at
  what it returns, and the reconnect thread takes the whole batch off the count (`refused_connect`).

  A client is started once, again only if that has failed, and stopped once.  The sleep of the reconnect
  thread is a pause between two steps.
-/
import JunCore.Lib.Counting
import JunCore.Lib.Transition

set_option linter.unusedVariables false
set_option linter.unusedSectionVars false

namespace JunCore.ClientSlots

open Transition Function Counting

/-! ## The program -/

/-- Where a thread is in `PostConnectEx`. -/
inductive PostPc
  | checkFn
  | socket
  | bind
  | registerSocket
  | inetPton
  | connectEx
  deriving DecidableEq

/-- The next step of `PostConnectEx`: on, or what it returns.  `ok` is what the system call says. -/
def PostPc.step (fnConnectEx ok : Bool) : PostPc → PostPc ⊕ Bool
  | .checkFn => if fnConnectEx then .inl .socket else .inr false
  | .socket => if ok then .inl .bind else .inr false
  | .bind => if ok then .inl .registerSocket else .inr false
  | .registerSocket => if ok then .inl .inetPton else .inr false
  | .inetPton => if ok then .inl .connectEx else .inr false
  | .connectEx => .inr ok

/-- The thread that calls `StartClient` and, after it, `StopClient`. -/
inductive App
  | idle
  -- in `StartClient`
  | setRunning
  | loadFunctions
  | clearRunning
  | startThread
  | loop (i : Nat)
  | post (i : Nat) (pc : PostPc)
  | started
  -- in `StopClient`
  | stopping
  | release
  | join
  | stopped
  deriving DecidableEq

/-- `ReconnectThreadFunc`; `pending` is its local variable. -/
inductive Reconnect
  | none
  | testRunning
  | acquire
  | retest
  | loadPending
  | loop (pending : BitVec 32) (i : Nat)
  | post (pending : BitVec 32) (i : Nat) (pc : PostPc)
  | subtract (pending : BitVec 32)
  | ended
  deriving DecidableEq

/-- Who is in `TriggerReconnect`. -/
inductive Caller
  | handler
  | destructor
  deriving DecidableEq

/-- A call of `HandleConnectComplete` or of `~Session`. -/
inductive Call
  | idle
  -- in `HandleConnectComplete`
  | setsockopt
  | set
  | closesocket
  | callback
  -- in `~Session`
  | loadRunning
  | deleteUser
  -- in `TriggerReconnect`
  | fetchAdd (caller : Caller)
  | release (caller : Caller)
  deriving DecidableEq

/-- `connecting` is the number of outstanding `ConnectEx` operations, `connected` that of the sessions
    which have been `Set` and whose destructor has not begun; `refused` counts the calls of
    `PostConnectEx` that returned false, and is read by nothing. -/
structure Sys (T : Type) where
  targetConnectionCount : BitVec 32
  running : Bool := false
  fnConnectEx : Bool := false
  pendingConnectCount : BitVec 32 := 0#32
  reconnectSignal : Bool := false
  app : App := .idle
  reconnect : Reconnect := .none
  calls : T → Call := fun _ => .idle
  connecting : Nat := 0
  connected : Nat := 0
  refused : Nat := 0

variable {T : Type} [DecidableEq T]

inductive Act (T : Type)
  | app (ok : Bool)
  | reconnect (ok : Bool)
  /-- a worker takes the completion of a `ConnectEx` -/
  | complete (t : T)
  /-- the last reference to an established session goes -/
  | disconnect (t : T)
  | go (t : T) (ok : Bool)

/-- `PostConnectEx` has returned. -/
def Sys.posted (s : Sys T) (result : Bool) : Sys T :=
  { s with
    connecting := if result then s.connecting + 1 else s.connecting
    refused := if result then s.refused else s.refused + 1 }

def Sys.stepApp (s : Sys T) (ok : Bool) : Option (Sys T) :=
  match s.app with
  -- `IsInitialized`
  | .idle => some (if ok then { s with app := .setRunning } else s)
  | .setRunning => some { s with running := true, app := .loadFunctions }
  | .loadFunctions =>
      some (if ok then { s with fnConnectEx := true, app := .startThread } else { s with app := .clearRunning })
  | .clearRunning => some { s with running := false, app := .idle }
  | .startThread => some { s with reconnect := .testRunning, app := .loop 0 }
  | .loop i =>
      some { s with app := if (i : Int) < s.targetConnectionCount.toInt then .post i .checkFn else .started }
  | .post i pc => some (match pc.step s.fnConnectEx ok with
    | .inl pc => { s with app := .post i pc }
    | .inr result => { s.posted result with app := .loop (i + 1) })
  | .started => some { s with app := if s.running then .stopping else .started }
  | .stopping => some { s with running := false, app := .release }
  | .release => some { s with reconnectSignal := true, app := .join }
  | .join => if s.reconnect = .ended then some { s with app := .stopped } else none
  | .stopped => none

def Sys.stepReconnect (s : Sys T) (ok : Bool) : Option (Sys T) :=
  match s.reconnect with
  | .none => none
  | .testRunning => some { s with reconnect := if s.running then .acquire else .ended }
  | .acquire =>
      if s.reconnectSignal then some { s with reconnectSignal := false, reconnect := .retest } else none
  | .retest => some { s with reconnect := if s.running then .loadPending else .ended }
  | .loadPending => some { s with
      reconnect := if 0 < s.pendingConnectCount.toInt then .loop s.pendingConnectCount 0 else .testRunning }
  | .loop pending i =>
      some { s with reconnect := if (i : Int) < pending.toInt then .post pending i .checkFn else .subtract pending }
  | .post pending i pc => some (match pc.step s.fnConnectEx ok with
    | .inl pc => { s with reconnect := .post pending i pc }
    | .inr result => { s.posted result with reconnect := .loop pending (i + 1) })
  | .subtract pending =>
      some { s with pendingConnectCount := s.pendingConnectCount - pending, reconnect := .testRunning }
  | .ended => none

def Sys.stepCall (s : Sys T) (t : T) (ok : Bool) : Option (Sys T) :=
  match s.calls t with
  | .idle => none
  | .setsockopt => some { s with calls := update s.calls t (if ok then .set else .closesocket) }
  | .set => some { s with connected := s.connected + 1, calls := update s.calls t .callback }
  | .closesocket => some { s with calls := update s.calls t (.fetchAdd .handler) }
  | .callback => some { s with calls := update s.calls t .idle }
  | .loadRunning =>
      some { s with calls := update s.calls t (if s.running then .fetchAdd .destructor else .deleteUser) }
  | .deleteUser => some { s with calls := update s.calls t .idle }
  | .fetchAdd caller => some { s with
      pendingConnectCount := s.pendingConnectCount + 1#32
      calls := update s.calls t (.release caller) }
  -- a binary semaphore that is released already stays so
  | .release .handler => some { s with reconnectSignal := true, calls := update s.calls t .callback }
  | .release .destructor => some { s with reconnectSignal := true, calls := update s.calls t .deleteUser }

def step (s : Sys T) : Act T → Option (Sys T)
  | .app ok => s.stepApp ok
  | .reconnect ok => s.stepReconnect ok
  | .complete t => match s.calls t, s.connecting with
    | .idle, k + 1 => some { s with connecting := k, calls := update s.calls t .setsockopt }
    | _, _ => none
  | .disconnect t => match s.calls t, s.connected with
    | .idle, k + 1 => some { s with connected := k, calls := update s.calls t .loadRunning }
    | _, _ => none
  | .go t ok => s.stepCall t ok

def client (T : Type) [DecidableEq T] : System (Sys T) where
  init s := ∃ target, s = { targetConnectionCount := target }
  next s s' := ∃ a, step s a = some s'

/-! ## What is to hold -/

/-- The number of connections the client is to have; none if the count is negative. -/
def Sys.target (s : Sys T) : Nat := s.targetConnectionCount.toInt.toNat

/-- In `StartClient`. -/
def App.starting : App → Bool
  | .setRunning | .loadFunctions | .clearRunning | .startThread | .loop _ | .post _ _ => true
  | _ => false

/-- In `HandleConnectComplete`. -/
def Call.handling : Call → Bool
  | .setsockopt | .set | .closesocket | .callback | .fetchAdd .handler | .release .handler => true
  | _ => false

/-- In the loop over the batch, or about to take the batch off the count. -/
def Reconnect.posting : Reconnect → Bool
  | .loop _ _ | .post _ _ _ | .subtract _ => true
  | _ => false

/-- A session whose destructor has still to hand on the slot. -/
def Call.leaving : Call → Nat
  | .loadRunning | .fetchAdd .destructor => 1
  | _ => 0

/-- Nobody is in `StartClient`, in `PostConnectEx`, in a completion handler or in the reconnect loop. -/
def Quiet (s : Sys T) : Prop :=
  s.app.starting = false ∧ s.reconnect.posting = false ∧ ∀ t, (s.calls t).handling = false

/-- How many steps the reconnect thread is away from `PostConnectEx`. -/
def Reconnect.distance : Reconnect → Nat
  | .testRunning => 5
  | .acquire => 4
  | .retest => 3
  | .loadPending => 2
  | .loop _ _ => 1
  | _ => 0

def Act.isReconnect : Act T → Bool
  | .reconnect _ => true
  | _ => false

/-- Whatever the others do, the reconnect thread has taken `k` steps since `s`. -/
inductive Later (s : Sys T) : Nat → Sys T → Prop
  | here : Later s 0 s
  | other {k : Nat} {s' s'' : Sys T} {a : Act T} : Later s k s' → a.isReconnect = false →
      step s' a = some s'' → Later s k s''
  | turn {k : Nat} {s' s'' : Sys T} {ok : Bool} : Later s k s' → step s' (.reconnect ok) = some s'' →
      Later s (k + 1) s''

/-- The reconnect thread comes to `PostConnectEx` unless the client is stopped: nothing makes it wait on
    the way, and nothing takes it off it. -/
def Retries (s : Sys T) : Prop :=
  ∀ k s', Later s k s' → s'.running = true → k ≤ s.reconnect.distance →
    (k < s.reconnect.distance → ∃ s'', step s' (.reconnect true) = some s'') ∧
    (k = s.reconnect.distance → ∃ pending, s'.reconnect = .post pending 0 .checkFn)

variable [Fintype T]

/-- The slots are all there: live sessions, outstanding operations, and the count. -/
def Slots (s : Sys T) : Prop :=
  ((s.connected + total Call.leaving s.calls + s.connecting : Nat) : Int)
    + s.pendingConnectCount.toInt = s.target

/-! ## What the steps do -/

section Moves

variable {s s' : Sys T}

omit [Fintype T]

/-- The app thread goes on, and changes nothing else. -/
inductive App.Walk (target : Nat) : App → App → Prop
  | call : Walk target .idle .setRunning
  | loadFails : Walk target .loadFunctions .clearRunning
  | next {i : Nat} (h : i < target) : Walk target (.loop i) (.post i .checkFn)
  | done {i : Nat} (h : target ≤ i) : Walk target (.loop i) .started
  | post {i : Nat} {pc pc' : PostPc} : Walk target (.post i pc) (.post i pc')
  | stop : Walk target .started .stopping
  | joined : Walk target .join .stopped

/-- The reconnect thread goes on, and changes nothing else. -/
inductive Reconnect.Walk (running : Bool) (pending : BitVec 32) : Reconnect → Reconnect → Prop
  | test (h : running = true) : Walk running pending .testRunning .acquire
  | retest (h : running = true) : Walk running pending .retest .loadPending
  | ended {r : Reconnect} (h : running = false) (hr : r = .testRunning ∨ r = .retest) :
      Walk running pending r .ended
  | load (h : 0 < pending.toInt) : Walk running pending .loadPending (.loop pending 0)
  | nothing (h : ¬ 0 < pending.toInt) : Walk running pending .loadPending .testRunning
  | next {b : BitVec 32} {i : Nat} (h : (i : Int) < b.toInt) :
      Walk running pending (.loop b i) (.post b i .checkFn)
  | done {b : BitVec 32} {i : Nat} (h : ¬ (i : Int) < b.toInt) : Walk running pending (.loop b i) (.subtract b)
  | post {b : BitVec 32} {i : Nat} {pc pc' : PostPc} : Walk running pending (.post b i pc) (.post b i pc')

/-- A handler or a destructor goes on, and changes nothing else. -/
inductive Call.Walk (running : Bool) : Call → Call → Prop
  | succeed : Walk running .setsockopt .set
  | fail : Walk running .setsockopt .closesocket
  | close : Walk running .closesocket (.fetchAdd .handler)
  | back : Walk running .callback .idle
  | trigger (h : running = true) : Walk running .loadRunning (.fetchAdd .destructor)
  | halt (h : running = false) : Walk running .loadRunning .deleteUser
  | delete : Walk running .deleteUser .idle

/-- **What may happen.** -/
inductive Moves (s : Sys T) : Sys T → Prop
  | stay : Moves s s
  | app {a : App} (h : App.Walk s.target s.app a) : Moves s { s with app := a }
  | run (h : s.app = .setRunning) : Moves s { s with running := true, app := .loadFunctions }
  | load (h : s.app = .loadFunctions) : Moves s { s with fnConnectEx := true, app := .startThread }
  | clear (h : s.app = .clearRunning) : Moves s { s with running := false, app := .idle }
  | thread (h : s.app = .startThread) : Moves s { s with reconnect := .testRunning, app := .loop 0 }
  | appPosted {i : Nat} {pc : PostPc} (h : s.app = .post i pc) (result : Bool) :
      Moves s { s.posted result with app := .loop (i + 1) }
  | stop (h : s.app = .stopping) : Moves s { s with running := false, app := .release }
  | wake (h : s.app = .release) : Moves s { s with reconnectSignal := true, app := .join }
  | reconnect {r : Reconnect} (h : Reconnect.Walk s.running s.pendingConnectCount s.reconnect r) :
      Moves s { s with reconnect := r }
  | acquire (h : s.reconnect = .acquire) (hsignal : s.reconnectSignal = true) :
      Moves s { s with reconnectSignal := false, reconnect := .retest }
  | reposted {b : BitVec 32} {i : Nat} {pc : PostPc} (h : s.reconnect = .post b i pc) (result : Bool) :
      Moves s { s.posted result with reconnect := .loop b (i + 1) }
  | subtract {b : BitVec 32} (h : s.reconnect = .subtract b) :
      Moves s { s with pendingConnectCount := s.pendingConnectCount - b, reconnect := .testRunning }
  | complete {t : T} {k : Nat} (h : s.calls t = .idle) (hk : s.connecting = k + 1) :
      Moves s { s with connecting := k, calls := update s.calls t .setsockopt }
  | disconnect {t : T} {k : Nat} (h : s.calls t = .idle) (hk : s.connected = k + 1) :
      Moves s { s with connected := k, calls := update s.calls t .loadRunning }
  | call {t : T} {c : Call} (h : Call.Walk s.running (s.calls t) c) :
      Moves s { s with calls := update s.calls t c }
  | set {t : T} (h : s.calls t = .set) :
      Moves s { s with connected := s.connected + 1, calls := update s.calls t .callback }
  | add {t : T} {caller : Caller} (h : s.calls t = .fetchAdd caller) : Moves s { s with
      pendingConnectCount := s.pendingConnectCount + 1#32, calls := update s.calls t (.release caller) }
  | release {t : T} {caller : Caller} {c : Call} (h : s.calls t = .release caller)
      (hc : c = .callback ∨ c = .deleteUser) :
      Moves s { s with reconnectSignal := true, calls := update s.calls t c }

theorem lt_target {i : Nat} : (i : Int) < s.targetConnectionCount.toInt ↔ i < s.target := by
  unfold Sys.target
  omega

theorem stepApp_moves {ok : Bool} (h : s.stepApp ok = some s') : Moves s s' := by
  unfold Sys.stepApp at h
  split at h
  case h_1 happ =>
    obtain rfl := Option.some.inj h
    split
    · exact .app (happ ▸ .call)
    · exact .stay
  case h_2 happ =>
    obtain rfl := Option.some.inj h
    exact .run happ
  case h_3 happ =>
    obtain rfl := Option.some.inj h
    split
    · exact .load happ
    · exact .app (happ ▸ .loadFails)
  case h_4 happ =>
    obtain rfl := Option.some.inj h
    exact .clear happ
  case h_5 happ =>
    obtain rfl := Option.some.inj h
    exact .thread happ
  case h_6 i happ =>
    obtain rfl := Option.some.inj h
    refine .app ?_
    rw [happ]
    split
    · exact .next (lt_target.mp ‹_›)
    · exact .done (Nat.le_of_not_lt fun hlt => absurd (lt_target.mpr hlt) ‹_›)
  case h_7 i pc happ =>
    obtain rfl := Option.some.inj h
    split
    · exact .app (happ ▸ .post)
    · exact .appPosted happ _
  case h_8 happ =>
    obtain rfl := Option.some.inj h
    split
    · exact .app (happ ▸ .stop)
    · rw [← happ]
      exact .stay
  case h_9 happ =>
    obtain rfl := Option.some.inj h
    exact .stop happ
  case h_10 happ =>
    obtain rfl := Option.some.inj h
    exact .wake happ
  case h_11 happ =>
    split at h
    · obtain rfl := Option.some.inj h
      exact .app (happ ▸ .joined)
    · cases h
  case h_12 => cases h

theorem stepReconnect_moves {ok : Bool} (h : s.stepReconnect ok = some s') : Moves s s' := by
  unfold Sys.stepReconnect at h
  split at h
  case h_1 => cases h
  case h_2 hr =>
    obtain rfl := Option.some.inj h
    refine .reconnect ?_
    rw [hr]
    split
    · exact .test ‹_›
    · exact .ended (Bool.eq_false_of_not_eq_true ‹_›) (by simp)
  case h_3 hr =>
    split at h
    · obtain rfl := Option.some.inj h
      exact .acquire hr ‹_›
    · cases h
  case h_4 hr =>
    obtain rfl := Option.some.inj h
    refine .reconnect ?_
    rw [hr]
    split
    · exact .retest ‹_›
    · exact .ended (Bool.eq_false_of_not_eq_true ‹_›) (by simp)
  case h_5 hr =>
    obtain rfl := Option.some.inj h
    refine .reconnect ?_
    rw [hr]
    split
    · exact .load ‹_›
    · exact .nothing ‹_›
  case h_6 pending i hr =>
    obtain rfl := Option.some.inj h
    refine .reconnect ?_
    rw [hr]
    split
    · exact .next ‹_›
    · exact .done ‹_›
  case h_7 pending i pc hr =>
    obtain rfl := Option.some.inj h
    split
    · exact .reconnect (hr ▸ .post)
    · exact .reposted hr _
  case h_8 pending hr =>
    obtain rfl := Option.some.inj h
    exact .subtract hr
  case h_9 => cases h

theorem stepCall_moves {t : T} {ok : Bool} (h : s.stepCall t ok = some s') : Moves s s' := by
  unfold Sys.stepCall at h
  split at h
  case h_1 => cases h
  case h_2 hc =>
    obtain rfl := Option.some.inj h
    refine .call ?_
    rw [hc]
    split
    · exact .succeed
    · exact .fail
  case h_3 hc =>
    obtain rfl := Option.some.inj h
    exact .set hc
  case h_4 hc =>
    obtain rfl := Option.some.inj h
    exact .call (hc ▸ .close)
  case h_5 hc =>
    obtain rfl := Option.some.inj h
    exact .call (hc ▸ .back)
  case h_6 hc =>
    obtain rfl := Option.some.inj h
    refine .call ?_
    rw [hc]
    split
    · exact .trigger ‹_›
    · exact .halt (Bool.eq_false_of_not_eq_true ‹_›)
  case h_7 hc =>
    obtain rfl := Option.some.inj h
    exact .call (hc ▸ .delete)
  case h_8 caller hc =>
    obtain rfl := Option.some.inj h
    exact .add hc
  case h_9 hc =>
    obtain rfl := Option.some.inj h
    exact .release hc (.inl rfl)
  case h_10 hc =>
    obtain rfl := Option.some.inj h
    exact .release hc (.inr rfl)

theorem step_moves {a : Act T} (h : step s a = some s') : Moves s s' := by
  cases a with
  | app ok => exact stepApp_moves h
  | reconnect ok => exact stepReconnect_moves h
  | complete t =>
    simp only [step] at h
    split at h
    · obtain rfl := Option.some.inj h
      exact .complete ‹_› ‹_›
    · cases h
  | disconnect t =>
    simp only [step] at h
    split at h
    · obtain rfl := Option.some.inj h
      exact .disconnect ‹_› ‹_›
    · cases h
  | go t ok => exact stepCall_moves h

end Moves

/-! ## Where the slots are -/

/-- The slots that `StartClient` has still to post. -/
def App.todo (target : Nat) : App → Nat
  | .idle | .setRunning | .loadFunctions | .clearRunning | .startThread => target
  | .loop i | .post i _ => target - i
  | _ => 0

/-- The index of the loop, as far as it comes. -/
def App.index : App → Nat
  | .loop i => i
  | .post i _ => i + 1
  | _ => 0

/-- Before the reconnect thread is there. -/
def App.early : App → Bool
  | .idle | .setRunning | .loadFunctions | .clearRunning | .startThread => true
  | _ => false

/-- `StopClient` has cleared `running_`. -/
def App.past : App → Bool
  | .release | .join | .stopped => true
  | _ => false

/-- What `running_` is. -/
def App.runs : App → Bool
  | .idle | .setRunning | .release | .join | .stopped => false
  | _ => true

/-- The batch that the reconnect thread works off. -/
def Reconnect.batch : Reconnect → Nat
  | .loop b _ | .post b _ _ | .subtract b => b.toNat
  | _ => 0

/-- What of it is no longer pending, but still on the count. -/
def Reconnect.posted : Reconnect → Nat
  | .loop _ i | .post _ i _ => i
  | .subtract b => b.toNat
  | _ => 0

/-- The same, as far as the index comes. -/
def Reconnect.index : Reconnect → Nat
  | .loop _ i => i
  | .post _ i _ => i + 1
  | .subtract b => b.toNat
  | _ => 0

/-- The slots that a handler or a destructor has still to hand on. -/
def Call.holds : Call → Nat
  | .setsockopt | .set | .closesocket | .loadRunning | .fetchAdd _ => 1
  | _ => 0

/-- About to release the semaphore. -/
def Call.waking : Call → Nat
  | .release _ => 1
  | _ => 0

/-- The reconnect thread has still to look at the count. -/
def Reconnect.woken : Reconnect → Bool
  | .retest | .loadPending => true
  | _ => false

/-- **The accounts**, as long as nobody has stopped the client: each slot is at one place; and if there is more
    on the count than in the batch, the reconnect thread is going to look. -/
structure Kept (s : Sys T) : Prop where
  runs : s.running = s.app.runs
  idle : s.app.early = true → s.reconnect = .none
  alive : s.app.early = false → s.app.past = false → s.reconnect ≠ .none ∧ s.reconnect ≠ .ended
  sum : s.app.past = false →
    s.pendingConnectCount.toNat + s.refused + s.connected + s.connecting + total Call.holds s.calls
      + s.app.todo s.target = s.target + s.reconnect.posted
  appIndex : s.app.index ≤ s.target
  index : s.app.past = false → s.reconnect.index ≤ s.reconnect.batch
  batch : s.app.past = false → s.reconnect.batch ≤ s.pendingConnectCount.toNat ∧ s.reconnect.batch ≤ s.target
  wake : s.app.past = false → s.reconnect.batch < s.pendingConnectCount.toNat →
    s.reconnectSignal = true ∨ 0 < total Call.waking s.calls ∨ s.reconnect.woken = true

theorem Sys.target_lt (s : Sys T) : s.target < 2147483648 := by
  have := BitVec.toInt_lt (x := s.targetConnectionCount)
  unfold Sys.target
  omega

theorem toInt_eq {b : BitVec 32} (h : b.toNat < 2147483648) : b.toInt = b.toNat :=
  BitVec.toInt_eq_toNat_of_lt (by omega)

theorem Reconnect.posted_le (r : Reconnect) : r.posted ≤ r.index := by
  cases r <;> simp [posted, index]

section Steps

variable {s s' : Sys T}

theorem Sys.posted_sum (s : Sys T) (result : Bool) :
    (s.posted result).refused + (s.posted result).connecting = s.refused + s.connecting + 1 := by
  cases result with
  | true => rfl
  | false => exact Nat.succ_add s.refused s.connecting

omit [Fintype T] in
theorem Moves.target (M : Moves s s') : s'.target = s.target := by
  cases M <;> rfl

theorem App.Walk.same {n : Nat} {a a' : App} (h : App.Walk n a a') :
    a'.runs = a.runs ∧ a'.early = a.early ∧ a'.past = a.past ∧ a'.todo n = a.todo n := by
  cases h with
  | done hi => exact ⟨rfl, rfl, rfl, (Nat.sub_eq_zero_of_le hi).symm⟩
  | _ => exact ⟨rfl, rfl, rfl, rfl⟩

theorem App.Walk.index_le {n : Nat} {a a' : App} (h : App.Walk n a a') (ha : a.index ≤ n) :
    a'.index ≤ n := by
  cases h with
  | next hi => exact hi
  | post => exact ha
  | _ => exact Nat.zero_le n

theorem Call.Walk.same {running : Bool} {c c' : Call} (h : Call.Walk running c c') :
    c'.waking = c.waking ∧ (c'.holds = c.holds ∨ running = false ∧ c.holds = 1) := by
  cases h with
  | halt hr => exact ⟨rfl, .inr ⟨hr, rfl⟩⟩
  | _ => exact ⟨rfl, .inl rfl⟩

/-- The index of the loop comes as far as the batch, and no further. -/
theorem Reconnect.Walk.index_le {running : Bool} {pending : BitVec 32} {r r' : Reconnect}
    (h : Reconnect.Walk running pending r r') (hb : r.batch < 2147483648) (hi : r.index ≤ r.batch) :
    r'.posted = r.posted ∧ r'.index ≤ r'.batch := by
  cases h with
  | @next b i hlt =>
    rw [toInt_eq hb] at hlt
    exact ⟨rfl, Int.ofNat_lt.mp hlt⟩
  | @done b i hge =>
    rw [toInt_eq hb] at hge
    have hi : i ≤ b.toNat := hi
    exact ⟨show b.toNat = i by omega, Nat.le_refl _⟩
  | ended h hr =>
    rcases hr with rfl | rfl <;> exact ⟨rfl, Nat.le_refl _⟩
  | post => exact ⟨rfl, hi⟩
  | _ => exact ⟨rfl, Nat.zero_le _⟩

/-- A batch is what is on the count when it is taken. -/
theorem Reconnect.Walk.batch_eq {running : Bool} {pending : BitVec 32} {r r' : Reconnect}
    (h : Reconnect.Walk running pending r r') :
    r'.batch = r.batch ∨ r.posted = 0 ∧ r'.batch = pending.toNat := by
  cases h with
  | load => exact .inr ⟨rfl, rfl⟩
  | ended h hr => rcases hr with rfl | rfl <;> exact .inl rfl
  | _ => exact .inl rfl

/-- While the client runs, the reconnect thread does not forget to look. -/
theorem Reconnect.Walk.wakes {pending : BitVec 32} {r r' : Reconnect} (h : Reconnect.Walk true pending r r')
    (hp : r.posted = 0 → pending.toNat < 2147483648) (hlt : r'.batch < pending.toNat) :
    r'.batch = r.batch ∧ (r.woken = true → r'.woken = true) := by
  cases h with
  | load => exact absurd hlt (Nat.lt_irrefl _)
  | nothing hle =>
    rw [toInt_eq (hp rfl)] at hle
    exact absurd hlt (by omega)
  | ended h => cases h
  | retest => exact ⟨rfl, fun _ => rfl⟩
  | _ => exact ⟨rfl, fun hw => by cases hw⟩

/-- While the client runs, it does not end. -/
theorem Reconnect.Walk.alive {running : Bool} {pending : BitVec 32} {r r' : Reconnect}
    (h : Reconnect.Walk running pending r r') (hrun : running = true) : r' ≠ .none ∧ r' ≠ .ended := by
  cases h with
  | ended hstopped =>
    rw [hrun] at hstopped
    cases hstopped
  | _ => exact ⟨by simp, by simp⟩

theorem App.todo_of_early {n : Nat} {a : App} (h : a.early = true) : a.todo n = n := by
  cases a <;> first | rfl | cases h

theorem App.runs_of_late {a : App} (he : a.early = false) (ho : a.past = false) : a.runs = true := by
  cases a <;> simp_all [early, past, runs]

/-- Who hands on a slot, or does not because the client has been stopped, is there. -/
theorem Kept.running_of_holds (K : Kept s) (ho : s.app.past = false) {t : T} (ht : 0 < (s.calls t).holds) :
    s.running = true ∧ s.app.early = false := by
  have hle := le_total Call.holds s.calls t
  have hsum := K.sum ho
  have hlate : s.app.early = false := by
    refine Bool.eq_false_of_not_eq_true fun he => ?_
    rw [K.idle he] at hsum
    rw [App.todo_of_early he] at hsum
    simp only [Reconnect.posted] at hsum
    omega
  exact ⟨K.runs.trans (App.runs_of_late hlate ho), hlate⟩

/-- The same of the reconnect thread. -/
theorem Kept.running_of_thread (K : Kept s) (ho : s.app.past = false) (hr : s.reconnect ≠ .none) :
    s.running = true ∧ s.app.early = false := by
  have hlate : s.app.early = false := Bool.eq_false_of_not_eq_true fun he => hr (K.idle he)
  exact ⟨K.runs.trans (App.runs_of_late hlate ho), hlate⟩

/-- The count stays in its range, although it may be negative as an `int` while a batch is posted. -/
theorem Kept.pending_le (K : Kept s) (ho : s.app.past = false) :
    s.pendingConnectCount.toNat + total Call.holds s.calls ≤ s.target + s.reconnect.posted ∧
    s.reconnect.posted ≤ s.target := by
  have hsum := K.sum ho
  have hindex := K.index ho
  have hbatch := K.batch ho
  have hposted := s.reconnect.posted_le
  omega

theorem Kept.add_toNat (K : Kept s) (ho : s.app.past = false) {t : T} (ht : 0 < (s.calls t).holds) :
    (s.pendingConnectCount + 1#32).toNat = s.pendingConnectCount.toNat + 1 := by
  have hle := K.pending_le ho
  have hpos := le_total Call.holds s.calls t
  have hlt := s.target_lt
  rw [BitVec.toNat_add, show (1#32 : BitVec 32).toNat = 1 from rfl]
  omega

theorem Kept.sub_toNat (K : Kept s) (ho : s.app.past = false) {b : BitVec 32}
    (hr : s.reconnect = .subtract b) :
    (s.pendingConnectCount - b).toNat = s.pendingConnectCount.toNat - b.toNat := by
  have hbatch := (K.batch ho).1
  rw [hr] at hbatch
  exact BitVec.toNat_sub_of_le hbatch

/-- **One step**, as long as the client is not stopped: each slot goes from one place to another. -/
theorem Kept.sum_step (K : Kept s) (M : Moves s s') (ho' : s'.app.past = false) :
    s'.pendingConnectCount.toNat + s'.refused + s'.connected + s'.connecting + total Call.holds s'.calls
      + s'.app.todo s.target = s.target + s'.reconnect.posted := by
  cases M with
  | stay => exact K.sum ho'
  | app h =>
    obtain ⟨-, -, ho, htodo⟩ := h.same
    have hsum := K.sum (ho ▸ ho')
    rwa [← htodo] at hsum
  | run h | load h | clear h =>
    have hsum := K.sum (by rw [h]; rfl)
    rwa [h] at hsum
  | thread h =>
    have hsum := K.sum (by rw [h]; rfl)
    rwa [h, K.idle (by rw [h]; rfl)] at hsum
  | @appPosted i pc h result =>
    have hsum := K.sum (by rw [h]; rfl)
    have hi := K.appIndex
    have hposted := s.posted_sum result
    rw [h] at hsum hi
    simp only [App.index] at hi
    simp only [App.todo] at hsum ⊢
    show s.pendingConnectCount.toNat + (s.posted result).refused + s.connected
      + (s.posted result).connecting + total Call.holds s.calls + _ = _ + s.reconnect.posted
    omega
  | stop h | wake h => cases ho'
  | reconnect h =>
    have hb := (K.batch ho').2
    have hlt := s.target_lt
    rw [(h.index_le (by omega) (K.index ho')).1]
    exact K.sum ho'
  | acquire h hsignal =>
    have hsum := K.sum ho'
    rwa [h] at hsum
  | @reposted b i pc h result =>
    have hposted := s.posted_sum result
    have hsum := K.sum ho'
    rw [h] at hsum
    simp only [Reconnect.posted] at hsum ⊢
    show s.pendingConnectCount.toNat + (s.posted result).refused + s.connected
      + (s.posted result).connecting + total Call.holds s.calls + s.app.todo s.target = _
    omega
  | @subtract b h =>
    have hsum := K.sum ho'
    have hb := (K.batch ho').1
    rw [h] at hsum hb
    simp only [Reconnect.posted, Reconnect.batch] at hsum hb ⊢
    rw [K.sub_toNat ho' h]
    omega
  | @complete t k h hk =>
    have hsum := K.sum ho'
    have htotal := total_update Call.holds s.calls t .setsockopt
    rw [h] at htotal
    simp only [Call.holds] at htotal ⊢
    omega
  | @disconnect t k h hk =>
    have hsum := K.sum ho'
    have htotal := total_update Call.holds s.calls t .loadRunning
    rw [h] at htotal
    simp only [Call.holds] at htotal ⊢
    omega
  | @call t c h =>
    have hsum := K.sum ho'
    have htotal := total_update Call.holds s.calls t c
    have hsame : c.holds = (s.calls t).holds := by
      rcases h.same.2 with hsame | ⟨hstopped, hone⟩
      · exact hsame
      · rw [(K.running_of_holds ho' (t := t) (hone ▸ Nat.one_pos)).1] at hstopped
        cases hstopped
    dsimp only
    omega
  | @set t h =>
    have hsum := K.sum ho'
    have htotal := total_update Call.holds s.calls t .callback
    rw [h] at htotal
    simp only [Call.holds] at htotal ⊢
    omega
  | @add t caller h =>
    have hsum := K.sum ho'
    have htotal := total_update Call.holds s.calls t (.release caller)
    have hadd := K.add_toNat ho' (t := t) (by rw [h]; exact Nat.one_pos)
    rw [h] at htotal
    simp only [Call.holds] at htotal ⊢
    omega
  | @release t caller c h hc =>
    have hsum := K.sum ho'
    have htotal := total_update Call.holds s.calls t c
    have hzero : c.holds = 0 := by rcases hc with rfl | rfl <;> rfl
    rw [h, hzero] at htotal
    simp only [Call.holds] at htotal ⊢
    omega

/-- The batch. -/
theorem Kept.batch_step (K : Kept s) (M : Moves s s') (ho' : s'.app.past = false) :
    s'.reconnect.index ≤ s'.reconnect.batch ∧
    s'.reconnect.batch ≤ s'.pendingConnectCount.toNat ∧ s'.reconnect.batch ≤ s.target := by
  -- where it stays as it is
  have hsame : s.app.past = false → s.reconnect.index ≤ s.reconnect.batch ∧
      s.reconnect.batch ≤ s.pendingConnectCount.toNat ∧ s.reconnect.batch ≤ s.target :=
    fun ho => ⟨K.index ho, K.batch ho⟩
  cases M with
  | app h => exact hsame (h.same.2.2.1 ▸ ho')
  | run h | load h | clear h => exact hsame (by rw [h]; rfl)
  | thread h => exact ⟨Nat.le_refl _, Nat.zero_le _, Nat.zero_le _⟩
  | appPosted h result => exact hsame (by rw [h]; rfl)
  | stop h | wake h => cases ho'
  | reconnect h =>
    have hlt := s.target_lt
    have hpending := K.pending_le ho'
    obtain ⟨hindex, hbatch⟩ := hsame ho'
    refine ⟨(h.index_le (by omega) hindex).2, ?_⟩
    rcases h.batch_eq with heq | ⟨hzero, heq⟩
    · rw [heq]
      exact hbatch
    · dsimp only
      omega
  | acquire h hsignal => exact ⟨Nat.le_refl _, Nat.zero_le _, Nat.zero_le _⟩
  | @reposted b i pc h result =>
    have hkept := hsame ho'
    rw [h] at hkept
    exact ⟨hkept.1, hkept.2⟩
  | subtract h => exact ⟨Nat.le_refl _, Nat.zero_le _, Nat.zero_le _⟩
  | @add t caller h =>
    have hadd := K.add_toNat ho' (t := t) (by rw [h]; exact Nat.one_pos)
    obtain ⟨hindex, hle, hn⟩ := hsame ho'
    refine ⟨hindex, ?_, hn⟩
    show s.reconnect.batch ≤ (s.pendingConnectCount + 1#32).toNat
    omega
  | _ => exact hsame ho'

/-- The signal. -/
theorem Kept.wake_step (K : Kept s) (M : Moves s s') (ho' : s'.app.past = false)
    (hlt : s'.reconnect.batch < s'.pendingConnectCount.toNat) :
    s'.reconnectSignal = true ∨ 0 < total Call.waking s'.calls ∨ s'.reconnect.woken = true := by
  -- a step of a call that is not about to release
  have hcalls : ∀ (t : T) (c : Call), (s.calls t).waking ≤ c.waking →
      total Call.waking s.calls ≤ total Call.waking (update s.calls t c) := by
    intro t c hle
    have htotal := total_update Call.waking s.calls t c
    omega
  have hkeep : ∀ (t : T) (c : Call), s.app.past = false →
      s.reconnect.batch < s.pendingConnectCount.toNat → (s.calls t).waking ≤ c.waking →
        s.reconnectSignal = true ∨ 0 < total Call.waking (update s.calls t c) ∨ s.reconnect.woken = true := by
    intro t c ho hlt hle
    have hmore := hcalls t c hle
    rcases K.wake ho hlt with hsignal | hwaking | hwoken
    · exact .inl hsignal
    · exact .inr (.inl (by omega))
    · exact .inr (.inr hwoken)
  cases M with
  | stay => exact K.wake ho' hlt
  | app h => exact K.wake (h.same.2.2.1 ▸ ho') hlt
  | run h | load h | clear h => exact K.wake (by rw [h]; rfl) hlt
  | thread h =>
    refine (K.wake (by rw [h]; rfl) ?_).imp id (Or.imp id fun hwoken => ?_)
    · rw [K.idle (by rw [h]; rfl)]
      exact hlt
    · rw [K.idle (by rw [h]; rfl)] at hwoken
      cases hwoken
  | appPosted h result => exact K.wake (by rw [h]; rfl) hlt
  | stop h | wake h => cases ho'
  | @reconnect r h =>
    have hpending := K.pending_le ho'
    have htarget := s.target_lt
    have hrunning : s.running = true := by
      refine (K.running_of_thread ho' fun hnone => ?_).1
      rw [hnone] at h
      cases h with
      | ended _ hr => simp at hr
    rw [hrunning] at h
    obtain ⟨hsame, hwoken⟩ := h.wakes (fun hzero => by omega) hlt
    refine (K.wake ho' ?_).imp id (Or.imp id hwoken)
    rw [← hsame]
    exact hlt
  | acquire h hsignal => exact .inr (.inr rfl)
  | @reposted b i pc h result =>
    have hkept := K.wake ho'
    rw [h] at hkept
    exact hkept hlt
  | @subtract b h =>
    have hle := (K.batch ho').1
    have hsub := K.sub_toNat ho' h
    have hkept := K.wake ho'
    rw [h] at hkept hle
    dsimp only [Reconnect.batch] at hlt hle hkept
    refine (hkept (by omega)).imp id (Or.imp id fun hwoken => ?_)
    cases hwoken
  | @complete t k h hk => exact hkeep t _ ho' hlt (by rw [h]; exact Nat.le_refl _)
  | @disconnect t k h hk => exact hkeep t _ ho' hlt (by rw [h]; exact Nat.le_refl _)
  | @call t c h => exact hkeep t c ho' hlt (Nat.le_of_eq h.same.1.symm)
  | @set t h => exact hkeep t _ ho' hlt (by rw [h]; exact Nat.le_refl _)
  | @add t caller h =>
    have hle := le_total Call.waking (update s.calls t (.release caller)) t
    rw [update_self] at hle
    exact .inr (.inl hle)
  | release h hc => exact .inl rfl

/-- **The step lemma.** -/
theorem Kept.step (K : Kept s) (M : Moves s s') : Kept s' where
  runs := by
    cases M with
    | app h => exact K.runs.trans h.same.1.symm
    | run h | clear h | stop h => rfl
    | load h | thread h | appPosted h result | wake h =>
      have hruns := K.runs
      rwa [h] at hruns
    | _ => exact K.runs
  idle := by
    intro he
    cases M with
    | app h => exact K.idle (h.same.2.1 ▸ he)
    | run h | load h | clear h => exact K.idle (by rw [h]; rfl)
    | thread h | appPosted h result | stop h | wake h => cases he
    | reconnect h =>
      rw [K.idle he] at h
      cases h with
      | ended _ hr => simp at hr
    | acquire h hsignal | subtract h =>
      rw [K.idle he] at h
      cases h
    | reposted h result =>
      rw [K.idle he] at h
      cases h
    | _ => exact K.idle he
  alive := by
    intro he ho
    cases M with
    | app h => exact K.alive (h.same.2.1 ▸ he) (h.same.2.2.1 ▸ ho)
    | run h | load h | clear h => cases he
    | stop h | wake h => cases ho
    | appPosted h result => exact K.alive (by rw [h]; rfl) (by rw [h]; rfl)
    | reconnect h => exact h.alive (K.running_of_thread ho (K.alive he ho).1).1
    | thread h | acquire h hsignal | reposted h result | subtract h => exact ⟨by simp, by simp⟩
    | _ => exact K.alive he ho
  sum ho := M.target ▸ K.sum_step M ho
  appIndex := by
    rw [M.target]
    cases M with
    | app h => exact h.index_le K.appIndex
    | appPosted h result =>
      have hindex := K.appIndex
      rwa [h] at hindex
    | run h | load h | clear h | thread h | stop h | wake h => exact Nat.zero_le _
    | _ => exact K.appIndex
  index ho := (K.batch_step M ho).1
  batch ho := M.target ▸ (K.batch_step M ho).2
  wake ho := K.wake_step M ho

/-- **The run lemma.** -/
theorem kept (h : Reachable (client T) s) : Kept s := by
  apply h.invariant (I := Kept)
  · rintro _ ⟨target, rfl⟩
    constructor
    · rfl
    · exact fun _ => rfl
    · exact fun he => by cases he
    · intro _
      have hnone : total Call.holds (fun _ : T => Call.idle) = 0 := total_eq_zero fun _ => rfl
      show 0 + total Call.holds (fun _ : T => Call.idle) + _ = _
      rw [hnone, Nat.zero_add]
      rfl
    · exact Nat.zero_le _
    · exact fun _ => Nat.le_refl _
    · exact fun _ => ⟨Nat.le_refl _, Nat.zero_le _⟩
    · exact fun _ hlt => absurd hlt (Nat.lt_irrefl _)
  · intro s s' hr K hnext
    obtain ⟨a, hstep⟩ := hnext
    exact K.step (step_moves hstep)

end Steps

/-! ## The way to the next attempt -/

/-- What the reconnect thread needs at each place to come to `PostConnectEx`. -/
def Sys.ready (s : Sys T) : Prop :=
  match s.reconnect with
  | .testRunning | .acquire => s.reconnectSignal = true ∧ 0 < s.pendingConnectCount.toNat
  | .retest | .loadPending => 0 < s.pendingConnectCount.toNat
  | .loop pending i => i = 0 ∧ 0 < pending.toInt
  | .post _ i pc => i = 0 ∧ pc = .checkFn
  | _ => False

section Retry

variable {s s' : Sys T}

omit [Fintype T] in
/-- What the app thread leaves alone once the reconnect thread is there. -/
theorem stepApp_frame {ok : Bool} (h : s.stepApp ok = some s') (he : s.app.early = false) :
    s'.app.early = false ∧ (s'.running = true → s.running = true) ∧ s'.reconnect = s.reconnect ∧
    s'.pendingConnectCount = s.pendingConnectCount ∧
    (s.reconnectSignal = true → s'.reconnectSignal = true) := by
  unfold Sys.stepApp at h
  split at h
  case h_1 happ | h_2 happ | h_3 happ | h_4 happ | h_5 happ =>
    rw [happ] at he
    cases he
  case h_6 i happ =>
    obtain rfl := Option.some.inj h
    refine ⟨?_, id, rfl, rfl, id⟩
    dsimp only
    split <;> rfl
  case h_7 i pc happ =>
    obtain rfl := Option.some.inj h
    split <;> exact ⟨rfl, id, rfl, rfl, id⟩
  case h_8 happ =>
    obtain rfl := Option.some.inj h
    refine ⟨?_, id, rfl, rfl, id⟩
    dsimp only
    split <;> rfl
  case h_9 happ =>
    obtain rfl := Option.some.inj h
    refine ⟨rfl, fun hrun => ?_, rfl, rfl, id⟩
    cases hrun
  case h_10 happ =>
    obtain rfl := Option.some.inj h
    exact ⟨rfl, id, rfl, rfl, fun _ => rfl⟩
  case h_11 happ =>
    split at h
    · obtain rfl := Option.some.inj h
      exact ⟨rfl, id, rfl, rfl, id⟩
    · cases h
  case h_12 => cases h

omit [Fintype T] in
omit [Fintype T] in
/-- What a handler or a destructor leaves alone. -/
theorem stepCall_frame {t : T} {ok : Bool} (h : s.stepCall t ok = some s') :
    s'.app = s.app ∧ s'.running = s.running ∧ s'.reconnect = s.reconnect ∧
    (s'.pendingConnectCount = s.pendingConnectCount ∨
      0 < (s.calls t).holds ∧ s'.pendingConnectCount = s.pendingConnectCount + 1#32) ∧
    (s.reconnectSignal = true → s'.reconnectSignal = true) := by
  unfold Sys.stepCall at h
  split at h
  case h_1 => cases h
  case h_8 caller hc =>
    obtain rfl := Option.some.inj h
    exact ⟨rfl, rfl, rfl, .inr ⟨by rw [hc]; exact Nat.one_pos, rfl⟩, id⟩
  case h_9 hc | h_10 hc =>
    obtain rfl := Option.some.inj h
    exact ⟨rfl, rfl, rfl, .inl rfl, fun _ => rfl⟩
  all_goals
    obtain rfl := Option.some.inj h
    exact ⟨rfl, rfl, rfl, .inl rfl, id⟩

omit [DecidableEq T] [Fintype T] in
theorem Sys.ready.mono (h : s.ready) (hr : s'.reconnect = s.reconnect)
    (hp : s.pendingConnectCount.toNat ≤ s'.pendingConnectCount.toNat)
    (hsignal : s.reconnectSignal = true → s'.reconnectSignal = true) : s'.ready := by
  unfold Sys.ready at h ⊢
  rw [hr]
  cases hpc : s.reconnect <;> rw [hpc] at h <;> dsimp only at h ⊢
  case testRunning | acquire => exact ⟨hsignal h.1, Nat.lt_of_lt_of_le h.2 hp⟩
  case retest | loadPending => exact Nat.lt_of_lt_of_le h hp
  all_goals exact h

theorem App.late_of_runs {a : App} (h : a.runs = true) : a.past = false := by
  cases a <;> first | rfl | cases h

/-- The others do not take it off the way. -/
theorem ready_other (K : Kept s) (he : s.app.early = false) {a : Act T} (ha : a.isReconnect = false)
    (h : step s a = some s') :
    s'.app.early = false ∧ (s'.running = true → s.running = true ∧ s'.reconnect = s.reconnect ∧
      (s.ready → s'.ready)) := by
  cases a with
  | app ok =>
    obtain ⟨he', hrun, hr, hp, hsignal⟩ := stepApp_frame h he
    exact ⟨he', fun hrun' => ⟨hrun hrun', hr, fun hready =>
      hready.mono hr (Nat.le_of_eq (congrArg BitVec.toNat hp.symm)) hsignal⟩⟩
  | reconnect ok => cases ha
  | complete t =>
    simp only [step] at h
    split at h
    · obtain rfl := Option.some.inj h
      exact ⟨he, fun hrun => ⟨hrun, rfl, id⟩⟩
    · cases h
  | disconnect t =>
    simp only [step] at h
    split at h
    · obtain rfl := Option.some.inj h
      exact ⟨he, fun hrun => ⟨hrun, rfl, id⟩⟩
    · cases h
  | go t ok =>
    obtain ⟨happ, hrunning, hr, hp, hsignal⟩ := stepCall_frame h
    refine ⟨happ ▸ he, fun hrun => ?_⟩
    rw [hrunning] at hrun
    refine ⟨hrun, hr, fun hready => hready.mono hr ?_ hsignal⟩
    rcases hp with hp | ⟨hholds, hp⟩
    · exact Nat.le_of_eq (congrArg BitVec.toNat hp.symm)
    · rw [hp, K.add_toNat (App.late_of_runs (K.runs ▸ hrun)) hholds]
      exact Nat.le_succ _

/-- While nothing of a batch is posted, the count is what it says. -/
theorem Kept.toInt_pending (K : Kept s) (hrun : s.running = true) (hr : s.reconnect.posted = 0) :
    s.pendingConnectCount.toInt = s.pendingConnectCount.toNat := by
  have hle := K.pending_le (App.late_of_runs (K.runs ▸ hrun))
  have hlt := s.target_lt
  exact toInt_eq (by omega)

/-- It takes a step on it. -/
theorem ready_turn (K : Kept s) (hrun : s.running = true) (hready : s.ready)
    (hd : 0 < s.reconnect.distance) :
    ∃ s', (∀ ok, step s (.reconnect ok) = some s') ∧ s'.app = s.app ∧ s'.running = true ∧ s'.ready ∧
      s'.reconnect.distance + 1 = s.reconnect.distance := by
  unfold Sys.ready at hready
  cases hpc : s.reconnect with
  | testRunning =>
    rw [hpc] at hready
    refine ⟨{ s with reconnect := .acquire }, fun ok => ?_, rfl, hrun, hready, rfl⟩
    simp only [step, Sys.stepReconnect, hpc, hrun, if_true]
  | acquire =>
    rw [hpc] at hready
    refine ⟨{ s with reconnectSignal := false, reconnect := .retest }, fun ok => ?_, rfl, hrun, hready.2, rfl⟩
    simp only [step, Sys.stepReconnect, hpc, hready.1, if_true]
  | retest =>
    rw [hpc] at hready
    refine ⟨{ s with reconnect := .loadPending }, fun ok => ?_, rfl, hrun, hready, rfl⟩
    simp only [step, Sys.stepReconnect, hpc, hrun, if_true]
  | loadPending =>
    rw [hpc] at hready
    have hpos : 0 < s.pendingConnectCount.toInt := by
      rw [K.toInt_pending hrun (by rw [hpc]; rfl)]
      exact Int.natCast_pos.mpr hready
    refine ⟨{ s with reconnect := .loop s.pendingConnectCount 0 }, fun ok => ?_, rfl, hrun, ⟨rfl, hpos⟩, rfl⟩
    simp only [step, Sys.stepReconnect, hpc, hpos, if_true]
  | loop pending i =>
    rw [hpc] at hready
    obtain ⟨rfl, hpos⟩ := hready
    refine ⟨{ s with reconnect := .post pending 0 .checkFn }, fun ok => ?_, rfl, hrun, ⟨rfl, rfl⟩, rfl⟩
    simp only [step, Sys.stepReconnect, hpc, Int.natCast_zero, hpos, if_true]
  | none | post _ _ _ | subtract _ | ended =>
    rw [hpc] at hd
    cases hd

omit [Fintype T] in
theorem stepReconnect_frame {ok : Bool} (h : step s (.reconnect ok) = some s') :
    s'.app = s.app ∧ s'.running = s.running := by
  simp only [step, Sys.stepReconnect] at h
  split at h
  case h_1 | h_9 => cases h
  case h_3 =>
    split at h
    · obtain rfl := Option.some.inj h
      exact ⟨rfl, rfl⟩
    · cases h
  case h_7 =>
    obtain rfl := Option.some.inj h
    split <;> exact ⟨rfl, rfl⟩
  all_goals
    obtain rfl := Option.some.inj h
    exact ⟨rfl, rfl⟩

omit [DecidableEq T] [Fintype T] in
theorem Sys.ready.arrived (h : s.ready) (hd : s.reconnect.distance = 0) :
    ∃ pending, s.reconnect = .post pending 0 .checkFn := by
  unfold Sys.ready at h
  cases hpc : s.reconnect <;> rw [hpc] at h hd
  case post pending i pc =>
    obtain ⟨rfl, rfl⟩ := h
    exact ⟨pending, rfl⟩
  case none | subtract | ended => exact h.elim
  all_goals cases hd

omit [DecidableEq T] [Fintype T] in
/-- Outside of the loop, a signal is all it needs. -/
theorem ready_of_pending (hr : s.reconnect.posting = false) (hnone : s.reconnect ≠ .none)
    (hended : s.reconnect ≠ .ended) (hpos : 0 < s.pendingConnectCount.toNat)
    (hwake : s.reconnectSignal = true ∨ s.reconnect.woken = true) :
    s.ready ∧ 0 < s.reconnect.distance := by
  unfold Sys.ready
  cases hpc : s.reconnect <;> rw [hpc] at hr hnone hended hwake
  case testRunning | acquire =>
    rcases hwake with hsignal | hwoken
    · exact ⟨⟨hsignal, hpos⟩, Nat.succ_pos _⟩
    · cases hwoken
  case retest | loadPending => exact ⟨hpos, Nat.succ_pos _⟩
  case none => exact absurd rfl hnone
  case ended => exact absurd rfl hended
  all_goals cases hr

/-- **The run lemma**: after `k` steps of the reconnect thread, that much of the way is behind it. -/
theorem later_ready (h : Reachable (client T) s) (he : s.app.early = false) (hready : s.ready) {k : Nat}
    (hl : Later s k s') :
    Reachable (client T) s' ∧ s'.app.early = false ∧ (s'.running = true → k ≤ s.reconnect.distance →
      s'.ready ∧ s'.reconnect.distance + k = s.reconnect.distance) := by
  induction hl with
  | here => exact ⟨h, he, fun _ _ => ⟨hready, rfl⟩⟩
  | @other k s₁ s₂ a hl ha hstep ih =>
    obtain ⟨hr, he₁, ih⟩ := ih
    obtain ⟨he₂, hother⟩ := ready_other (kept hr) he₁ ha hstep
    refine ⟨.step hr ⟨a, hstep⟩, he₂, fun hrun hk => ?_⟩
    obtain ⟨hrun₁, hsame, hready₂⟩ := hother hrun
    obtain ⟨hready₁, hdist⟩ := ih hrun₁ hk
    exact ⟨hready₂ hready₁, by rw [hsame]; exact hdist⟩
  | @turn k s₁ s₂ ok hl hstep ih =>
    obtain ⟨hr, he₁, ih⟩ := ih
    have hframe := stepReconnect_frame hstep
    refine ⟨.step hr ⟨_, hstep⟩, hframe.1 ▸ he₁, fun hrun hk => ?_⟩
    have hrun₁ : s₁.running = true := hframe.2 ▸ hrun
    obtain ⟨hready₁, hdist⟩ := ih hrun₁ (by omega)
    obtain ⟨s₃, hstep₃, -, -, hready₃, hdist₃⟩ := ready_turn (kept hr) hrun₁ hready₁ (by omega)
    obtain rfl : s₂ = s₃ := Option.some.inj (hstep.symm.trans (hstep₃ ok))
    exact ⟨hready₃, by omega⟩

theorem retries (h : Reachable (client T) s) (he : s.app.early = false) (hready : s.ready) : Retries s := by
  intro k s' hl hrun hk
  obtain ⟨hr, -, hon⟩ := later_ready h he hready hl
  obtain ⟨hready', hdist⟩ := hon hrun hk
  constructor
  · intro hlt
    obtain ⟨s'', hstep, -⟩ := ready_turn (kept hr) hrun hready' (by omega)
    exact ⟨s'', hstep true⟩
  · intro heq
    exact hready'.arrived (by omega)

end Retry

/-! ## Every run -/

section Runs

variable {s : Sys T}

/-- In a quiet state of a running client the slots are at three places only. -/
theorem Kept.slots (K : Kept s) (hrun : s.running = true) (hquiet : Quiet s) :
    s.reconnect.posted = 0 ∧ s.app.early = false ∧ s.reconnect ≠ .none ∧ s.reconnect ≠ .ended ∧
    s.pendingConnectCount.toNat + s.refused + s.connected + s.connecting + total Call.leaving s.calls
      = s.target := by
  obtain ⟨happ, hr, hcalls⟩ := hquiet
  have hruns : s.app.runs = true := K.runs ▸ hrun
  have ho := App.late_of_runs hruns
  have happ : s.app.early = false ∧ s.app.todo s.target = 0 := by
    cases hs : s.app <;> rw [hs] at happ hruns <;> simp_all [App.runs, App.starting, App.early, App.todo]
  have hposted : s.reconnect.posted = 0 := by
    cases hs : s.reconnect <;> rw [hs] at hr <;> first | rfl | cases hr
  have hholds : total Call.holds s.calls = total Call.leaving s.calls := by
    refine Finset.sum_congr rfl fun t _ => ?_
    have hcall := hcalls t
    cases hs : s.calls t with
    | loadRunning | deleteUser | idle | release _ => rfl
    | fetchAdd caller =>
      cases caller with
      | handler =>
        rw [hs] at hcall
        cases hcall
      | destructor => rfl
    | _ =>
      rw [hs] at hcall
      cases hcall
  have hsum := K.sum ho
  have halive := K.alive happ.1 ho
  exact ⟨hposted, happ.1, halive.1, halive.2, by omega⟩

/-- **The slots of a client**: whenever nobody is about to hand one on, they are all there unless a
    `PostConnectEx` has returned false.  And what is pending is tried again: the reconnect thread is on
    its way, or somebody is about to wake it. -/
theorem client_slots (h : Reachable (client T) s) (hrun : s.running = true) (hquiet : Quiet s) :
    (Slots s ↔ s.refused = 0) ∧
    (0 < s.pendingConnectCount.toInt → (∃ t caller, s.calls t = .release caller) ∨
      0 < s.reconnect.distance ∧ Retries s) := by
  have K := kept h
  obtain ⟨hposted, he, hnone, hended, hsum⟩ := K.slots hrun hquiet
  have hint := K.toInt_pending hrun hposted
  constructor
  · unfold Slots
    rw [hint]
    omega
  · intro hpos
    have hpos : 0 < s.pendingConnectCount.toNat := by omega
    have hbatch : s.reconnect.batch = 0 := by
      have hr := hquiet.2.1
      cases hs : s.reconnect <;> rw [hs] at hr <;> first | rfl | cases hr
    have hready := ready_of_pending hquiet.2.1 hnone hended hpos
    rcases K.wake (App.late_of_runs (K.runs ▸ hrun)) (by omega) with hsignal | hwaking | hwoken
    · obtain ⟨hready, hd⟩ := hready (.inl hsignal)
      exact .inr ⟨hd, retries h he hready⟩
    · obtain ⟨t, ht⟩ := exists_of_total_pos hwaking
      refine .inl ⟨t, ?_⟩
      cases hs : s.calls t with
      | release caller => exact ⟨caller, rfl⟩
      | _ =>
        rw [hs] at ht
        cases ht
    · obtain ⟨hready, hd⟩ := hready (.inr hwoken)
      exact .inr ⟨hd, retries h he hready⟩

end Runs

/-- A client for two connections: the first one succeeds, the second one fails and is pending. -/
theorem client_slots_two : ∃ s : Sys (Fin 1), Reachable (client (Fin 1)) s ∧ Slots s ∧
    0 < s.reconnect.distance ∧ Retries s := by
  have hinit : (client (Fin 1)).init { targetConnectionCount := 2#32 } := ⟨_, rfl⟩
  obtain ⟨s, hr, hp⟩ := exists_reachable_of_exec hinit (fun s a s' h => ⟨a, h⟩)
    (List.replicate 19 (.app true) ++ [.complete 0, .go 0 true, .go 0 true, .go 0 true,
      .complete 0, .go 0 false, .go 0 true, .go 0 true, .go 0 true, .go 0 true])
    (fun s => decide (s.running = true ∧ s.app = .started ∧ s.reconnect = .testRunning ∧
      s.calls 0 = .idle ∧ s.refused = 0 ∧ s.pendingConnectCount = 1#32)) (by decide)
  obtain ⟨hrun, happ, hrec, hcall, hrefused, hpending⟩ := of_decide_eq_true hp
  have hidle : ∀ t, s.calls t = .idle := fun t => (Subsingleton.elim t 0).symm ▸ hcall
  obtain ⟨hslots, hretry⟩ := client_slots hr hrun ⟨happ ▸ rfl, hrec ▸ rfl, fun t => hidle t ▸ rfl⟩
  refine ⟨s, hr, hslots.mpr hrefused, ?_⟩
  rcases hretry (by rw [hpending]; decide) with ⟨t, caller, hcall⟩ | hretry
  · rw [hidle t] at hcall
    cases hcall
  · exact hretry

/-- **A connect that is refused at once**: with a single slot, no socket for it, and nobody left to
    try again. -/
theorem refused_connect : ∃ s : Sys (Fin 1), Reachable (client (Fin 1)) s ∧ s.running = true ∧
    Quiet s ∧ ¬ Slots s := by
  have hinit : (client (Fin 1)).init { targetConnectionCount := 1#32 } := ⟨_, rfl⟩
  obtain ⟨s, hr, hp⟩ := exists_reachable_of_exec hinit (fun s a s' h => ⟨a, h⟩)
    (List.replicate 6 (.app true) ++ [.app false, .app true, .reconnect true])
    (fun s => decide (s.running = true ∧ s.app = .started ∧ s.reconnect = .acquire ∧
      s.calls 0 = .idle ∧ s.refused = 1)) (by decide)
  obtain ⟨hrun, happ, hrec, hcall, hrefused⟩ := of_decide_eq_true hp
  have hidle : ∀ t, s.calls t = .idle := fun t => (Subsingleton.elim t 0).symm ▸ hcall
  have hquiet : Quiet s := ⟨happ ▸ rfl, hrec ▸ rfl, fun t => hidle t ▸ rfl⟩
  refine ⟨s, hr, hrun, hquiet, fun hslots => ?_⟩
  obtain ⟨hposted, -, -, -, hsum⟩ := (kept hr).slots hrun hquiet
  unfold Slots at hslots
  rw [(kept hr).toInt_pending hrun hposted] at hslots
  omega

end JunCore.ClientSlots
