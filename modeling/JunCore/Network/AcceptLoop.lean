/-
  `Server::StartServer`, `StopServer` and `PostAcceptEx` in `Server.cpp`, and `HandleAcceptComplete` in
  `IOCPManager.cpp`: how a server gets its connections.

  `StartServer` posts one `AcceptEx`, and whoever handles the completion of an `AcceptEx` posts the next
  one.  So the accepts are chains: each of them goes on until a `PostAcceptEx` fails.  Nobody else posts
  any, nobody mends a chain, and nobody looks at `running`.  How many there are is told by the calls of
  `StartServer` and the failures (`accept_chains`), which has two consequences.  When the last chain breaks
  the server is still running, `StartServer` refuses to start it again, and no connection is accepted any
  more (`deaf`).  And a chain that has outlived `StopServer` goes on at the socket of the next
  `StartServer`.

  One thread starts and stops the server; an exception may come from `OnServerStart`.  The listening
  sockets are numbered as they are created.  What becomes of a connection is told in `SessionSteps.lean`,
  and of the sockets of the connections in `SocketSteps.lean`.
-/
import JunCore.Lib.Counting
import JunCore.Lib.Contention
import Mathlib.Algebra.BigOperators.Ring.Finset

set_option linter.unusedVariables false
set_option linter.unusedSectionVars false

namespace JunCore.AcceptLoop

open Transition Function Counting

/-! ## The program -/

/-- An `AcceptEx` that the system has, on which listening socket, and its completion: whether a client has
    connected. -/
structure Accept where
  listen : Nat
  done : Option Bool := none
  deriving DecidableEq

/-- Where a thread is in `PostAcceptEx`. -/
inductive PostPc
  /-- `if (!fnAcceptEx)` -/
  | function
  /-- `WSASocket` -/
  | socket
  /-- `RegisterSocket(acceptSocket)` -/
  | register
  /-- `fnAcceptEx(listenSocket, ..)` -/
  | acceptEx

/-- What `StartServer` does with the new socket; each may fail. -/
inductive Prepare
  | bind
  | listen
  -- `LoadAcceptExFunctions`
  | loadAcceptEx
  | loadSockaddrs
  /-- `RegisterSocket(listenSocket)` -/
  | register

/-- Where the thread is that starts and stops the server. -/
inductive ControlPc
  | idle
  -- `StartServer`
  | testRunning
  | startGameThreads
  | socket
  | prepare (p : Prepare)
  | setRunning
  | post (pc : PostPc)
  | onServerStart
  -- what it does before it returns false
  | clearRunning
  | closeListen
  | stopThreads
  -- `StopServer`
  | exchange
  | stopGameThreads
  | closeSocket
  | invalidate
  | onServerStop

/-- Where a worker is in `HandleAcceptComplete`. -/
inductive WorkerPc
  /-- not in it -/
  | wait
  /-- `setsockopt(.., SO_UPDATE_ACCEPT_CONTEXT, ..)`, which fails if nobody has connected -/
  | setsockopt (accepted : Bool)
  | getpeername
  /-- `new User`, `Set`, `OnSessionConnect`, `RecvAsync` -/
  | connect
  | post (pc : PostPc)

structure Server (W : Type) where
  running : Bool := false
  /-- `none` is `INVALID_SOCKET` -/
  listenSocket : Option Nat := none
  /-- whether `fnAcceptEx` is loaded -/
  loaded : Bool := false
  /-- whether the game threads and the core thread have been started, and not been stopped -/
  threads : Bool := false
  control : ControlPc := .idle
  accepts : List Accept := []
  workers : W → WorkerPc := fun _ => .wait
  -- how many listening sockets were created, and how often each was closed
  opened : Nat := 0
  closes : Nat → Nat := fun _ => 0
  /-- since `StopServer` was called last, `OnServerStart` has thrown -/
  threw : Bool := false
  -- how many accepts `StartServer` has posted, how often `HandleAcceptComplete` has failed to post the
  -- next, and how many connections there were
  started : Nat := 0
  broken : Nat := 0
  connected : Nat := 0

inductive Act (W : Type)
  | start
  | stop
  /-- the thread that starts and stops the server goes on, and what it asks for succeeds or not -/
  | control (ok : Bool)
  /-- the completion of an accept -/
  | complete (a : Accept) (accepted : Bool)
  /-- a worker gets it -/
  | take (w : W) (a : Accept)
  | worker (w : W) (ok : Bool)

variable {W : Type} [DecidableEq W]

def Server.isOpen (s : Server W) (k : Nat) : Bool := decide (k < s.opened ∧ s.closes k = 0)

/-- `closesocket(listenSocket)` -/
def Server.close (s : Server W) : Server W :=
  match s.listenSocket with
  | some k => { s with closes := update s.closes k (s.closes k + 1) }
  | none => s

/-- A step of `PostAcceptEx`: where it goes on, or what it returns. -/
def Server.post (s : Server W) (ok : Bool) : PostPc → Server W × (PostPc ⊕ Bool)
  | .function => (s, if s.loaded then .inl .socket else .inr false)
  | .socket => (s, if ok then .inl .register else .inr false)
  | .register => (s, if ok then .inl .acceptEx else .inr false)
  | .acceptEx =>
    match s.listenSocket with
    | some k =>
      if ok && s.isOpen k then ({ s with accepts := s.accepts ++ [{ listen := k }] }, .inr true)
      else (s, .inr false)
    | none => (s, .inr false)

def Prepare.next : Prepare → ControlPc
  | .bind => .prepare .listen
  | .listen => .prepare .loadAcceptEx
  | .loadAcceptEx => .prepare .loadSockaddrs
  | .loadSockaddrs => .prepare .register
  | .register => .setRunning

def Prepare.loads : Prepare → Bool
  | .loadAcceptEx => true
  | _ => false

/-- A step of `StartServer` or `StopServer`. -/
def Server.controlStep (s : Server W) (ok : Bool) : Option (Server W) :=
  match s.control with
  | .idle => none
  | .testRunning => some { s with control := if s.running then .idle else .startGameThreads }
  | .startGameThreads => some { s with threads := true, control := .socket }
  | .socket =>
    if ok then
      some { s with listenSocket := some s.opened, opened := s.opened + 1, control := .prepare .bind }
    else some { s with listenSocket := none, control := .stopThreads }
  | .prepare p =>
    if ok then some { s with loaded := s.loaded || p.loads, control := p.next }
    else some { s with control := .closeListen }
  | .setRunning => some { s with running := true, control := .post .function }
  | .post pc =>
    match s.post ok pc with
    | (s, .inl pc) => some { s with control := .post pc }
    | (s, .inr true) => some { s with started := s.started + 1, control := .onServerStart }
    | (s, .inr false) => some { s with control := .clearRunning }
  | .onServerStart =>
    -- the exception is caught: the threads are stopped, and nothing else
    if ok then some { s with control := .idle } else some { s with threw := true, control := .stopThreads }
  | .clearRunning => some { s with running := false, control := .closeListen }
  | .closeListen => some { s.close with control := .stopThreads }
  | .stopThreads => some { s with threads := false, control := .idle }
  | .exchange =>
    if s.running then some { s with running := false, threw := false, control := .stopGameThreads }
    else some { s with control := .idle }
  | .stopGameThreads => some { s with threads := false, control := .closeSocket }
  | .closeSocket => some { s.close with control := .invalidate }
  | .invalidate => some { s with listenSocket := none, control := .onServerStop }
  | .onServerStop => some { s with control := .idle }

/-- A step of a worker in `HandleAcceptComplete`. -/
def Server.workerStep (s : Server W) (w : W) (ok : Bool) : Option (Server W) :=
  match s.workers w with
  | .wait => none
  | .setsockopt accepted =>
    some { s with workers := update s.workers w (if ok && accepted then .getpeername else .post .function) }
  | .getpeername =>
    some { s with workers := update s.workers w (if ok then .connect else .post .function) }
  | .connect =>
    some { s with connected := s.connected + 1, workers := update s.workers w (.post .function) }
  | .post pc =>
    match s.post ok pc with
    | (s, .inl pc) => some { s with workers := update s.workers w (.post pc) }
    | (s, .inr true) => some { s with workers := update s.workers w .wait }
    | (s, .inr false) => some { s with broken := s.broken + 1, workers := update s.workers w .wait }

def Server.step (s : Server W) : Act W → Option (Server W)
  | .start =>
    match s.control with
    | .idle => some { s with control := .testRunning }
    | _ => none
  | .stop =>
    match s.control with
    | .idle => some { s with control := .exchange }
    | _ => none
  | .control ok => s.controlStep ok
  | .complete a accepted =>
    -- a client connects to an open socket; when the socket is closed, or something fails, nobody does
    if a ∈ s.accepts ∧ a.done = none ∧ (accepted = true → s.isOpen a.listen = true) then
      some { s with accepts := { a with done := some accepted } :: s.accepts.erase a }
    else none
  | .take w a =>
    match s.workers w, a.done with
    | .wait, some accepted =>
      if a ∈ s.accepts then
        some { s with
          accepts := s.accepts.erase a
          workers := update s.workers w (.setsockopt accepted) }
      else none
    | _, _ => none
  | .worker w ok => s.workerStep w ok

/-- **All runs of a server.** -/
def accepting (W : Type) [DecidableEq W] : System (Server W) where
  init s := s = {}
  next s s' := ∃ a, s.step a = some s'

theorem step_next (s : Server W) (a : Act W) (s' : Server W) (h : s.step a = some s') :
    (accepting W).next s s' := ⟨a, h⟩

/-- `PostAcceptEx` posts an accept on the socket that is listening, or changes nothing and returns false in
    the end. -/
theorem Server.post_cases (s : Server W) (ok : Bool) (pc : PostPc) :
    (∃ r, r ≠ .inr true ∧ s.post ok pc = (s, r)) ∨
      ∃ k, s.listenSocket = some k ∧ s.isOpen k = true ∧
        s.post ok pc = ({ s with accepts := s.accepts ++ [{ listen := k }] }, .inr true) := by
  cases pc with
  | function | socket | register =>
    refine .inl ⟨_, ?_, rfl⟩
    split <;> exact nofun
  | acceptEx =>
    simp only [Server.post]
    split
    · rename_i k hlisten
      split
      · rename_i hok
        exact .inr ⟨k, hlisten, (Bool.and_eq_true_iff.mp hok).2, rfl⟩
      · exact .inl ⟨.inr false, nofun, rfl⟩
    · exact .inl ⟨.inr false, nofun, rfl⟩

/-! ## Runs -/

/-- The thread that starts and stops the server goes on, and all succeeds. -/
def controls (n : Nat) : List (Act Unit) := List.replicate n (.control true)

def startServer : List (Act Unit) := .start :: controls 14

def stopServer : List (Act Unit) := .stop :: controls 5

/-- The completion of the accept on a socket is handled, up to `WSASocket`, which succeeds or not. -/
def handles (k : Nat) (accepted ok : Bool) : List (Act Unit) :=
  .complete { listen := k } accepted :: .take () ⟨k, some accepted⟩ ::
    List.replicate (if accepted then 4 else 2) (.worker () true) ++ [.worker () ok]

/-- `AcceptEx` has failed, as the socket was closed; the next is posted, or not. -/
def lateAccept : List (Act Unit) := handles 0 false true ++ List.replicate 2 (.worker () true)

/-- Nobody is starting or stopping the server. -/
def Server.isIdle (s : Server W) : Bool :=
  match s.control with
  | .idle => true
  | _ => false

theorem Server.control_of_isIdle {s : Server W} (h : s.isIdle = true) : s.control = .idle := by
  unfold Server.isIdle at h
  split at h
  · assumption
  · cases h

/-! ## The listening sockets -/

/-- Each of the listening sockets has been closed once, but for the one that is listening, if there is
    one. -/
def Sockets (listenSocket : Option Nat) (opened : Nat) (closes : Nat → Nat) (listens : Bool) : Prop :=
  (∀ j, opened ≤ j → closes j = 0) ∧
    if listens then
      ∃ k, listenSocket = some k ∧ k < opened ∧ closes k = 0 ∧ ∀ j, j < opened → j ≠ k → closes j = 1
    else ∀ j, j < opened → closes j = 1

section Sockets

variable {listenSocket : Option Nat} {opened : Nat} {closes : Nat → Nat}

/-- A socket is created. -/
theorem Sockets.create (S : Sockets listenSocket opened closes false) :
    Sockets (some opened) (opened + 1) closes true := by
  refine ⟨fun j hj => S.1 j (by omega), opened, rfl, Nat.lt_succ_self opened, S.1 opened (Nat.le_refl _),
    fun j hj hne => S.2 j (by omega)⟩

/-- The socket that is closed is the one that listens. -/
theorem Sockets.close_eq {s : Server W} (S : Sockets s.listenSocket s.opened s.closes true) : s.close
    = { s with closes := update s.closes (s.listenSocket.getD 0) (s.closes (s.listenSocket.getD 0) + 1) } := by
  obtain ⟨-, k, hlisten, -⟩ := S
  unfold Server.close
  rw [hlisten]
  rfl

/-- It is closed. -/
theorem Sockets.close (S : Sockets listenSocket opened closes true) : Sockets listenSocket opened
    (update closes (listenSocket.getD 0) (closes (listenSocket.getD 0) + 1)) false := by
  obtain ⟨hunused, k, rfl, hk, hopen, hothers⟩ := S
  rw [Option.getD_some]
  constructor
  · intro j hj
    rw [update_of_ne (by omega)]
    exact hunused j hj
  · intro j hj
    by_cases hjk : j = k
    · subst hjk
      rw [update_self, hopen]
    · rw [update_of_ne hjk]
      exact hothers j hj hjk

/-- Nothing is listening, whatever `listenSocket` says. -/
theorem Sockets.forget (S : Sockets listenSocket opened closes false) (l : Option Nat) :
    Sockets l opened closes false := S

end Sockets

/-! ## What holds at each place -/

/-- Whether a socket is listening. -/
def ControlPc.listens (running : Bool) : ControlPc → Bool
  | .idle | .testRunning | .exchange | .stopThreads => running
  | .startGameThreads | .socket | .invalidate | .onServerStop => false
  | .prepare _ | .setRunning | .post _ | .onServerStart | .clearRunning | .closeListen => true
  | .stopGameThreads | .closeSocket => true

/-- What is known of `running`, of the threads, and of an exception. -/
def ControlPc.Fits (running threads threw : Bool) : ControlPc → Prop
  | .idle | .testRunning | .exchange => threads = (running && !threw) ∧ (threw = true → running = true)
  | .startGameThreads | .closeSocket | .invalidate | .onServerStop =>
    running = false ∧ threads = false ∧ threw = false
  | .socket | .prepare _ | .setRunning | .closeListen => running = false ∧ threads = true ∧ threw = false
  | .post _ | .onServerStart | .clearRunning => running = true ∧ threads = true ∧ threw = false
  | .stopThreads => threads = true ∧ running = threw
  | .stopGameThreads => running = false ∧ threw = false

/-- **The server is in order.** -/
structure Ordered (s : Server W) : Prop where
  sockets : Sockets s.listenSocket s.opened s.closes (s.control.listens s.running)
  fits : s.control.Fits s.running s.threads s.threw

/-- **A step of `StartServer` or `StopServer`.** -/
theorem Ordered.control {s s' : Server W} {ok : Bool} (O : Ordered s) (h : s.controlStep ok = some s') :
    Ordered s' := by
  obtain ⟨hsockets, hfits⟩ := O
  obtain ⟨running, listenSocket, loaded, threads, control, accepts, workers, opened, closes, threw, started,
    broken, connected⟩ := s
  cases control with
  | idle => cases h
  | testRunning =>
    rw [← Option.some.inj h]
    cases running with
    | true => exact ⟨hsockets, hfits⟩
    | false =>
      refine ⟨hsockets, rfl, hfits.1, ?_⟩
      cases threw with
      | true => exact absurd (hfits.2 rfl) nofun
      | false => rfl
  | startGameThreads =>
    obtain ⟨rfl, rfl, rfl⟩ := hfits
    rw [← Option.some.inj h]
    exact ⟨hsockets, rfl, rfl, rfl⟩
  | socket =>
    obtain ⟨rfl, rfl, rfl⟩ := hfits
    cases ok with
    | true =>
      rw [← Option.some.inj h]
      exact ⟨hsockets.create, rfl, rfl, rfl⟩
    | false =>
      rw [← Option.some.inj h]
      exact ⟨hsockets.forget none, rfl, rfl⟩
  | prepare p =>
    cases ok with
    | true =>
      rw [← Option.some.inj h]
      cases p <;> exact ⟨hsockets, hfits⟩
    | false =>
      rw [← Option.some.inj h]
      exact ⟨hsockets, hfits⟩
  | setRunning =>
    rw [← Option.some.inj h]
    exact ⟨hsockets, rfl, hfits.2⟩
  | post pc =>
    simp only [Server.controlStep] at h
    rcases Server.post_cases (W := W) _ ok pc with ⟨r, hr, hpost⟩ | ⟨k, -, -, hpost⟩
    · rw [hpost] at h
      rcases r with pc' | _ | _
      · rw [← Option.some.inj h]
        exact ⟨hsockets, hfits⟩
      · rw [← Option.some.inj h]
        exact ⟨hsockets, hfits⟩
      · exact absurd rfl hr
    · rw [hpost] at h
      rw [← Option.some.inj h]
      exact ⟨hsockets, hfits⟩
  | onServerStart =>
    obtain ⟨rfl, rfl, rfl⟩ := hfits
    cases ok with
    | true =>
      rw [← Option.some.inj h]
      exact ⟨hsockets, rfl, nofun⟩
    | false =>
      rw [← Option.some.inj h]
      exact ⟨hsockets, rfl, rfl⟩
  | clearRunning =>
    rw [← Option.some.inj h]
    exact ⟨hsockets, rfl, hfits.2⟩
  | closeListen =>
    obtain ⟨rfl, rfl, rfl⟩ := hfits
    rw [← Option.some.inj h, hsockets.close_eq]
    exact ⟨hsockets.close, rfl, rfl⟩
  | stopThreads =>
    obtain ⟨rfl, hthrew⟩ := hfits
    obtain rfl : running = threw := hthrew
    rw [← Option.some.inj h]
    exact ⟨hsockets, (Bool.and_not_self running).symm, id⟩
  | exchange =>
    cases running with
    | true =>
      rw [← Option.some.inj h]
      exact ⟨hsockets, rfl, rfl⟩
    | false =>
      rw [← Option.some.inj h]
      exact ⟨hsockets, hfits⟩
  | stopGameThreads =>
    obtain ⟨rfl, rfl⟩ := hfits
    rw [← Option.some.inj h]
    exact ⟨hsockets, rfl, rfl, rfl⟩
  | closeSocket =>
    rw [← Option.some.inj h, hsockets.close_eq]
    exact ⟨hsockets.close, hfits⟩
  | invalidate =>
    rw [← Option.some.inj h]
    exact ⟨hsockets.forget none, hfits⟩
  | onServerStop =>
    obtain ⟨rfl, rfl, rfl⟩ := hfits
    rw [← Option.some.inj h]
    exact ⟨hsockets, rfl, nofun⟩

/-! ## What a worker does -/

/-- How many steps a worker has to go at most. -/
def PostPc.left : PostPc → Nat
  | .function => 4
  | .socket => 3
  | .register => 2
  | .acceptEx => 1

def WorkerPc.left : WorkerPc → Nat
  | .wait => 0
  | .setsockopt _ => 7
  | .getpeername => 6
  | .connect => 5
  | .post pc => pc.left

/-- Whether it has a chain in hand. -/
def WorkerPc.busy : WorkerPc → Nat
  | .wait => 0
  | _ => 1

/-- **What a worker may do next**: go on, post the next accept, or fail to. -/
inductive Works (s : Server W) (w : W) : Server W → Prop
  | goes {pc : WorkerPc} (connected : Nat) (hbusy : (s.workers w).busy = 1) (hpc : pc.busy = 1)
      (hleft : pc.left < (s.workers w).left) :
      Works s w { s with connected := connected, workers := update s.workers w pc }
  | posts {k : Nat} (hlisten : s.listenSocket = some k) (hopen : s.isOpen k = true)
      (hbusy : (s.workers w).busy = 1) :
      Works s w { s with
        accepts := s.accepts ++ [{ listen := k }]
        workers := update s.workers w .wait }
  | breaks (hbusy : (s.workers w).busy = 1) (hleft : 0 < (s.workers w).left) :
      Works s w { s with broken := s.broken + 1, workers := update s.workers w .wait }

theorem post_left {s : Server W} {ok : Bool} {pc pc' : PostPc} (h : (s.post ok pc).2 = .inl pc') :
    pc'.left < pc.left := by
  cases pc with
  | function | socket | register =>
    simp only [Server.post] at h
    split at h
    · rw [← Sum.inl.inj h]
      exact Nat.lt_succ_self _
    · cases h
  | acceptEx =>
    simp only [Server.post] at h
    split at h
    · split at h <;> cases h
    · cases h

theorem worker_works {s s' : Server W} {w : W} {ok : Bool} (h : s.workerStep w ok = some s') :
    Works s w s' := by
  simp only [Server.workerStep] at h
  cases hpc : s.workers w with
  | wait =>
    rw [hpc] at h
    cases h
  | setsockopt accepted =>
    rw [hpc] at h
    rw [← Option.some.inj h]
    refine .goes s.connected (by rw [hpc]; rfl) ?_ ?_
    · split <;> rfl
    · rw [hpc, show (WorkerPc.setsockopt accepted).left = 7 from rfl]
      split <;> decide
  | getpeername =>
    rw [hpc] at h
    rw [← Option.some.inj h]
    refine .goes s.connected (by rw [hpc]; rfl) ?_ ?_
    · split <;> rfl
    · rw [hpc]
      split <;> decide
  | connect =>
    rw [hpc] at h
    rw [← Option.some.inj h]
    exact .goes (s.connected + 1) (by rw [hpc]; rfl) rfl (by rw [hpc]; decide)
  | post pc =>
    rw [hpc] at h
    have hbusy : (s.workers w).busy = 1 := by rw [hpc]; rfl
    have hpos : 0 < (s.workers w).left := by
      rw [hpc]
      cases pc <;> decide
    dsimp only at h
    rcases s.post_cases ok pc with ⟨r, hr, hpost⟩ | ⟨k, hlisten, hopen, hpost⟩
    · rw [hpost] at h
      rcases r with pc' | _ | _
      · rw [← Option.some.inj h]
        refine .goes s.connected hbusy rfl ?_
        rw [hpc]
        exact post_left (congrArg Prod.snd hpost)
      · rw [← Option.some.inj h]
        exact .breaks hbusy hpos
      · exact absurd rfl hr
    · rw [hpost] at h
      rw [← Option.some.inj h]
      exact .posts hlisten hopen hbusy

/-- **What may happen next.** -/
inductive Does (s : Server W) : Act W → Server W → Prop
  | start (hidle : s.control = .idle) : Does s .start { s with control := .testRunning }
  | stop (hidle : s.control = .idle) : Does s .stop { s with control := .exchange }
  | control {ok : Bool} {s' : Server W} (h : s.controlStep ok = some s') : Does s (.control ok) s'
  | complete {a : Accept} {accepted : Bool} (hmem : a ∈ s.accepts) (hdone : a.done = none)
      (hopen : accepted = true → s.isOpen a.listen = true) :
      Does s (.complete a accepted)
        { s with accepts := { a with done := some accepted } :: s.accepts.erase a }
  | take {w : W} {a : Accept} {accepted : Bool} (hwait : s.workers w = .wait) (hmem : a ∈ s.accepts)
      (hdone : a.done = some accepted) :
      Does s (.take w a)
        { s with
          accepts := s.accepts.erase a
          workers := update s.workers w (.setsockopt accepted) }
  | worker {w : W} {ok : Bool} {s' : Server W} (h : Works s w s') : Does s (.worker w ok) s'

theorem step_does {s s' : Server W} {a : Act W} (h : s.step a = some s') : Does s a s' := by
  cases a with
  | start =>
    simp only [Server.step] at h
    split at h
    · rename_i hidle
      rw [← Option.some.inj h]
      exact .start hidle
    · cases h
  | stop =>
    simp only [Server.step] at h
    split at h
    · rename_i hidle
      rw [← Option.some.inj h]
      exact .stop hidle
    · cases h
  | control ok => exact .control h
  | complete a accepted =>
    simp only [Server.step] at h
    split at h
    · rename_i hok
      rw [← Option.some.inj h]
      exact .complete hok.1 hok.2.1 hok.2.2
    · cases h
  | take w a =>
    simp only [Server.step] at h
    split at h
    · rename_i accepted hwait hdone
      split at h
      · rename_i hmem
        rw [← Option.some.inj h]
        exact .take hwait hmem hdone
      · cases h
    · cases h
  | worker w ok => exact .worker (worker_works h)

/-- **The run lemma.** -/
theorem ordered {s : Server W} (h : Reachable (accepting W) s) : Ordered s := by
  apply h.invariant (I := Ordered)
  · rintro _ rfl
    exact ⟨⟨fun _ _ => rfl, fun j hj => absurd hj (Nat.not_lt_zero j)⟩, rfl, nofun⟩
  · rintro s s' - O ⟨a, hstep⟩
    cases step_does hstep with
    | start hidle | stop hidle =>
      obtain ⟨hsockets, hfits⟩ := O
      rw [hidle] at hsockets hfits
      exact ⟨hsockets, hfits⟩
    | control h => exact O.control h
    | complete | take => exact ⟨O.sockets, O.fits⟩
    | worker h => cases h <;> exact ⟨O.sockets, O.fits⟩

/-! ## The chains -/

section Chains

variable [Fintype W]

/-- The chains that go on: an accept is posted, or a worker has its completion in hand. -/
def Server.chains (s : Server W) : Nat := s.accepts.length + total WorkerPc.busy s.workers

/-- A step of a worker: its chain goes on, or breaks. -/
theorem Works.chains {s s' : Server W} {w : W} (h : Works s w s') :
    s'.chains + s'.broken = s.chains + s.broken := by
  cases h with
  | @goes pc connected hbusy hpc hleft =>
    have htotal := total_update WorkerPc.busy s.workers w pc
    show s.accepts.length + total WorkerPc.busy (update s.workers w pc) + s.broken = _
    unfold Server.chains
    omega
  | @posts k hlisten hopen hbusy =>
    have htotal := total_update WorkerPc.busy s.workers w .wait
    have hwait : WorkerPc.wait.busy = 0 := rfl
    show (s.accepts ++ [_]).length + total WorkerPc.busy (update s.workers w .wait) + s.broken = _
    rw [List.length_append, List.length_singleton]
    unfold Server.chains
    omega
  | breaks hbusy hleft =>
    have htotal := total_update WorkerPc.busy s.workers w .wait
    have hwait : WorkerPc.wait.busy = 0 := rfl
    show s.accepts.length + total WorkerPc.busy (update s.workers w .wait) + (s.broken + 1) = _
    unfold Server.chains
    omega

/-- A step of `StartServer` or `StopServer` posts the first accept, or has nothing to do with accepts. -/
theorem control_posts {s s' : Server W} {ok : Bool} (h : s.controlStep ok = some s') :
    (s'.accepts = s.accepts ∧ s'.workers = s.workers ∧ s'.broken = s.broken ∧ s'.started = s.started) ∨
      (∃ pc, s.control = .post pc) ∧ ∃ k, s' = { s with
        accepts := s.accepts ++ [{ listen := k }]
        started := s.started + 1
        control := .onServerStart } := by
  have hclose : ∀ c : ControlPc, some { s.close with control := c } = some s' →
      s'.accepts = s.accepts ∧ s'.workers = s.workers ∧ s'.broken = s.broken ∧ s'.started = s.started := by
    intro c h
    rw [← Option.some.inj h]
    unfold Server.close
    split <;> exact ⟨rfl, rfl, rfl, rfl⟩
  simp only [Server.controlStep] at h
  cases hpc : s.control with
  | idle =>
    rw [hpc] at h
    cases h
  | socket | prepare | onServerStart | exchange =>
    rw [hpc] at h
    dsimp only at h
    left
    split at h <;> rw [← Option.some.inj h] <;> exact ⟨rfl, rfl, rfl, rfl⟩
  | post pc =>
    rw [hpc] at h
    dsimp only at h
    rcases s.post_cases ok pc with ⟨r, hr, hpost⟩ | ⟨k, -, -, hpost⟩
    · rw [hpost] at h
      rcases r with pc' | _ | _
      · rw [← Option.some.inj h]
        exact .inl ⟨rfl, rfl, rfl, rfl⟩
      · rw [← Option.some.inj h]
        exact .inl ⟨rfl, rfl, rfl, rfl⟩
      · exact absurd rfl hr
    · rw [hpost] at h
      rw [← Option.some.inj h]
      exact .inr ⟨⟨pc, rfl⟩, k, rfl⟩
  | closeListen | closeSocket =>
    rw [hpc] at h
    exact .inl (hclose _ h)
  | _ =>
    rw [hpc] at h
    rw [← Option.some.inj h]
    exact .inl ⟨rfl, rfl, rfl, rfl⟩

/-- **The chains**: as many go on as `StartServer` has begun, but for the broken ones. -/
theorem chains {s : Server W} (h : Reachable (accepting W) s) : s.chains + s.broken = s.started := by
  apply h.invariant (I := fun s : Server W => s.chains + s.broken = s.started)
  · rintro _ rfl
    have hnone : total WorkerPc.busy ({} : Server W).workers = 0 := total_eq_zero fun w => rfl
    unfold Server.chains
    rw [hnone]
    rfl
  · rintro s s' - C ⟨a, hstep⟩
    cases step_does hstep with
    | start hidle | stop hidle => exact C
    | control h =>
      rcases control_posts h with ⟨haccepts, hworkers, hbroken, hstarted⟩ | ⟨-, k, rfl⟩
      · unfold Server.chains
        rw [haccepts, hworkers, hbroken, hstarted]
        exact C
      · show (s.accepts ++ [_]).length + total WorkerPc.busy s.workers + s.broken = s.started + 1
        rw [List.length_append, List.length_singleton, ← C]
        unfold Server.chains
        omega
    | @complete a accepted hmem hdone hopen =>
      have hlength := List.length_erase_add_one hmem
      show (s.accepts.erase a).length + 1 + total WorkerPc.busy s.workers + s.broken = s.started
      rw [hlength]
      exact C
    | @take w a accepted hwait hmem hdone =>
      have hlength := List.length_erase_add_one hmem
      have htotal := total_update WorkerPc.busy s.workers w (.setsockopt accepted)
      rw [hwait, show WorkerPc.wait.busy = 0 from rfl,
        show (WorkerPc.setsockopt accepted).busy = 1 from rfl] at htotal
      show (s.accepts.erase a).length + total WorkerPc.busy (update s.workers w _) + s.broken = s.started
      rw [← C]
      unfold Server.chains
      omega
    | worker h =>
      have hstarted : s'.started = s.started := by cases h <;> rfl
      rw [h.chains, hstarted]
      exact C

/-- No chain is left. -/
theorem chains_eq_zero {s : Server W} (h : s.chains = 0) : s.accepts = [] ∧ ∀ w, s.workers w = .wait := by
  have haccepts : s.accepts.length = 0 := by
    unfold Server.chains at h
    omega
  refine ⟨List.length_eq_zero_iff.mp haccepts, fun w => ?_⟩
  have hle := le_total WorkerPc.busy s.workers w
  have hbusy : (s.workers w).busy = 0 := by
    unfold Server.chains at h
    omega
  cases hpc : s.workers w with
  | wait => rfl
  | _ =>
    rw [hpc] at hbusy
    cases hbusy

/-- A server that is running, and at whose socket nobody waits any more. -/
structure Deaf (s : Server W) (n : Nat) : Prop where
  running : s.running = true
  control : s.control = .idle ∨ s.control = .testRunning ∨ s.control = .exchange
  chains : s.chains = 0
  connected : s.connected = n

/-- As long as nobody stops it, it stays so: `StartServer` finds that it is running. -/
theorem Deaf.step {s s' : Server W} {n : Nat} (D : Deaf s n) (h : (accepting W).next s s')
    (hrunning : s'.running = true) : Deaf s' n := by
  obtain ⟨hrun, hcontrol, hchains, hconnected⟩ := D
  obtain ⟨haccepts, hworkers⟩ := chains_eq_zero hchains
  obtain ⟨a, hstep⟩ := h
  cases step_does hstep with
  | start hidle => exact ⟨hrun, .inr (.inl rfl), hchains, hconnected⟩
  | stop hidle => exact ⟨hrun, .inr (.inr rfl), hchains, hconnected⟩
  | control h =>
    simp only [Server.controlStep] at h
    rcases hcontrol with hc | hc | hc
    · rw [hc] at h
      cases h
    · rw [hc] at h
      rw [← Option.some.inj h]
      refine ⟨hrun, .inl ?_, hchains, hconnected⟩
      exact if_pos hrun
    · rw [hc] at h
      dsimp only at h
      rw [if_pos hrun] at h
      rw [← Option.some.inj h] at hrunning
      cases hrunning
  | complete hmem | take _ hmem =>
    rw [haccepts] at hmem
    cases hmem
  | @worker w ok s' h =>
    have hidle : (s.workers w).busy = 0 := by
      rw [hworkers w]
      rfl
    cases h with
    | goes _ hbusy | posts _ _ hbusy | breaks hbusy =>
      rw [hidle] at hbusy
      cases hbusy

theorem Deaf.stays {s s' : Server W} {n : Nat} (D : Deaf s n)
    (h : Reachable (((accepting W).guard fun _ s' => s'.running = true).after s) s') : Deaf s' n := by
  apply h.invariant (I := fun s' : Server W => Deaf s' n)
  · rintro _ rfl
    exact D
  · rintro s₁ s₂ - D hnext
    exact D.step hnext.1 hnext.2

/-- **The accept loop.**  The chains that go on are those that `StartServer` has begun and that have not
    broken.  And when all of them are broken while the server is running, then as long as it is not
    stopped it accepts nothing any more, whatever is called. -/
theorem accept_chains {s : Server W} (h : Reachable (accepting W) s) : s.chains + s.broken = s.started ∧
    (s.control = .idle → s.running = true → s.broken = s.started →
      ∀ s', Reachable (((accepting W).guard fun _ s' => s'.running = true).after s) s' →
        s'.accepts = [] ∧ (∀ w, s'.workers w = .wait) ∧ s'.connected = s.connected) := by
  have C := chains h
  refine ⟨C, fun hidle hrunning hbroken s' h' => ?_⟩
  have D : Deaf s s.connected := ⟨hrunning, .inl hidle, by omega, rfl⟩
  have D' := D.stays h'
  obtain ⟨haccepts, hworkers⟩ := chains_eq_zero D'.chains
  exact ⟨haccepts, hworkers, D'.connected⟩

/-- The server is started again before the accept on the closed socket is handled: then there are two on the
    new one.  And a server whose `WSASocket` has failed once. -/
theorem accept_chains_two :
    (∃ s : Server Unit, s.accepts = [{ listen := 1 }, { listen := 1 }] ∧ s.chains + s.broken = s.started) ∧
    ∃ s : Server Unit, s.running = true ∧ s.connected = 1 ∧
      ∀ s', Reachable (((accepting Unit).guard fun _ s' => s'.running = true).after s) s' →
        s'.accepts = [] := by
  constructor
  · obtain ⟨s, hr, hp⟩ := exists_reachable_of_exec (M := accepting Unit) rfl step_next
      (startServer ++ stopServer ++ startServer ++ lateAccept)
      (fun s => decide (s.accepts = [{ listen := 1 }, { listen := 1 }])) (by decide)
    exact ⟨s, of_decide_eq_true hp, (accept_chains hr).1⟩
  · obtain ⟨s, hr, hp⟩ := exists_reachable_of_exec (M := accepting Unit) rfl step_next
      (startServer ++ handles 0 true false)
      (fun s => s.isIdle && decide (s.running = true ∧ s.connected = 1 ∧ s.broken = s.started)) (by decide)
    obtain ⟨hidle, hp⟩ := Bool.and_eq_true_iff.mp hp
    obtain ⟨hrunning, hconnected, hbroken⟩ := of_decide_eq_true hp
    have hquiet := (accept_chains hr).2 (Server.control_of_isIdle hidle) hrunning hbroken
    exact ⟨s, hrunning, hconnected, fun s' h' => (hquiet s' h').1⟩

/-! ## After `StopServer` -/

/-- How many steps an accept has to go at most, if it cannot be followed by another. -/
def Accept.left (a : Accept) : Nat := if a.done = none then 9 else 8

def Server.left (s : Server W) : Nat := (s.accepts.map Accept.left).sum + total WorkerPc.left s.workers

theorem WorkerPc.left_le (pc : WorkerPc) : pc.left ≤ 9 * pc.busy := by
  cases pc with
  | post pc => cases pc <;> decide
  | setsockopt accepted => exact Nat.le_add_right 7 2
  | _ => decide

theorem left_le (s : Server W) : s.left ≤ 9 * s.chains := by
  have haccepts : (s.accepts.map Accept.left).sum ≤ s.accepts.length * 9 := by
    refine (List.sum_le_card_nsmul _ 9 fun n hn => ?_).trans_eq ?_
    · obtain ⟨a, -, rfl⟩ := List.mem_map.mp hn
      unfold Accept.left
      split <;> decide
    · rw [List.length_map, nsmul_eq_mul, Nat.cast_id]
  have hworkers : total WorkerPc.left s.workers ≤ 9 * total WorkerPc.busy s.workers := by
    unfold total
    rw [Finset.mul_sum]
    exact Finset.sum_le_sum fun w _ => (s.workers w).left_le
  unfold Server.left Server.chains
  omega

/-- The server has been stopped, or has not been started. -/
structure Halted (s : Server W) : Prop where
  running : s.running = false
  control : s.control = .idle ∨ s.control = .exchange
  closed : ∀ k, s.isOpen k = false

/-- What the workers and the system do. -/
def Act.works : Act W → Nat
  | .complete _ _ | .take _ _ | .worker _ _ => 1
  | .start | .stop | .control _ => 0

/-- A step that is not a call of `StartServer`. -/
def Server.stepHalted (s : Server W) : Act W → Option (Server W)
  | .start => none
  | a => s.step a

/-- **Each step is one less.** -/
theorem Halted.step {s s' : Server W} {a : Act W} (H : Halted s) (h : s.stepHalted a = some s') :
    Halted s' ∧ a.works + s'.left ≤ s.left := by
  obtain ⟨hrunning, hcontrol, hclosed⟩ := H
  have hstep : s.step a = some s' := by
    cases a with
    | start => cases h
    | _ => exact h
  cases step_does hstep with
  | start hidle => cases h
  | stop hidle => exact ⟨⟨hrunning, .inr rfl, hclosed⟩, by exact Nat.le_of_eq (Nat.zero_add _)⟩
  | control h =>
    simp only [Server.controlStep] at h
    rcases hcontrol with hc | hc
    · rw [hc] at h
      cases h
    · rw [hc, hrunning] at h
      rw [← Option.some.inj h]
      exact ⟨⟨rfl, .inl rfl, hclosed⟩, Nat.le_of_eq (Nat.zero_add _)⟩
  | @complete a accepted hmem hdone hopen =>
    refine ⟨⟨hrunning, hcontrol, hclosed⟩, ?_⟩
    have hsum := List.sum_map_erase Accept.left hmem
    have hbefore : a.left = 9 := if_pos hdone
    have hafter : ({ a with done := some accepted } : Accept).left = 8 := if_neg nofun
    show 1 + ((({ a with done := some accepted } :: s.accepts.erase a).map Accept.left).sum
      + total WorkerPc.left s.workers) ≤ _
    rw [List.map_cons, List.sum_cons, hafter]
    unfold Server.left
    omega
  | @take w a accepted hwait hmem hdone =>
    refine ⟨⟨hrunning, hcontrol, hclosed⟩, ?_⟩
    have hsum := List.sum_map_erase Accept.left hmem
    have hbefore : a.left = 8 := by
      unfold Accept.left
      rw [hdone]
      rfl
    have htotal := total_update WorkerPc.left s.workers w (.setsockopt accepted)
    rw [hwait, show WorkerPc.wait.left = 0 from rfl,
      show (WorkerPc.setsockopt accepted).left = 7 from rfl] at htotal
    show 1 + (((s.accepts.erase a).map Accept.left).sum
      + total WorkerPc.left (update s.workers w (.setsockopt accepted))) ≤ _
    unfold Server.left
    omega
  | @worker w ok s' h =>
    cases h with
    | @goes pc connected hbusy hpc hleft =>
      refine ⟨⟨hrunning, hcontrol, hclosed⟩, ?_⟩
      have htotal := total_update WorkerPc.left s.workers w pc
      show 1 + ((s.accepts.map Accept.left).sum + total WorkerPc.left (update s.workers w pc)) ≤ _
      unfold Server.left
      omega
    | @posts k hlisten hopen =>
      rw [hclosed k] at hopen
      cases hopen
    | breaks hbusy hleft =>
      refine ⟨⟨hrunning, hcontrol, hclosed⟩, ?_⟩
      have htotal := total_update WorkerPc.left s.workers w .wait
      rw [show WorkerPc.wait.left = 0 from rfl] at htotal
      show 1 + ((s.accepts.map Accept.left).sum + total WorkerPc.left (update s.workers w .wait)) ≤ _
      unfold Server.left
      omega

/-- As long as a chain goes on, somebody can take a step. -/
theorem exists_work [Nonempty W] {s : Server W} (h : 0 < s.chains) :
    ∃ a : Act W, a.works = 1 ∧ (s.step a).isSome = true := by
  by_cases hbusy : ∃ w, s.workers w ≠ .wait
  · obtain ⟨w, hw⟩ := hbusy
    refine ⟨.worker w true, rfl, ?_⟩
    simp only [Server.step, Server.workerStep]
    cases hpc : s.workers w with
    | wait => exact absurd hpc hw
    | setsockopt accepted | getpeername | connect => rfl
    | post pc =>
      dsimp only
      rcases s.post_cases true pc with ⟨r, -, hpost⟩ | ⟨k, -, -, hpost⟩
      · rcases r with pc' | _ | _ <;> rw [hpost] <;> rfl
      · rw [hpost]
        rfl
  · have hwait : ∀ w, s.workers w = .wait := fun w => by_contra fun hw => hbusy ⟨w, hw⟩
    have hzero : total WorkerPc.busy s.workers = 0 := total_eq_zero fun w => by rw [hwait w]; rfl
    unfold Server.chains at h
    cases haccepts : s.accepts with
    | nil =>
      rw [haccepts, hzero] at h
      cases h
    | cons a rest =>
      have hmem : a ∈ s.accepts := by
        rw [haccepts]
        exact List.mem_cons_self
      cases hdone : a.done with
      | none =>
        refine ⟨.complete a false, rfl, ?_⟩
        simp only [Server.step]
        rw [if_pos ⟨hmem, hdone, nofun⟩]
        rfl
      | some accepted =>
        obtain ⟨w⟩ := ‹Nonempty W›
        refine ⟨.take w a, rfl, ?_⟩
        simp only [Server.step, hwait w, hdone]
        rw [if_pos hmem]
        rfl

/-- **After `StopServer`** the accepts come to an end: until `StartServer` is called again, the workers and
    the system take at most nine steps for each chain that goes on, and when they cannot take any more,
    all chains are broken. -/
theorem accepts_end [Nonempty W] {s : Server W} (h : Reachable (accepting W) s) (hidle : s.control = .idle)
    (hstopped : s.running = false) {es : List (Act W)} {s' : Server W}
    (hes : exec Server.stepHalted es s = some s') :
    (es.map Act.works).sum ≤ 9 * (s.started - s.broken) ∧
      ((∀ a : Act W, a.works = 1 → s'.step a = none) → s'.broken = s'.started) := by
  have C := chains h
  obtain ⟨hsockets, -⟩ := ordered h
  rw [hidle, hstopped] at hsockets
  have H : Halted s := by
    refine ⟨hstopped, .inl hidle, fun k => decide_eq_false fun hopen => ?_⟩
    have hclosed := hsockets.2 k hopen.1
    omega
  have hbound := Contention.exec_bound Halted Server.left (fun _ => 0) Act.works 0
    (fun s a s' H h => H.step h) es H hes
  refine ⟨?_, fun hnone => ?_⟩
  · have hleft := left_le s
    have hchains : s.chains = s.started - s.broken := by omega
    rw [← hchains]
    omega
  · have hnext : ∀ (s : Server W) (a : Act W) (s' : Server W), s.stepHalted a = some s' →
        (accepting W).next s s' := by
      intro s a s' hs
      refine ⟨a, ?_⟩
      cases a with
      | start => cases hs
      | _ => exact hs
    have hreach : Reachable (accepting W) s' := reachable_of_exec hnext es h hes
    have C' := chains hreach
    have hzero : s'.chains = 0 := by
      refine Nat.eq_zero_of_not_pos fun hpos => ?_
      obtain ⟨a, ha, hsome⟩ := exists_work hpos
      rw [hnone a ha] at hsome
      cases hsome
    omega

/-- The server is stopped, and the accept on the closed socket is handled: the chain breaks. -/
theorem accepts_end_one : ∃ s s' : Server Unit, s.accepts = [{ listen := 0 }] ∧
    exec Server.stepHalted lateAccept s = some s' ∧
    (lateAccept.map Act.works).sum ≤ 9 * (s.started - s.broken) := by
  obtain ⟨s, hr, hp⟩ := exists_reachable_of_exec (M := accepting Unit) rfl step_next
    (startServer ++ stopServer)
    (fun s => s.isIdle && decide (s.running = false ∧ s.accepts = [{ listen := 0 }]) &&
      (exec Server.stepHalted lateAccept s).isSome) (by decide)
  obtain ⟨hp, hsome⟩ := Bool.and_eq_true_iff.mp hp
  obtain ⟨hidle, hp⟩ := Bool.and_eq_true_iff.mp hp
  obtain ⟨hrunning, haccepts⟩ := of_decide_eq_true hp
  obtain ⟨s', hs'⟩ := Option.isSome_iff_exists.mp hsome
  exact ⟨s, s', haccepts, hs', (accepts_end hr (Server.control_of_isIdle hidle) hrunning hs').1⟩

end Chains

/-! ## Between two calls -/

/-- **What the calls leave behind.**  Between two calls of `StartServer` and `StopServer` each listening
    socket but one has been closed, once; that one is listening if the server is running, else it has been
    closed, too.  And the threads are running if the server is, unless `OnServerStart` has thrown: then the
    server is running without them. -/
theorem server_in_order {s : Server W} (h : Reachable (accepting W) s) (hidle : s.control = .idle) :
    (∀ j, s.closes j ≤ 1) ∧ s.threads = (s.running && !s.threw) ∧
    (s.running = false → ∀ j, j < s.opened → s.closes j = 1) ∧
    (s.running = true → ∃ k, s.listenSocket = some k ∧ s.isOpen k = true ∧ ∀ j, s.isOpen j = true → j = k) := by
  obtain ⟨hsockets, hfits⟩ := ordered h
  rw [hidle] at hsockets hfits
  have hsockets : Sockets s.listenSocket s.opened s.closes s.running := hsockets
  obtain ⟨hunused, hrest⟩ := hsockets
  cases hrunning : s.running with
  | false =>
    rw [hrunning] at hrest hfits
    refine ⟨fun j => ?_, hfits.1, fun _ => hrest, nofun⟩
    rcases Nat.lt_or_ge j s.opened with hj | hj
    · exact Nat.le_of_eq (hrest j hj)
    · rw [hunused j hj]
      exact Nat.zero_le 1
  | true =>
    rw [hrunning] at hrest hfits
    obtain ⟨k, hlisten, hk, hopen, hothers⟩ := hrest
    refine ⟨fun j => ?_, hfits.1, nofun, fun _ => ⟨k, hlisten, decide_eq_true ⟨hk, hopen⟩, fun j hj => ?_⟩⟩
    · rcases Nat.lt_or_ge j s.opened with hj | hj
      · by_cases hjk : j = k
        · rw [hjk, hopen]
          exact Nat.zero_le 1
        · exact Nat.le_of_eq (hothers j hj hjk)
      · rw [hunused j hj]
        exact Nat.zero_le 1
    · by_contra hjk
      obtain ⟨hlt, hzero⟩ := of_decide_eq_true hj
      rw [hothers j hlt hjk] at hzero
      cases hzero

/-- `OnServerStart` throws: the server is running without its threads. -/
theorem server_in_order_one : ∃ s : Server Unit, s.running = true ∧ s.threads = false ∧
    ∃ k, s.listenSocket = some k ∧ s.isOpen k = true := by
  obtain ⟨s, hr, hp⟩ := exists_reachable_of_exec (M := accepting Unit) rfl step_next
    (.start :: controls 13 ++ [.control false, .control true])
    (fun s => s.isIdle && decide (s.running = true ∧ s.threads = false)) (by decide)
  obtain ⟨hidle, hp⟩ := Bool.and_eq_true_iff.mp hp
  obtain ⟨hrunning, hthreads⟩ := of_decide_eq_true hp
  obtain ⟨-, -, -, hlistens⟩ := server_in_order hr (Server.control_of_isIdle hidle)
  obtain ⟨k, hlisten, hopen, -⟩ := hlistens hrunning
  exact ⟨s, hrunning, hthreads, k, hlisten, hopen⟩

end JunCore.AcceptLoop
