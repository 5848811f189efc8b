/-
  The socket handles of `Server::PostAcceptEx` and `Client::PostConnectEx`, `HandleAcceptComplete` and
  `HandleConnectComplete` (`IOCPManager.cpp`), and `Session::Release`.

  Here the sessions are many, since they share the values that the system gives to their sockets.  Each
  socket has its own way through the code: it is made by one of the two functions, a worker handles the
  completion, and the thread that drops the last `shared_ptr` to its session closes it.  At every
  place any call of the system may fail, and the ways of all sockets interleave.

  What a session does between `Set` and its end matters here only by the references that it takes and
  drops.  The last part is `Steps`, the list of what a step can do with the socket it is about.
-/
import JunCore.Lib.Handles
import JunCore.Lib.Transition
import JunCore.Network.SessionSteps

set_option linter.unusedVariables false

namespace JunCore.SocketSteps

open Transition Handles
open SessionSteps (Engine)

/-! ## Data -/

/-- `PostAcceptEx` or `PostConnectEx`, after `WSASocket`. -/
inductive PostPc
  /-- only `PostConnectEx` -/
  | bind
  | register
  /-- the error exit of these two: there is no session yet -/
  | refused
  /-- only `PostConnectEx` -/
  | inetPton
  /-- `AcceptEx` or `ConnectEx` -/
  | call
  /-- the error exit of these two -/
  | failed
  | deleteOverlapped
  deriving DecidableEq

/-- `HandleAcceptComplete`. -/
inductive AcceptPc
  | cast
  | setsockopt
  | getpeername
  /-- the error exits; whether `server` is set -/
  | failed (server : Bool)
  | set
  /-- `OnSessionConnect` and `RecvAsync` -/
  | callback
  | postAcceptEx
  /-- the `PostAcceptEx` called here has made this socket, and has not returned -/
  | waiting (j : Nat)
  deriving DecidableEq

/-- `HandleConnectComplete`. -/
inductive ConnectPc
  | cast
  | setsockopt
  /-- the error exits -/
  | failed
  | set
  /-- `RecvAsync` and `OnConnectComplete` -/
  | callback
  deriving DecidableEq

/-- Where the code is with a socket. -/
inductive Stage
  | post (pc : PostPc)
  /-- the system has the `OverlappedEx` -/
  | pending
  | accept (pc : AcceptPc)
  | connect (pc : ConnectPc)
  /-- `delete p_overlapped` -/
  | delete
  /-- nothing is done with it, until the last reference ends -/
  | idle
  /-- `~Session`: the `closesocket` of `Release` -/
  | release
  /-- and its `Set` -/
  | set
  | ended
  deriving DecidableEq

/-- The members of `Session` that have to do with the socket, and the count of the `shared_ptr`s. -/
structure Session where
  /-- `sock_`; `none` is `INVALID_SOCKET` -/
  sock : Option Nat := none
  engine : Option Engine := none
  /-- `owner_user_ != nullptr` -/
  ownerUser : Bool := false
  refs : Nat := 0

/-- The assignments of `Set`. -/
def Session.set (k : Session) (sock : Option Nat) (engine : Option Engine) (user : Bool) : Session :=
  { k with
    sock := sock
    engine := engine
    ownerUser := user }

/-- A socket, with the session that is made for it. -/
structure Socket where
  /-- which of the two functions has made it -/
  madeBy : Engine
  /-- its local `acceptSocket` or `clientSocket` -/
  value : Nat
  /-- that function has not returned -/
  posting : Bool
  stage : Stage
  session : Session

/-- A call of `closesocket`. -/
structure Close where
  /-- the number of the socket it is meant for -/
  socket : Nat
  /-- the one it has closed -/
  hit : Option Nat
  /-- it was made on an error exit, for a socket that has a session -/
  onError : Bool
  deriving DecidableEq

/-- All sockets that were made, and the table of the system: which of them, by its number, is open
    under a value. -/
structure World where
  table : Nat → Option Nat
  sockets : List Socket
  closes : List Close

/-- Where the code is with the socket of this number. -/
def World.stageOf (w : World) (i : Nat) : Option Stage := w.sockets[i]?.map (·.stage)

def World.put (w : World) (i : Nat) (x : Socket) : World := { w with sockets := w.sockets.set i x }

/-- `WSASocket` returns a value under which nothing is open. -/
def World.socket (w : World) (e : Engine) (v : Nat) : World :=
  { w with
    table := give w.table v w.sockets.length
    sockets := w.sockets ++ [{
      madeBy := e
      value := v
      posting := true
      stage := .post (if e = .client then .bind else .register)
      session := {} }] }

/-- `closesocket`, meant for socket `i`.  `INVALID_SOCKET` is no socket. -/
def World.closesocket (w : World) (i : Nat) (sock : Option Nat) (onError : Bool) : World :=
  match sock with
  | some v => { w with table := close w.table v, closes := w.closes ++ [⟨i, w.table v, onError⟩] }
  | none => w

/-! ## Steps of the procedures -/

def Socket.goTo (x : Socket) (stage : Stage) : Socket := { x with stage := stage }

/-- The end of a `shared_ptr`: the last one runs the destructor. -/
def Socket.drop (x : Socket) (stage : Stage) : Socket :=
  { x with
    stage := if x.session.refs = 1 then .release else stage
    session := { x.session with refs := x.session.refs - 1 } }

/-- `make_shared<Session>()`, `sock_` and `SetEngine`, and `new OverlappedEx`, which takes a second
    reference. -/
def Socket.makeSession (x : Socket) : Socket :=
  { x with
    stage := .post (if x.madeBy = .client then .inetPton else .call)
    session := { sock := some x.value, engine := some x.madeBy, refs := 2 } }

/-- `PostAcceptEx` or `PostConnectEx`. -/
def postEx (w : World) (i : Nat) (x : Socket) (ok : Bool) : PostPc → World
  | .bind => w.put i (x.goTo (.post (if ok then .register else .refused)))
  | .register => w.put i (if ok then x.makeSession else x.goTo (.post .refused))
  | .refused =>
    (w.closesocket i (some x.value) false).put i { x with stage := .ended, posting := false }
  | .inetPton => w.put i (x.goTo (.post (if ok then .call else .failed)))
  | .call => w.put i (x.goTo (if ok then .pending else .post .failed))
  | .failed => (w.closesocket i (some x.value) true).put i (x.goTo (.post .deleteOverlapped))
  | .deleteOverlapped => w.put i (x.drop .idle)

/-- `HandleAcceptComplete`.  Its local `acceptSocket` is `sock_`, which nobody changes meanwhile; `v` is
    what `WSASocket` returns in the `PostAcceptEx` for the next session, if it succeeds. -/
def acceptComplete (w : World) (i : Nat) (x : Socket) (ok : Bool) (v : Nat) : AcceptPc → Option World
  | .cast =>
    some (w.put i (x.goTo (.accept
      (if x.session.engine = some .server then .setsockopt else .failed false))))
  | .setsockopt => some (w.put i (x.goTo (.accept (if ok then .getpeername else .failed true))))
  | .getpeername => some (w.put i (x.goTo (.accept (if ok then .set else .failed true))))
  | .failed server =>
    some ((w.closesocket i x.session.sock true).put i
      (x.goTo (if server then .accept .postAcceptEx else .delete)))
  | .set =>
    some (w.put i { x with
      stage := .accept .callback
      session := x.session.set x.session.sock (some .server) true })
  | .callback => some (w.put i (x.goTo (.accept .postAcceptEx)))
  | .postAcceptEx =>
    if ok && (w.table v).isNone then
      some ((w.put i (x.goTo (.accept (.waiting w.sockets.length)))).socket .server v)
    else some (w.put i (x.goTo .delete))
  | .waiting j =>
    if w.sockets[j]?.any (!·.posting) then some (w.put i (x.goTo .delete)) else none

/-- `HandleConnectComplete`. -/
def connectComplete (w : World) (i : Nat) (x : Socket) (ok : Bool) : ConnectPc → World
  | .cast =>
    w.put i (x.goTo (.connect
      (if x.session.engine = some .client then .setsockopt else .failed)))
  | .setsockopt => w.put i (x.goTo (.connect (if ok then .set else .failed)))
  | .failed => (w.closesocket i x.session.sock true).put i (x.goTo .delete)
  | .set =>
    w.put i { x with
      stage := .connect .callback
      session := x.session.set x.session.sock (some .client) true }
  | .callback => w.put i (x.goTo .delete)

/-- One step on the way of a socket. -/
def World.go (w : World) (i : Nat) (x : Socket) (ok : Bool) (v : Nat) : Option World :=
  match x.stage with
  | .post pc => some (postEx w i x ok pc)
  | .accept pc => acceptComplete w i x ok v pc
  | .connect pc => some (connectComplete w i x ok pc)
  | .delete => some (w.put i (x.drop .idle))
  | .release => some ((w.closesocket i x.session.sock false).put i (x.goTo .set))
  | .set =>
    some (w.put i { x with
      stage := .ended
      posting := false
      session := x.session.set none none false })
  | .pending | .idle | .ended => none

/-! ## All interleavings -/

/-- There is a session, and it is referenced. -/
def Stage.lives : Stage → Bool
  | .post .bind | .post .register | .post .refused | .release | .set | .ended => false
  | _ => true

/-- The stages in which the `OverlappedEx` of the call holds a reference. -/
def Stage.overlapped : Stage → Bool
  | .idle => false
  | p => p.lives

/-- `AcceptEx` or `ConnectEx` has been called, or given up. -/
def Stage.called : Stage → Bool
  | .post _ => false
  | p => p.lives

/-- The references that the `OverlappedEx` and the local `session` of the making function hold.  The
    others belong to receives, sends and callers of the `User`. -/
def Socket.held (x : Socket) : Nat :=
  x.stage.overlapped.toNat + (x.posting && x.stage.lives).toNat

inductive Act
  /-- `PostAcceptEx` or `PostConnectEx` is called, and `WSASocket` returns this -/
  | post (e : Engine) (v : Nat)
  | go (i : Nat) (ok : Bool) (v : Nat)
  /-- a worker takes the completion -/
  | complete (i : Nat)
  /-- `PostAcceptEx` or `PostConnectEx` returns, and its local `session` ends -/
  | leave (i : Nat)
  /-- a receive, a send or a caller of the `User` takes a reference -/
  | share (i : Nat)
  /-- and drops it -/
  | unshare (i : Nat)

/-- What a worker does with the completion. -/
def handler : Engine → Stage
  | .server => .accept .cast
  | .client => .connect .cast

/-- The making function returns: if it has dropped the last reference, after the destructor. -/
def Socket.leave (x : Socket) : Socket :=
  { x.drop x.stage with posting := decide (x.session.refs = 1) }

/-- A step; `none` when it cannot be taken. -/
def step (w : World) : Act → Option World
  | .post e v => if w.table v = none then some (w.socket e v) else none
  | .go i ok v => w.sockets[i]?.bind fun x => w.go i x ok v
  | .complete i =>
    w.sockets[i]?.bind fun x =>
      match x.stage with
      | .pending => some (w.put i (x.goTo (handler x.madeBy)))
      | _ => none
  | .leave i =>
    w.sockets[i]?.bind fun x =>
      if x.posting && x.stage.called then some (w.put i x.leave) else none
  | .share i =>
    w.sockets[i]?.bind fun x =>
      if x.stage.lives && x.session.ownerUser then
        some (w.put i { x with session := { x.session with refs := x.session.refs + 1 } })
      else none
  | .unshare i =>
    w.sockets[i]?.bind fun x =>
      if x.stage.lives && decide (x.held < x.session.refs) then some (w.put i (x.drop x.stage))
      else none

/-- **All runs**, from no socket on. -/
def system : System World where
  init w := w = ⟨fun _ => none, [], []⟩
  next w w' := ∃ a, step w a = some w'

/-! ## What a step can do -/

/-- There is no session yet. -/
def Stage.early : Stage → Bool
  | .post .bind | .post .register | .post .refused => true
  | _ => false

/-- `closesocket` has been called at the end of the way. -/
def Stage.closed : Stage → Bool
  | .set | .ended => true
  | _ => false

/-- The error exits. -/
def Stage.onError : Stage → Bool
  | .post .failed | .accept (.failed _) | .connect .failed => true
  | _ => false

/-- **What a step does with a socket that it does not close.** -/
inductive Moves (x : Socket) : Socket → Prop
  | early {p : Stage} (hx : x.stage.early = true) (hp : p.early = true) : Moves x (x.goTo p)
  | make (hx : x.stage.early = true) : Moves x x.makeSession
  | goTo {p : Stage} (hx : x.stage.overlapped = true) (hp : p.overlapped = true) : Moves x (x.goTo p)
  | set {p : Stage} (e : Engine) (hx : x.stage.overlapped = true) (hp : p.overlapped = true) :
      Moves x { x with stage := p, session := x.session.set x.session.sock (some e) true }
  | drop (hx : x.stage.overlapped = true) : Moves x (x.drop .idle)
  | leave (hposting : x.posting = true) (hx : x.stage.called = true) : Moves x x.leave
  | share (hx : x.stage.lives = true) :
      Moves x { x with session := { x.session with refs := x.session.refs + 1 } }
  | unshare (hx : x.stage.lives = true) (hheld : x.held < x.session.refs) :
      Moves x (x.drop x.stage)
  | finish (hx : x.stage = .set) :
      Moves x { x with stage := .ended, posting := false, session := x.session.set none none false }

/-- **What a step does with a socket that it closes**, or tries to. -/
inductive Closes (x : Socket) : Option Nat → Bool → Socket → Prop
  | refused (hx : x.stage = .post .refused) :
      Closes x (some x.value) false { x with stage := .ended, posting := false }
  | failed (hx : x.stage = .post .failed) :
      Closes x (some x.value) true (x.goTo (.post .deleteOverlapped))
  | handler {p : Stage} (hx : x.stage.onError = true) (hover : x.stage.overlapped = true)
      (hp : p.overlapped = true) : Closes x x.session.sock true (x.goTo p)
  | release (hx : x.stage = .release) : Closes x x.session.sock false (x.goTo .set)

/-- What a step does with the world. -/
inductive Steps (w : World) : World → Prop
  | socket (e : Engine) {v : Nat} (hfree : w.table v = none) : Steps w (w.socket e v)
  | accept {i v : Nat} {x : Socket} {p : Stage} (hx : w.sockets[i]? = some x)
      (hover : x.stage.overlapped = true) (hp : p.overlapped = true) (hfree : w.table v = none) :
      Steps w ((w.put i (x.goTo p)).socket .server v)
  | moves {i : Nat} {x x' : Socket} (hx : w.sockets[i]? = some x) (h : Moves x x') :
      Steps w (w.put i x')
  | closes {i : Nat} {x x' : Socket} {sock : Option Nat} {onError : Bool}
      (hx : w.sockets[i]? = some x) (h : Closes x sock onError x') :
      Steps w ((w.closesocket i sock onError).put i x')

theorem postEx_steps {w : World} {i : Nat} {x : Socket} (hx : w.sockets[i]? = some x) (ok : Bool)
    {pc : PostPc} (hpc : x.stage = .post pc) : Steps w (postEx w i x ok pc) := by
  have hearly : ∀ {p : Stage}, pc = .bind ∨ pc = .register → p.early = true → Moves x (x.goTo p) := by
    intro p h hp
    refine .early ?_ hp
    rw [hpc]
    rcases h with rfl | rfl <;> rfl
  cases pc with
  | bind => exact .moves hx (hearly (.inl rfl) (by cases ok <;> rfl))
  | register =>
    refine .moves hx ?_
    cases ok with
    | true => exact .make (by rw [hpc]; rfl)
    | false => exact hearly (.inr rfl) rfl
  | refused => exact .closes hx (.refused hpc)
  | inetPton => exact .moves hx (.goTo (by rw [hpc]; rfl) (by cases ok <;> rfl))
  | call => exact .moves hx (.goTo (by rw [hpc]; rfl) (by cases ok <;> rfl))
  | failed => exact .closes hx (.failed hpc)
  | deleteOverlapped => exact .moves hx (.drop (by rw [hpc]; rfl))

theorem acceptComplete_steps {w w' : World} {i v : Nat} {x : Socket} (hx : w.sockets[i]? = some x)
    {ok : Bool} {pc : AcceptPc} (hpc : x.stage = .accept pc)
    (h : acceptComplete w i x ok v pc = some w') : Steps w w' := by
  have hover : x.stage.overlapped = true := by rw [hpc]; rfl
  cases pc with
  | cast =>
    obtain rfl := Option.some.inj h
    exact .moves hx (.goTo hover (by split <;> rfl))
  | setsockopt | getpeername =>
    obtain rfl := Option.some.inj h
    exact .moves hx (.goTo hover (by split <;> rfl))
  | failed server =>
    obtain rfl := Option.some.inj h
    exact .closes hx (.handler (by rw [hpc]; rfl) hover (by split <;> rfl))
  | set =>
    obtain rfl := Option.some.inj h
    exact .moves hx (.set .server hover rfl)
  | callback =>
    obtain rfl := Option.some.inj h
    exact .moves hx (.goTo hover rfl)
  | postAcceptEx =>
    simp only [acceptComplete] at h
    split at h
    · rename_i hsocket
      obtain rfl := Option.some.inj h
      exact .accept hx hover rfl (Option.isNone_iff_eq_none.mp (Bool.and_eq_true_iff.mp hsocket).2)
    · obtain rfl := Option.some.inj h
      exact .moves hx (.goTo hover rfl)
  | waiting j =>
    simp only [acceptComplete] at h
    split at h
    · obtain rfl := Option.some.inj h
      exact .moves hx (.goTo hover rfl)
    · cases h

theorem connectComplete_steps {w : World} {i : Nat} {x : Socket} (hx : w.sockets[i]? = some x)
    (ok : Bool) {pc : ConnectPc} (hpc : x.stage = .connect pc) :
    Steps w (connectComplete w i x ok pc) := by
  have hover : x.stage.overlapped = true := by rw [hpc]; rfl
  cases pc with
  | cast | setsockopt => exact .moves hx (.goTo hover (by split <;> rfl))
  | failed => exact .closes hx (.handler (by rw [hpc]; rfl) hover rfl)
  | set => exact .moves hx (.set .client hover rfl)
  | callback => exact .moves hx (.goTo hover rfl)

/-- Every step on the way of a socket is one of these. -/
theorem go_steps {w w' : World} {i v : Nat} {x : Socket} (hx : w.sockets[i]? = some x) {ok : Bool}
    (h : w.go i x ok v = some w') : Steps w w' := by
  cases hstage : x.stage with
  | post pc =>
    simp only [World.go, hstage] at h
    obtain rfl := Option.some.inj h
    exact postEx_steps hx ok hstage
  | accept pc =>
    simp only [World.go, hstage] at h
    exact acceptComplete_steps hx hstage h
  | connect pc =>
    simp only [World.go, hstage] at h
    obtain rfl := Option.some.inj h
    exact connectComplete_steps hx ok hstage
  | delete =>
    simp only [World.go, hstage] at h
    obtain rfl := Option.some.inj h
    exact .moves hx (.drop (by rw [hstage]; rfl))
  | release =>
    simp only [World.go, hstage] at h
    obtain rfl := Option.some.inj h
    exact .closes hx (.release hstage)
  | set =>
    simp only [World.go, hstage] at h
    obtain rfl := Option.some.inj h
    exact .moves hx (.finish hstage)
  | pending | idle | ended =>
    simp only [World.go, hstage] at h
    cases h

/-- **Every step is one of these.** -/
theorem steps_of_next {w w' : World} (h : system.next w w') : Steps w w' := by
  obtain ⟨a, h⟩ := h
  cases a with
  | post e v =>
    simp only [step] at h
    split at h
    · rename_i hfree
      obtain rfl := Option.some.inj h
      exact .socket e hfree
    · cases h
  | go i ok v =>
    obtain ⟨x, hx, h⟩ := Option.bind_eq_some_iff.mp h
    exact go_steps hx h
  | complete i =>
    obtain ⟨x, hx, h⟩ := Option.bind_eq_some_iff.mp h
    split at h
    · rename_i hstage
      obtain rfl := Option.some.inj h
      exact .moves hx (.goTo (by rw [hstage]; rfl) (by cases x.madeBy <;> rfl))
    · cases h
  | leave i =>
    obtain ⟨x, hx, h⟩ := Option.bind_eq_some_iff.mp h
    split at h
    · rename_i hleave
      obtain rfl := Option.some.inj h
      obtain ⟨hposting, hcalled⟩ := Bool.and_eq_true_iff.mp hleave
      exact .moves hx (.leave hposting hcalled)
    · cases h
  | share i =>
    obtain ⟨x, hx, h⟩ := Option.bind_eq_some_iff.mp h
    split at h
    · rename_i hshare
      obtain rfl := Option.some.inj h
      exact .moves hx (.share (Bool.and_eq_true_iff.mp hshare).1)
    · cases h
  | unshare i =>
    obtain ⟨x, hx, h⟩ := Option.bind_eq_some_iff.mp h
    split at h
    · rename_i hunshare
      obtain rfl := Option.some.inj h
      obtain ⟨hlives, hheld⟩ := Bool.and_eq_true_iff.mp hunshare
      exact .moves hx (.unshare hlives (of_decide_eq_true hheld))
    · cases h

end JunCore.SocketSteps
