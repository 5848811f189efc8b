/-
  `GameServer/GameServer.h`/`.cpp`, with the rest of `JunCore/network/User.h`: the four request handlers
  of the game server and its two session callbacks.

  There are any number of sessions.  The callbacks of one session come one after the other:
  `OnSessionConnect`, then the handlers, `OnUserDisconnect` last.  Those of different sessions run on
  different workers and interleave.  A step is one access to the server's members, to the user or to
  its player.

  A `User` belongs to one session, and so do the players that are created with it as their owner: they
  are listed at the session, and a `Player*` is an index into that list.  What a player does with a call
  is the business of the job system; here the calls are recorded.
-/
import JunCore.GameServer.Player
import JunCore.Lib.Counting

set_option linter.unusedVariables false
set_option linter.dupNamespace false

namespace JunCore.GameServer

open Transition Function Counting

/-! ## What the handlers work on -/

inductive ErrorCode
  | alreadyLoggedIn
  | authFailed
  | playerNotFound
  | sceneNotFound
  | notLoggedIn
  deriving DecidableEq

inductive Request
  /-- `CG_LOGIN_REQ` -/
  | login
  /-- `CG_SCENE_READY_REQ` -/
  | sceneReady
  /-- `CG_SCENE_CHANGE_REQ` -/
  | sceneChange (sceneId : Int32)
  /-- `CG_MOVE_REQ`; its `cur_pos` is only logged -/
  | move (movePos : Pos)

inductive Reply
  /-- `GC_ERROR_NOTIFY` -/
  | error (code : ErrorCode) (message : String)
  /-- `GC_LOGIN_RES` -/
  | loginRes (playerId sceneId : Int32) (spawnPos : Pos)
  /-- `GC_SCENE_CHANGE_RES` -/
  | sceneChangeRes (sceneId : Int32) (spawnPos : Pos)

/-- What the server asks a player to do. -/
inductive PlayerCall (S : Type)
  /-- the job that `Create` posts -/
  | enter (scene : S)
  | moveToScene (scene : S)
  | postSetDestPosJob (pos : Pos)
  | destroy

def PlayerCall.isDestroy {S : Type} : PlayerCall S → Bool
  | .destroy => true
  | _ => false

/-- A player that was created, with the calls it got. -/
structure CreatedPlayer (S : Type) where
  playerId : UInt32
  calls : List (PlayerCall S)

def CreatedPlayer.destroys {S : Type} (p : CreatedPlayer S) : Nat := p.calls.countP PlayerCall.isDestroy

/-- All of a `User` but its `weak_ptr` to the session. -/
structure ServerUser extends User where
  playerId : UInt32 := 0
  player : Option Nat := none

/-- The members of the server. -/
structure GameServer (S : Type) where
  scene : Option S := none
  nextPlayerId : UInt32 := 1
  currentSessions : UInt32 := 0
  totalConnected : UInt32 := 0
  totalDisconnected : UInt32 := 0
  /-- how often `GeneratePlayerId` was called; read by nothing -/
  logins : Nat := 0

variable {S : Type}

/-- One scene only, under the id 0. -/
def GameServer.getSceneById (g : GameServer S) (sceneId : Int32) : Option S :=
  if sceneId = 0 then g.scene else none

def defaultSceneId : Int32 := 0

/-- `bool auth_success = true;` -/
def authSuccess : Bool := true

/-! ## One session -/

/-- Where a handler is. -/
inductive Handler (S : Type)
  /-- at its first check -/
  | begin (r : Request)
  | generatePlayerId
  | setPlayerId (id : UInt32)
  | setLastSceneId (id : UInt32)
  | setSpawnPos (id : UInt32)
  | sendLoginRes (id : UInt32)
  | getPlayer
  | getScene
  | create (scene : S)
  | setPlayer (player : Nat)
  | checkScene (player : Nat) (sceneId : Int32)
  | setNewSceneId (player : Nat) (sceneId : Int32) (scene : S)
  | setNewSpawnPos (player : Nat) (sceneId : Int32) (scene : S)
  | sendSceneChangeRes (player : Nat) (sceneId : Int32) (scene : S)
  | moveToScene (player : Nat) (scene : S)
  | postSetDestPosJob (player : Nat) (pos : Pos)
  /-- in `SendError`, after which every handler returns -/
  | sendError (code : ErrorCode) (message : String)

/-- What the worker of a session does. -/
inductive Stage (S : Type)
  | absent
  /-- in `OnSessionConnect` -/
  | accepted
  | counted
  | idle
  | handling (h : Handler S)
  /-- in `OnUserDisconnect` -/
  | parting
  | uncounted
  | looking
  | destroying (player : Nat)
  | clearing
  | gone

structure Session (S : Type) where
  stage : Stage S := .absent
  user : ServerUser := {}
  /-- the players created with this user as owner, oldest first -/
  players : List (CreatedPlayer S) := []
  /-- what the handlers have sent, oldest first -/
  sent : List Reply := []

namespace Session

def handle (s : Session S) (h : Handler S) : Session S := { s with stage := .handling h }

/-- The handler sends its last packet and returns. -/
def reply (s : Session S) (r : Reply) : Session S := { s with stage := .idle, sent := s.sent ++ [r] }

/-- A handler's last call, on the player. -/
def call (s : Session S) (player : Nat) (c : PlayerCall S) : Session S :=
  { s with players := s.players.modify player fun p => { p with calls := p.calls ++ [c] } }

end Session

/-- `std::to_string`, behind the text. -/
def sceneNotFoundMessage (sceneId : Int32) : String := "Scene not found: " ++ toString sceneId

/-- The next step of a handler. -/
def Handler.step (g : GameServer S) (s : Session S) : Handler S → GameServer S × Session S
  | .begin .login =>
      if s.user.playerId ≠ 0 then (g, s.handle (.sendError .alreadyLoggedIn "Already logged in"))
      else if !authSuccess then (g, s.handle (.sendError .authFailed "Authentication failed"))
      else (g, s.handle .generatePlayerId)
  | .generatePlayerId =>
      ({ g with nextPlayerId := g.nextPlayerId + 1, logins := g.logins + 1 },
        s.handle (.setPlayerId g.nextPlayerId))
  | .setPlayerId id => (g, { s with user.playerId := id, stage := .handling (.setLastSceneId id) })
  | .setLastSceneId id =>
      (g, { s with user.lastSceneId := defaultSceneId, stage := .handling (.setSpawnPos id) })
  | .setSpawnPos id => (g, { s with user.spawnPos := {}, stage := .handling (.sendLoginRes id) })
  | .sendLoginRes id => (g, s.reply (.loginRes id.toInt32 defaultSceneId {}))
  | .begin .sceneReady =>
      if s.user.playerId = 0 then (g, s.handle (.sendError .notLoggedIn "Not logged in"))
      else (g, s.handle .getPlayer)
  | .getPlayer =>
      match s.user.player with
      | some _ => (g, { s with stage := .idle })
      | none => (g, s.handle .getScene)
  | .getScene =>
      match g.getSceneById s.user.lastSceneId with
      | none => (g, s.handle (.sendError .sceneNotFound (sceneNotFoundMessage s.user.lastSceneId)))
      | some scene => (g, s.handle (.create scene))
  | .create scene =>
      (g, { s with
        players := s.players ++ [⟨s.user.playerId, [.enter scene]⟩]
        stage := .handling (.setPlayer s.players.length) })
  | .setPlayer player => (g, { s with user.player := some player, stage := .idle })
  | .begin (.sceneChange sceneId) =>
      match s.user.player with
      | none => (g, s.handle (.sendError .playerNotFound "Player not found"))
      | some player => (g, s.handle (.checkScene player sceneId))
  | .checkScene player sceneId =>
      match g.getSceneById sceneId with
      | none => (g, s.handle (.sendError .sceneNotFound (sceneNotFoundMessage sceneId)))
      | some scene => (g, s.handle (.setNewSceneId player sceneId scene))
  | .setNewSceneId player sceneId scene =>
      (g, { s with
        user.lastSceneId := sceneId
        stage := .handling (.setNewSpawnPos player sceneId scene) })
  | .setNewSpawnPos player sceneId scene =>
      (g, { s with
        user.spawnPos := {}
        stage := .handling (.sendSceneChangeRes player sceneId scene) })
  | .sendSceneChangeRes player sceneId scene =>
      (g, { s with
        sent := s.sent ++ [.sceneChangeRes sceneId {}]
        stage := .handling (.moveToScene player scene) })
  | .moveToScene player scene => (g, { s.call player (.moveToScene scene) with stage := .idle })
  | .begin (.move movePos) =>
      match s.user.player with
      | none => (g, s.handle (.sendError .playerNotFound "Player not found"))
      | some player => (g, s.handle (.postSetDestPosJob player movePos))
  | .postSetDestPosJob player pos => (g, { s.call player (.postSetDestPosJob pos) with stage := .idle })
  | .sendError code message => (g, s.reply (.error code message))

/-- What can happen to a session. -/
inductive Input
  /-- a client connects -/
  | accept
  /-- a request has arrived -/
  | request (r : Request)
  /-- the session ends -/
  | disconnect
  /-- the callback that is running takes a step -/
  | advance

def Session.step (g : GameServer S) (s : Session S) : Input → Option (GameServer S × Session S)
  | .accept => match s.stage with
    | .absent => some (g, { s with stage := .accepted })
    | _ => none
  | .request r => match s.stage with
    | .idle => some (g, s.handle (.begin r))
    | _ => none
  | .disconnect => match s.stage with
    | .idle => some (g, { s with stage := .parting })
    | _ => none
  | .advance => match s.stage with
    | .accepted => some ({ g with currentSessions := g.currentSessions + 1 }, { s with stage := .counted })
    | .counted => some ({ g with totalConnected := g.totalConnected + 1 }, { s with stage := .idle })
    | .handling h => some (h.step g s)
    | .parting => some ({ g with currentSessions := g.currentSessions - 1 }, { s with stage := .uncounted })
    | .uncounted =>
        some ({ g with totalDisconnected := g.totalDisconnected + 1 }, { s with stage := .looking })
    | .looking => match s.user.player with
      | none => some (g, { s with stage := .gone })
      | some player => some (g, { s with stage := .destroying player })
    | .destroying player => some (g, { s.call player .destroy with stage := .clearing })
    | .clearing => some (g, { s with user.player := none, stage := .gone })
    | .absent | .idle | .gone => none

/-! ## The server -/

structure Sys (S : Type) where
  server : GameServer S := {}
  session : Nat → Session S := fun _ => {}

inductive Event (S : Type)
  | session (i : Nat) (input : Input)
  /-- `OnServerStart`, which comes after the first `AcceptEx` -/
  | onServerStart (scene : S)
  | onServerStop

def Sys.step (sys : Sys S) : Event S → Option (Sys S)
  | .session i input =>
      ((sys.session i).step sys.server input).map fun r => ⟨r.1, update sys.session i r.2⟩
  | .onServerStart scene => some { sys with server.scene := some scene }
  | .onServerStop => some { sys with server.scene := none }

def gameServer (S : Type) : System (Sys S) where
  init sys := sys = {}
  next sys sys' := ∃ e, sys.step e = some sys'

/-- **What a step can do**: the scene comes or goes, or one session goes on. -/
theorem Sys.step_cases {sys sys' : Sys S} {e : Event S} (h : sys.step e = some sys') :
    (∃ scene, sys' = { sys with server.scene := scene }) ∨
      ∃ i input g s, (sys.session i).step sys.server input = some (g, s) ∧
        sys' = ⟨g, update sys.session i s⟩ := by
  cases e with
  | session i input =>
    rw [Sys.step, Option.map_eq_some_iff] at h
    obtain ⟨⟨g, s⟩, hs, rfl⟩ := h
    exact .inr ⟨i, input, g, s, hs, rfl⟩
  | onServerStart scene => exact .inl ⟨some scene, (Option.some.inj h).symm⟩
  | onServerStop => exact .inl ⟨none, (Option.some.inj h).symm⟩

end JunCore.GameServer
