/-
  `GameServer/Player.h`/`.cpp`, `MoveComponent.h`, with the scene bookkeeping of `GameScene.cpp`:
  what the players of a scene send to their clients.

  `GameScene::Enter` appends the object to the list of the scene, sets its back pointer and calls
  `OnEnter`; `Exit` calls `OnExit` first and undoes both afterwards.  So a player that enters is in the
  list already when `OnEnter` walks it, and one that leaves is still in it in `OnExit`.

  A `MoveComponent` reports through two events.  A player subscribes to both in its constructor, with
  `BroadcastMoveNotify`, and nobody else does: to invoke one of the events is to call that.

  What is recorded of a client is the list of the packets handed to its user.  Whether they arrive is
  the business of the session.
-/
import JunCore.Logic.Scene

set_option linter.unusedVariables false

namespace JunCore.GameServer

open Transition Function Logic

/-! ## Packets -/

/-- `game::Pos` -/
structure Pos where
  x : Float32 := 0
  y : Float32 := 0
  z : Float32 := 0

/-- The packets a player sends. -/
inductive Packet
  /-- `GC_SCENE_ENTER_NOTIFY` -/
  | sceneEnter (sceneId playerId : Int32) (spawnPos : Pos)
  /-- `GC_PLAYER_APPEAR_NOTIFY` -/
  | appear (playerId : Int32) (position : Pos)
  /-- `GC_PLAYER_DISAPPEAR_NOTIFY` -/
  | disappear (playerId : Int32)
  /-- `GC_MOVE_NOTIFY` -/
  | moveNotify (playerId : Int32) (curPos movePos : Pos)

/-! ## `MoveComponent` -/

structure MoveComponent where
  current : Pos := {}
  dest : Pos := {}
  /-- distance per `FixedUpdate` -/
  moveSpeed : Float32 := 0.1
  arrivedNotified : Bool := true

namespace MoveComponent

def arrivalThreshold : Float32 := 0.1

def setPosition (m : MoveComponent) (pos : Pos) : MoveComponent := { m with current := pos }

/-- `SetDestination`, up to the invocation of `OnMoveStart` it ends with. -/
def setDestination (m : MoveComponent) (pos : Pos) : MoveComponent :=
  { m with dest := pos, arrivedNotified := false }

def hasReachedDestination (m : MoveComponent) : Bool :=
  let dx := m.dest.x - m.current.x
  let dz := m.dest.z - m.current.z
  decide (dx * dx + dz * dz < arrivalThreshold * arrivalThreshold)

def moveTowardsDestination (m : MoveComponent) : MoveComponent :=
  let dx := m.dest.x - m.current.x
  let dz := m.dest.z - m.current.z
  let distance := Float32.sqrt (dx * dx + dz * dz)
  if distance < 0.001 then m
  else
    let moveDistance := if m.moveSpeed > distance then distance else m.moveSpeed
    { m with
      current :=
        { m.current with
          x := m.current.x + dx / distance * moveDistance
          z := m.current.z + dz / distance * moveDistance } }

/-- `OnFixedUpdate`, and whether it invokes `OnArrived`. -/
def onFixedUpdate (m : MoveComponent) : MoveComponent × Bool :=
  if m.arrivedNotified then (m, false)
  else
    let m := if m.hasReachedDestination then m else m.moveTowardsDestination
    if m.hasReachedDestination then ({ m with arrivedNotified := true }, true) else (m, false)

end MoveComponent

/-! ## Players and their users -/

/-- What `Player` adds to a `GameObject` at its construction: `owner_` and `player_id_`. -/
structure Player (C : Type) where
  owner : Option C
  playerId : UInt32

/-- The members of `User` a player reads. -/
structure User where
  lastSceneId : Int32 := 0
  spawnPos : Pos := {}

/-- The objects there are: which of them are players (`dynamic_cast<Player*>`).  A user has one player
    only. -/
structure Cast (C : Type) where
  player : Nat → Option (Player C)
  owners : ∀ p q d d' c, player p = some d → player q = some d' → d.owner = some c →
    d'.owner = some c → p = q

/-- Scenes `S`, users `C`. -/
structure Arena (S C : Type) where
  world : World S
  user : C → User
  move : Nat → MoveComponent
  /-- the packets handed to each user, oldest first -/
  log : C → List Packet

variable {S C : Type} [DecidableEq S] [DecidableEq C]

/-- The user an object sends its packets to, if it is a player and has one. -/
def Cast.ownerOf (cast : Cast C) (obj : Nat) : Option C := (cast.player obj).bind Player.owner

namespace Arena

/-- `User::SendPacket` -/
def send (a : Arena S C) (c : C) (p : Packet) : Arena S C :=
  { a with log := update a.log c (a.log c ++ [p]) }

/-- `if (owner_) owner_->SendPacket(packet);` -/
def sendPacket (cast : Cast C) (a : Arena S C) (obj : Nat) (p : Packet) : Arena S C :=
  match cast.ownerOf obj with
  | some c => a.send c p
  | none => a

/-- The loop of the two broadcasts. -/
def broadcast (cast : Cast C) (a : Arena S C) (objs : List Nat) (p : Packet) : Arena S C :=
  objs.foldl (fun a obj => a.sendPacket cast obj p) a

def broadcastToScene (cast : Cast C) (a : Arena S C) (obj : Nat) (p : Packet) : Arena S C :=
  match a.world.scene obj with
  | some sc => a.broadcast cast (a.world.objects sc) p
  | none => a

def broadcastToOthers (cast : Cast C) (a : Arena S C) (obj : Nat) (p : Packet) : Arena S C :=
  match a.world.scene obj with
  | some sc => a.broadcast cast ((a.world.objects sc).filter (· ≠ obj)) p
  | none => a

def getCurrentPos (a : Arena S C) (obj : Nat) : Pos := (a.move obj).current

def getDestPos (a : Arena S C) (obj : Nat) : Pos := (a.move obj).dest

def broadcastMoveNotify (cast : Cast C) (a : Arena S C) (obj : Nat) (d : Player C) : Arena S C :=
  a.broadcastToScene cast obj (.moveNotify d.playerId.toInt32 (a.getCurrentPos obj) (a.getDestPos obj))

/-- `m_pMoveComp->SetPosition` -/
def setPosition (a : Arena S C) (obj : Nat) (pos : Pos) : Arena S C :=
  { a with move := update a.move obj ((a.move obj).setPosition pos) }

/-- `m_pMoveComp->SetDestination`, with the subscriber of `OnMoveStart`. -/
def setDestination (cast : Cast C) (a : Arena S C) (obj : Nat) (d : Player C) (pos : Pos) : Arena S C :=
  broadcastMoveNotify cast { a with move := update a.move obj ((a.move obj).setDestination pos) } obj d

/-- The last loop of `OnEnter`: the players there already, to the one that enters. -/
def announceOthers (cast : Cast C) (a : Arena S C) (obj : Nat) (objs : List Nat) : Arena S C :=
  objs.foldl (fun a other =>
    if other = obj then a
    else match cast.player other with
      | some ⟨some _, id⟩ => a.sendPacket cast obj (.appear id.toInt32 (a.getCurrentPos other))
      | _ => a) a

/-- The scene and the spawn position `OnEnter` works with. -/
def spawnOf (a : Arena S C) (d : Player C) : User :=
  match d.owner with
  | some c => a.user c
  | none => {}

/-- `Player::OnEnter` -/
def onEnter (cast : Cast C) (a : Arena S C) (obj : Nat) (d : Player C) : Arena S C :=
  let u := a.spawnOf d
  let a := (a.setPosition obj u.spawnPos).setDestination cast obj d u.spawnPos
  let a := a.sendPacket cast obj (.sceneEnter u.lastSceneId d.playerId.toInt32 (a.getCurrentPos obj))
  let a := a.broadcastToOthers cast obj (.appear d.playerId.toInt32 (a.getCurrentPos obj))
  match a.world.scene obj with
  | some sc => a.announceOthers cast obj (a.world.objects sc)
  | none => a

/-- `Player::OnExit` -/
def onExit (cast : Cast C) (a : Arena S C) (obj : Nat) (d : Player C) : Arena S C :=
  a.broadcastToOthers cast obj (.disappear d.playerId.toInt32)

/-- `Player::OnFixedUpdate`, with the subscriber of `OnArrived`. -/
def onFixedUpdate (cast : Cast C) (a : Arena S C) (obj : Nat) (d : Player C) : Arena S C :=
  let r := (a.move obj).onFixedUpdate
  let a := { a with move := update a.move obj r.1 }
  if r.2 then a.broadcastMoveNotify cast obj d else a

/-- A virtual function, which does nothing for an object that is no player. -/
def virtual (cast : Cast C) (f : Arena S C → Nat → Player C → Arena S C) (a : Arena S C) (obj : Nat) :
    Arena S C :=
  match cast.player obj with
  | some d => f a obj d
  | none => a

/-- `GameScene::Enter`, up to its call of `Register`. -/
def enter (cast : Cast C) (a : Arena S C) (sc : S) (obj : Nat) : Arena S C :=
  virtual cast (onEnter cast) { a with world := a.world.enter sc obj } obj

/-- `GameScene::Exit` -/
def exit (cast : Cast C) (a : Arena S C) (sc : S) (obj : Nat) : Arena S C :=
  let a := virtual cast (onExit cast) a obj
  { a with world := a.world.exit sc obj }

/-- `GameScene::FixedUpdate` -/
def fixedUpdate (cast : Cast C) (a : Arena S C) (sc : S) : Arena S C :=
  (a.world.objects sc).foldl (virtual cast (onFixedUpdate cast)) a

/-- `Player::HandleSetDestPos` -/
def handleSetDestPos (cast : Cast C) (a : Arena S C) (obj : Nat) (pos : Pos) : Arena S C :=
  virtual cast (fun a obj d => a.setDestination cast obj d pos) a obj

end Arena

/-! ## Runs -/

/-- The next event. -/
inductive ArenaEvent (S C : Type)
  | enter (sc : S) (obj : Nat)
  | exit (sc : S) (obj : Nat)
  | fixedUpdate (sc : S)
  | setDestPos (obj : Nat) (pos : Pos)
  /-- a request handler stores the scene and the spawn position of a user -/
  | setUser (c : C) (u : User)

def Arena.step (cast : Cast C) (a : Arena S C) : ArenaEvent S C → Arena S C
  | .enter sc obj => a.enter cast sc obj
  | .exit sc obj => a.exit cast sc obj
  | .fixedUpdate sc => a.fixedUpdate cast sc
  | .setDestPos obj pos => a.handleSetDestPos cast obj pos
  | .setUser c u => { a with user := update a.user c u }

/-- Everything constructed, nobody in a scene.  An object points to the scene it is constructed with. -/
def Arena.empty (birth : Nat → S) : Arena S C where
  world :=
    { scene := fun obj => some (birth obj)
      objects := fun _ => []
      registry := fun _ => none
      entered := fun _ => false
      destroyed := fun _ => false }
  user _ := {}
  move _ := {}
  log _ := []

/-- The runs whose events are allowed where they happen. -/
def Cast.system (cast : Cast C) (birth : Nat → S) (allowed : Arena S C → ArenaEvent S C → Prop) :
    System (Arena S C) where
  init a := a = .empty birth
  next a a' := ∃ e, allowed a e ∧ a' = a.step cast e

end JunCore.GameServer
