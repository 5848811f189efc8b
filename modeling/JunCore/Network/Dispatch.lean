/-
  `JunCore/network/NetBase.h`: `RegisterPacketHandler` and `OnPacketReceived`.

  The handlers of an engine are kept in `packet_handlers_` under a 32-bit id, the FNV-1a hash of the
  full name of the message type they are for.  What is kept is a closure, which parses the payload as
  a message of that type and hands it to the handler.  To register under an id that is taken replaces
  the closure that was there.

  The id of a packet is computed from the name of its type again, on the other side.  So the handler
  that is found is the one registered last under the hash of the name (`find_registerAll`): the right
  one, when the hashes of the names are different.  Different names may have the same hash.
-/
import JunCore.Network.Codec
import Mathlib.Data.List.Induction

set_option linter.unusedVariables false

namespace JunCore.Network

open Function

variable {Ty : Type} {Msg : Ty → Type} {User α : Type}

/-! ## Message types -/

/-- The message types of a protocol, and what protobuf does with their messages. -/
structure Protocol (Ty : Type) (Msg : Ty → Type) where
  /-- `T::descriptor()->full_name()` -/
  fullName : Ty → List UInt8
  /-- what `SerializeToArray` writes -/
  serialize : (t : Ty) → Msg t → List UInt8
  /-- `ParseFromArray` -/
  parse : (t : Ty) → List UInt8 → Option (Msg t)

/-- A message, as an encoder sees it. -/
def Protocol.message (P : Protocol Ty Msg) (t : Ty) (m : Msg t) : ProtoMessage where
  fullName := P.fullName t
  payload := P.serialize t m
  serializes := true

/-- `fnv1a(T::descriptor()->full_name().c_str())`. -/
def Protocol.packetId (P : Protocol Ty Msg) (t : Ty) : UInt32 := fnv1a (P.fullName t)

/-! ## The handlers of an engine -/

/-- `PacketHandler`; `none` when the payload does not parse. -/
abbrev PacketHandler (User α : Type) := User → List UInt8 → Option α

/-- The handler of the application for messages of type `type`, with what its call amounts to. -/
structure Registration (Msg : Ty → Type) (User α : Type) where
  type : Ty
  handler : User → Msg type → α

/-- The closure that is kept for a handler. -/
def Registration.packetHandler (P : Protocol Ty Msg) (r : Registration Msg User α) :
    PacketHandler User α :=
  fun user payload => (P.parse r.type payload).map (r.handler user)

/-- `RegisterPacketHandler`. -/
def registerPacketHandler (P : Protocol Ty Msg) (handlers : UInt32 → Option (PacketHandler User α))
    (r : Registration Msg User α) : UInt32 → Option (PacketHandler User α) :=
  update handlers (P.packetId r.type) (some (r.packetHandler P))

/-- `packet_handlers_` after these registrations, in this order. -/
def registerAll (P : Protocol Ty Msg) (rs : List (Registration Msg User α)) :
    UInt32 → Option (PacketHandler User α) :=
  rs.foldl (registerPacketHandler P) fun _ => none

/-- `OnPacketReceived`: what the call of a handler amounts to, if one is called.  `owner` is
    `GetOwnerUser()`. -/
def onPacketReceived (handlers : UInt32 → Option (PacketHandler User α)) (owner : Option User)
    (p : Packet) : Option α :=
  match handlers (UInt32.ofNat p.id), owner with
  | some handler, some user => handler user p.payload
  | _, _ => none

/-! ## What is found under an id -/

/-- **The last one registered** under an id is found. -/
theorem find_registerAll (P : Protocol Ty Msg) (rs : List (Registration Msg User α)) (id : UInt32) :
    registerAll P rs id
      = (rs.reverse.find? fun r => P.packetId r.type = id).map (·.packetHandler P) := by
  induction rs using List.reverseRecOn with
  | nil => rfl
  | append_singleton rs r ih =>
    have hsnoc : registerAll P (rs ++ [r]) = registerPacketHandler P (registerAll P rs) r := by
      rw [registerAll, List.foldl_append]
      rfl
    rw [hsnoc, registerPacketHandler, List.reverse_append, List.reverse_singleton,
      List.singleton_append]
    by_cases hid : P.packetId r.type = id
    · subst hid
      rw [update_self, List.find?_cons_of_pos (by simp)]
      rfl
    · rw [update_of_ne (Ne.symm hid), List.find?_cons_of_neg (by simpa using hid), ih]

/-- Where the ids are different, that is the only one. -/
theorem find_of_pairwise {P : Protocol Ty Msg} {rs : List (Registration Msg User α)}
    (hid : rs.Pairwise fun r r' => P.packetId r.type ≠ P.packetId r'.type)
    {r : Registration Msg User α} (hr : r ∈ rs) :
    registerAll P rs (P.packetId r.type) = some (r.packetHandler P) := by
  have hrev : rs.reverse.Pairwise fun r r' => P.packetId r.type ≠ P.packetId r'.type :=
    List.pairwise_reverse.mpr (hid.imp Ne.symm)
  rw [find_registerAll]
  generalize hl : rs.reverse = l at hrev
  have hmem : r ∈ l := by rwa [← hl, List.mem_reverse]
  clear hl
  induction l with
  | nil => cases hmem
  | cons q l ih =>
    obtain ⟨hq, hl⟩ := List.pairwise_cons.mp hrev
    rcases List.mem_cons.mp hmem with rfl | hin
    · rw [List.find?_cons_of_pos (by simp)]
      rfl
    · rw [List.find?_cons_of_neg (by simpa using hq r hin)]
      exact ih hl hin

/-! ## From `SendPacket` to the handler -/

/-- The packet of a message goes to the handler of its type. -/
theorem onPacketReceived_packet {P : Protocol Ty Msg}
    (hparse : ∀ t (m : Msg t), P.parse t (P.serialize t m) = some m)
    {rs : List (Registration Msg User α)}
    (hid : rs.Pairwise fun r r' => P.packetId r.type ≠ P.packetId r'.type)
    {r : Registration Msg User α} (hr : r ∈ rs) (user : User) (m : Msg r.type) :
    onPacketReceived (registerAll P rs) (some user) (P.message r.type m).packet
      = some (r.handler user m) := by
  have hfind : registerAll P rs (UInt32.ofNat (P.message r.type m).packet.id)
      = some (r.packetHandler P) := by
    rw [ProtoMessage.packet, UInt32.ofNat_toNat]
    exact find_of_pairwise hid hr
  unfold onPacketReceived
  rw [hfind]
  show (P.parse r.type (P.serialize r.type m)).map (r.handler user) = _
  rw [hparse]
  rfl

/-- The stream that `SendPacket` makes of messages of registered types. -/
def sentStream (P : Protocol Ty Msg) (ms : List (Σ r : Registration Msg User α, Msg r.type)) :
    List UInt8 :=
  (ms.filterMap fun m => (P.message m.1.type m.2).sendPacket).flatten

theorem sentStream_eq {P : Protocol Ty Msg} {ms : List (Σ r : Registration Msg User α, Msg r.type)}
    (h : ∀ m ∈ ms, (P.message m.1.type m.2).Sendable) :
    sentStream P ms = (ms.map fun m => (P.message m.1.type m.2).packet).flatMap encode := by
  induction ms with
  | nil => rfl
  | cons m ms ih =>
    have hsend := sendPacket_eq (h m List.mem_cons_self)
    rw [List.map_cons, List.flatMap_cons, ← ih fun q hq => h q (List.mem_cons_of_mem _ hq)]
    unfold sentStream
    rw [List.filterMap_cons, hsend]
    rfl

/-- **Every message reaches its handler**, if the types registered have names with different hashes.
    The messages are sent one behind the other, the loop of `HandleRecvComplete` cuts them out of the
    stream, and `OnPacketReceived` calls for each the handler of its type, and no other, with the
    message that was sent. -/
theorem dispatch_reaches (P : Protocol Ty Msg)
    (hparse : ∀ t (m : Msg t), P.parse t (P.serialize t m) = some m)
    (rs : List (Registration Msg User α))
    (hid : rs.Pairwise fun r r' => fnv1a (P.fullName r.type) ≠ fnv1a (P.fullName r'.type))
    (ms : List (Σ r : Registration Msg User α, Msg r.type)) (hreg : ∀ m ∈ ms, m.1 ∈ rs)
    (hsize : ∀ m ∈ ms, 8 + (P.serialize m.1.type m.2).length ≤ 4 * 1024 * 1024) (user : User)
    {n : Nat} (hn : ms.length < n) :
    (cutLoop true n (sentStream P ms)).dispatched.map (onPacketReceived (registerAll P rs) (some user))
      = ms.map fun m => some (m.1.handler user m.2) := by
  have hsend : ∀ m ∈ ms, (P.message m.1.type m.2).Sendable := fun m hm => ⟨rfl, hsize m hm⟩
  have hfits : ∀ p ∈ ms.map fun m => (P.message m.1.type m.2).packet, p.Fits := by
    intro p hp
    obtain ⟨m, hm, rfl⟩ := List.mem_map.mp hp
    exact fits_packet (hsend m hm)
  rw [sentStream_eq hsend, cutLoop_flatMap hfits (by rwa [List.length_map]), List.map_map]
  apply List.map_congr_left
  intro m hm
  exact onPacketReceived_packet hparse hid (hreg m hm) user m.2

/-! ## Two names with one hash -/

/-- Two message types without fields: `costarring` and `liquid`. -/
def words : Protocol Bool fun _ => Unit where
  fullName
    | false => ['c', 'o', 's', 't', 'a', 'r', 'r', 'i', 'n', 'g'].map fun c => UInt8.ofNat c.toNat
    | true => ['l', 'i', 'q', 'u', 'i', 'd'].map fun c => UInt8.ofNat c.toNat
  serialize _ _ := []
  parse _ payload := if payload = [] then some () else none

/-- Their handlers tell which of them was called. -/
def wordHandler (t : Bool) : Registration (fun _ : Bool => Unit) Unit Bool where
  type := t
  handler _ _ := t

/-- A `liquid`, where it is the only type with a handler. -/
theorem dispatch_reaches_one :
    (cutLoop true 2 (sentStream words [⟨wordHandler true, ()⟩])).dispatched.map
      (onPacketReceived (registerAll words [wordHandler true]) (some ())) = [some true] :=
  dispatch_reaches words (fun _ _ => rfl) [wordHandler true] (List.pairwise_singleton _ _)
    [⟨wordHandler true, ()⟩] (fun _ hm => by rw [List.mem_singleton.mp hm]; exact List.mem_singleton_self _)
    (fun _ _ => Nat.le_of_ble_eq_true rfl) () (by decide)

/-- **A message reaches the wrong handler.**  `costarring` and `liquid` have the same hash.  Both are
    registered, and a `costarring` is handled as a `liquid`. -/
theorem wrong_handler : words.fullName false ≠ words.fullName true ∧
    (cutLoop true 2 (sentStream words [⟨wordHandler false, ()⟩])).dispatched.map
      (onPacketReceived (registerAll words [wordHandler false, wordHandler true]) (some ()))
        = [some true] := by
  decide

end JunCore.Network
