/-
  What a client knows of the players around it.

  A client builds its view from its packets: `GC_PLAYER_APPEAR_NOTIFY` puts a player into it,
  `GC_PLAYER_DISAPPEAR_NOTIFY` takes one out, and its own `GC_SCENE_ENTER_NOTIFY` starts a new one.
  `Shown` reads that off the list of the packets.

  The three broadcasts that keep the views run while the list of the scene is half updated: `Enter`
  appends before `OnEnter`, `Exit` removes after `OnExit`.  `Seen` is what they add up to.  It needs the
  lists and the back pointers to agree (`Placed`), for a broadcast finds the scene through the pointer.
-/
import JunCore.GameServer.Player

set_option linter.unusedVariables false
set_option linter.unusedSectionVars false

namespace JunCore.GameServer

open Transition Function Logic

variable {S C : Type} [DecidableEq S] [DecidableEq C] {cast : Cast C}

/-! ## The view of a client -/

/-- The packet puts the player into the view. -/
def Packet.shows (x : Int32) : Packet → Prop
  | .appear y _ => y = x
  | _ => False

/-- The packet takes the player out of the view. -/
def Packet.hides (x : Int32) : Packet → Prop
  | .disappear y => y = x
  | .sceneEnter .. => True
  | _ => False

/-- The player has appeared, and has not disappeared since, nor has the client entered another scene. -/
def Shown (log : List Packet) (x : Int32) : Prop :=
  ∃ l₁ m l₂, log = l₁ ++ m :: l₂ ∧ m.shows x ∧ ∀ m' ∈ l₂, ¬ m'.hides x

/-- When a player is announced, it is not in the view. -/
def AnnouncedOnce (log : List Packet) : Prop :=
  ∀ l₁ m l₂ x, log = l₁ ++ m :: l₂ → m.shows x → ¬ Shown l₁ x

theorem announcedOnce_nil : AnnouncedOnce [] := by
  intro l₁ m l₂ x h
  simp at h

/-- A list that ends in one packet, cut at another one. -/
theorem snoc_eq_cut {α : Type} {l l₁ l₂ : List α} {x y : α} (h : l ++ [x] = l₁ ++ y :: l₂) :
    l₂ = [] ∧ l = l₁ ∧ x = y ∨ ∃ l₃, l₂ = l₃ ++ [x] ∧ l = l₁ ++ y :: l₃ := by
  rcases List.eq_nil_or_concat l₂ with rfl | ⟨l₃, z, rfl⟩
  · obtain ⟨rfl, hxy⟩ := List.append_inj' h rfl
    exact .inl ⟨rfl, rfl, List.singleton_inj.mp hxy⟩
  · rw [List.concat_eq_append, ← List.cons_append, ← List.append_assoc] at h
    obtain ⟨rfl, hxz⟩ := List.append_inj' h rfl
    obtain rfl := List.singleton_inj.mp hxz
    exact .inr ⟨l₃, List.concat_eq_append .., rfl⟩

theorem shown_snoc (l : List Packet) (m : Packet) (x : Int32) :
    Shown (l ++ [m]) x ↔ m.shows x ∨ Shown l x ∧ ¬ m.hides x := by
  constructor
  · rintro ⟨l₁, m', l₂, h, hs, hh⟩
    rcases snoc_eq_cut h with ⟨rfl, rfl, rfl⟩ | ⟨l₃, rfl, rfl⟩
    · exact .inl hs
    · exact .inr ⟨⟨l₁, m', l₃, rfl, hs, fun m'' hm => hh m'' (List.mem_append_left _ hm)⟩,
        hh m (by simp)⟩
  · rintro (hs | ⟨⟨l₁, m', l₂, rfl, hs, hh⟩, hm⟩)
    · exact ⟨l, m, [], rfl, hs, fun m' hm => by cases hm⟩
    · refine ⟨l₁, m', l₂ ++ [m], by simp, hs, fun m'' hin => ?_⟩
      rcases List.mem_append.mp hin with hin | hin
      · exact hh m'' hin
      · rw [List.mem_singleton.mp hin]
        exact hm

theorem announcedOnce_snoc {l : List Packet} {m : Packet} (h : AnnouncedOnce l)
    (hm : ∀ x, m.shows x → ¬ Shown l x) : AnnouncedOnce (l ++ [m]) := by
  intro l₁ m' l₂ x heq hs
  rcases snoc_eq_cut heq with ⟨-, rfl, rfl⟩ | ⟨l₃, -, rfl⟩
  · exact hm x hs
  · exact h l₁ m' l₃ x rfl hs

/-- Packets that neither show nor hide anybody change no view. -/
theorem view_append_quiet {l ms : List Packet} (hq : ∀ m ∈ ms, ∀ x, ¬ m.shows x ∧ ¬ m.hides x) :
    (∀ x, Shown (l ++ ms) x ↔ Shown l x) ∧ (AnnouncedOnce l → AnnouncedOnce (l ++ ms)) := by
  induction ms generalizing l with
  | nil => simp
  | cons m ms ih =>
    obtain ⟨hshow, hhide⟩ := forall_and.mp (hq m List.mem_cons_self)
    obtain ⟨ih₁, ih₂⟩ := ih (l := l ++ [m]) fun m' hm => hq m' (List.mem_cons_of_mem _ hm)
    rw [List.append_assoc] at ih₁ ih₂
    constructor
    · intro x
      rw [show l ++ m :: ms = l ++ ([m] ++ ms) from rfl, ih₁ x, shown_snoc]
      simp [hshow x, hhide x]
    · intro h
      exact ih₂ (announcedOnce_snoc h fun x hs => absurd hs (hshow x))

theorem view_append_moves (l : List Packet) (n : Nat) (id : Int32) (cur dest : Pos) :
    (∀ x, Shown (l ++ List.replicate n (.moveNotify id cur dest)) x ↔ Shown l x) ∧
      (AnnouncedOnce l → AnnouncedOnce (l ++ List.replicate n (.moveNotify id cur dest))) := by
  refine view_append_quiet fun m hm x => ?_
  rw [(List.mem_replicate.mp hm).2]
  exact ⟨fun h => h, fun h => h⟩

/-- Announcements of different players that are not in the view yet. -/
theorem view_append_appear {l ms : List Packet} (hall : ∀ m ∈ ms, ∃ x pos, m = .appear x pos)
    (hnodup : ms.Pairwise fun m m' => ∀ x, m.shows x → ¬ m'.shows x)
    (hnew : ∀ m ∈ ms, ∀ x, m.shows x → ¬ Shown l x) :
    (∀ x, Shown (l ++ ms) x ↔ Shown l x ∨ ∃ m ∈ ms, m.shows x) ∧
      (AnnouncedOnce l → AnnouncedOnce (l ++ ms)) := by
  induction ms generalizing l with
  | nil => simp
  | cons m ms ih =>
    rw [List.pairwise_cons] at hnodup
    obtain ⟨y, pos, rfl⟩ := hall m List.mem_cons_self
    have hhide : ∀ x, ¬ (Packet.appear y pos).hides x := fun x h => h
    obtain ⟨ih₁, ih₂⟩ := ih (l := l ++ [.appear y pos]) (fun m' hm => hall m' (List.mem_cons_of_mem _ hm))
      hnodup.2 fun m' hm x hs hshown => by
        rcases (shown_snoc ..).mp hshown with h | ⟨h, -⟩
        · exact hnodup.1 m' hm x h hs
        · exact hnew m' (List.mem_cons_of_mem _ hm) x hs h
    rw [List.append_assoc] at ih₁ ih₂
    constructor
    · intro x
      rw [show l ++ Packet.appear y pos :: ms = l ++ ([Packet.appear y pos] ++ ms) from rfl, ih₁ x,
        shown_snoc]
      simp only [hhide x, not_false_eq_true, and_true, List.mem_cons, exists_eq_or_imp]
      rw [or_comm (a := (Packet.appear y pos).shows x), or_assoc]
    · intro h
      exact ih₂ (announcedOnce_snoc h (hnew _ List.mem_cons_self))

/-! ## What the functions send -/

/-- How often a broadcast to these objects reaches the user. -/
def Cast.heard (cast : Cast C) (c : C) (objs : List Nat) : Nat :=
  objs.countP fun obj => cast.ownerOf obj = some c

namespace Arena

theorem sendPacket_log (a : Arena S C) (obj : Nat) (p : Packet) (c : C) :
    (a.sendPacket cast obj p).log c
      = a.log c ++ if cast.ownerOf obj = some c then [p] else [] := by
  cases h : cast.ownerOf obj with
  | none => simp [sendPacket, h]
  | some c' =>
    by_cases hc : c' = c
    · subst hc; simp [sendPacket, h, send]
    · simp [sendPacket, h, send, hc, Ne.symm hc]

/-- To send a packet is all it does. -/
theorem sendPacket_rest (cast : Cast C) (a : Arena S C) (obj : Nat) (p : Packet) :
    (a.sendPacket cast obj p).world = a.world ∧ (a.sendPacket cast obj p).move = a.move := by
  unfold sendPacket
  split <;> exact ⟨rfl, rfl⟩

theorem broadcast_log (a : Arena S C) (objs : List Nat) (p : Packet) (c : C) :
    (a.broadcast cast objs p).log c = a.log c ++ List.replicate (cast.heard c objs) p := by
  induction objs generalizing a with
  | nil => simp [broadcast, Cast.heard]
  | cons obj objs ih =>
    show (broadcast cast (a.sendPacket cast obj p) objs p).log c = _
    rw [ih, sendPacket_log, List.append_assoc]
    by_cases h : cast.ownerOf obj = some c
    · simp [Cast.heard, h, List.replicate_succ]
    · simp [Cast.heard, h]

theorem broadcast_rest (a : Arena S C) (objs : List Nat) (p : Packet) :
    (a.broadcast cast objs p).world = a.world ∧ (a.broadcast cast objs p).move = a.move := by
  induction objs generalizing a with
  | nil => exact ⟨rfl, rfl⟩
  | cons obj objs ih =>
    obtain ⟨hw, hm⟩ := ih (a.sendPacket cast obj p)
    obtain ⟨hw', hm'⟩ := sendPacket_rest cast a obj p
    exact ⟨hw.trans hw', hm.trans hm'⟩

/-- What `announceOthers` sends. -/
def announced (cast : Cast C) (a : Arena S C) (obj : Nat) (objs : List Nat) : List Packet :=
  objs.filterMap fun other =>
    if other = obj then none
    else match cast.player other with
      | some ⟨some _, id⟩ => some (.appear id.toInt32 (a.getCurrentPos other))
      | _ => none

theorem announceOthers_log (a : Arena S C) (obj : Nat) (objs : List Nat) (c : C) :
    (a.announceOthers cast obj objs).log c
      = a.log c ++ if cast.ownerOf obj = some c then a.announced cast obj objs else [] := by
  induction objs generalizing a with
  | nil => simp [announceOthers, announced]
  | cons other objs ih =>
    -- one step of the loop, and what is left of it
    have hstep : ∀ a' : Arena S C, a'.move = a.move →
        (a'.announceOthers cast obj objs).log c
          = a'.log c ++ if cast.ownerOf obj = some c then a.announced cast obj objs else [] := by
      intro a' hmove
      rw [ih a']
      simp only [announced, getCurrentPos, hmove]
    by_cases hself : other = obj
    · subst hself
      have hloop : a.announceOthers cast other (other :: objs) = a.announceOthers cast other objs := by
        simp [announceOthers]
      rw [hloop, hstep a rfl]
      simp [announced]
    · cases hp : cast.player other with
      | none =>
        have hloop : a.announceOthers cast obj (other :: objs) = a.announceOthers cast obj objs := by
          simp [announceOthers, hself, hp]
        rw [hloop, hstep a rfl]
        simp [announced, hself, hp]
      | some d =>
        obtain ⟨owner, id⟩ := d
        cases owner with
        | none =>
          have hloop : a.announceOthers cast obj (other :: objs) = a.announceOthers cast obj objs := by
            simp [announceOthers, hself, hp]
          rw [hloop, hstep a rfl]
          simp [announced, hself, hp]
        | some c' =>
          have hloop : a.announceOthers cast obj (other :: objs)
              = (a.sendPacket cast obj (.appear id.toInt32 (a.getCurrentPos other))).announceOthers
                  cast obj objs := by
            simp [announceOthers, hself, hp]
          rw [hloop, hstep _ (sendPacket_rest cast a obj _).2, sendPacket_log, List.append_assoc]
          by_cases h : cast.ownerOf obj = some c
          · simp [announced, hself, hp, h]
          · simp [h]

theorem announceOthers_rest (a : Arena S C) (obj : Nat) (objs : List Nat) :
    (a.announceOthers cast obj objs).world = a.world := by
  induction objs generalizing a with
  | nil => rfl
  | cons other objs ih =>
    refine (ih _).trans ?_
    beta_reduce
    split
    · rfl
    · split
      · exact (sendPacket_rest cast a obj _).1
      · rfl

theorem broadcastMoveNotify_rest (a : Arena S C) (obj : Nat) (d : Player C) :
    (a.broadcastMoveNotify cast obj d).world = a.world := by
  unfold broadcastMoveNotify broadcastToScene
  split
  · exact (broadcast_rest ..).1
  · rfl

theorem broadcastToOthers_rest (a : Arena S C) (obj : Nat) (p : Packet) :
    (a.broadcastToOthers cast obj p).world = a.world := by
  unfold broadcastToOthers
  split
  · exact (broadcast_rest ..).1
  · rfl

theorem setDestination_rest (a : Arena S C) (obj : Nat) (d : Player C) (pos : Pos) :
    (a.setDestination cast obj d pos).world = a.world := broadcastMoveNotify_rest ..

theorem broadcastMoveNotify_log (cast : Cast C) (a : Arena S C) {obj : Nat} (d : Player C) {sc : S}
    (hs : a.world.scene obj = some sc) (c : C) : ∃ cur dest,
    (a.broadcastMoveNotify cast obj d).log c = a.log c ++
      List.replicate (cast.heard c (a.world.objects sc)) (.moveNotify d.playerId.toInt32 cur dest) := by
  refine ⟨a.getCurrentPos obj, a.getDestPos obj, ?_⟩
  rw [broadcastMoveNotify, broadcastToScene, hs]
  exact broadcast_log ..

theorem broadcastToOthers_log (a : Arena S C) {obj : Nat} (p : Packet) {sc : S}
    (hs : a.world.scene obj = some sc) (c : C) :
    (a.broadcastToOthers cast obj p).log c = a.log c ++
      List.replicate (cast.heard c ((a.world.objects sc).filter (· ≠ obj))) p := by
  rw [broadcastToOthers, hs]
  exact broadcast_log ..

/-- **What `OnEnter` sends**, in its order. -/
theorem onEnter_log (a : Arena S C) {obj : Nat} {d : Player C} (hd : cast.player obj = some d) {sc : S}
    (hs : a.world.scene obj = some sc) (c : C) : ∃ cur dest sid spawn pos, ∃ a' : Arena S C,
    (a.onEnter cast obj d).log c = a.log c ++
      List.replicate (cast.heard c (a.world.objects sc)) (.moveNotify d.playerId.toInt32 cur dest) ++
      (if cast.ownerOf obj = some c then [.sceneEnter sid d.playerId.toInt32 spawn] else []) ++
      List.replicate (cast.heard c ((a.world.objects sc).filter (· ≠ obj)))
        (.appear d.playerId.toInt32 pos) ++
      (if cast.ownerOf obj = some c then announced cast a' obj (a.world.objects sc) else []) := by
  obtain ⟨u, hu⟩ : ∃ u, u = a.spawnOf d := ⟨_, rfl⟩
  obtain ⟨a₁, ha₁⟩ : ∃ a₁, a₁ = (a.setPosition obj u.spawnPos).setDestination cast obj d u.spawnPos :=
    ⟨_, rfl⟩
  obtain ⟨a₂, ha₂⟩ : ∃ a₂, a₂ = a₁.sendPacket cast obj
    (.sceneEnter u.lastSceneId d.playerId.toInt32 (a₁.getCurrentPos obj)) := ⟨_, rfl⟩
  obtain ⟨a₃, ha₃⟩ : ∃ a₃, a₃ = a₂.broadcastToOthers cast obj
    (.appear d.playerId.toInt32 (a₂.getCurrentPos obj)) := ⟨_, rfl⟩
  have hw₁ : a₁.world = a.world := by rw [ha₁]; exact setDestination_rest ..
  have hw₂ : a₂.world = a.world := by rw [ha₂]; exact (sendPacket_rest ..).1.trans hw₁
  have hw₃ : a₃.world = a.world := by rw [ha₃]; exact (broadcastToOthers_rest ..).trans hw₂
  have hs₃ : a₃.world.scene obj = some sc := by rw [hw₃]; exact hs
  have hall : a.onEnter cast obj d = a₃.announceOthers cast obj (a₃.world.objects sc) := by
    subst ha₃ ha₂ ha₁ hu
    simp only [onEnter, hs₃]
  have h₁ : ∃ cur dest, a₁.log c = a.log c ++
      List.replicate (cast.heard c (a.world.objects sc)) (.moveNotify d.playerId.toInt32 cur dest) := by
    rw [ha₁]
    exact broadcastMoveNotify_log cast
      { a.setPosition obj u.spawnPos with
        move := update (a.setPosition obj u.spawnPos).move obj
          (((a.setPosition obj u.spawnPos).move obj).setDestination u.spawnPos) } d hs c
  obtain ⟨cur, dest, h₁⟩ := h₁
  have h₂ : a₂.log c = a₁.log c ++ if cast.ownerOf obj = some c then
      [.sceneEnter u.lastSceneId d.playerId.toInt32 (a₁.getCurrentPos obj)] else [] := by
    rw [ha₂]
    exact sendPacket_log ..
  have h₃ : a₃.log c = a₂.log c ++ List.replicate
      (cast.heard c ((a.world.objects sc).filter (· ≠ obj)))
      (.appear d.playerId.toInt32 (a₂.getCurrentPos obj)) := by
    rw [ha₃, ← hw₂]
    exact broadcastToOthers_log a₂ _ (by rw [hw₂]; exact hs) c
  refine ⟨cur, dest, u.lastSceneId, a₁.getCurrentPos obj, a₂.getCurrentPos obj, a₃, ?_⟩
  rw [hall, announceOthers_log, h₃, h₂, h₁, hw₃]

theorem onEnter_rest (a : Arena S C) (obj : Nat) (d : Player C) :
    (a.onEnter cast obj d).world = a.world := by
  simp only [onEnter]
  split
  · refine (announceOthers_rest ..).trans ((broadcastToOthers_rest ..).trans ?_)
    exact (sendPacket_rest ..).1.trans (setDestination_rest ..)
  · refine (broadcastToOthers_rest ..).trans ?_
    exact (sendPacket_rest ..).1.trans (setDestination_rest ..)

/-- What `OnExit` sends. -/
theorem onExit_log (a : Arena S C) {obj : Nat} (d : Player C) {sc : S} (hs : a.world.scene obj = some sc)
    (c : C) : (a.onExit cast obj d).log c = a.log c ++
      List.replicate (cast.heard c ((a.world.objects sc).filter (· ≠ obj)))
        (.disappear d.playerId.toInt32) := broadcastToOthers_log a _ hs c

theorem onExit_rest (a : Arena S C) (obj : Nat) (d : Player C) :
    (a.onExit cast obj d).world = a.world := broadcastToOthers_rest ..

theorem enter_world (a : Arena S C) (sc : S) (obj : Nat) :
    (a.enter cast sc obj).world = a.world.enter sc obj := by
  rw [enter, virtual]
  split
  · exact onEnter_rest ..
  · rfl

theorem exit_world (a : Arena S C) (sc : S) (obj : Nat) :
    (a.exit cast sc obj).world = a.world.exit sc obj := by
  simp only [exit, virtual]
  split
  · rw [onExit_rest]
  · rfl

/-- What an `Enter` sends: the object is in the list already. -/
theorem enter_log (a : Arena S C) (sc : S) {obj : Nat} {d : Player C} (hd : cast.player obj = some d)
    (c : C) : ∃ cur dest sid spawn pos, ∃ a' : Arena S C, (a.enter cast sc obj).log c = a.log c ++
      List.replicate (cast.heard c (a.world.objects sc ++ [obj]))
        (.moveNotify d.playerId.toInt32 cur dest) ++
      (if cast.ownerOf obj = some c then [.sceneEnter sid d.playerId.toInt32 spawn] else []) ++
      List.replicate (cast.heard c ((a.world.objects sc ++ [obj]).filter (· ≠ obj)))
        (.appear d.playerId.toInt32 pos) ++
      (if cast.ownerOf obj = some c then announced cast a' obj (a.world.objects sc ++ [obj]) else []) := by
  have heq : a.enter cast sc obj = onEnter cast { a with world := a.world.enter sc obj } obj d := by
    simp only [enter, virtual, hd]
  have hobjs : (a.world.enter sc obj).objects sc = a.world.objects sc ++ [obj] := by simp [World.enter]
  rw [heq, ← hobjs]
  exact onEnter_log { a with world := a.world.enter sc obj } hd (by simp [World.enter]) c

/-- What an `Exit` sends: the object is in the list still. -/
theorem exit_log (a : Arena S C) (sc : S) {obj : Nat} {d : Player C} (hd : cast.player obj = some d)
    {sc' : S} (hs : a.world.scene obj = some sc') (c : C) : (a.exit cast sc obj).log c = a.log c ++
      List.replicate (cast.heard c ((a.world.objects sc').filter (· ≠ obj)))
        (.disappear d.playerId.toInt32) := by
  have heq : (a.exit cast sc obj).log c = (a.onExit cast obj d).log c := by
    simp only [exit, virtual, hd]
  rw [heq]
  exact onExit_log a d hs c

end Arena

theorem mem_enter {w : World S} {sc sc' : S} {obj p : Nat} :
    p ∈ (w.enter sc obj).objects sc' ↔ p ∈ w.objects sc' ∨ sc' = sc ∧ p = obj := by
  by_cases h : sc' = sc
  · subst h; simp [World.enter]
  · simp [World.enter, h]

/-- Nothing but moves of these objects, to users with a player in the scene of the one that moves. -/
def Moves (cast : Cast C) (w : World S) (movers : List Nat) (c : C) (ms : List Packet) : Prop :=
  ∀ m ∈ ms, ∃ q d sc cur dest, q ∈ movers ∧ cast.player q = some d ∧ w.scene q = some sc ∧
    0 < cast.heard c (w.objects sc) ∧ m = .moveNotify d.playerId.toInt32 cur dest

theorem Moves.quiet {w : World S} {movers : List Nat} {c : C} {ms : List Packet}
    (h : Moves cast w movers c ms) : ∀ m ∈ ms, ∀ x, ¬ m.shows x ∧ ¬ m.hides x := by
  intro m hm x
  obtain ⟨q, d, sc, cur, dest, -, -, -, -, rfl⟩ := h m hm
  exact ⟨id, id⟩

namespace Arena

theorem broadcastMoveNotify_moves (a : Arena S C) {obj : Nat} {d : Player C}
    (hd : cast.player obj = some d) (c : C) : ∃ ms,
    (a.broadcastMoveNotify cast obj d).log c = a.log c ++ ms ∧ Moves cast a.world [obj] c ms := by
  cases hs : a.world.scene obj with
  | none => exact ⟨[], by simp [broadcastMoveNotify, broadcastToScene, hs], fun m hm => by cases hm⟩
  | some sc =>
    obtain ⟨cur, dest, h⟩ := broadcastMoveNotify_log cast a d hs c
    refine ⟨_, h, fun m hm => ?_⟩
    obtain ⟨hne, rfl⟩ := List.mem_replicate.mp hm
    exact ⟨obj, d, sc, cur, dest, by simp, hd, hs, Nat.pos_of_ne_zero hne, rfl⟩

theorem handleSetDestPos_moves (cast : Cast C) (a : Arena S C) (obj : Nat) (pos : Pos) :
    (a.handleSetDestPos cast obj pos).world = a.world ∧ ∀ c, ∃ ms,
      (a.handleSetDestPos cast obj pos).log c = a.log c ++ ms ∧ Moves cast a.world [obj] c ms := by
  cases hd : cast.player obj with
  | none =>
    simp only [handleSetDestPos, virtual, hd]
    exact ⟨trivial, fun c => ⟨[], by simp, fun m hm => by cases hm⟩⟩
  | some d =>
    simp only [handleSetDestPos, virtual, hd]
    exact ⟨setDestination_rest .., fun c => broadcastMoveNotify_moves
      { a with move := update a.move obj ((a.move obj).setDestination pos) } hd c⟩

theorem onFixedUpdate_moves (cast : Cast C) (a : Arena S C) (obj : Nat) :
    (virtual cast (onFixedUpdate cast) a obj).world = a.world ∧ ∀ c, ∃ ms,
      (virtual cast (onFixedUpdate cast) a obj).log c = a.log c ++ ms ∧
        Moves cast a.world [obj] c ms := by
  cases hd : cast.player obj with
  | none =>
    simp only [virtual, hd]
    exact ⟨trivial, fun c => ⟨[], by simp, fun m hm => by cases hm⟩⟩
  | some d =>
    simp only [virtual, hd, onFixedUpdate]
    split
    · exact ⟨broadcastMoveNotify_rest .., fun c => broadcastMoveNotify_moves
        { a with move := update a.move obj (a.move obj).onFixedUpdate.1 } hd c⟩
    · exact ⟨rfl, fun c => ⟨[], by simp, fun m hm => by cases hm⟩⟩

theorem fixedUpdate_moves (cast : Cast C) (a : Arena S C) (objs : List Nat) :
    (objs.foldl (virtual cast (onFixedUpdate cast)) a).world = a.world ∧ ∀ c, ∃ ms,
      (objs.foldl (virtual cast (onFixedUpdate cast)) a).log c = a.log c ++ ms ∧
        Moves cast a.world objs c ms := by
  induction objs generalizing a with
  | nil => exact ⟨rfl, fun c => ⟨[], by simp, fun m hm => by cases hm⟩⟩
  | cons obj objs ih =>
    obtain ⟨hw₁, h₁⟩ := onFixedUpdate_moves cast a obj
    obtain ⟨hw₂, h₂⟩ := ih (virtual cast (onFixedUpdate cast) a obj)
    refine ⟨hw₂.trans hw₁, fun c => ?_⟩
    obtain ⟨ms₁, hlog₁, hm₁⟩ := h₁ c
    obtain ⟨ms₂, hlog₂, hm₂⟩ := h₂ c
    refine ⟨ms₁ ++ ms₂, ?_, fun m hm => ?_⟩
    · rw [List.foldl_cons, hlog₂, hlog₁, List.append_assoc]
    · rcases List.mem_append.mp hm with hm | hm
      · obtain ⟨q, d, sc, cur, dest, hq, hrest⟩ := hm₁ m hm
        exact ⟨q, d, sc, cur, dest, by simpa using .inl (List.mem_singleton.mp hq), hrest⟩
      · obtain ⟨q, d, sc, cur, dest, hq, hrest⟩ := hm₂ m hm
        rw [hw₁] at hrest
        exact ⟨q, d, sc, cur, dest, List.mem_cons_of_mem _ hq, hrest⟩

end Arena

/-! ## Whom a broadcast reaches -/

theorem Cast.ownerOf_eq_some {p : Nat} {c : C} :
    cast.ownerOf p = some c ↔ ∃ d, cast.player p = some d ∧ d.owner = some c := by
  rw [Cast.ownerOf, Option.bind_eq_some_iff]

theorem Cast.ownerOf_unique {p q : Nat} {c : C} (hp : cast.ownerOf p = some c)
    (hq : cast.ownerOf q = some c) : p = q := by
  obtain ⟨d, hd, ho⟩ := Cast.ownerOf_eq_some.mp hp
  obtain ⟨d', hd', ho'⟩ := Cast.ownerOf_eq_some.mp hq
  exact cast.owners p q d d' c hd hd' ho ho'

/-- A broadcast reaches a user as often as the user's player is in the list. -/
theorem Cast.heard_eq_count {p : Nat} {c : C} (h : cast.ownerOf p = some c) (objs : List Nat) :
    cast.heard c objs = objs.count p := by
  rw [Cast.heard, List.count]
  congr 1
  funext obj
  by_cases hobj : obj = p
  · subst hobj; simp [h]
  · have : cast.ownerOf obj ≠ some c := fun ho => hobj (Cast.ownerOf_unique ho h)
    simp [hobj, this]

theorem Cast.heard_pos {c : C} {objs : List Nat} (h : 0 < cast.heard c objs) :
    ∃ p ∈ objs, cast.ownerOf p = some c := by
  obtain ⟨p, hp, ho⟩ := List.countP_pos_iff.mp h
  exact ⟨p, hp, by simpa using ho⟩

/-- Only a player of the list hears a broadcast, and once. -/
theorem Cast.heard_of_mem {p : Nat} {c : C} (hp : cast.ownerOf p = some c) {objs : List Nat}
    (hnodup : objs.Nodup) (hin : p ∈ objs) : cast.heard c objs = 1 := by
  rw [Cast.heard_eq_count hp, List.count_eq_one_of_mem hnodup hin]

theorem Cast.heard_of_not_mem {c : C} {objs : List Nat} (h : ∀ p ∈ objs, cast.ownerOf p ≠ some c) :
    cast.heard c objs = 0 := by
  by_contra hne
  obtain ⟨p, hp, ho⟩ := Cast.heard_pos (Nat.pos_of_ne_zero hne)
  exact h p hp ho

/-! ## The views are right -/

/-- `GameScene::Enter` of objects that are in no scene, `Exit` of objects in it, and jobs of objects that
    have entered. -/
def Proper (a : Arena S C) : ArenaEvent S C → Prop
  | .enter _ obj => ∀ sc, obj ∉ a.world.objects sc
  | .exit sc obj => obj ∈ a.world.objects sc
  | .setDestPos obj _ => a.world.entered obj = true
  | _ => True

/-- The players have different ids, and each of them has a user. -/
structure Cast.Playing (cast : Cast C) : Prop where
  ids : ∀ p q d d', cast.player p = some d → cast.player q = some d' → d.playerId = d'.playerId → p = q
  live : ∀ p d, cast.player p = some d → d.owner ≠ none

/-- Another player of the scene has this id. -/
def Neighbour (cast : Cast C) (objs : List Nat) (p : Nat) (x : Int32) : Prop :=
  ∃ q d, q ∈ objs ∧ q ≠ p ∧ cast.player q = some d ∧ d.playerId.toInt32 = x

/-- **The views and the scene lists agree.** -/
structure Seen (cast : Cast C) (a : Arena S C) : Prop where
  placed : ∀ obj, Placed a.world obj
  alive : ∀ obj, a.world.destroyed obj = false
  view : ∀ p c, cast.ownerOf p = some c → ∀ sc, p ∈ a.world.objects sc →
    ∀ x, Shown (a.log c) x ↔ Neighbour cast (a.world.objects sc) p x
  once : ∀ c, AnnouncedOnce (a.log c)

theorem toInt32_inj {x y : UInt32} (h : x.toInt32 = y.toInt32) : x = y := by
  rw [← UInt32.toUInt32_toInt32 x, h, UInt32.toUInt32_toInt32]

/-- The players announced are the others, each of them once. -/
theorem announced_spec (P : cast.Playing) (a : Arena S C) (obj : Nat) {objs : List Nat}
    (hnodup : objs.Nodup) :
    (∀ m ∈ a.announced cast obj objs, ∃ x pos, m = .appear x pos) ∧
      (a.announced cast obj objs).Pairwise (fun m m' => ∀ x, m.shows x → ¬ m'.shows x) ∧
      ∀ x, (∃ m ∈ a.announced cast obj objs, m.shows x) ↔ Neighbour cast objs obj x := by
  -- what one object contributes
  have hone : ∀ other m, (if other = obj then none
      else match cast.player other with
        | some ⟨some _, id⟩ => some (Packet.appear id.toInt32 (a.getCurrentPos other))
        | _ => none) = some m ↔
      other ≠ obj ∧ ∃ d, cast.player other = some d ∧
        m = .appear d.playerId.toInt32 (a.getCurrentPos other) := by
    intro other m
    by_cases hself : other = obj
    · simp [hself]
    · cases hp : cast.player other with
      | none => simp [hself]
      | some d =>
        obtain ⟨owner, id⟩ := d
        cases owner with
        | none => exact absurd rfl (P.live other _ hp)
        | some c => simp [hself, eq_comm]
  refine ⟨fun m hm => ?_, ?_, fun x => ?_⟩
  · obtain ⟨other, -, h⟩ := List.mem_filterMap.mp hm
    obtain ⟨-, d, -, rfl⟩ := (hone other m).mp h
    exact ⟨_, _, rfl⟩
  · rw [Arena.announced, List.pairwise_filterMap]
    refine hnodup.imp_of_mem fun {q q'} _ _ hne m hm m' hm' x hs hs' => ?_
    obtain ⟨-, d, hd, rfl⟩ := (hone q m).mp hm
    obtain ⟨-, d', hd', rfl⟩ := (hone q' m').mp hm'
    have hid : d.playerId.toInt32 = d'.playerId.toInt32 := Eq.trans hs (Eq.symm hs')
    exact hne (P.ids q q' d d' hd hd' (toInt32_inj hid))
  · constructor
    · rintro ⟨m, hm, hs⟩
      obtain ⟨other, hin, h⟩ := List.mem_filterMap.mp hm
      obtain ⟨hne, d, hd, rfl⟩ := (hone other m).mp h
      exact ⟨other, d, hin, hne, hd, hs⟩
    · rintro ⟨q, d, hin, hne, hd, hx⟩
      refine ⟨.appear d.playerId.toInt32 (a.getCurrentPos q), ?_, hx⟩
      exact List.mem_filterMap.mpr ⟨q, hin, (hone q _).mpr ⟨hne, d, hd, rfl⟩⟩

namespace Seen

/-- A step that changes no list, and sends only packets that change no view. -/
theorem quiet {a a' : Arena S C} (V : Seen cast a) (hw : a'.world = a.world)
    (hlog : ∀ c, ∃ ms, a'.log c = a.log c ++ ms ∧ ∀ m ∈ ms, ∀ x, ¬ m.shows x ∧ ¬ m.hides x) :
    Seen cast a' where
  placed obj := by rw [hw]; exact V.placed obj
  alive obj := by rw [hw]; exact V.alive obj
  view p c hp sc hin x := by
    obtain ⟨ms, heq, hq⟩ := hlog c
    rw [heq, (view_append_quiet hq).1 x, hw]
    exact V.view p c hp sc (hw ▸ hin) x
  once c := by
    obtain ⟨ms, heq, hq⟩ := hlog c
    rw [heq]
    exact (view_append_quiet hq).2 (V.once c)

theorem of_moves {a a' : Arena S C} (V : Seen cast a) {movers : List Nat}
    (h : a'.world = a.world ∧ ∀ c, ∃ ms, a'.log c = a.log c ++ ms ∧ Moves cast a.world movers c ms) :
    Seen cast a' :=
  V.quiet h.1 fun c => by
    obtain ⟨ms, heq, hm⟩ := h.2 c
    exact ⟨ms, heq, hm.quiet⟩

/-- The client of a player that enters starts a new view, with the others in it. -/
theorem enter_self {a : Arena S C} (P : cast.Playing) (V : Seen cast a) {sc : S} {obj : Nat}
    (hnodup : (a.world.objects sc ++ [obj]).Nodup) {d : Player C} (hd : cast.player obj = some d) {c : C}
    (hc : cast.ownerOf obj = some c) :
    (∀ x, Shown ((a.enter cast sc obj).log c) x ↔ Neighbour cast (a.world.objects sc ++ [obj]) obj x) ∧
      AnnouncedOnce ((a.enter cast sc obj).log c) := by
  obtain ⟨cur, dest, sid, spawn, pos, a', heq⟩ := Arena.enter_log a sc hd c
  have hnone : cast.heard c ((a.world.objects sc ++ [obj]).filter (· ≠ obj)) = 0 := by
    refine Cast.heard_of_not_mem fun p hp ho => ?_
    rw [Cast.ownerOf_unique ho hc] at hp
    simp at hp
  rw [if_pos hc, if_pos hc, hnone, List.replicate_zero, List.append_nil] at heq
  obtain ⟨hall, hpair, hshow⟩ := announced_spec P a' obj hnodup
  obtain ⟨-, honce⟩ := view_append_moves (a.log c) (cast.heard c (a.world.objects sc ++ [obj]))
    d.playerId.toInt32 cur dest
  have hclear : ∀ x, ¬ Shown (a.log c ++ List.replicate (cast.heard c (a.world.objects sc ++ [obj]))
      (.moveNotify d.playerId.toInt32 cur dest) ++ [.sceneEnter sid d.playerId.toInt32 spawn]) x := by
    intro x hs
    rcases (shown_snoc ..).mp hs with h | ⟨-, h⟩
    · exact h
    · exact h trivial
  obtain ⟨hview, hkeep⟩ := view_append_appear hall hpair fun m _ x _ => hclear x
  rw [heq]
  constructor
  · intro x
    rw [hview x, hshow x]
    exact or_iff_right (hclear x)
  · exact hkeep (announcedOnce_snoc (honce (V.once c)) fun x hs => absurd hs id)

/-- The client of a player there already puts the new one into its view. -/
theorem enter_other {a : Arena S C} (P : cast.Playing) (V : Seen cast a) {sc : S} {obj : Nat}
    (hnodup : (a.world.objects sc ++ [obj]).Nodup) {d : Player C} (hd : cast.player obj = some d)
    {p : Nat} {c : C} (hp : cast.ownerOf p = some c) (hmem : p ∈ a.world.objects sc) :
    (∀ x, Shown ((a.enter cast sc obj).log c) x ↔ d.playerId.toInt32 = x ∨ Shown (a.log c) x) ∧
      AnnouncedOnce ((a.enter cast sc obj).log c) := by
  have hfree : obj ∉ a.world.objects sc := fun h =>
    (List.nodup_append.mp hnodup).2.2 obj h obj (List.mem_singleton_self obj) rfl
  have hne : p ≠ obj := fun h => hfree (h ▸ hmem)
  have hobj : cast.ownerOf obj ≠ some c := fun ho => hne (Cast.ownerOf_unique hp ho)
  obtain ⟨cur, dest, sid, spawn, pos, a', heq⟩ := Arena.enter_log a sc hd c
  have hone : cast.heard c ((a.world.objects sc ++ [obj]).filter (· ≠ obj)) = 1 :=
    Cast.heard_of_mem hp (hnodup.filter _)
      (List.mem_filter.mpr ⟨List.mem_append_left _ hmem, by simpa using hne⟩)
  rw [if_neg hobj, if_neg hobj, hone, List.append_nil, List.append_nil] at heq
  obtain ⟨hview, honce⟩ := view_append_moves (a.log c) (cast.heard c (a.world.objects sc ++ [obj]))
    d.playerId.toInt32 cur dest
  rw [heq, show List.replicate 1 (Packet.appear d.playerId.toInt32 pos)
    = [.appear d.playerId.toInt32 pos] from rfl]
  constructor
  · intro x
    rw [shown_snoc, hview x]
    exact or_congr_right (and_iff_left id)
  · refine announcedOnce_snoc (honce (V.once c)) fun x hs hshown => ?_
    obtain ⟨q, d', hq, -, hqd, hx⟩ := (V.view p c hp sc hmem x).mp ((hview x).mp hshown)
    have hid : d.playerId.toInt32 = d'.playerId.toInt32 := Eq.trans hs hx.symm
    exact hfree (P.ids obj q d d' hd hqd (toInt32_inj hid) ▸ hq)

/-- Nobody else hears of an `Enter`. -/
theorem enter_nobody (a : Arena S C) {sc : S} {obj : Nat} {c : C}
    (hobj : cast.ownerOf obj ≠ some c) (hno : ∀ p ∈ a.world.objects sc, cast.ownerOf p ≠ some c) :
    (a.enter cast sc obj).log c = a.log c := by
  cases hd : cast.player obj with
  | none => simp [Arena.enter, Arena.virtual, hd]
  | some d =>
    obtain ⟨cur, dest, sid, spawn, pos, a', heq⟩ := Arena.enter_log a sc hd c
    have hzero : ∀ p ∈ a.world.objects sc ++ [obj], cast.ownerOf p ≠ some c := by
      intro p hp
      rcases List.mem_append.mp hp with h | h
      · exact hno p h
      · rw [List.mem_singleton.mp h]
        exact hobj
    rw [heq, if_neg hobj, if_neg hobj, Cast.heard_of_not_mem hzero,
      Cast.heard_of_not_mem fun p hp => hzero p (List.mem_of_mem_filter hp)]
    simp

theorem enter {a : Arena S C} (P : cast.Playing) (V : Seen cast a) {sc : S} {obj : Nat}
    (hfree : ∀ sc', obj ∉ a.world.objects sc') : Seen cast (a.enter cast sc obj) := by
  have hobjs : (a.world.enter sc obj).objects sc = a.world.objects sc ++ [obj] := by
    simp [World.enter]
  have hplaced : ∀ q, Placed (a.world.enter sc obj) q := by
    intro q
    by_cases h : obj = q
    · subst h
      exact .enter hfree (V.alive obj) sc
    · exact ((V.placed q).other h sc).1
  have hnodup : (a.world.objects sc ++ [obj]).Nodup := by
    rw [← hobjs]
    exact List.nodup_iff_count_le_one.mpr fun q => (hplaced q).once sc
  refine ⟨by rw [Arena.enter_world]; exact hplaced, by rw [Arena.enter_world]; exact V.alive, ?_, ?_⟩
  · intro p c hp sc' hmem x
    rw [Arena.enter_world] at hmem ⊢
    cases hd : cast.player obj with
    | none =>
      have hlog : (a.enter cast sc obj).log = a.log := by simp [Arena.enter, Arena.virtual, hd]
      have hpo : p ≠ obj := by
        rintro rfl
        rw [Cast.ownerOf, hd] at hp
        cases hp
      rw [hlog, V.view p c hp sc' ((mem_enter.mp hmem).resolve_right fun h => hpo h.2) x]
      constructor
      · rintro ⟨q, d, hq, hrest⟩
        exact ⟨q, d, mem_enter.mpr (.inl hq), hrest⟩
      · rintro ⟨q, d, hq, hne, hqd, hx⟩
        refine ⟨q, d, (mem_enter.mp hq).resolve_right ?_, hne, hqd, hx⟩
        rintro ⟨-, rfl⟩
        rw [hd] at hqd
        cases hqd
    | some d =>
      rcases mem_enter.mp hmem with hold | ⟨rfl, rfl⟩
      · have hpo : p ≠ obj := fun h => hfree sc' (h ▸ hold)
        by_cases h : sc' = sc
        · subst h
          rw [(enter_other P V hnodup hd hp hold).1 x, V.view p c hp sc' hold x]
          constructor
          · rintro (rfl | ⟨q, d', hq, hrest⟩)
            · exact ⟨obj, d, mem_enter.mpr (.inr ⟨rfl, rfl⟩), Ne.symm hpo, hd, rfl⟩
            · exact ⟨q, d', mem_enter.mpr (.inl hq), hrest⟩
          · rintro ⟨q, d', hq, hne, hqd, hx⟩
            rcases mem_enter.mp hq with hq | ⟨-, rfl⟩
            · exact .inr ⟨q, d', hq, hne, hqd, hx⟩
            · rw [hd] at hqd
              cases hqd
              exact .inl hx
        · have hsame : (a.world.enter sc obj).objects sc' = a.world.objects sc' := by
            simp [World.enter, h]
          rw [hsame, enter_nobody a (fun ho => hpo (Cast.ownerOf_unique hp ho)) fun q hq ho =>
            h ((V.placed p).alone sc' sc hold (Cast.ownerOf_unique ho hp ▸ hq))]
          exact V.view p c hp sc' hold x
      · rw [hobjs]
        exact (enter_self P V hnodup hd hp).1 x
  · intro c
    cases hd : cast.player obj with
    | none =>
      rw [show (a.enter cast sc obj).log = a.log by simp [Arena.enter, Arena.virtual, hd]]
      exact V.once c
    | some d =>
      -- a user hears of it through one player at most
      by_cases hobj : cast.ownerOf obj = some c
      · exact (enter_self P V hnodup hd hobj).2
      · by_cases hother : ∃ p ∈ a.world.objects sc, cast.ownerOf p = some c
        · obtain ⟨p, hmem, hp⟩ := hother
          exact (enter_other P V hnodup hd hp hmem).2
        · rw [enter_nobody a hobj fun p hp ho => hother ⟨p, hp, ho⟩]
          exact V.once c

/-- Who is left behind is told. -/
theorem exit_other {a : Arena S C} {sc : S} {obj : Nat} {d : Player C}
    (hnodup : (a.world.objects sc).Nodup) (hd : cast.player obj = some d)
    (hs : a.world.scene obj = some sc) {p : Nat} {c : C} (hp : cast.ownerOf p = some c)
    (hmem : p ∈ a.world.objects sc) (hne : p ≠ obj) :
    (a.exit cast sc obj).log c = a.log c ++ [.disappear d.playerId.toInt32] := by
  rw [Arena.exit_log a sc hd hs c, Cast.heard_of_mem hp (hnodup.filter _)
    (List.mem_filter.mpr ⟨hmem, by simpa using hne⟩)]
  rfl

/-- A user without another player there hears nothing. -/
theorem exit_nobody {a : Arena S C} {sc : S} {obj : Nat} {d : Player C}
    (hd : cast.player obj = some d) (hs : a.world.scene obj = some sc) {c : C}
    (hno : ∀ p ∈ a.world.objects sc, p ≠ obj → cast.ownerOf p ≠ some c) :
    (a.exit cast sc obj).log c = a.log c := by
  rw [Arena.exit_log a sc hd hs c, Cast.heard_of_not_mem fun p hp => ?_]
  · simp
  · obtain ⟨hp, hne⟩ := List.mem_filter.mp hp
    exact hno p hp (by simpa using hne)

/-- Nobody but the object leaves. -/
theorem mem_exit {a : Arena S C} (V : Seen cast a) {sc : S} {obj : Nat}
    (hs : a.world.scene obj = some sc) (sc' : S) (p : Nat) :
    p ∈ (a.world.exit sc obj).objects sc' ↔ p ∈ a.world.objects sc' ∧ p ≠ obj := by
  by_cases hpo : p = obj
  · subst hpo
    have hleave : a.world.exit sc p = a.world.leave p := by simp [World.leave, hs]
    rw [hleave]
    exact ⟨fun h => absurd h ((V.placed p).leave.2 sc'), fun h => absurd rfl h.2⟩
  · by_cases h : sc' = sc
    · subst h
      simp [World.exit, List.mem_erase_of_ne hpo, hpo]
    · simp [World.exit, h, hpo]

theorem exit {a : Arena S C} (P : cast.Playing) (V : Seen cast a) {sc : S} {obj : Nat}
    (hmem : obj ∈ a.world.objects sc) : Seen cast (a.exit cast sc obj) := by
  have hs : a.world.scene obj = some sc := (V.placed obj).back sc hmem
  obtain ⟨w, hw⟩ : ∃ w, w = a.world.exit sc obj := ⟨_, rfl⟩
  have hleave : w = a.world.leave obj := by rw [hw]; simp [World.leave, hs]
  have hworld : (a.exit cast sc obj).world = w := by rw [hw, Arena.exit_world]
  obtain ⟨hscene, hfree⟩ := (V.placed obj).leave
  have hplaced : ∀ q, Placed w q := by
    intro q
    rw [hleave]
    by_cases h : obj = q
    · subst h
      exact .of_nowhere hscene hfree
    · exact ((V.placed q).other h sc).2
  have halive : ∀ q, w.destroyed q = false := by
    intro q
    rw [hleave, destroyed_leave]
    exact V.alive q
  have hin : ∀ sc' p, p ∈ w.objects sc' ↔ p ∈ a.world.objects sc' ∧ p ≠ obj := by
    rw [hw]
    exact V.mem_exit hs
  have hnodup : (a.world.objects sc).Nodup :=
    List.nodup_iff_count_le_one.mpr fun q => (V.placed q).once sc
  cases hd : cast.player obj with
  | none =>
    have hlog : (a.exit cast sc obj).log = a.log := by simp [Arena.exit, Arena.virtual, hd]
    refine ⟨by rw [hworld]; exact hplaced, by rw [hworld]; exact halive, ?_, by rw [hlog]; exact V.once⟩
    intro p c hp sc' hp' x
    rw [hworld] at hp' ⊢
    rw [hlog, V.view p c hp sc' ((hin sc' p).mp hp').1 x]
    constructor
    · rintro ⟨q, d, hq, hne, hqd, hx⟩
      refine ⟨q, d, (hin sc' q).mpr ⟨hq, ?_⟩, hne, hqd, hx⟩
      rintro rfl
      rw [hd] at hqd
      cases hqd
    · rintro ⟨q, d, hq, hrest⟩
      exact ⟨q, d, ((hin sc' q).mp hq).1, hrest⟩
  | some d =>
    refine ⟨by rw [hworld]; exact hplaced, by rw [hworld]; exact halive, ?_, fun c => ?_⟩
    · intro p c hp sc' hp' x
      rw [hworld] at hp' ⊢
      obtain ⟨hp', hne⟩ := (hin sc' p).mp hp'
      by_cases h : sc' = sc
      · subst h
        rw [exit_other hnodup hd hs hp hp' hne, shown_snoc, V.view p c hp sc' hp' x]
        constructor
        · rintro (hs | ⟨⟨q, d', hq, hqp, hqd, hx⟩, hgone⟩)
          · exact absurd hs id
          · refine ⟨q, d', (hin sc' q).mpr ⟨hq, ?_⟩, hqp, hqd, hx⟩
            rintro rfl
            rw [hd] at hqd
            cases hqd
            exact hgone hx
        · rintro ⟨q, d', hq, hqp, hqd, hx⟩
          obtain ⟨hq, hqo⟩ := (hin sc' q).mp hq
          refine .inr ⟨⟨q, d', hq, hqp, hqd, hx⟩, fun hgone => ?_⟩
          have hid : d.playerId.toInt32 = d'.playerId.toInt32 := Eq.trans hgone hx.symm
          exact hqo (P.ids obj q d d' hd hqd (toInt32_inj hid)).symm
      · have hsame : w.objects sc' = a.world.objects sc' := by rw [hw]; simp [World.exit, h]
        rw [exit_nobody hd hs fun q hq _ ho => h ((V.placed p).alone sc' sc hp' (Cast.ownerOf_unique ho hp ▸ hq)),
          hsame]
        exact V.view p c hp sc' hp' x
    · by_cases hno : ∃ p ∈ a.world.objects sc, p ≠ obj ∧ cast.ownerOf p = some c
      · obtain ⟨p, hp', hne, hp⟩ := hno
        rw [exit_other hnodup hd hs hp hp' hne]
        exact announcedOnce_snoc (V.once c) fun x hs => absurd hs id
      · rw [exit_nobody hd hs fun p hp hne ho => hno ⟨p, hp, hne, ho⟩]
        exact V.once c

end Seen

theorem seen_reachable (P : cast.Playing) {birth : Nat → S} {a : Arena S C}
    (h : Reachable (cast.system birth Proper) a) : Seen cast a := by
  apply h.invariant (I := Seen cast)
  · rintro a rfl
    exact {
      placed := fun obj => {
        once := fun sc => Nat.zero_le 1
        alone := fun sc sc' hmem => by cases hmem
        back := fun sc hmem => by cases hmem
        there := fun he => by cases he
        gone := fun hd => by cases hd }
      alive := fun obj => rfl
      view := fun p c hp sc hmem => by cases hmem
      once := fun c => announcedOnce_nil }
  · rintro a a' _ V ⟨e, hproper, rfl⟩
    cases e with
    | enter sc obj => exact V.enter P hproper
    | exit sc obj => exact V.exit P hproper
    | fixedUpdate sc => exact V.of_moves (Arena.fixedUpdate_moves cast a _)
    | setDestPos obj pos => exact V.of_moves (Arena.handleSetDestPos_moves cast a obj pos)
    | setUser c u => exact V.quiet rfl fun c' => ⟨[], by simp [Arena.step], fun m hm => by cases hm⟩

/-- **The views are right.**  In every run in which objects enter a scene from nowhere and leave the one
    they are in, the view of each client with a player in a scene holds the ids of the other players of
    that scene, and whenever a player is announced to a client it was not in its view. -/
theorem views_consistent (P : cast.Playing) {birth : Nat → S} {a : Arena S C}
    (h : Reachable (cast.system birth Proper) a) :
    (∀ p c, cast.ownerOf p = some c → ∀ sc, p ∈ a.world.objects sc →
      ∀ x, Shown (a.log c) x ↔ ∃ q d, q ∈ a.world.objects sc ∧ q ≠ p ∧ cast.player q = some d ∧
        d.playerId.toInt32 = x) ∧ ∀ c, AnnouncedOnce (a.log c) :=
  ⟨(seen_reachable P h).view, (seen_reachable P h).once⟩

/-! ## A couple -/

/-- Objects 0 and 1 are players with a user each, everything else is not a player. -/
def couplePlayer : Nat → Option (Player Bool)
  | 0 => some ⟨some false, 1⟩
  | 1 => some ⟨some true, 2⟩
  | _ => none

theorem couplePlayer_eq_some {p : Nat} {d : Player Bool} (h : couplePlayer p = some d) :
    p = 0 ∧ d = ⟨some false, 1⟩ ∨ p = 1 ∧ d = ⟨some true, 2⟩ := by
  rcases p with _ | _ | p
  · exact .inl ⟨rfl, (Option.some.inj h).symm⟩
  · exact .inr ⟨rfl, (Option.some.inj h).symm⟩
  · cases h

theorem couple_owners (p q : Nat) (d d' : Player Bool) (c : Bool) (hp : couplePlayer p = some d)
    (hq : couplePlayer q = some d') (ho : d.owner = some c) (ho' : d'.owner = some c) : p = q := by
  rcases couplePlayer_eq_some hp with ⟨rfl, rfl⟩ | ⟨rfl, rfl⟩ <;>
    rcases couplePlayer_eq_some hq with ⟨rfl, rfl⟩ | ⟨rfl, rfl⟩ <;> cases ho <;> cases ho' <;> rfl

def couple : Cast Bool where
  player := couplePlayer
  owners := couple_owners

theorem couple_playing : couple.Playing where
  ids p q d d' hp hq h := by
    rcases couplePlayer_eq_some hp with ⟨rfl, rfl⟩ | ⟨rfl, rfl⟩ <;>
      rcases couplePlayer_eq_some hq with ⟨rfl, rfl⟩ | ⟨rfl, rfl⟩
    · rfl
    · exact absurd h (by decide)
    · exact absurd h (by decide)
    · rfl
  live p d hp := by
    rcases couplePlayer_eq_some hp with ⟨rfl, rfl⟩ | ⟨rfl, rfl⟩ <;> simp

/-- The couple's square after the events. -/
def square (es : List (ArenaEvent Unit Bool)) : Arena Unit Bool :=
  es.foldl (Arena.step couple) (.empty fun _ => ())

/-- Both are in the square, and client 0 sees player 2. -/
theorem views_consistent_couple :
    Shown ((square [.enter () 0, .enter () 1]).log false) 2 := by
  have h₀ : Reachable (couple.system (fun _ => ()) Proper) (square []) := .start rfl
  have h₁ : Reachable (couple.system (fun _ => ()) Proper) (square [.enter () 0]) :=
    .step h₀ ⟨.enter () 0, (fun sc hmem => by cases hmem), rfl⟩
  have h₂ : Reachable (couple.system (fun _ => ()) Proper) (square [.enter () 0, .enter () 1]) := by
    refine .step h₁ ⟨.enter () 1, fun sc hmem => ?_, rfl⟩
    have : (1 : Nat) ∈ [0] := hmem
    simp at this
  refine ((views_consistent couple_playing h₂).1 0 false rfl () ?_ 2).mpr ⟨1, ⟨some true, 2⟩, ?_, by decide, rfl, by decide⟩
  · show 0 ∈ [0, 1]
    simp
  · show 1 ∈ [0, 1]
    simp

/-- **Announced twice.**  Player 2 leaves and comes back: its client is told of player 1 again, without
    having been told that player 1 disappeared. -/
theorem announced_again : ∃ a : Arena Unit Bool, Reachable (couple.system (fun _ => ()) Proper) a ∧
    ∃ l₁ l₂ pos pos', a.log true = l₁ ++ .appear 1 pos :: (l₂ ++ [.appear 1 pos']) ∧
      .disappear 1 ∉ l₂ := by
  have h₀ : Reachable (couple.system (fun _ => ()) Proper) (square []) := .start rfl
  have h₁ : Reachable (couple.system (fun _ => ()) Proper) (square [.enter () 0]) :=
    .step h₀ ⟨.enter () 0, (fun sc hmem => by cases hmem), rfl⟩
  have h₂ : Reachable (couple.system (fun _ => ()) Proper) (square [.enter () 0, .enter () 1]) :=
    .step h₁ ⟨.enter () 1, (fun sc hmem => absurd hmem (show (1 : Nat) ∉ [0] by simp)), rfl⟩
  have h₃ : Reachable (couple.system (fun _ => ()) Proper)
      (square [.enter () 0, .enter () 1, .exit () 1]) :=
    .step h₂ ⟨.exit () 1, show (1 : Nat) ∈ [0, 1] by simp, rfl⟩
  have h₄ : Reachable (couple.system (fun _ => ()) Proper)
      (square [.enter () 0, .enter () 1, .exit () 1, .enter () 1]) :=
    .step h₃ ⟨.enter () 1, (fun sc hmem => absurd hmem (show (1 : Nat) ∉ [0] by simp)), rfl⟩
  refine ⟨_, h₄, [.moveNotify 2 {} {}, .sceneEnter 0 2 {}], [.moveNotify 2 {} {}, .sceneEnter 0 2 {}], {},
    {}, rfl, ?_⟩
  simp

end JunCore.GameServer
