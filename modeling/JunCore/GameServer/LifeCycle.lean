/-
  The life of a user and its player on the game server.

  A user's own fields are written by the callbacks of its session only, one after the other.  So what a
  handler has checked still holds when it acts on it, and what is known of a user depends on where its
  callback is (`Session.Fits`).  What the sessions share are the counters: the player ids stay different
  as long as the counter of the ids does not wrap (`Issued`), and the counters of the sessions are what
  they are modulo 2^32 (`Tallied`).
-/
import JunCore.GameServer.GameServer

set_option linter.unusedVariables false

namespace JunCore.GameServer

open Transition Function Counting

variable {S : Type}

/-! ## What a step of a handler can be -/

/-- A handler that has written nothing yet and may still reject its request. -/
def Handler.clean : Handler S → Bool
  | .begin _ | .getPlayer | .getScene | .checkScene .. | .sendError .. => true
  | _ => false

inductive Handler.Moves (g : GameServer S) (s : Session S) :
    Handler S → GameServer S → Session S → Prop
  /-- it has checked something -/
  | check {h : Handler S} (h' : Handler S) : h.clean = true → (∀ id, h' ≠ .setPlayerId id) →
      Moves g s h g (s.handle h')
  /-- it returns and has changed nothing -/
  | leave {h : Handler S} (sent : List Reply) : h.clean = true →
      Moves g s h g { s with stage := .idle, sent := sent }
  | issue : Moves g s .generatePlayerId
      { g with nextPlayerId := g.nextPlayerId + 1, logins := g.logins + 1 }
      (s.handle (.setPlayerId g.nextPlayerId))
  | assign (id : UInt32) : Moves g s (.setPlayerId id) g
      { s with user.playerId := id, stage := .handling (.setLastSceneId id) }
  /-- it writes something else, or sends its answer -/
  | write {h : Handler S} {s' : Session S} : h.clean = false → s'.user.playerId = s.user.playerId →
      (s'.stage = .idle ∨
        ∃ h', s'.stage = .handling h' ∧ h'.clean = false ∧ ∀ id, h' ≠ .setPlayerId id) →
      Moves g s h g s'

theorem Handler.step_moves (g : GameServer S) (s : Session S) (h : Handler S) :
    h.Moves g s (h.step g s).1 (h.step g s).2 := by
  cases h with
  | begin r =>
    cases r with
    | login =>
      by_cases hid : s.user.playerId = 0
      · rw [Handler.step, if_neg (not_not.mpr hid)]
        exact .check _ rfl fun id h => by cases h
      · rw [Handler.step, if_pos hid]
        exact .check _ rfl fun id h => by cases h
    | sceneReady =>
      by_cases hid : s.user.playerId = 0
      · rw [Handler.step, if_pos hid]
        exact .check _ rfl fun id h => by cases h
      · rw [Handler.step, if_neg hid]
        exact .check _ rfl fun id h => by cases h
    | sceneChange sceneId =>
      cases hp : s.user.player <;> simp only [Handler.step, hp] <;>
        exact .check _ rfl fun id h => by cases h
    | move movePos =>
      cases hp : s.user.player <;> simp only [Handler.step, hp] <;>
        exact .check _ rfl fun id h => by cases h
  | generatePlayerId => exact .issue
  | setPlayerId id => exact .assign id
  | setLastSceneId id => exact .write rfl rfl (.inr ⟨.setSpawnPos id, rfl, rfl, fun id h => by cases h⟩)
  | setSpawnPos id => exact .write rfl rfl (.inr ⟨.sendLoginRes id, rfl, rfl, fun id h => by cases h⟩)
  | getPlayer =>
    cases hp : s.user.player with
    | none =>
      simp only [Handler.step, hp]
      exact .check _ rfl fun id h => by cases h
    | some player =>
      simp only [Handler.step, hp]
      exact .leave _ rfl
  | getScene =>
    cases hp : g.getSceneById s.user.lastSceneId <;> simp only [Handler.step, hp] <;>
      exact .check _ rfl fun id h => by cases h
  | create scene =>
    exact .write rfl rfl (.inr ⟨.setPlayer s.players.length, rfl, rfl, fun id h => by cases h⟩)
  | checkScene player sceneId =>
    cases hp : g.getSceneById sceneId <;> simp only [Handler.step, hp] <;>
      exact .check _ rfl fun id h => by cases h
  | setNewSceneId player sceneId scene =>
    exact .write rfl rfl (.inr ⟨.setNewSpawnPos player sceneId scene, rfl, rfl, fun id h => by cases h⟩)
  | setNewSpawnPos player sceneId scene =>
    exact .write rfl rfl (.inr ⟨.sendSceneChangeRes player sceneId scene, rfl, rfl, fun id h => by cases h⟩)
  | sendSceneChangeRes player sceneId scene =>
    exact .write rfl rfl (.inr ⟨.moveToScene player scene, rfl, rfl, fun id h => by cases h⟩)
  | sendLoginRes id => exact .write rfl rfl (.inl rfl)
  | setPlayer player => exact .write rfl rfl (.inl rfl)
  | moveToScene player scene => exact .write rfl rfl (.inl rfl)
  | postSetDestPosJob player pos => exact .write rfl rfl (.inl rfl)
  | sendError code message => exact .leave _ rfl

/-! ## A user and its player -/

/-- The user has no player. -/
def Session.Bare (s : Session S) : Prop := s.user.player = none ∧ s.players = []

/-- One player was created for the user, and `Destroy` was called on it `n` times. -/
def Session.Owns (s : Session S) (n : Nat) : Prop :=
  ∃ p, s.players = [p] ∧ p.playerId = s.user.playerId ∧ s.user.playerId ≠ 0 ∧ p.destroys = n

/-- The user has no player, or the one that was created for it. -/
def Session.Settled (s : Session S) : Prop := s.Bare ∨ s.user.player = some 0 ∧ s.Owns 0

/-- What is known of a user while its callback is at the stage. -/
def Session.Fits (s : Session S) : Prop :=
  match s.stage with
  | .absent | .accepted | .counted | .handling .generatePlayerId => s.user.playerId = 0 ∧ s.Bare
  | .handling (.setPlayerId id) => id ≠ 0 ∧ s.user.playerId = 0 ∧ s.Bare
  | .handling .getPlayer => s.user.playerId ≠ 0 ∧ s.Settled
  | .handling .getScene | .handling (.create _) => s.user.playerId ≠ 0 ∧ s.Bare
  | .handling (.setPlayer player) => player = 0 ∧ s.Owns 0
  | .handling (.checkScene player _) | .handling (.setNewSceneId player _ _)
  | .handling (.setNewSpawnPos player _ _) | .handling (.sendSceneChangeRes player _ _)
  | .handling (.moveToScene player _) | .handling (.postSetDestPosJob player _)
  | .destroying player => s.user.player = some player ∧ s.Settled
  | .handling _ | .idle | .parting | .uncounted | .looking => s.Settled
  | .clearing => s.Owns 1
  | .gone => s.players = [] ∨ s.Owns 1

theorem Session.Settled.bare {s : Session S} (h : s.Settled) (hid : s.user.playerId = 0) : s.Bare := by
  rcases h with h | ⟨-, p, -, -, hne, -⟩
  · exact h
  · exact absurd hid hne

theorem Session.Settled.bare_of_none {s : Session S} (h : s.Settled) (hnone : s.user.player = none) :
    s.Bare := by
  rcases h with h | ⟨hsome, -⟩
  · exact h
  · rw [hnone] at hsome
    cases hsome

theorem Session.Settled.owns {s : Session S} {player : Nat} (h : s.Settled)
    (hsome : s.user.player = some player) : player = 0 ∧ s.Owns 0 := by
  rcases h with ⟨hnone, -⟩ | ⟨hzero, howns⟩
  · rw [hnone] at hsome
    cases hsome
  · rw [hzero] at hsome
    exact ⟨(Option.some.inj hsome).symm, howns⟩

/-- A call on the player. -/
theorem Session.Owns.call {s : Session S} {n : Nat} (h : s.Owns n) (c : PlayerCall S) :
    (s.call 0 c).Owns (n + c.isDestroy.toNat) := by
  obtain ⟨p, hp, hid, hne, hn⟩ := h
  refine ⟨{ p with calls := p.calls ++ [c] }, by simp [Session.call, hp], hid, hne, ?_⟩
  rw [← hn, CreatedPlayer.destroys, CreatedPlayer.destroys, List.countP_append]
  cases hc : c.isDestroy <;> simp [hc]

theorem Handler.step_fits {g : GameServer S} {s : Session S} {h : Handler S}
    (hs : s.stage = .handling h) (F : s.Fits) (hnext : g.nextPlayerId ≠ 0) : (h.step g s).2.Fits := by
  rw [Session.Fits, hs] at F
  cases h with
  | begin r =>
    cases r with
    | login =>
      by_cases hid : s.user.playerId = 0
      · rw [Handler.step, if_neg (not_not.mpr hid)]
        exact ⟨hid, F.bare hid⟩
      · rw [Handler.step, if_pos hid]
        exact F
    | sceneReady =>
      by_cases hid : s.user.playerId = 0
      · rw [Handler.step, if_pos hid]
        exact F
      · rw [Handler.step, if_neg hid]
        exact ⟨hid, F⟩
    | sceneChange sceneId =>
      cases hp : s.user.player with
      | none => simp only [Handler.step, hp]; exact F
      | some player => simp only [Handler.step, hp]; exact ⟨hp, F⟩
    | move movePos =>
      cases hp : s.user.player with
      | none => simp only [Handler.step, hp]; exact F
      | some player => simp only [Handler.step, hp]; exact ⟨hp, F⟩
  | generatePlayerId => exact ⟨hnext, F⟩
  | setPlayerId id => exact .inl F.2.2
  | setLastSceneId id | setSpawnPos id | sendLoginRes id | sendError code message => exact F
  | getPlayer =>
    cases hp : s.user.player with
    | none => simp only [Handler.step, hp]; exact ⟨F.1, F.2.bare_of_none hp⟩
    | some player => simp only [Handler.step, hp]; exact F.2
  | getScene =>
    cases hp : g.getSceneById s.user.lastSceneId with
    | none => simp only [Handler.step, hp]; exact .inl F.2
    | some scene => simp only [Handler.step, hp]; exact F
  | create scene =>
    obtain ⟨hid, hnone, hnil⟩ := F
    refine ⟨by rw [hnil]; rfl, ⟨s.user.playerId, [.enter scene]⟩, ?_, rfl, hid, rfl⟩
    simp [Handler.step, hnil]
  | setPlayer player =>
    obtain ⟨rfl, howns⟩ := F
    exact .inr ⟨rfl, howns⟩
  | checkScene player sceneId =>
    cases hp : g.getSceneById sceneId with
    | none => simp only [Handler.step, hp]; exact F.2
    | some scene => simp only [Handler.step, hp]; exact F
  | setNewSceneId player sceneId scene | setNewSpawnPos player sceneId scene
  | sendSceneChangeRes player sceneId scene => exact F
  | moveToScene player scene =>
    obtain ⟨rfl, howns⟩ := F.2.owns F.1
    exact .inr ⟨F.1, howns.call (.moveToScene scene)⟩
  | postSetDestPosJob player pos =>
    obtain ⟨rfl, howns⟩ := F.2.owns F.1
    exact .inr ⟨F.1, howns.call (.postSetDestPosJob pos)⟩

theorem Session.step_fits {g g' : GameServer S} {s s' : Session S} {input : Input}
    (h : s.step g input = some (g', s')) (F : s.Fits) (hnext : g.nextPlayerId ≠ 0) : s'.Fits := by
  obtain ⟨stage, user, players, sent⟩ := s
  cases input with
  | accept =>
    cases stage <;> simp only [Session.step, Option.some.injEq, Prod.mk.injEq, reduceCtorEq] at h
    obtain ⟨-, rfl⟩ := h
    exact F
  | request r =>
    cases stage <;> simp only [Session.step, Option.some.injEq, Prod.mk.injEq, reduceCtorEq] at h
    obtain ⟨-, rfl⟩ := h
    exact F
  | disconnect =>
    cases stage <;> simp only [Session.step, Option.some.injEq, Prod.mk.injEq, reduceCtorEq] at h
    obtain ⟨-, rfl⟩ := h
    exact F
  | advance =>
    cases stage with
    | absent | idle | gone => cases h
    | accepted | parting | uncounted =>
      obtain ⟨-, rfl⟩ := Prod.mk.inj (Option.some.inj h)
      exact F
    | counted =>
      obtain ⟨-, rfl⟩ := Prod.mk.inj (Option.some.inj h)
      exact .inl F.2
    | handling hd =>
      obtain ⟨-, rfl⟩ := Prod.mk.inj (Option.some.inj h)
      exact Handler.step_fits rfl F hnext
    | looking =>
      cases hp : user.player with
      | none =>
        simp only [Session.step, hp, Option.some.injEq, Prod.mk.injEq] at h
        obtain ⟨-, rfl⟩ := h
        exact .inl (Session.Settled.bare_of_none F hp).2
      | some player =>
        simp only [Session.step, hp, Option.some.injEq, Prod.mk.injEq] at h
        obtain ⟨-, rfl⟩ := h
        exact ⟨hp, F⟩
    | destroying player =>
      obtain ⟨-, rfl⟩ := Prod.mk.inj (Option.some.inj h)
      obtain ⟨rfl, howns⟩ := F.2.owns F.1
      exact howns.call .destroy
    | clearing =>
      obtain ⟨-, rfl⟩ := Prod.mk.inj (Option.some.inj h)
      exact .inr F

/-! ## The player ids -/

/-- The id is the user's, or will be with the next step. -/
def Session.Holds (s : Session S) (id : UInt32) : Prop :=
  id ≠ 0 ∧ (s.user.playerId = id ∨ s.stage = .handling (.setPlayerId id))

/-- Either no id is handed out, or the next one is, to this session. -/
structure Session.Hands (g : GameServer S) (s : Session S) (g' : GameServer S) (s' : Session S) : Prop where
  server : g'.nextPlayerId = g.nextPlayerId ∧ g'.logins = g.logins ∨
    g'.nextPlayerId = g.nextPlayerId + 1 ∧ g'.logins = g.logins + 1
  session : ∀ id, s'.Holds id → s.Holds id ∨ id = g.nextPlayerId ∧ g'.logins = g.logins + 1

theorem Session.Hands.keep {g g' : GameServer S} {s s' : Session S}
    (hnext : g'.nextPlayerId = g.nextPlayerId) (hlogins : g'.logins = g.logins)
    (huser : s'.user.playerId = s.user.playerId) (hstage : ∀ id, s'.stage ≠ .handling (.setPlayerId id)) :
    Session.Hands g s g' s' := by
  refine ⟨.inl ⟨hnext, hlogins⟩, fun id hid => .inl ⟨hid.1, .inl ?_⟩⟩
  rw [← huser]
  exact hid.2.resolve_right (hstage id)

theorem Handler.Moves.hands {g g' : GameServer S} {s s' : Session S} {h : Handler S}
    (hs : s.stage = .handling h) (M : h.Moves g s g' s') : s.Hands g g' s' := by
  cases M with
  | check h' hclean hstay =>
    refine .keep rfl rfl rfl fun id hstage => hstay id ?_
    exact Stage.handling.inj hstage
  | leave sent hclean => exact .keep rfl rfl rfl fun id hstage => by cases hstage
  | issue =>
    refine ⟨.inr ⟨rfl, rfl⟩, fun id hid => ?_⟩
    rcases hid.2 with huser | hstage
    · exact .inl ⟨hid.1, .inl huser⟩
    · cases hstage
      exact .inr ⟨rfl, rfl⟩
  | assign id =>
    refine ⟨.inl ⟨rfl, rfl⟩, fun id' hid => .inl ⟨hid.1, .inr ?_⟩⟩
    rcases hid.2 with huser | hstage
    · rw [hs, show id = id' from huser]
    · cases hstage
  | write hclean hid hstage =>
    refine .keep rfl rfl hid fun id hset => ?_
    rcases hstage with hidle | ⟨h', heq, -, hstay⟩
    · rw [hidle] at hset
      cases hset
    · rw [heq] at hset
      exact hstay id (Stage.handling.inj hset)

theorem Session.step_hands {g g' : GameServer S} {s s' : Session S} {input : Input}
    (h : s.step g input = some (g', s')) : s.Hands g g' s' := by
  obtain ⟨stage, user, players, sent⟩ := s
  cases input with
  | accept | request r | disconnect =>
    cases stage <;> simp only [Session.step, Option.some.injEq, Prod.mk.injEq, reduceCtorEq] at h
    obtain ⟨rfl, rfl⟩ := h
    exact .keep rfl rfl rfl fun id hstage => by cases hstage
  | advance =>
    cases stage with
    | absent | idle | gone => cases h
    | accepted | counted | parting | uncounted | destroying player | clearing =>
      obtain ⟨rfl, rfl⟩ := Prod.mk.inj (Option.some.inj h)
      exact .keep rfl rfl rfl fun id hstage => by cases hstage
    | handling hd =>
      have M := hd.step_moves g ⟨.handling hd, user, players, sent⟩
      rw [Option.some.inj h] at M
      exact M.hands rfl
    | looking =>
      cases hp : user.player <;> simp only [Session.step, hp, Option.some.injEq, Prod.mk.injEq] at h <;>
        obtain ⟨rfl, rfl⟩ := h <;> exact .keep rfl rfl rfl fun id hstage => by cases hstage

/-- As long as the counter has not wrapped around, no id was handed out twice. -/
structure Issued (sys : Sys S) : Prop where
  next : sys.server.nextPlayerId.toNat = sys.server.logins + 1
  below : ∀ i id, (sys.session i).Holds id → id.toNat ≤ sys.server.logins
  own : ∀ i j id, (sys.session i).Holds id → (sys.session j).Holds id → i = j

theorem Issued.session {sys : Sys S} (I : Issued sys) {i : Nat} {g : GameServer S} {s : Session S}
    (H : (sys.session i).Hands sys.server g s) (hlogins : g.logins < 2 ^ 32 - 1) :
    Issued ⟨g, update sys.session i s⟩ := by
  have hnext : g.nextPlayerId.toNat = g.logins + 1 := by
    rcases H.server with ⟨hn, hl⟩ | ⟨hn, hl⟩
    · rw [hn, hl, I.next]
    · rw [hn, hl, UInt32.toNat_add, I.next]
      exact Nat.mod_eq_of_lt (by show sys.server.logins + 1 + 1 < 2 ^ 32; omega)
  have hle : sys.server.logins ≤ g.logins := by
    rcases H.server with ⟨-, hl⟩ | ⟨-, hl⟩ <;> omega
  -- the id that was handed out is nobody else's
  have hother : ∀ j id, j ≠ i → s.Holds id → (sys.session j).Holds id → False := by
    intro j id hne hs hj
    rcases H.session id hs with hi | ⟨rfl, -⟩
    · exact hne (I.own j i id hj hi)
    · have := I.below j _ hj
      rw [I.next] at this
      omega
  refine ⟨hnext, fun j id hid => ?_, fun j k id hj hk => ?_⟩
  · by_cases hji : j = i
    · subst hji
      simp only [update_self] at hid
      rcases H.session id hid with hold | ⟨rfl, hl⟩
      · exact Nat.le_trans (I.below j id hold) hle
      · rw [I.next, hl]
    · simp only [update_of_ne hji] at hid
      exact Nat.le_trans (I.below j id hid) hle
  · by_cases hji : j = i <;> by_cases hki : k = i
    · rw [hji, hki]
    · subst hji
      simp only [update_self, update_of_ne hki] at hj hk
      exact (hother k id hki hj hk).elim
    · subst hki
      simp only [update_self, update_of_ne hji] at hj hk
      exact (hother j id hji hk hj).elim
    · simp only [update_of_ne hji, update_of_ne hki] at hj hk
      exact I.own j k id hj hk

/-- **What holds while the ids last.** -/
structure Living (sys : Sys S) : Prop where
  issued : Issued sys
  fits : ∀ i, (sys.session i).Fits

theorem living_reachable {sys : Sys S} (h : Reachable (gameServer S) sys)
    (hlogins : sys.server.logins < 2 ^ 32 - 1) : Living sys := by
  refine h.invariant (I := fun sys => sys.server.logins < 2 ^ 32 - 1 → Living sys) ?_ ?_ hlogins
  · rintro sys rfl -
    refine ⟨⟨rfl, fun i id h => ?_, fun i j id h => ?_⟩, fun i => ⟨rfl, rfl, rfl⟩⟩ <;>
      rcases h with ⟨hne, huser | hstage⟩
    · exact absurd huser.symm hne
    · cases hstage
    · exact absurd huser.symm hne
    · cases hstage
  · rintro sys sys' _ IH ⟨e, hstep⟩ hlogins
    rcases Sys.step_cases hstep with ⟨scene, rfl⟩ | ⟨i, input, g, s, hs, rfl⟩
    · obtain ⟨I, F⟩ := IH hlogins
      exact ⟨⟨I.next, I.below, I.own⟩, F⟩
    · have H := Session.step_hands hs
      have hlt : sys.server.logins < 2 ^ 32 - 1 := by
        rcases H.server with ⟨-, hl⟩ | ⟨-, hl⟩
        · exact hl ▸ hlogins
        · replace hlogins : g.logins < 2 ^ 32 - 1 := hlogins
          omega
      obtain ⟨I, F⟩ := IH hlt
      refine ⟨I.session H hlogins, fun j => ?_⟩
      by_cases hji : j = i
      · subst hji
        simp only [update_self]
        refine Session.step_fits hs (F j) fun hzero => ?_
        have := I.next
        rw [hzero] at this
        exact absurd this (by simp)
      · simp only [update_of_ne hji]
        exact F j

/-! ## Requests that are rejected -/

/-- In a handler of session `i`. -/
def Sys.Busy (sys : Sys S) (i : Nat) : Prop := ∃ h, (sys.session i).stage = .handling h

/-- The request that a handler of session `i` begins with in `sys` is answered with an error, and
    `sys''` is the state after it. -/
def Rejects (sys : Sys S) (i : Nat) (sys'' : Sys S) : Prop :=
  ∃ r sys' code message, (sys.session i).stage = .handling (.begin r) ∧
    Reachable (((gameServer S).after sys).guard fun _ t => t.Busy i) sys' ∧
      (sys'.session i).stage = .handling (.sendError code message) ∧
        sys'.step (.session i .advance) = some sys''

theorem Session.step_clean {g g' : GameServer S} {s s' : Session S} {input : Input} {h h' : Handler S}
    (hstep : s.step g input = some (g', s')) (hs : s.stage = .handling h) (hs' : s'.stage = .handling h')
    (hclean : h'.clean = true) : h.clean = true ∧ s'.user = s.user ∧ s'.players = s.players := by
  obtain ⟨stage, user, players, sent⟩ := s
  obtain rfl : stage = .handling h := hs
  cases input with
  | accept | request _ | disconnect => cases hstep
  | advance =>
    have M := h.step_moves g ⟨.handling h, user, players, sent⟩
    rw [Option.some.inj hstep] at M
    cases M with
    | check h₁ hcl => exact ⟨hcl, rfl, rfl⟩
    | leave sent hcl => cases hs'
    | issue | assign id =>
      cases hs'
      cases hclean
    | write hcl hid hstage =>
      rcases hstage with hidle | ⟨h₁, heq, hdirty, -⟩
      · rw [hidle] at hs'
        cases hs'
      · rw [heq] at hs'
        cases hs'
        rw [hclean] at hdirty
        cases hdirty

/-- Before its first write, a handler has changed nothing. -/
theorem untouched_of_clean {sys sys' : Sys S} {i : Nat} {r : Request}
    (hbegin : (sys.session i).stage = .handling (.begin r))
    (h : Reachable (((gameServer S).after sys).guard fun _ t => t.Busy i) sys') :
    ∃ hd, (sys'.session i).stage = .handling hd ∧ (hd.clean = true →
      (sys'.session i).user = (sys.session i).user ∧
        (sys'.session i).players = (sys.session i).players) := by
  induction h with
  | start h0 =>
    obtain rfl := h0
    exact ⟨.begin r, hbegin, fun _ => ⟨rfl, rfl⟩⟩
  | step _ hnext ih =>
    obtain ⟨⟨e, hstep⟩, hd', hbusy⟩ := hnext
    obtain ⟨hd, hstage, hold⟩ := ih
    refine ⟨hd', hbusy, fun hclean => ?_⟩
    rcases Sys.step_cases hstep with ⟨scene, rfl⟩ | ⟨j, input, g, s, hs, rfl⟩
    · simp only [hstage, Stage.handling.injEq] at hbusy
      exact hold (hbusy ▸ hclean)
    · by_cases hij : i = j
      · subst hij
        simp only [update_self] at hbusy ⊢
        obtain ⟨hcl, huser, hplayers⟩ := Session.step_clean hs hstage hbusy hclean
        rw [huser, hplayers]
        exact hold hcl
      · simp only [update_of_ne hij, hstage, Stage.handling.injEq] at hbusy ⊢
        exact hold (hbusy ▸ hclean)

theorem rejected_untouched {sys sys' : Sys S} {i : Nat} (h : Rejects sys i sys') :
    (sys'.session i).user = (sys.session i).user ∧
      (sys'.session i).players = (sys.session i).players := by
  obtain ⟨r, sys₁, code, message, hbegin, hreach, hstage, hstep⟩ := h
  obtain ⟨hd, hstage', hold⟩ := untouched_of_clean hbegin hreach
  rw [hstage, Stage.handling.injEq] at hstage'
  rw [Sys.step, Option.map_eq_some_iff] at hstep
  obtain ⟨⟨g, s⟩, hs, rfl⟩ := hstep
  simp only [Session.step, hstage, Option.some.injEq] at hs
  simp only [update_self]
  cases hs
  exact hold (hstage' ▸ rfl)

/-! ## The counters of the sessions -/

/-- Between `currentSessions_++` and `currentSessions_--`. -/
def Session.current (s : Session S) : Bool :=
  match s.stage with
  | .counted | .idle | .handling _ | .parting => true
  | _ => false

/-- After `totalConnected_++`. -/
def Session.connected (s : Session S) : Bool :=
  match s.stage with
  | .absent | .accepted | .counted => false
  | _ => true

/-- After `totalDisconnected_++`. -/
def Session.disconnected (s : Session S) : Bool :=
  match s.stage with
  | .looking | .destroying _ | .clearing | .gone => true
  | _ => false

/-- `OnSessionConnect` has returned, and `OnUserDisconnect` was not called. -/
def Session.live (s : Session S) : Bool :=
  match s.stage with
  | .idle | .handling _ => true
  | _ => false

/-- No callback of the session is in progress. -/
def Session.resting (s : Session S) : Bool :=
  match s.stage with
  | .absent | .idle | .gone => true
  | _ => false

/-- A counter goes with the check `p` of the session that takes the step. -/
def Session.Counts (p : Session S → Bool) (n n' : UInt32) (s s' : Session S) : Prop :=
  n' + UInt32.ofNat (p s).toNat = n + UInt32.ofNat (p s').toNat

theorem Session.Counts.same {p : Session S → Bool} {n : UInt32} {s s' : Session S} (h : p s' = p s) :
    Session.Counts p n n s s' := by
  rw [Session.Counts, h]

theorem Session.counts_of_live {s : Session S} (h : s.live = true) :
    s.current = true ∧ s.connected = true ∧ s.disconnected = false := by
  obtain ⟨stage, user, players, sent⟩ := s
  cases stage with
  | idle | handling h => exact ⟨rfl, rfl, rfl⟩
  | _ => cases h

/-- A handler leaves the counters alone, and the session lives. -/
theorem Handler.Moves.live {g g' : GameServer S} {s s' : Session S} {h : Handler S}
    (M : h.Moves g s g' s') : g'.currentSessions = g.currentSessions ∧
      g'.totalConnected = g.totalConnected ∧ g'.totalDisconnected = g.totalDisconnected ∧
        s'.live = true := by
  cases M with
  | write hclean hid hstage =>
    refine ⟨rfl, rfl, rfl, ?_⟩
    rcases hstage with hidle | ⟨h', heq, -, -⟩
    · rw [Session.live, hidle]
    · rw [Session.live, heq]
  | _ => exact ⟨rfl, rfl, rfl, rfl⟩

theorem Session.step_counts {g g' : GameServer S} {s s' : Session S} {input : Input}
    (h : s.step g input = some (g', s')) :
    Session.Counts Session.current g.currentSessions g'.currentSessions s s' ∧
      Session.Counts Session.connected g.totalConnected g'.totalConnected s s' ∧
      Session.Counts Session.disconnected g.totalDisconnected g'.totalDisconnected s s' := by
  obtain ⟨stage, user, players, sent⟩ := s
  cases input with
  | accept | request r | disconnect =>
    cases stage <;> simp only [Session.step, Option.some.injEq, Prod.mk.injEq, reduceCtorEq] at h
    obtain ⟨rfl, rfl⟩ := h
    exact ⟨.same rfl, .same rfl, .same rfl⟩
  | advance =>
    cases stage with
    | absent | idle | gone => cases h
    | accepted =>
      obtain ⟨rfl, rfl⟩ := Prod.mk.inj (Option.some.inj h)
      refine ⟨?_, .same rfl, .same rfl⟩
      simp [Session.Counts, Session.current]
    | counted =>
      obtain ⟨rfl, rfl⟩ := Prod.mk.inj (Option.some.inj h)
      refine ⟨.same rfl, ?_, .same rfl⟩
      simp [Session.Counts, Session.connected]
    | parting =>
      obtain ⟨rfl, rfl⟩ := Prod.mk.inj (Option.some.inj h)
      refine ⟨?_, .same rfl, .same rfl⟩
      simp [Session.Counts, Session.current]
    | uncounted =>
      obtain ⟨rfl, rfl⟩ := Prod.mk.inj (Option.some.inj h)
      refine ⟨.same rfl, .same rfl, ?_⟩
      simp [Session.Counts, Session.disconnected]
    | destroying player | clearing =>
      obtain ⟨rfl, rfl⟩ := Prod.mk.inj (Option.some.inj h)
      exact ⟨.same rfl, .same rfl, .same rfl⟩
    | handling hd =>
      have M := hd.step_moves g ⟨.handling hd, user, players, sent⟩
      rw [Option.some.inj h] at M
      obtain ⟨hcur, htot, hdis, hlive⟩ := M.live
      obtain ⟨hc, ht, hd⟩ := Session.counts_of_live hlive
      rw [hcur, htot, hdis]
      exact ⟨.same hc, .same ht, .same hd⟩
    | looking =>
      cases hp : user.player <;> simp only [Session.step, hp, Option.some.injEq, Prod.mk.injEq] at h <;>
        obtain ⟨rfl, rfl⟩ := h <;> exact ⟨.same rfl, .same rfl, .same rfl⟩

/-- A counter that shows how many sessions pass a check, modulo 2^32. -/
structure Tally (p : Session S → Bool) (n : UInt32) (session : Nat → Session S) : Prop where
  finite : {i | p (session i) = true}.Finite
  shows : n = UInt32.ofNat (tally p session)

theorem Tally.session {p : Session S → Bool} {n n' : UInt32} {session : Nat → Session S}
    (T : Tally p n session) {i : Nat} {s : Session S} (h : Session.Counts p n n' (session i) s) :
    Tally p n' (update session i s) := by
  refine ⟨finite_update T.finite i s, ?_⟩
  have hcount := tally_update T.finite i s
  rw [Session.Counts, T.shows, ← UInt32.ofNat_add, ← hcount, UInt32.ofNat_add, UInt32.add_left_inj] at h
  exact h

/-- **The three counters show what they are for.** -/
structure Tallied (sys : Sys S) : Prop where
  current : Tally Session.current sys.server.currentSessions sys.session
  connected : Tally Session.connected sys.server.totalConnected sys.session
  disconnected : Tally Session.disconnected sys.server.totalDisconnected sys.session

theorem tallied_reachable {sys : Sys S} (h : Reachable (gameServer S) sys) : Tallied sys := by
  apply h.invariant (I := Tallied)
  · rintro sys rfl
    have hnone : ∀ p : Session S → Bool, p {} = false → Tally p 0 fun _ => {} := by
      intro p hp
      refine ⟨by simp [hp], ?_⟩
      rw [tally_none fun _ => hp]
      rfl
    exact ⟨hnone _ rfl, hnone _ rfl, hnone _ rfl⟩
  · rintro sys sys' _ T ⟨e, hstep⟩
    rcases Sys.step_cases hstep with ⟨scene, rfl⟩ | ⟨i, input, g, s, hs, rfl⟩
    · exact ⟨T.current, T.connected, T.disconnected⟩
    · obtain ⟨hc, ht, hd⟩ := Session.step_counts hs
      exact ⟨T.current.session hc, T.connected.session ht, T.disconnected.session hd⟩

/-- At rest, the sessions that were counted in and not out are those that live. -/
theorem Tallied.rest {sys : Sys S} (T : Tallied sys) (hrest : ∀ i, (sys.session i).resting = true) :
    sys.server.currentSessions = sys.server.totalConnected - sys.server.totalDisconnected ∧
      sys.server.currentSessions = UInt32.ofNat {i | (sys.session i).live = true}.ncard := by
  have hcheck : ∀ s : Session S, s.resting = true → s.current = s.live ∧
      s.connected.toNat = s.current.toNat + s.disconnected.toNat := by
    rintro ⟨stage, user, players, sent⟩ h
    cases stage with
    | absent | idle | gone => exact ⟨rfl, rfl⟩
    | _ => cases h
  constructor
  · have hsum := tally_add T.current.finite T.disconnected.finite fun i => (hcheck _ (hrest i)).2
    rw [T.current.shows, T.connected.shows, T.disconnected.shows, hsum, UInt32.ofNat_add,
      UInt32.add_sub_cancel]
  · have hlive : {i | (sys.session i).live = true} = {i | (sys.session i).current = true} := by
      ext i
      simp [(hcheck _ (hrest i)).1]
    rw [T.current.shows, hlive]
    rfl

/-! ## The life of a player -/

theorem Session.Fits.owns {s : Session S} (F : s.Fits) : s.players = [] ∨
    ∃ n, s.Owns n ∧ (s.live = true → n = 0) ∧ (s.stage = .gone → n = 1) := by
  have hsettled : s.Settled → s.stage ≠ .gone → s.players = [] ∨
      ∃ n, s.Owns n ∧ (s.live = true → n = 0) ∧ (s.stage = .gone → n = 1) := by
    rintro (hbare | howns) hne
    · exact .inl hbare.2
    · exact .inr ⟨0, howns.2, fun _ => rfl, fun h => absurd h hne⟩
  obtain ⟨stage, user, players, sent⟩ := s
  cases stage with
  | absent | accepted | counted => exact .inl F.2.2
  | idle | parting | uncounted | looking => exact hsettled F (fun h => by cases h)
  | destroying player => exact hsettled F.2 (fun h => by cases h)
  | clearing => exact .inr ⟨1, F, (fun h => by cases h), fun _ => rfl⟩
  | gone => exact F.imp_right fun h => ⟨1, h, (fun h => by cases h), fun _ => rfl⟩
  | handling h =>
    cases h with
    | generatePlayerId | getScene | create scene => exact .inl F.2.2
    | setPlayerId id => exact .inl F.2.2.2
    | setPlayer player => exact .inr ⟨0, F.2, fun _ => rfl, fun h => by cases h⟩
    | getPlayer | checkScene player sceneId | setNewSceneId player sceneId scene
    | setNewSpawnPos player sceneId scene | sendSceneChangeRes player sceneId scene
    | moveToScene player scene | postSetDestPosJob player pos =>
      exact hsettled F.2 (fun h => by cases h)
    | begin r | setLastSceneId id | setSpawnPos id | sendLoginRes id | sendError code message =>
      exact hsettled F (fun h => by cases h)

/-- **The life of users and players.**  In every run with fewer than 2^32 - 1 logins: a player was
    created for a user only if it has an id, and only one; no two users have the same id; a player is not
    destroyed while its session lives, and is destroyed once when it has ended; a request that is
    rejected changes neither its user nor its players, and no step of a session those of another one; and
    at rest `currentSessions_` is the difference of the other two counters, and the number of live
    sessions modulo 2^32. -/
theorem life_cycle {sys : Sys S} (h : Reachable (gameServer S) sys)
    (hlogins : sys.server.logins < 2 ^ 32 - 1) :
    (∀ i, (sys.session i).players ≠ [] → (sys.session i).user.playerId ≠ 0) ∧
    (∀ i, (sys.session i).players.length ≤ 1) ∧
    (∀ i j, i ≠ j → (sys.session i).user.playerId ≠ 0 →
      (sys.session i).user.playerId ≠ (sys.session j).user.playerId) ∧
    (∀ i, ∀ p ∈ (sys.session i).players, ((sys.session i).live = true → p.destroys = 0) ∧
      ((sys.session i).stage = .gone → p.destroys = 1)) ∧
    (∀ i sys', Rejects sys i sys' → (sys'.session i).user = (sys.session i).user ∧
      (sys'.session i).players = (sys.session i).players) ∧
    (∀ i input sys', sys.step (.session i input) = some sys' →
      ∀ j, j ≠ i → sys'.session j = sys.session j) ∧
    ((∀ i, (sys.session i).resting = true) →
      sys.server.currentSessions = sys.server.totalConnected - sys.server.totalDisconnected ∧
        sys.server.currentSessions = UInt32.ofNat {i | (sys.session i).live = true}.ncard) := by
  obtain ⟨I, F⟩ := living_reachable h hlogins
  refine ⟨fun i hne => ?_, fun i => ?_, fun i j hij hne heq => ?_, fun i p hp => ?_,
    fun i sys' => rejected_untouched, fun i input sys' hstep j hji => ?_, (tallied_reachable h).rest⟩
  · obtain ⟨n, ⟨p, -, -, hid, -⟩, -⟩ := (F i).owns.resolve_left hne
    exact hid
  · rcases (F i).owns with hnil | ⟨n, ⟨p, hp, -⟩, -⟩
    · rw [hnil]
      exact Nat.zero_le 1
    · rw [hp]
      exact Nat.le_refl 1
  · exact hij (I.own i j _ ⟨hne, .inl rfl⟩ ⟨hne, .inl heq.symm⟩)
  · rcases (F i).owns with hnil | ⟨n, ⟨q, hq, -, -, hn⟩, hlive, hgone⟩
    · rw [hnil] at hp
      cases hp
    · rw [hq, List.mem_singleton] at hp
      rw [hp, hn]
      exact ⟨hlive, hgone⟩
  · rw [Sys.step, Option.map_eq_some_iff] at hstep
    obtain ⟨r, -, rfl⟩ := hstep
    exact update_of_ne hji ..

/-! ## Two visitors -/

/-- Session 0 logs in, enters the game and leaves again; session 1 asks for another scene without having
    logged in, and stays. -/
def visit : List (Event Unit) :=
  [.onServerStart (), .session 0 .accept, .session 1 .accept, .session 0 .advance, .session 1 .advance,
    .session 1 .advance, .session 0 .advance, .session 0 (.request .login), .session 0 .advance,
    .session 0 .advance, .session 0 .advance, .session 0 .advance, .session 0 .advance,
    .session 0 .advance, .session 0 (.request .sceneReady), .session 0 .advance, .session 0 .advance,
    .session 0 .advance, .session 0 .advance, .session 0 .advance, .session 1 (.request (.sceneChange 0)),
    .session 1 .advance, .session 1 .advance, .session 0 .disconnect, .session 0 .advance,
    .session 0 .advance, .session 0 .advance, .session 0 .advance, .session 0 .advance]

def Stage.isGone : Stage S → Bool
  | .gone => true
  | _ => false

theorem Stage.eq_of_isGone {stage : Stage S} (h : stage.isGone = true) : stage = .gone := by
  cases stage with
  | gone => rfl
  | _ => cases h

theorem step_next (sys : Sys S) (e : Event S) (sys' : Sys S) (h : sys.step e = some sys') :
    (gameServer S).next sys sys' := ⟨e, h⟩

theorem life_cycle_visit : ∃ sys : Sys Unit, Reachable (gameServer Unit) sys ∧
    ∃ p ∈ (sys.session 0).players, p.destroys = 1 := by
  let check := fun sys : Sys Unit => sys.server.logins == 1 && (sys.session 0).players.length == 1 &&
    (sys.session 0).stage.isGone
  obtain ⟨sys, h, hcheck⟩ := exists_reachable_of_exec (M := gameServer Unit) rfl step_next visit check
    (by decide)
  simp only [check, Bool.and_eq_true, beq_iff_eq] at hcheck
  obtain ⟨⟨hlogins, hlength⟩, hgone⟩ := hcheck
  obtain ⟨p, hp⟩ := List.length_eq_one_iff.mp hlength
  have hmem : p ∈ (sys.session 0).players := by simp [hp]
  exact ⟨sys, h, p, hmem,
    ((life_cycle h (by rw [hlogins]; decide)).2.2.2.1 0 p hmem).2 (Stage.eq_of_isGone hgone)⟩

/-- `n` sessions are connected, and nothing else. -/
theorem crowd (n : Nat) : ∃ sys : Sys Unit, Reachable (gameServer Unit) sys ∧ sys.server.logins = 0 ∧
    ∀ i, (sys.session i).stage = if i < n then .idle else .absent := by
  induction n with
  | zero => exact ⟨{}, .start rfl, rfl, fun i => rfl⟩
  | succ n ih =>
    obtain ⟨sys, h, hlogins, hstage⟩ := ih
    have hn : (sys.session n).stage = .absent := by rw [hstage, if_neg (Nat.lt_irrefl n)]
    -- one more session comes, and its `OnSessionConnect` runs
    have hin : ∀ {sys : Sys Unit} (input) {g s}, Reachable (gameServer Unit) sys →
        (sys.session n).step sys.server input = some (g, s) →
          Reachable (gameServer Unit) ⟨g, update sys.session n s⟩ := by
      intro sys input g s h hs
      refine .step h ⟨.session n input, ?_⟩
      rw [Sys.step, hs]
      rfl
    have h₁ := hin .accept (g := sys.server)
      (s := { sys.session n with stage := .accepted }) h (by simp only [Session.step, hn])
    have h₂ := hin .advance h₁ (by simp only [update_self, Session.step]; rfl)
    have h₃ := hin .advance h₂ (by simp only [update_self, Session.step]; rfl)
    refine ⟨_, h₃, hlogins, fun i => ?_⟩
    by_cases hi : i = n
    · subst hi
      simp
    · simp only [update_of_ne hi, hstage]
      have : i < n + 1 ↔ i < n := by omega
      simp only [this]

/-- **Too many sessions.**  With 2^32 sessions connected and at rest, and no login at all,
    `currentSessions_` is 0. -/
theorem too_many_sessions : ∃ sys : Sys Unit, Reachable (gameServer Unit) sys ∧ sys.server.logins = 0 ∧
    (∀ i, (sys.session i).resting = true) ∧ {i | (sys.session i).live = true}.ncard = 2 ^ 32 ∧
      sys.server.currentSessions = 0 := by
  obtain ⟨sys, h, hlogins, hstage⟩ := crowd (2 ^ 32)
  have hrest : ∀ i, (sys.session i).resting = true := by
    intro i
    by_cases hi : i < 2 ^ 32
    · rw [Session.resting, hstage, if_pos hi]
    · rw [Session.resting, hstage, if_neg hi]
  have hcard : {i | (sys.session i).live = true}.ncard = 2 ^ 32 := by
    have hset : {i | (sys.session i).live = true} = ↑(Finset.range (2 ^ 32)) := by
      ext i
      rw [Finset.mem_coe, Finset.mem_range, Set.mem_ofPred]
      by_cases hi : i < 2 ^ 32
      · rw [Session.live, hstage, if_pos hi]
        exact iff_of_true rfl hi
      · rw [Session.live, hstage, if_neg hi]
        exact iff_of_false (by decide) hi
    rw [hset, Set.ncard_coe_finset, Finset.card_range]
  refine ⟨sys, h, hlogins, hrest, hcard, ?_⟩
  rw [((tallied_reachable h).rest hrest).2, hcard]
  decide

end JunCore.GameServer
