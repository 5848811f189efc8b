/-
  Whose moves a client hears of.

  A `GC_MOVE_NOTIFY` is about a player in the view of the client, or its own (`moves_in_view`), except
  those that `OnEnter` causes itself.  It sets the destination of the player to the place the player
  appears at, `SetDestination` reports the start of a move, and all this comes before the first packet
  of the protocol.
-/
import JunCore.GameServer.PlayerView

set_option linter.unusedVariables false
set_option linter.unusedSectionVars false

namespace JunCore.GameServer

open Transition Function Logic

variable {S C : Type} [DecidableEq S] [DecidableEq C] {cast : Cast C}

/-! ## Moves before anything else -/

/-- A client hears of the moves of a player while that player is in its view, and of its own player's
    after it has entered a scene. -/
def MovesInOrder (own : Int32) (log : List Packet) : Prop :=
  ∀ l₁ x cur dest l₂, log = l₁ ++ .moveNotify x cur dest :: l₂ →
    (x ≠ own → Shown l₁ x) ∧ (x = own → ∃ sid id pos, .sceneEnter sid id pos ∈ l₁)

/-- **What the first packet of a client is.** -/
structure Opened (cast : Cast C) (a : Arena S C) : Prop where
  inside : ∀ sc, ∀ obj ∈ a.world.objects sc, a.world.entered obj = true
  silent : ∀ c, (∀ p, cast.ownerOf p = some c → a.world.entered p = false) → a.log c = []
  first : ∀ p d c, cast.player p = some d → d.owner = some c → a.world.entered p = true →
    ∃ cur dest rest, a.log c = .moveNotify d.playerId.toInt32 cur dest :: rest ∧
      ∃ sid id pos, .sceneEnter sid id pos ∈ rest

namespace Opened

/-- A step in which nobody enters, and no packet goes to a user without a player in a scene. -/
theorem quiet {a a' : Arena S C} (O : Opened cast a) (hent : a'.world.entered = a.world.entered)
    (hin : ∀ sc, ∀ obj ∈ a'.world.objects sc, obj ∈ a.world.objects sc)
    (hlog : ∀ c, ∃ ms, a'.log c = a.log c ++ ms ∧
      ((∀ sc, cast.heard c (a.world.objects sc) = 0) → ms = [])) : Opened cast a' where
  inside sc obj h := by rw [hent]; exact O.inside sc obj (hin sc obj h)
  silent c h := by
    rw [hent] at h
    obtain ⟨ms, heq, hnil⟩ := hlog c
    rw [heq, O.silent c h, List.nil_append]
    refine hnil fun sc => Nat.eq_zero_of_not_pos fun hpos => ?_
    obtain ⟨p, hp, ho⟩ := Cast.heard_pos hpos
    have := h p ho
    rw [O.inside sc p hp] at this
    cases this
  first p d c hd ho he := by
    rw [hent] at he
    obtain ⟨ms, heq, -⟩ := hlog c
    obtain ⟨cur, dest, rest, hfirst, sid, id, pos, hin⟩ := O.first p d c hd ho he
    exact ⟨cur, dest, rest ++ ms, by rw [heq, hfirst, List.cons_append], sid, id, pos,
      List.mem_append_left _ hin⟩

theorem of_moves {a a' : Arena S C} (O : Opened cast a) {movers : List Nat}
    (h : a'.world = a.world ∧ ∀ c, ∃ ms, a'.log c = a.log c ++ ms ∧ Moves cast a.world movers c ms) :
    Opened cast a' := by
  obtain ⟨hw, hlog⟩ := h
  refine O.quiet (by rw [hw]) (fun sc obj h => by rwa [hw] at h) fun c => ?_
  obtain ⟨ms, heq, hm⟩ := hlog c
  refine ⟨ms, heq, fun hnone => List.eq_nil_iff_forall_not_mem.mpr fun m hin => ?_⟩
  obtain ⟨q, d, sc, cur, dest, -, -, -, hpos, -⟩ := hm m hin
  rw [hnone sc] at hpos
  exact Nat.lt_irrefl 0 hpos

theorem enter {a : Arena S C} (O : Opened cast a) (sc : S) (obj : Nat) :
    Opened cast (a.enter cast sc obj) := by
  have hent : ∀ q, (a.world.enter sc obj).entered q = true ↔ q = obj ∨ a.world.entered q = true := by
    intro q
    by_cases h : q = obj <;> simp [World.enter, h]
  have hinside : ∀ sc', ∀ q ∈ (a.world.enter sc obj).objects sc',
      (a.world.enter sc obj).entered q = true := by
    intro sc' q hq
    rw [hent]
    rcases mem_enter.mp hq with hold | ⟨-, rfl⟩
    · exact .inr (O.inside sc' q hold)
    · exact .inl rfl
  have hold : ∀ c, (∀ p, cast.ownerOf p = some c → (a.world.enter sc obj).entered p = false) →
      a.log c = [] := by
    intro c h
    apply O.silent c
    intro p hp
    by_contra he
    have := h p hp
    rw [(hent p).mpr (.inr (by simpa using he))] at this
    cases this
  cases hd : cast.player obj with
  | none =>
    have hlog : (a.enter cast sc obj).log = a.log := by simp [Arena.enter, Arena.virtual, hd]
    refine ⟨by rw [Arena.enter_world]; exact hinside, fun c h => ?_, fun p d c hp ho he => ?_⟩
    · rw [Arena.enter_world] at h
      rw [hlog]
      exact hold c h
    · rw [Arena.enter_world, hent] at he
      rw [hlog]
      rcases he with rfl | he
      · rw [hd] at hp
        cases hp
      · exact O.first p d c hp ho he
  | some d =>
    refine ⟨by rw [Arena.enter_world]; exact hinside, fun c h => ?_, fun p d' c hp ho he => ?_⟩
    · rw [Arena.enter_world] at h
      have hno : ∀ p, cast.ownerOf p = some c → p ≠ obj ∧ a.world.entered p = false := by
        intro p hp
        have := h p hp
        constructor
        · rintro rfl
          rw [(hent p).mpr (.inl rfl)] at this
          cases this
        · by_contra he
          rw [(hent p).mpr (.inr (by simpa using he))] at this
          cases this
      rw [Seen.enter_nobody a (fun ho => (hno obj ho).1 rfl) fun p hp ho => ?_]
      · exact hold c h
      · have := (hno p ho).2
        rw [O.inside sc p hp] at this
        cases this
    · obtain ⟨cur, dest, sid, spawn, pos, a', heq⟩ := Arena.enter_log a sc hd c
      by_cases hbefore : a.world.entered p = true
      · obtain ⟨cur', dest', rest', hfirst, sid', id, pos', hmem⟩ := O.first p d' c hp ho hbefore
        rw [hfirst] at heq
        simp only [List.cons_append] at heq
        refine ⟨cur', dest', _, heq, sid', id, pos', ?_⟩
        simp only [List.mem_append]
        exact .inl (.inl (.inl (.inl hmem)))
      · -- its first `Enter`: the move comes first
        rw [Arena.enter_world, hent] at he
        obtain rfl : p = obj := he.resolve_right hbefore
        have hpc : cast.ownerOf p = some c := Cast.ownerOf_eq_some.mpr ⟨d', hp, ho⟩
        have hnil : a.log c = [] := by
          apply O.silent c
          intro q hq
          rw [Cast.ownerOf_unique hq hpc]
          simpa using hbefore
        obtain ⟨n, hn⟩ : ∃ n, cast.heard c (a.world.objects sc ++ [p]) = n + 1 := by
          refine Nat.exists_eq_add_one.mpr ?_
          rw [Cast.heard_eq_count hpc]
          exact List.count_pos_iff.mpr (List.mem_append_right _ (List.mem_singleton_self p))
        rw [hd] at hp
        cases hp
        rw [hnil, hn, List.replicate_succ, if_pos hpc, if_pos hpc] at heq
        simp only [List.nil_append, List.cons_append] at heq
        refine ⟨cur, dest, _, heq, sid, d.playerId.toInt32, spawn, ?_⟩
        simp only [List.mem_append]
        exact .inl (.inl (.inr (List.mem_singleton_self _)))

theorem exit {a : Arena S C} (O : Opened cast a) (sc : S) (obj : Nat) :
    Opened cast (a.exit cast sc obj) := by
  have hin : ∀ sc', ∀ q ∈ (a.world.exit sc obj).objects sc', q ∈ a.world.objects sc' := by
    intro sc' q hq
    by_cases h : sc' = sc
    · subst h
      exact List.mem_of_mem_erase (by simpa [World.exit] using hq)
    · simpa [World.exit, h] using hq
  refine O.quiet (by rw [Arena.exit_world]; rfl) (by rw [Arena.exit_world]; exact hin) fun c => ?_
  cases hd : cast.player obj with
  | none => exact ⟨[], by simp [Arena.exit, Arena.virtual, hd], fun _ => rfl⟩
  | some d =>
    cases hs : a.world.scene obj with
    | none =>
      refine ⟨[], ?_, fun _ => rfl⟩
      simp [Arena.exit, Arena.virtual, hd, Arena.onExit, Arena.broadcastToOthers, hs]
    | some sc' =>
      refine ⟨_, Arena.exit_log a sc hd hs c, fun hnone => ?_⟩
      · have hzero : cast.heard c ((a.world.objects sc').filter (· ≠ obj)) = 0 := by
          rw [Cast.heard, List.countP_eq_zero]
          intro q hq
          have := hnone sc'
          rw [Cast.heard, List.countP_eq_zero] at this
          exact this q (List.mem_of_mem_filter hq)
        rw [hzero]
        rfl

end Opened

theorem opened_reachable {birth : Nat → S} {allowed : Arena S C → ArenaEvent S C → Prop}
    {a : Arena S C} (h : Reachable (cast.system birth allowed) a) : Opened cast a := by
  apply h.invariant (I := Opened cast)
  · rintro a rfl
    exact ⟨fun sc obj h => (by cases h), fun c _ => rfl, fun p d c _ _ h => (by cases h)⟩
  · rintro a a' _ O ⟨e, -, rfl⟩
    cases e with
    | enter sc obj => exact O.enter sc obj
    | exit sc obj => exact O.exit sc obj
    | fixedUpdate sc => exact O.of_moves (Arena.fixedUpdate_moves cast a _)
    | setDestPos obj pos => exact O.of_moves (Arena.handleSetDestPos_moves cast a obj pos)
    | setUser c u => exact O.quiet rfl (fun sc obj h => h) fun c' => ⟨[], by simp [Arena.step], fun _ => rfl⟩

/-- **A client hears of a stranger's move, and of its own before it has entered, as soon as a player
    enters.**  In every run the move notifications are in order if and only if no player with a user has
    entered a scene yet. -/
theorem moves_in_order {birth : Nat → S} {a : Arena S C}
    (h : Reachable (cast.system birth fun _ _ => True) a) :
    (∀ p d c, cast.player p = some d → d.owner = some c → MovesInOrder d.playerId.toInt32 (a.log c)) ↔
      ∀ p, cast.ownerOf p ≠ none → a.world.entered p = false := by
  have O := opened_reachable h
  constructor
  · intro hmoves p hp
    by_contra he
    obtain ⟨c, hc⟩ := Option.ne_none_iff_exists'.mp hp
    obtain ⟨d, hd, ho⟩ := Cast.ownerOf_eq_some.mp hc
    obtain ⟨cur, dest, rest, hfirst, -⟩ := O.first p d c hd ho (by simpa using he)
    obtain ⟨sid, id, pos, hin⟩ := (hmoves p d c hd ho [] _ cur dest rest hfirst).2 rfl
    cases hin
  · intro hnone p d c hd ho
    have hsilent : a.log c = [] := by
      apply O.silent c
      intro q hq
      exact hnone q (by rw [hq]; simp)
    intro l₁ x cur dest l₂ heq
    rw [hsilent] at heq
    simp at heq

/-- What moves later moves in order: every packet that a `FixedUpdate` or a `SetDestPos` job sends to a
    client is about its own player, or about one in its view. -/
theorem moves_in_view (P : cast.Playing) {birth : Nat → S} {a : Arena S C}
    (h : Reachable (cast.system birth Proper) a) {e : ArenaEvent S C} (hproper : Proper a e)
    (he : (∃ sc, e = .fixedUpdate sc) ∨ ∃ obj pos, e = .setDestPos obj pos) {p : Nat} {d : Player C} {c : C}
    (hd : cast.player p = some d) (ho : d.owner = some c) : ∃ ms, (a.step cast e).log c = a.log c ++ ms ∧
      ∀ m ∈ ms, ∃ x cur dest, m = .moveNotify x cur dest ∧ (x ≠ d.playerId.toInt32 → Shown (a.log c) x) ∧
        ∃ sid id pos, .sceneEnter sid id pos ∈ a.log c := by
  have V := seen_reachable P h
  have O := opened_reachable h
  have hp : cast.ownerOf p = some c := Cast.ownerOf_eq_some.mpr ⟨d, hd, ho⟩
  -- whoever moves is in the scene it points to
  have hmoves : ∀ movers ms, Moves cast a.world movers c ms →
      (∀ q ∈ movers, ∀ sc, a.world.scene q = some sc → q ∈ a.world.objects sc) →
      ∀ m ∈ ms, ∃ x cur dest, m = .moveNotify x cur dest ∧ (x ≠ d.playerId.toInt32 → Shown (a.log c) x) ∧
        ∃ sid id pos, .sceneEnter sid id pos ∈ a.log c := by
    intro movers ms hm hinside m hmem
    obtain ⟨q, d', sc, cur, dest, hq, hqd, hs, hpos, rfl⟩ := hm m hmem
    obtain ⟨p', hp', ho'⟩ := Cast.heard_pos hpos
    obtain rfl := Cast.ownerOf_unique ho' hp
    refine ⟨_, cur, dest, rfl, fun hne => ?_, ?_⟩
    · refine (V.view p' c hp sc hp' _).mpr ⟨q, d', hinside q hq sc hs, ?_, hqd, rfl⟩
      rintro rfl
      rw [hd] at hqd
      cases hqd
      exact hne rfl
    · obtain ⟨_, _, rest, hfirst, sid, id, pos, hin⟩ := O.first p' d c hd ho (O.inside sc p' hp')
      exact ⟨sid, id, pos, by rw [hfirst]; exact List.mem_cons_of_mem _ hin⟩
  rcases he with ⟨sc, rfl⟩ | ⟨obj, pos, rfl⟩
  · obtain ⟨ms, heq, hm⟩ := (Arena.fixedUpdate_moves cast a (a.world.objects sc)).2 c
    refine ⟨ms, heq, hmoves _ ms hm fun q hq sc' hs => ?_⟩
    rw [(V.placed q).back sc hq] at hs
    cases hs
    exact hq
  · obtain ⟨ms, heq, hm⟩ := (Arena.handleSetDestPos_moves cast a obj pos).2 c
    refine ⟨ms, heq, hmoves _ ms hm fun q hq sc' hs => ?_⟩
    rw [List.mem_singleton.mp hq] at hs ⊢
    exact (V.placed obj).there hproper sc' hs

/-- A box is put into the square: no client hears of anything. -/
theorem moves_in_order_couple : ∃ a : Arena Unit Bool,
    Reachable (couple.system (fun _ => ()) fun _ _ => True) a ∧ a.world.objects () = [2] ∧
      ∀ p d c, couple.player p = some d → d.owner = some c →
        MovesInOrder d.playerId.toInt32 (a.log c) := by
  have h : Reachable (couple.system (fun _ => ()) fun _ _ => True) (square [.enter () 2]) :=
    .step (.start rfl) ⟨.enter () 2, trivial, rfl⟩
  refine ⟨_, h, rfl, (moves_in_order h).mpr fun p hp => ?_⟩
  rcases p with _ | _ | p
  · rfl
  · rfl
  · exact absurd rfl hp

/-- **A stranger moves.**  Player 1 enters the square, then player 2.  The first packet of client 0 is a
    move of its own player, and it hears that player 2 moves before it hears that there is one. -/
theorem stranger_moves : ∃ a : Arena Unit Bool,
    Reachable (couple.system (fun _ => ()) fun _ _ => True) a ∧
      a.log false = [.moveNotify 1 {} {}, .sceneEnter 0 1 {}, .moveNotify 2 {} {}, .appear 2 {}] ∧
      ¬ MovesInOrder 1 (a.log false) := by
  have h : Reachable (couple.system (fun _ => ()) fun _ _ => True) (square [.enter () 0, .enter () 1]) :=
    .step (.step (.start rfl) ⟨.enter () 0, trivial, rfl⟩) ⟨.enter () 1, trivial, rfl⟩
  refine ⟨_, h, rfl, fun hmoves => ?_⟩
  obtain ⟨sid, id, pos, hin⟩ := (hmoves [] 1 {} {} _ rfl).2 rfl
  cases hin

end JunCore.GameServer
