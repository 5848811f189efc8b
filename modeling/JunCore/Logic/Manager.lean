/-
  `GameObjectManager::Register`, `Unregister`, `PostTo`: what the core thread finds under a serial
  number.

  `m_objects` is written by jobs of the manager, on the core thread, whenever it gets to them; an
  object is deleted on its own thread, right after its `Destroy` job.  What connects the two is the
  order of entry into the manager's `m_jobQueue`:

  * every `Register` of an object enters before its `Unregister`, of which there is at most one
    (`Booked`): both are posted from inside jobs of the object, and `Destroy` is the last of these;
  * the `Unregister` has entered, but need not have run, when the object is deleted;
  * `m_objects` is the replay of the jobs the core thread has called (`registry_eq_replay`).

  So the pointer a `PostTo` finds can only be that of a deleted object when the `PostTo` entered
  between a `Register` and the `Unregister` and was still waiting at the time of the delete.
-/
import JunCore.Logic.Scene

set_option linter.unusedVariables false
set_option linter.unusedSectionVars false

namespace JunCore.Logic

open Transition Function Counting

variable {T P S U : Type} [DecidableEq T] [DecidableEq P] [DecidableEq S] [DecidableEq U]

/-! ## Who posts what to the manager -/

theorem postsOf_map (l : List (ObjRef × GameJob S U)) :
    postsOf (l.map fun p => (.postJob p.1 p.2 : Instr T ObjRef (GameJob S U))) = l := by
  induction l with
  | nil => rfl
  | cons p l ih => simp [postsOf, ih]

/-- An API call posts nothing but `PostTo` jobs to the manager. -/
theorem posts_manager {game : Game T S U} {k : Call S U} {j : GameJob S U}
    (h : (.manager, j) ∈ game.posts k) : ∃ sn u, j = .postTo sn u := by
  cases k with
  | postTo sn u => exact ⟨sn, u, by simpa [Game.posts] using h⟩
  | moveToScene obj newScene => cases newScene <;> simp [Game.posts] at h
  | create obj | exitScene obj | destroy obj | postJob obj u => simp [Game.posts] at h

/-- A job posts `Register` as an `Enter` of the object, and `Unregister` as its `Destroy`. -/
theorem body_posts {game : Game T S U} {j j' : GameJob S U} {o : ObjRef} {w : World S}
    (h : (.manager, j) ∈ postsOf (game.body j' o w).2) :
    (∃ obj sc, o = .object obj ∧ j' = .enter sc ∧ j = .register obj) ∨
      (∃ obj, o = .object obj ∧ j' = .destroy ∧ j = .unregister obj) ∨ ∃ sn u, j = .postTo sn u := by
  cases o with
  | manager =>
    cases j' with
    | postTo sn u =>
      simp only [Game.body] at h
      split at h <;> simp [postsOf] at h
    | enter sc | leave sc | exitScene | destroy | register obj | unregister sn | user u => cases h
  | object obj =>
    cases j' with
    | enter sc => exact .inl ⟨obj, sc, rfl, rfl, by simpa [Game.body, postsOf] using h⟩
    | destroy => exact .inr (.inl ⟨obj, rfl, rfl, by simpa [Game.body, postsOf] using h⟩)
    | leave newScene =>
      simp only [Game.body] at h
      split at h <;> cases h
    | user u =>
      right; right
      simp only [Game.body, postsOf_map, List.mem_flatMap] at h
      obtain ⟨k, -, hk⟩ := h
      exact posts_manager hk
    | exitScene | register obj' | unregister sn | postTo sn u => cases h

/-- Only `Destroy` marks, and only as its last instruction. -/
theorem body_marks {game : Game T S U} {j : GameJob S U} {o : ObjRef} {w : World S}
    (h : .markForDelete ∈ (game.body j o w).2) : ∃ obj, o = .object obj ∧ j = .destroy := by
  cases o with
  | manager =>
    cases j with
    | postTo sn u =>
      simp only [Game.body] at h
      split at h <;> simp at h
    | enter sc | leave sc | exitScene | destroy | register obj | unregister sn | user u => cases h
  | object obj =>
    cases j with
    | destroy => exact ⟨obj, rfl, rfl⟩
    | leave newScene =>
      simp only [Game.body] at h
      split at h <;> simp at h
    | enter sc | user u => simp [Game.body] at h
    | exitScene | register obj' | unregister sn | postTo sn u => cases h

/-- A job of the manager is over, or about to make its one `PostJob`, which is to an object a
    `PostTo` has found. -/
theorem body_manager (game : Game T S U) (j : GameJob S U) (w : World S) :
    (game.body j .manager w).2 = [] ∨ ∃ sn u obj, j = .postTo sn u ∧ w.registry sn = some obj ∧
      (game.body j .manager w).2 = [.postJob (.object obj) (.user u)] := by
  cases j with
  | postTo sn u =>
    cases hr : w.registry sn with
    | none => left; simp [Game.body, hr]
    | some obj => exact .inr ⟨sn, u, obj, rfl, hr, by simp [Game.body, hr]⟩
  | enter sc | leave sc | exitScene | destroy | register obj | unregister sn | user u =>
    exact .inl rfl

theorem count_unregister (game : Game T S U) (j : GameJob S U) (o : ObjRef) (w : World S)
    (obj : Nat) : (postsOf (game.body j o w).2).count (.manager, .unregister obj)
      = if j = .destroy ∧ o = .object obj then 1 else 0 := by
  split
  · rename_i h
    obtain ⟨rfl, rfl⟩ := h
    simp [Game.body, postsOf]
  · rename_i h
    rw [List.count_eq_zero]
    intro hmem
    rcases body_posts hmem with ⟨_, _, _, _, hj⟩ | ⟨obj', rfl, rfl, hj⟩ | ⟨_, _, hj⟩
    · cases hj
    · cases hj; exact h ⟨rfl, rfl⟩
    · cases hj

/-- Where an entry of a queue's history stands after one more job has entered. -/
theorem getElem?_snoc {α : Type} {l : List α} {x y : α} {k : Nat} (h : (l ++ [x])[k]? = some y) :
    k < l.length ∧ l[k]? = some y ∨ k = l.length ∧ x = y := by
  rcases Nat.lt_trichotomy k l.length with hk | hk | hk
  · rw [List.getElem?_append_left hk] at h
    exact .inl ⟨hk, h⟩
  · subst hk
    exact .inr ⟨rfl, by simpa using h⟩
  · rw [List.getElem?_eq_none (by simp; omega)] at h
    cases h

/-! ## The manager is never marked -/

/-- A thread inside a job of the manager has at most one `PostJob` to make, and the manager is not
    marked. -/
structure Open (s : Sys T P ObjRef (GameJob S U) (World S)) : Prop where
  unmarked : (s.cells .manager).markedForDelete = false
  short : ∀ t old n is, s.loops t = .busy .manager (.running old n is) →
    is = [] ∨ ∃ o j, is = [.postJob o j]

theorem open_reachable {game : Game T S U} {s : Sys T P ObjRef (GameJob S U) (World S)}
    (h : Reachable (game.program.system P) s) : Open s := by
  apply h.invariant (I := Open)
  · rintro s rfl
    exact ⟨rfl, fun t old n is hl => by cases hl⟩
  · rintro s s' _ A ⟨e, hstep⟩
    constructor
    · by_contra hm
      obtain ⟨t, old, n, is, hl, -⟩ := mark_of_step hstep A.unmarked (by simpa using hm)
      rcases A.short t old n _ hl with h | ⟨o, j, h⟩ <;> cases h
    · intro t old n is hl
      rcases running_of_step hstep hl with hsame | ⟨i, hprev⟩ | ⟨e', -, rfl⟩
      · exact A.short t old n is hsame
      · rcases A.short t old n _ hprev with h | ⟨o, j, h⟩ <;> cases h
        exact .inl rfl
      · rcases body_manager game e'.job s.world with h | ⟨sn, u, obj, -, -, h⟩
        · exact .inl h
        · exact .inr ⟨_, _, h⟩

/-! ## The books of an object -/

variable [Fintype T] [Fintype P]

/-- How many `Unregister` jobs of the object there are, entered or still to be posted. -/
def unregisters (s : Sys T P ObjRef (GameJob S U) (World S)) (obj : Nat) : Nat :=
  (s.entered .manager).count (.unregister obj) + total (List.count (.manager, .unregister obj)) s.owed

/-- **What is booked with the manager about an object.** -/
structure Booked (s : Sys T P ObjRef (GameJob S U) (World S)) (obj : Nat) : Prop where
  /-- only a thread inside a job of the object has a `Register` or an `Unregister` to post -/
  inside : ∀ a j, (.manager, j) ∈ s.owed a → j = .register obj ∨ j = .unregister obj →
    ∃ t old n is, a = .inl t ∧ s.loops t = .busy (.object obj) (.running old n is)
  /-- nobody has a `Register` to post once the `Destroy` job is called -/
  fresh : ∀ a, (.manager, .register obj) ∈ s.owed a → s.world.destroyed obj = false
  once : unregisters s obj = if s.world.destroyed obj then 1 else 0
  /-- the mark is the last thing a `Destroy` job does, after the `Unregister` -/
  last : ∀ t old n is, s.loops t = .busy (.object obj) (.running old n is) → .markForDelete ∈ is →
    s.world.destroyed obj = true ∧
      (is = [.postJob .manager (.unregister obj), .markForDelete] ∨ is = [.markForDelete])
  settled : (s.cells (.object obj)).markedForDelete = true →
    .unregister obj ∈ s.entered .manager
  order : ∀ r k : Nat, (s.entered .manager)[r]? = some (GameJob.register obj) →
    (s.entered .manager)[k]? = some (GameJob.unregister obj) → r < k

namespace Booked

variable {game : Game T S U} {s s' : Sys T P ObjRef (GameJob S U) (World S)}
  {e : Event T P (Call S U)} {obj : Nat}

/-- An entry under the unregister jobs, entered or owed, is one of those counted. -/
theorem unregisters_pos (h : GameJob.unregister obj ∈ s.entered .manager ∨
    ∃ a, (.manager, .unregister obj) ∈ s.owed a) : 0 < unregisters s obj := by
  rcases h with h | ⟨a, h⟩
  · have := List.count_pos_iff.mpr h
    simp only [unregisters]
    omega
  · have h₁ := List.count_pos_iff.mpr h
    have h₂ := le_total (List.count (ObjRef.manager, GameJob.unregister obj)) s.owed a
    simp only [unregisters]
    omega

/-- Before the `Destroy` job there is no `Unregister` anywhere. -/
theorem unregister_free (B : Booked s obj) (hd : s.world.destroyed obj = false) :
    GameJob.unregister obj ∉ s.entered .manager ∧
      ∀ a, (.manager, .unregister obj) ∉ s.owed a := by
  have hzero := B.once
  rw [hd] at hzero
  constructor
  · intro h
    have := unregisters_pos (.inl h)
    simp only [Bool.false_eq_true, if_false] at hzero
    omega
  · intro a h
    have := unregisters_pos (.inr ⟨a, h⟩)
    simp only [Bool.false_eq_true, if_false] at hzero
    omega

theorem inside_step (h : step game.program s e = some s') (B : Booked s obj) :
    ∀ a j, (.manager, j) ∈ s'.owed a → j = .register obj ∨ j = .unregister obj →
      ∃ t old n is, a = .inl t ∧ s'.loops t = .busy (.object obj) (.running old n is) := by
  intro a j hmem hj
  rcases owed_of_step h hmem with hold | ⟨t, o, old, e', rfl, -, hnew, -, hpost⟩ | ⟨p, k, -, hpost⟩
  · obtain ⟨t, old, n, is, rfl, hl⟩ := B.inside a j hold hj
    obtain ⟨is', hl'⟩ := running_of_owed h hl (List.ne_nil_of_mem hold)
    exact ⟨t, old, n, is', rfl, hl'⟩
  · refine ⟨t, old, e'.ticket, (game.program.body e'.job o s.world).2, rfl, ?_⟩
    rw [hnew]
    rcases body_posts hpost with ⟨obj', sc, rfl, -, rfl⟩ | ⟨obj', rfl, -, rfl⟩ | ⟨sn, u, rfl⟩
    · rcases hj with hj | hj <;> cases hj; rfl
    · rcases hj with hj | hj <;> cases hj; rfl
    · rcases hj with hj | hj <;> cases hj
  · obtain ⟨sn, u, rfl⟩ := posts_manager hpost
    rcases hj with hj | hj <;> cases hj

theorem fresh_step (hr : Reachable (game.program.system P) s)
    (h : step game.program s e = some s') (B : Booked s obj) :
    ∀ a, (.manager, .register obj) ∈ s'.owed a → s'.world.destroyed obj = false := by
  intro a hmem
  by_contra hd'
  have hd' : s'.world.destroyed obj = true := by simpa using hd'
  rcases owed_of_step h hmem with hold | ⟨t, o, old, e', rfl, hl, -, hw, hpost⟩ | ⟨p, k, -, hpost⟩
  · -- the `Destroy` job would have to be called while another job of the object runs
    have hd := B.fresh a hold
    obtain ⟨t, old, n, is, rfl, hl⟩ := B.inside a _ hold (.inl rfl)
    rcases world_of_step h with hw | ⟨t', o, old', e', hl', -, hw, -⟩
    · rw [hw, hd] at hd'; cases hd'
    · rw [hw] at hd'
      rcases (destroyed_body game).mp hd' with hold' | ⟨-, rfl⟩
      · rw [hd] at hold'; cases hold'
      · obtain rfl := (owned_reachable hr (.object obj)).one_drain hl hl' Nat.one_pos Nat.one_pos
        rw [hl] at hl'; cases hl'
  · rw [hw] at hd'
    rcases body_posts hpost with ⟨obj', sc, rfl, hj, heq⟩ | ⟨obj', -, -, heq⟩ | ⟨sn, u, heq⟩
    · cases heq
      have hd := not_destroyed_of_jobStart hr hl
      rcases (destroyed_body game).mp hd' with hold' | ⟨hj', -⟩
      · rw [hd] at hold'; cases hold'
      · rw [hj] at hj'; cases hj'
    · cases heq
    · cases heq
  · obtain ⟨sn, u, heq⟩ := posts_manager hpost
    cases heq

theorem once_step (hr : Reachable (game.program.system P) s)
    (h : step game.program s e = some s') (B : Booked s obj) :
    unregisters s' obj = if s'.world.destroyed obj then 1 else 0 := by
  have hold := B.once
  cases effect_of_step h with
  | quiet howed hent _ hw => rw [unregisters, howed, hent, hw]; exact hold
  | delivered a o j rest hcons howed hent _ hw =>
    have hsum := total_update (List.count (ObjRef.manager, GameJob.unregister obj)) s.owed a rest
    rw [hcons] at hsum
    rw [hw, ← hold, unregisters, unregisters, howed, hent]
    by_cases ho : o = .manager
    · subst ho
      rw [update_self, List.count_append]
      by_cases hj : j = .unregister obj
      · subst hj
        rw [List.count_cons_self] at hsum
        rw [List.count_singleton_self]
        omega
      · rw [List.count_cons_of_ne (by simpa using hj)] at hsum
        rw [List.count_singleton, if_neg (by simpa using hj)]
        omega
    · rw [update_of_ne (Ne.symm ho)]
      rw [List.count_cons_of_ne (by simp [ho])] at hsum
      omega
  | refused a o j rest hcons howed hm hent _ hw =>
    have hsum := total_update (List.count (ObjRef.manager, GameJob.unregister obj)) s.owed a rest
    have ho : o ≠ .manager := by
      rintro rfl
      rw [(open_reachable hr).unmarked] at hm; cases hm
    rw [hcons, List.count_cons_of_ne (by simp [ho])] at hsum
    rw [hw, ← hold, unregisters, unregisters, howed, hent]
    omega
  | called t o old e' hl hnil howed hent _ _ hw =>
    have howed : s'.owed = update s.owed (.inl t) (postsOf (game.body e'.job o s.world).2) := howed
    have hsum := total_update (List.count (ObjRef.manager, GameJob.unregister obj)) s.owed (.inl t)
      (postsOf (game.body e'.job o s.world).2)
    rw [hnil, List.count_nil, count_unregister] at hsum
    rw [unregisters] at hold
    rw [unregisters, howed, hent, hw]
    show _ = if (game.body e'.job o s.world).1.destroyed obj then 1 else 0
    by_cases hdes : e'.job = .destroy ∧ o = .object obj
    · obtain ⟨hj, rfl⟩ := hdes
      rw [not_destroyed_of_jobStart hr hl] at hold
      have hd' : (game.body e'.job (.object obj) s.world).1.destroyed obj = true := by
        simp [hj, Game.body]
      rw [if_pos ⟨hj, rfl⟩] at hsum
      rw [hd']
      simp only [Bool.false_eq_true, if_false, if_true] at hold ⊢
      omega
    · rw [if_neg hdes] at hsum
      have hsame : (game.body e'.job o s.world).1.destroyed obj = s.world.destroyed obj := by
        rw [Bool.eq_iff_iff, destroyed_body]
        exact ⟨fun h => h.resolve_right hdes, .inl⟩
      rw [hsame]
      omega
  | request p k hnil howed hent _ hw =>
    have howed : s'.owed = update s.owed (.inr p) (game.posts k) := howed
    have hsum := total_update (List.count (ObjRef.manager, GameJob.unregister obj)) s.owed (.inr p)
      (game.posts k)
    have hnone : (game.posts k).count (ObjRef.manager, GameJob.unregister obj) = 0 := by
      rw [List.count_eq_zero]
      intro hmem
      obtain ⟨sn, u, heq⟩ := posts_manager hmem
      cases heq
    rw [hnil, List.count_nil, hnone] at hsum
    rw [hw, ← hold, unregisters, unregisters, howed, hent]
    omega

theorem last_step (h : step game.program s e = some s') (B : Booked s obj) :
    ∀ t old n is, s'.loops t = .busy (.object obj) (.running old n is) → .markForDelete ∈ is →
      s'.world.destroyed obj = true ∧
        (is = [.postJob .manager (.unregister obj), .markForDelete] ∨ is = [.markForDelete]) := by
  have hmono : s.world.destroyed obj = true → s'.world.destroyed obj = true := by
    intro hd
    rcases world_of_step h with hw | ⟨_, o, _, e', -, -, hw, -⟩
    · rw [hw]; exact hd
    · rw [hw]; exact (destroyed_body game).mpr (.inl hd)
  intro t old n is hl hmem
  rcases running_of_step h hl with hsame | ⟨i, hprev⟩ | ⟨e', hstart, rfl⟩
  · obtain ⟨hd, hshape⟩ := B.last t old n is hsame hmem
    exact ⟨hmono hd, hshape⟩
  · obtain ⟨hd, hshape⟩ := B.last t old n _ hprev (List.mem_cons_of_mem _ hmem)
    refine ⟨hmono hd, .inr ?_⟩
    rcases hshape with hshape | hshape <;> cases hshape
    · rfl
    · cases hmem
  · have hcalls : Calls s s' (.object obj) e'.job := ⟨t, old, e', hstart, rfl, by rw [hl, hstart]; simp⟩
    obtain ⟨obj', ho, hj⟩ := body_marks hmem
    cases ho
    refine ⟨?_, .inl ?_⟩
    · rw [world_of_calls h hcalls]
      exact (destroyed_body game).mpr (.inr ⟨hj, rfl⟩)
    · rw [hj]; rfl

theorem settled_step (hr : Reachable (game.program.system P) s)
    (h : step game.program s e = some s') (B : Booked s obj)
    (hm' : (s'.cells (.object obj)).markedForDelete = true) :
    GameJob.unregister obj ∈ s'.entered .manager := by
  have hin : GameJob.unregister obj ∈ s.entered .manager := by
    cases hm : (s.cells (.object obj)).markedForDelete with
    | true => exact B.settled hm
    | false =>
      -- the thread that marks has no `Unregister` left to post, and nobody else ever had
      obtain ⟨t, old, n, is, hl, hf⟩ := mark_of_step h hm hm'
      obtain ⟨hd, hshape⟩ := B.last t old n _ hl List.mem_cons_self
      have hnil : is = [] := by rcases hshape with hshape | hshape <;> cases hshape; rfl
      subst hnil
      have hnone : total (List.count (ObjRef.manager, GameJob.unregister obj)) s.owed = 0 := by
        apply total_eq_zero
        intro a
        rw [List.count_eq_zero]
        intro hmem
        obtain ⟨t', old', n', is', rfl, hl'⟩ := B.inside a _ hmem (.inr rfl)
        obtain rfl := (owned_reachable hr (.object obj)).one_drain hl hl' Nat.one_pos Nat.one_pos
        simp [Sys.owed, hf, hl, unlinked, LoopPC.posts, Phase.posts, postsOf] at hmem
      have hone := B.once
      rw [hd, unregisters, hnone] at hone
      exact List.count_pos_iff.mp (by simp only [if_true] at hone; omega)
  rcases entered_of_step h .manager with hsame | ⟨a, j, -, happ⟩
  · rw [hsame]; exact hin
  · rw [happ]; exact List.mem_append_left _ hin

theorem order_step (h : step game.program s e = some s') (B : Booked s obj) :
    ∀ r k : Nat, (s'.entered .manager)[r]? = some (GameJob.register obj) →
      (s'.entered .manager)[k]? = some (GameJob.unregister obj) → r < k := by
  intro r k hreg hun
  rcases entered_of_step h .manager with hsame | ⟨a, j, howed, happ⟩
  · rw [hsame] at hreg hun
    exact B.order r k hreg hun
  · rw [happ] at hreg hun
    rcases getElem?_snoc hreg with ⟨hr, hreg⟩ | ⟨hr, rfl⟩ <;>
      rcases getElem?_snoc hun with ⟨hk, hun⟩ | ⟨hk, hj⟩
    · exact B.order r k hreg hun
    · omega
    · -- a `Register` that enters after the `Unregister`
      have hfree := (B.unregister_free (B.fresh a howed)).1
      exact absurd (List.mem_of_getElem? hun) hfree
    · cases hj

/-- **The step lemma.** -/
theorem step (hr : Reachable (game.program.system P) s) (h : step game.program s e = some s')
    (B : Booked s obj) : Booked s' obj where
  inside := B.inside_step h
  fresh := B.fresh_step hr h
  once := B.once_step hr h
  last := B.last_step h
  settled := B.settled_step hr h
  order := B.order_step h

/-- An `Unregister` that has entered is the only one. -/
theorem unregister_once (B : Booked s obj) (h : GameJob.unregister obj ∈ s.entered .manager) :
    ∀ a, (.manager, .unregister obj) ∉ s.owed a := by
  intro a ha
  have hone := B.once
  have h₁ := List.count_pos_iff.mpr h
  have h₂ := List.count_pos_iff.mpr ha
  have h₃ := le_total (List.count (ObjRef.manager, GameJob.unregister obj)) s.owed a
  rw [unregisters] at hone
  split at hone <;> omega

end Booked

/-- **The run lemma.** -/
theorem booked_reachable {game : Game T S U} {s : Sys T P ObjRef (GameJob S U) (World S)}
    (h : Reachable (game.program.system P) s) (obj : Nat) : Booked s obj := by
  apply h.invariant (I := fun s => Booked s obj)
  · rintro s rfl
    have howed : ∀ a, (game.program.initial : Sys T P ObjRef (GameJob S U) (World S)).owed a = [] := by
      intro a
      cases a <;> rfl
    exact {
      inside := fun a j hmem => by rw [howed] at hmem; cases hmem
      fresh := fun a hmem => rfl
      once := by
        rw [unregisters, total_eq_zero fun a => by rw [howed]; rfl]
        rfl
      last := fun t old n is hl => by cases hl
      settled := fun hm => by cases hm
      order := fun r k hreg => by cases hreg }
  · rintro s s' hr B ⟨e, hstep⟩
    exact B.step hr hstep

/-! ## `m_objects` is the replay of the jobs called -/

/-- What a job of the manager does to `m_objects`. -/
def GameJob.book (m : Nat → Option Nat) : GameJob S U → Nat → Option Nat
  | .register obj => update m obj (some obj)
  | .unregister sn => update m sn none
  | _ => m

def replay (l : List (GameJob S U)) : Nat → Option Nat := l.foldl GameJob.book fun _ => none

theorem replay_append (l : List (GameJob S U)) (j : GameJob S U) :
    replay (l ++ [j]) = j.book (replay l) := by simp [replay]

/-- What is found was registered, and not unregistered since. -/
theorem found_of_replay {l : List (GameJob S U)} {sn obj : Nat} (h : replay l sn = some obj) :
    obj = sn ∧ ∃ r : Nat, l[r]? = some (GameJob.register sn) ∧
      ∀ k : Nat, r < k → l[k]? ≠ some (GameJob.unregister sn) := by
  induction l using List.reverseRecOn with
  | nil => cases h
  | append_singleton l j ih =>
    rw [replay_append] at h
    -- a job that does not write this entry leaves what was found before
    have hkeep : replay l sn = some obj → j ≠ .unregister sn → obj = sn ∧
        ∃ r : Nat, (l ++ [j])[r]? = some (GameJob.register sn) ∧
          ∀ k : Nat, r < k → (l ++ [j])[k]? ≠ some (GameJob.unregister sn) := by
      intro hold hj
      obtain ⟨heq, r, hr, hk⟩ := ih hold
      have hlt : r < l.length := (List.getElem?_eq_some_iff.mp hr).1
      refine ⟨heq, r, by rw [List.getElem?_append_left hlt]; exact hr, ?_⟩
      intro k hrk hun
      rcases getElem?_snoc hun with ⟨-, hun⟩ | ⟨-, hun⟩
      · exact hk k hrk hun
      · exact hj hun
    cases j with
    | register obj' =>
      by_cases heq : sn = obj'
      · subst heq
        have : sn = obj := by simpa [GameJob.book] using h
        refine ⟨this.symm, l.length, by simp, ?_⟩
        intro k hk
        rw [List.getElem?_eq_none (by simp; omega)]
        simp
      · exact hkeep (by simpa [GameJob.book, heq] using h) (by simp)
    | unregister sn' =>
      by_cases heq : sn = sn'
      · subst heq; simp [GameJob.book] at h
      · exact hkeep (by simpa [GameJob.book, heq] using h) (by simpa using Ne.symm heq)
    | enter sc | leave sc | exitScene | destroy | postTo sn' u | user u =>
      exact hkeep h (by simp)

/-- What was registered, and not unregistered since, is found. -/
theorem replay_of_found {l : List (GameJob S U)} {sn r : Nat} (hr : l[r]? = some (.register sn))
    (hk : ∀ k : Nat, r < k → l[k]? ≠ some (.unregister sn)) : replay l sn = some sn := by
  induction l using List.reverseRecOn with
  | nil => cases hr
  | append_singleton l j ih =>
    rw [replay_append]
    rcases getElem?_snoc hr with ⟨hlt, hr⟩ | ⟨-, rfl⟩
    · have hold := ih hr fun k hrk hun => hk k hrk (by
        rw [List.getElem?_append_left (List.getElem?_eq_some_iff.mp hun).1]
        exact hun)
      cases j with
      | register obj =>
        by_cases heq : sn = obj
        · simp [GameJob.book, heq]
        · simp [GameJob.book, heq, hold]
      | unregister obj =>
        by_cases heq : sn = obj
        · subst heq
          exact absurd (by simp) (hk l.length hlt)
        · simp [GameJob.book, heq, hold]
      | enter sc | leave sc | exitScene | destroy | postTo sn' u | user u => exact hold
    · simp [GameJob.book]

theorem registry_body (game : Game T S U) (j : GameJob S U) (w : World S) :
    (game.body j .manager w).1.registry = j.book w.registry ∧
      ∀ obj, (game.body j (.object obj) w).1.registry = w.registry := by
  have hleave : ∀ obj, (w.leave obj).registry = w.registry := by
    intro obj
    cases hs : w.scene obj <;> simp [World.leave, hs, World.exit]
  constructor
  · cases j <;> rfl
  · intro obj
    cases j with
    | leave newScene =>
      simp only [Game.body]
      split
      · rfl
      · exact hleave obj
    | exitScene | destroy => exact hleave obj
    | enter sc | register obj' | unregister sn | postTo sn u | user u => rfl

theorem registry_eq_replay {game : Game T S U} {s : Sys T P ObjRef (GameJob S U) (World S)}
    (h : Reachable (game.program.system P) s) :
    s.world.registry = replay ((s.entered .manager).take (s.started .manager).length) := by
  apply h.invariant (I := fun s => s.world.registry = replay (s.calledJobs .manager))
  · rintro s rfl
    rfl
  · rintro s s' hr A ⟨e, hstep⟩
    rcases call_of_step hr hstep with ⟨hcalled, hw, -⟩ | ⟨t, o, old, e', -, -, hcalled, hw⟩
    · rw [hcalled, hw]
      exact A
    · rw [hcalled, hw]
      cases o with
      | manager =>
        show (game.body e'.job .manager s.world).1.registry = _
        rw [(registry_body game e'.job s.world).1, A, update_self, replay_append]
      | object obj =>
        show (game.body e'.job (.object obj) s.world).1.registry = _
        rw [(registry_body game e'.job s.world).2, update_of_ne (by simp)]
        exact A

/-! ## What a `PostTo` finds -/

/-- Entry `i` of the manager's queue is a `PostTo` to the object, behind a `Register` of it and
    ahead of its `Unregister`. -/
def Between (s : Sys T P ObjRef (GameJob S U) (World S)) (obj i : Nat) : Prop :=
  ∃ (r k : Nat) (u : U), r < i ∧ i < k ∧ (s.entered .manager)[r]? = some (GameJob.register obj) ∧
    (s.entered .manager)[i]? = some (GameJob.postTo obj u) ∧
    (s.entered .manager)[k]? = some (GameJob.unregister obj)

/-- No `PostTo` can find the object any more: those between its `Register` and its `Unregister` have
    been called, and none of them has found it and is about to call its `PostJob`. -/
structure Unfound (s : Sys T P ObjRef (GameJob S U) (World S)) (obj : Nat) : Prop where
  called : ∀ i, Between s obj i → i < (s.started .manager).length
  posted : ∀ t old n u rest,
    s.loops t ≠ .busy .manager (.running old n (.postJob (.object obj) (.user u) :: rest))

/-- **Side condition.**  When a step deletes the object, the core thread is done with every `PostTo`
    that entered its queue between a `Register` of the object and its `Unregister`. -/
def DeletedUnfound (obj : Nat) (s s' : Sys T P ObjRef (GameJob S U) (World S)) : Prop :=
  (s'.cells (.object obj)).deletes ≠ (s.cells (.object obj)).deletes → Unfound s obj

/-- A `PostTo` about to be called finds a living object, if deleted ones cannot be found. -/
theorem living_of_found {game : Game T S U} {s : Sys T P ObjRef (GameJob S U) (World S)}
    (hr : Reachable (game.program.system P) s) {obj : Nat}
    (A : 0 < (s.cells (.object obj)).deletes → Unfound s obj) {t old : T}
    {e : Entry (GameJob S U)} (hl : s.loops t = .busy .manager (.jobStart old e)) {sn : Nat} {u : U}
    (hj : e.job = .postTo sn u) (hfind : s.world.registry sn = some obj) :
    (s.cells (.object obj)).deletes = 0 := by
  by_contra hd
  have B := booked_reachable hr obj
  have hm := marked_of_deletes hr (Nat.pos_of_ne_zero hd)
  obtain ⟨k, hk⟩ := List.mem_iff_getElem?.mp (B.settled hm)
  rw [registry_eq_replay hr] at hfind
  obtain ⟨rfl, r, hreg, hnone⟩ := found_of_replay hfind
  obtain ⟨hrlt, hreg⟩ : r < (s.started .manager).length ∧
      (s.entered .manager)[r]? = some (GameJob.register obj) := by
    rw [List.getElem?_take] at hreg
    split at hreg
    · exact ⟨‹_›, hreg⟩
    · cases hreg
  have hnext : (s.entered .manager)[(s.started .manager).length]? = some (GameJob.postTo obj u) :=
    hj ▸ (next_job hr hl).2
  have hrk := B.order r k hreg hk
  rcases Nat.lt_trichotomy k (s.started .manager).length with hlt | heq | hgt
  · exact hnone k hrk (by rw [List.getElem?_take_of_lt hlt]; exact hk)
  · rw [heq, hnext] at hk; cases hk
  · exact absurd ((A (Nat.pos_of_ne_zero hd)).called _ ⟨r, k, u, hrlt, hgt, hreg, hnext, hk⟩)
      (Nat.lt_irrefl _)

/-- **The step lemma**: under the side condition, a deleted object cannot be found. -/
theorem unfound_step {game : Game T S U} {s s' : Sys T P ObjRef (GameJob S U) (World S)}
    {e : Event T P (Call S U)} (hr : Reachable (game.program.system P) s)
    (h : step game.program s e = some s') {obj : Nat}
    (A : 0 < (s.cells (.object obj)).deletes → Unfound s obj) (hg : DeletedUnfound obj s s')
    (hd' : 0 < (s'.cells (.object obj)).deletes) : Unfound s' obj := by
  have B := booked_reachable hr obj
  -- the object is deleted already, or goes in this step
  have hcase : Unfound s obj ∧ (s.cells (.object obj)).markedForDelete = true ∧
      (0 < (s.cells (.object obj)).deletes ∨
        ∃ t, s.loops t = .busy (.object obj) .delete ∧ s' = s.loopStep game.program t) := by
    by_cases hne : (s'.cells (.object obj)).deletes = (s.cells (.object obj)).deletes
    · have hd : 0 < (s.cells (.object obj)).deletes := hne ▸ hd'
      exact ⟨A hd, marked_of_deletes hr hd, .inl hd⟩
    · obtain ⟨t, hl, hs⟩ := delete_of_step h hne
      exact ⟨hg hne, (owned_reachable hr (.object obj)).loop t _ (view_loop_eq_some.mpr hl),
        .inr ⟨t, hl, hs⟩⟩
  obtain ⟨F, hm, hwhen⟩ := hcase
  constructor
  · rintro i ⟨r, k, u, hri, hik, hreg, hto, hun⟩
    have hkeep : Between s obj i := by
      rcases entered_of_step h .manager with hsame | ⟨a, j, howed, happ⟩
      · rw [hsame] at hreg hto hun
        exact ⟨r, k, u, hri, hik, hreg, hto, hun⟩
      · rw [happ] at hreg hto hun
        rcases getElem?_snoc hun with ⟨hk, hun⟩ | ⟨-, rfl⟩
        · rw [List.getElem?_append_left (by omega)] at hreg hto
          exact ⟨r, k, u, hri, hik, hreg, hto, hun⟩
        · exact absurd howed (B.unregister_once (B.settled hm) a)
    exact lt_of_lt_of_le (F.called i hkeep) (started_of_step h .manager)
  · intro t old n u rest hl
    rcases running_of_step h hl with hsame | ⟨i, hprev⟩ | ⟨e', hstart, his⟩
    · exact F.posted t old n u rest hsame
    · rcases (open_reachable hr).short t old n _ hprev with hnil | ⟨o, j, hone⟩
      · cases hnil
      · cases hone
    · -- it has just been found, so it was alive; nobody deletes it in the same step
      rcases hwhen with hd | ⟨t', hl', hs'⟩
      · rcases body_manager game e'.job s.world with hnil | ⟨sn, u', obj', hj, hfind, hbody⟩
        · rw [show game.program.body = game.body from rfl, hnil] at his; cases his
        · rw [show game.program.body = game.body from rfl, hbody] at his
          cases his
          have := living_of_found hr A hstart hj hfind
          omega
      · rcases loop_of_step h t with hsame | ⟨-, hs⟩
        · rw [hsame, hstart] at hl; cases hl
        · rw [hs, cells_of_loopStep hstart (by simp)] at hd'
          have hne : (s'.cells (.object obj)).deletes ≠ (s.cells (.object obj)).deletes := by
            rw [hs']
            simp [Sys.loopStep, hl', Sys.flushStep, flushStep]
          rw [hs, cells_of_loopStep hstart (by simp)] at hne
          exact hne rfl

/-- **A `PostTo` never reaches a deleted object**, in every run in which the object is only deleted
    when the core thread is done with the `PostTo` jobs between its `Register` and its
    `Unregister`: the pointer found under a serial number is that of a living object, and it still
    is when `PostJob` is called on it. -/
theorem post_to_finds_the_living {game : Game T S U} (obj : Nat)
    {s : Sys T P ObjRef (GameJob S U) (World S)}
    (h : Reachable ((game.program.system P).guard (DeletedUnfound obj)) s) :
    (∀ t old n sn u, s.loops t = .busy .manager (.jobStart old ⟨n, .postTo sn u⟩) →
      s.world.registry sn = some obj → (s.cells (.object obj)).deletes = 0) ∧
    ∀ t old n u rest,
      s.loops t = .busy .manager (.running old n (.postJob (.object obj) (.user u) :: rest)) →
      (s.cells (.object obj)).deletes = 0 := by
  have A : 0 < (s.cells (.object obj)).deletes → Unfound s obj := by
    apply h.invariant (I := fun s => 0 < (s.cells (.object obj)).deletes → Unfound s obj)
    · rintro s rfl hd
      exact absurd hd (Nat.lt_irrefl 0)
    · rintro s s' hr A ⟨⟨e, hstep⟩, hg⟩
      exact unfound_step hr.of_guard hstep A hg
  constructor
  · intro t old n sn u hl hfind
    exact living_of_found h.of_guard A hl rfl hfind
  · intro t old n u rest hl
    by_contra hd
    exact (A (Nat.pos_of_ne_zero hd)).posted t old n u rest hl

/-- Whether the core thread of the small game is about to call a `PostTo` that will find object 0. -/
def Village.finding (s : Village.State) : Bool :=
  s.world.registry 0 == some 0 && match s.loops .core with
    | .busy .manager (.jobStart _ ⟨_, .postTo 0 _⟩) => true
    | _ => false

theorem Village.finding_iff {s : Village.State} (h : Village.finding s = true) :
    s.world.registry 0 = some 0 ∧
      ∃ old n u, s.loops .core = .busy .manager (.jobStart old ⟨n, .postTo 0 u⟩) := by
  rw [Village.finding, Bool.and_eq_true, beq_iff_eq] at h
  obtain ⟨hreg, hl⟩ := h
  refine ⟨hreg, ?_⟩
  split at hl
  · rename_i old n u heq
    exact ⟨old, n, u, heq⟩
  · cases hl

/-- Object 0 is created and registered, and a `PostTo` finds it. -/
theorem post_to_finds_the_living_village : ∃ s : Village.State,
    Reachable ((village.program.system Unit).guard (DeletedUnfound 0)) s ∧
      s.world.registry 0 = some 0 ∧ (s.cells (.object 0)).deletes = 0 := by
  obtain ⟨s, hr, hp⟩ := Village.reachable (G := DeletedUnfound 0)
    (Village.call (.create 0) 8 ++ Village.run .game 23 ++ Village.run .core 15 ++
      Village.call (.postTo 0 ()) 8 ++ Village.run .core 6)
    (fun s s' => (s'.cells (.object 0)).deletes == (s.cells (.object 0)).deletes)
    (fun s s' hg hne => absurd (by simpa using hg) hne) Village.finding (by decide)
  obtain ⟨hreg, old, n, u, hl⟩ := Village.finding_iff hp
  exact ⟨s, hr, hreg, (post_to_finds_the_living 0 hr).1 .core old n 0 u hl hreg⟩

/-- **A `PostTo` finds a deleted object.**  Object 0 is registered; a `PostTo` to it enters the
    manager's queue, then its `Destroy` job posts the `Unregister` behind it, marks the object, and
    its thread deletes it.  The core thread gets to the `PostTo` only now. -/
theorem post_to_finds_the_deleted : ∃ s : Village.State,
    Reachable (village.program.system Unit) s ∧ (s.cells (.object 0)).deletes = 1 ∧
      s.world.registry 0 = some 0 ∧
      ∃ old n u, s.loops .core = .busy .manager (.jobStart old ⟨n, .postTo 0 u⟩) := by
  obtain ⟨s, hr, hp⟩ := Village.reachable (G := fun _ _ => True)
    (Village.call (.create 0) 8 ++ Village.run .game 23 ++ Village.run .core 15 ++
      Village.call (.postTo 0 ()) 8 ++ Village.call (.destroy 0) 8 ++ Village.run .game 17 ++
      Village.run .core 6)
    (fun _ _ => true) (fun _ _ _ => trivial)
    (fun s => (s.cells (.object 0)).deletes == 1 && Village.finding s) (by decide)
  rw [Bool.and_eq_true, beq_iff_eq] at hp
  obtain ⟨hd, hf⟩ := hp
  exact ⟨s, hr.of_guard, hd, Village.finding_iff hf⟩

end JunCore.Logic
