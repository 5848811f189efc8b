/-
  `GameObjectManager::GenerateSN`, `Create`, `Register`, `Unregister`: whom `m_objects` knows.

  An object takes its serial number from `m_nextSN` when it is constructed, on any thread.  It is
  registered by each of its `Enter` jobs and unregistered by its `Destroy` job: both post to the
  manager, from whatever thread they run on, and the core thread writes `m_objects` whenever it gets
  there.  When it has nothing left to do, `m_objects` is exact: `Announced` says that every `Enter`
  called has its `Register` entered or still to be posted, `Booked` the same of `Destroy`, and that the
  `Unregister` is behind them all.

  In `Scene.lean` an object is named by a number of its own, and the manager's table is kept under
  these names.  Here the table is kept as the code keeps it, under `uint64_t` serial numbers that wrap
  around: they tell the first 2^64 objects apart, and no more.  Up to there the two tables are the same
  (`Coupled`), and a `PostTo` may as well look under names.
-/
import JunCore.Logic.Manager

set_option linter.unusedVariables false
set_option linter.unusedSectionVars false

namespace JunCore.Logic

open Transition Function Counting

variable {T P S U : Type} [DecidableEq T] [DecidableEq P] [DecidableEq S] [DecidableEq U]

/-! ## Serial numbers -/

/-- The job system, and what `GameObjectManager` keeps beside its jobs. -/
structure Registry (T P S U : Type) where
  sys : Sys T P ObjRef (GameJob S U) (World S)
  /-- `m_nextSN` -/
  nextSN : UInt64
  /-- `GetSN()` of each object -/
  sn : Nat → UInt64
  /-- `m_objects` -/
  objects : UInt64 → Option Nat
  /-- the objects constructed so far, in the order of their calls of `GenerateSN` -/
  made : List Nat

/-- `return m_nextSN.fetch_add(1);` -/
def Registry.generateSN (r : Registry T P S U) : UInt64 × Registry T P S U :=
  (r.nextSN, { r with nextSN := r.nextSN + 1 })

/-- The constructor of `GameObject`. -/
def Registry.construct (r : Registry T P S U) (obj : Nat) : Registry T P S U :=
  { r.generateSN.2 with
    sn := update r.sn obj r.generateSN.1
    made := r.made ++ [obj] }

/-- What a job of the manager does to `m_objects`: the closure of `Register` holds the serial number
    and the pointer, that of `Unregister` the serial number. -/
def GameJob.write (sn : Nat → UInt64) (m : UInt64 → Option Nat) : GameJob S U → UInt64 → Option Nat
  | .register obj => update m (sn obj) (some obj)
  | .unregister obj => update m (sn obj) none
  | _ => m

/-- Nobody posts to an object that is not constructed. -/
def PostsToMade (made : List Nat) (s s' : Sys T P ObjRef (GameJob S U) (World S)) : Prop :=
  ∀ obj, s'.entered (.object obj) ≠ s.entered (.object obj) → obj ∈ made

/-- A step of the game: somebody constructs an object, or the job system takes a step. -/
inductive Registry.Next (game : Game T S U) : Registry T P S U → Registry T P S U → Prop
  | construct (r obj) : obj ∉ r.made → Next game r (r.construct obj)
  | quiet (r sys') : (game.program.system P).next r.sys sys' → PostsToMade r.made r.sys sys' →
      (∀ j, ¬ Calls r.sys sys' .manager j) → Next game r { r with sys := sys' }
  | call (r sys' j) : (game.program.system P).next r.sys sys' → PostsToMade r.made r.sys sys' →
      Calls r.sys sys' .manager j →
      Next game r { r with sys := sys', objects := j.write r.sn r.objects }

/-- Nothing constructed yet. -/
def Game.unborn (game : Game T S U) : Registry T P S U where
  sys := game.program.initial
  nextSN := 1
  sn _ := 0
  objects _ := none
  made := []

/-- All runs of a game, with its serial numbers. -/
def Game.registry (game : Game T S U) (P : Type) [DecidableEq P] : System (Registry T P S U) where
  init r := r = game.unborn
  next := Registry.Next game

/-- **What the serial numbers are.** -/
structure Numbered (r : Registry T P S U) : Prop where
  nodup : r.made.Nodup
  next : r.nextSN = UInt64.ofNat (1 + r.made.length)
  sn : ∀ i obj, r.made[i]? = some obj → r.sn obj = UInt64.ofNat (1 + i)

theorem Numbered.construct {r : Registry T P S U} (N : Numbered r) {obj : Nat} (h : obj ∉ r.made) :
    Numbered (r.construct obj) := by
  constructor
  · exact List.nodup_append.mpr ⟨N.nodup, List.nodup_singleton obj, fun x hx y hy => by
      rw [List.mem_singleton.mp hy]
      exact fun heq => h (heq ▸ hx)⟩
  · show r.nextSN + 1 = UInt64.ofNat (1 + (r.made ++ [obj]).length)
    rw [N.next, List.length_append, List.length_singleton, ← Nat.add_assoc]
    exact (UInt64.ofNat_add (1 + r.made.length) 1).symm
  · intro i obj' hi
    show update r.sn obj r.nextSN obj' = _
    rcases getElem?_snoc hi with ⟨-, hi⟩ | ⟨rfl, rfl⟩
    · have hne : obj' ≠ obj := fun heq => h (heq ▸ List.mem_of_getElem? hi)
      rw [update_of_ne hne]
      exact N.sn i obj' hi
    · rw [update_self, N.next]

theorem numbered_registry {game : Game T S U} {r : Registry T P S U}
    (h : Reachable (game.registry P) r) : Numbered r := by
  apply h.invariant (I := Numbered)
  · rintro r rfl
    exact ⟨List.nodup_nil, rfl, fun i obj hi => by cases hi⟩
  · intro r r' _ N hnext
    cases hnext with
    | construct obj hobj => exact N.construct hobj
    | quiet sys' _ _ _ | call sys' j _ _ _ => exact ⟨N.nodup, N.next, N.sn⟩

/-- 2^64 serial numbers tell 2^64 objects apart. -/
theorem Numbered.injective {r : Registry T P S U} (N : Numbered r) (hmade : r.made.length ≤ 2 ^ 64)
    {obj obj' : Nat} (h : obj ∈ r.made) (h' : obj' ∈ r.made) (heq : r.sn obj = r.sn obj') :
    obj = obj' := by
  obtain ⟨i, hi⟩ := List.mem_iff_getElem?.mp h
  obtain ⟨j, hj⟩ := List.mem_iff_getElem?.mp h'
  have hilt := (List.getElem?_eq_some_iff.mp hi).1
  have hjlt := (List.getElem?_eq_some_iff.mp hj).1
  rw [N.sn i obj hi, N.sn j obj' hj] at heq
  have hnat := congrArg UInt64.toNat heq
  rw [UInt64.toNat_ofNat', UInt64.toNat_ofNat'] at hnat
  obtain rfl : i = j := by omega
  rw [hi] at hj
  exact Option.some.inj hj

/-- The job system takes its own steps. -/
theorem registry_projection (game : Game T S U) :
    Projection (game.registry P) (game.program.system P) Registry.sys where
  init r h := by
    subst h
    rfl
  next r r' h := by
    cases h with
    | construct obj _ => exact .inl rfl
    | quiet sys' hs _ _ => exact .inr hs
    | call sys' j hs _ _ => exact .inr hs

/-! ## Every `Enter` is announced -/

theorem entered_body (game : Game T S U) {j : GameJob S U} {o : ObjRef} {w : World S} {obj : Nat} :
    (game.body j o w).1.entered obj = true ↔
      w.entered obj = true ∨ (∃ sc, j = .enter sc) ∧ o = .object obj := by
  have hleave : ∀ obj', (w.leave obj').entered = w.entered := by
    intro obj'
    cases hs : w.scene obj' <;> simp [World.leave, hs, World.exit]
  cases o with
  | manager => cases j <;> simp [Game.body]
  | object obj' =>
    cases j with
    | enter sc =>
      by_cases heq : obj = obj'
      · subst heq; simp [Game.body, World.enter]
      · simp [Game.body, World.enter, heq, Ne.symm heq]
    | leave newScene =>
      simp only [Game.body]
      split <;> simp [hleave]
    | exitScene | destroy => simp [Game.body, hleave]
    | register obj₂ | unregister sn | postTo sn u | user u => simp [Game.body]

/-- A `Register` of the object has entered the manager's queue, or somebody has it to post. -/
def Announced (s : Sys T P ObjRef (GameJob S U) (World S)) (obj : Nat) : Prop :=
  .register obj ∈ s.entered .manager ∨ ∃ a, (.manager, .register obj) ∈ s.owed a

/-- Exactly the `Enter` jobs post it. -/
theorem register_posted {game : Game T S U} {j : GameJob S U} {o : ObjRef} {w : World S} {obj : Nat} :
    (.manager, .register obj) ∈ postsOf (game.body j o w).2 ↔ (∃ sc, j = .enter sc) ∧ o = .object obj := by
  constructor
  · intro h
    rcases body_posts h with ⟨obj', sc, ho, hj, heq⟩ | ⟨_, _, _, heq⟩ | ⟨_, _, heq⟩
    · cases heq
      exact ⟨⟨sc, hj⟩, ho⟩
    · cases heq
    · cases heq
  · rintro ⟨⟨sc, rfl⟩, rfl⟩
    simp [Game.body, postsOf]

/-- Somebody owes `x`, after an agent that owed nothing has taken on `l`. -/
theorem owes_taken {A X : Type} [DecidableEq A] {owed : A → List X} {a : A} (hnil : owed a = [])
    (l : List X) (x : X) :
    (∃ a', x ∈ update owed a l a') ↔ (∃ a', x ∈ owed a') ∨ x ∈ l := by
  constructor
  · rintro ⟨a', ha'⟩
    by_cases heq : a' = a
    · subst heq
      rw [update_self] at ha'
      exact .inr ha'
    · rw [update_of_ne heq] at ha'
      exact .inl ⟨a', ha'⟩
  · rintro (⟨a', ha'⟩ | hl)
    · refine ⟨a', ?_⟩
      rw [update_of_ne fun heq => ?_]
      · exact ha'
      · rw [heq, hnil] at ha'
        cases ha'
    · exact ⟨a, by rw [update_self]; exact hl⟩

/-- Somebody owes `x`, before an agent is rid of the first it owes. -/
theorem owes_dropped {A X : Type} [DecidableEq A] {owed : A → List X} {a : A} {y : X} {rest : List X}
    (hcons : owed a = y :: rest) (x : X) :
    (∃ a', x ∈ owed a') ↔ y = x ∨ ∃ a', x ∈ update owed a rest a' := by
  constructor
  · rintro ⟨a', ha'⟩
    by_cases heq : a' = a
    · subst heq
      rw [hcons] at ha'
      rcases List.mem_cons.mp ha' with hme | hin
      · exact .inl hme.symm
      · exact .inr ⟨a', by rw [update_self]; exact hin⟩
    · exact .inr ⟨a', by rw [update_of_ne heq]; exact ha'⟩
  · rintro (hme | ⟨a', ha'⟩)
    · exact ⟨a, by rw [hcons, hme]; exact List.mem_cons_self⟩
    · by_cases heq : a' = a
      · subst heq
        rw [update_self] at ha'
        exact ⟨a', by rw [hcons]; exact List.mem_cons_of_mem _ ha'⟩
      · rw [update_of_ne heq] at ha'
        exact ⟨a', ha'⟩

/-- What is announced, after an agent that owed nothing has taken on new posts. -/
theorem announced_taken {s s' : Sys T P ObjRef (GameJob S U) (World S)} {a : T ⊕ P}
    {l : List (ObjRef × GameJob S U)} (hnil : s.owed a = []) (howed : s'.owed = update s.owed a l)
    (hent : s'.entered = s.entered) (obj : Nat) :
    Announced s' obj ↔ Announced s obj ∨ (.manager, .register obj) ∈ l := by
  unfold Announced
  rw [hent, howed, owes_taken hnil, or_assoc]

section Runs

variable [Fintype T] [Fintype P]

/-- **The step lemma.** -/
theorem announced_step {game : Game T S U} {s s' : Sys T P ObjRef (GameJob S U) (World S)}
    {e : Event T P (Call S U)} (hr : Reachable (game.program.system P) s)
    (h : step game.program s e = some s') {obj : Nat}
    (A : s.world.entered obj = true ↔ Announced s obj) :
    s'.world.entered obj = true ↔ Announced s' obj := by
  cases effect_of_step h with
  | quiet howed hent _ hw =>
    unfold Announced
    rw [hw, howed, hent]
    exact A
  | delivered a o j rest hcons howed hent _ hw =>
    rw [hw, A]
    unfold Announced
    rw [owes_dropped hcons, ← howed, hent]
    by_cases ho : o = .manager
    · subst ho
      rw [update_self, List.mem_append, List.mem_singleton, Prod.mk.injEq, or_assoc]
      constructor
      · rintro (h | ⟨-, h⟩ | h)
        · exact .inl h
        · exact .inr (.inl h.symm)
        · exact .inr (.inr h)
      · rintro (h | h | h)
        · exact .inl h
        · exact .inr (.inl ⟨rfl, h.symm⟩)
        · exact .inr (.inr h)
    · rw [update_of_ne (Ne.symm ho), Prod.mk.injEq]
      simp only [ho, false_and, false_or]
  | refused a o j rest hcons howed hm hent _ hw =>
    have ho : o ≠ .manager := by
      rintro rfl
      rw [(open_reachable hr).unmarked] at hm
      cases hm
    rw [hw, A]
    unfold Announced
    rw [owes_dropped hcons, ← howed, hent, Prod.mk.injEq]
    simp only [ho, false_and, false_or]
  | called t o old e' _ hnil howed hent _ _ hw =>
    have hw : s'.world = (game.body e'.job o s.world).1 := hw
    rw [announced_taken hnil howed hent, hw, entered_body, A]
    exact or_congr_right register_posted.symm
  | request p k hnil howed hent _ hw =>
    rw [announced_taken hnil howed hent, hw, A]
    refine (or_iff_left fun hl => ?_).symm
    obtain ⟨sn, u, heq⟩ := posts_manager hl
    cases heq

theorem announced_reachable {game : Game T S U} {s : Sys T P ObjRef (GameJob S U) (World S)}
    (h : Reachable (game.program.system P) s) (obj : Nat) :
    s.world.entered obj = true ↔ Announced s obj := by
  apply h.invariant (I := fun s => s.world.entered obj = true ↔ Announced s obj)
  · rintro s rfl
    constructor
    · intro he
      cases he
    · rintro (hin | ⟨a, ha⟩)
      · cases hin
      · cases a <;> cases ha
  · rintro s s' hr A ⟨e, hstep⟩
    exact announced_step hr hstep A

/-- An object that entered a scene, or was destroyed, had a job called. -/
theorem called_of_touched {game : Game T S U} {s : Sys T P ObjRef (GameJob S U) (World S)}
    (h : Reachable (game.program.system P) s) (obj : Nat) :
    s.world.entered obj = true ∨ s.world.destroyed obj = true → s.calledJobs (.object obj) ≠ [] := by
  apply h.invariant (I := fun s => s.world.entered obj = true ∨ s.world.destroyed obj = true →
    s.calledJobs (.object obj) ≠ [])
  · rintro s rfl (he | hd)
    · cases he
    · cases hd
  · rintro s s' hr A ⟨e, hstep⟩ htouch
    rcases call_of_step hr hstep with ⟨hcalled, hw, -⟩ | ⟨t, o, old, e', -, -, hcalled, hw⟩
    · rw [hcalled]
      rw [hw] at htouch
      exact A htouch
    · have hw : s'.world = (game.body e'.job o s.world).1 := hw
      rw [hw, entered_body, destroyed_body] at htouch
      rw [hcalled]
      by_cases ho : o = .object obj
      · subst ho
        rw [update_self]
        simp
      · rw [update_of_ne (Ne.symm ho)]
        rcases htouch with (he | ⟨-, ho'⟩) | (hd | ⟨-, ho'⟩)
        · exact A (.inl he)
        · exact absurd ho' ho
        · exact A (.inr hd)
        · exact absurd ho' ho

/-! ## `m_objects` at rest -/

/-- No thread has a job in its hands. -/
def Sys.Resting {O J W : Type} (s : Sys T P O J W) : Prop :=
  ∀ t o ph, s.loops t = .busy o ph → stageOf (some ph) = .idle

/-- With its queue empty and nobody at work, everything that entered the manager's queue was called. -/
theorem calledJobs_at_rest {O J W K : Type} [DecidableEq O] {prog : Program T O J W K}
    {s : Sys T P O J W} (h : Reachable (prog.system P) s) {o : O}
    (hu : (s.cells o).markedForDelete = false) (hqueue : (s.cells o).jobQueue.items = [])
    (hrest : s.Resting) : s.calledJobs o = s.entered o := by
  have L := (inOrder_reachable h o).progress
  have hidle : (s.view o).stage = .idle := by
    by_contra hne
    have hex : ∃ t, stageOf ((s.view o).loop t) ≠ .idle := by
      by_contra hnone
      refine hne ?_
      unfold View.stage soleStage
      rw [dif_neg hnone]
    obtain ⟨t, ht⟩ := hex
    cases hl : (s.view o).loop t with
    | none => rw [hl] at ht; exact ht rfl
    | some ph =>
      rw [hl] at ht
      exact ht (hrest t o ph (view_loop_eq_some.mp hl))
  have hwait := L.waiting (L.unmarked hu)
  rw [hidle] at hwait
  have hlen : (s.entered o).length ≤ (s.started o).length := by
    have : ((entries (s.entered o)).drop (s.started o).length).length = 0 := by
      have hwait : (s.cells o).jobQueue.items = (entries (s.entered o)).drop ((s.started o).length + 0) :=
        hwait
      rw [hqueue, Nat.add_zero] at hwait
      rw [← hwait]
      rfl
    rw [List.length_drop, length_entries] at this
    omega
  exact List.take_of_length_le hlen

/-- Nobody has a `Register` or an `Unregister` to post while no job runs. -/
theorem not_owed_at_rest {game : Game T S U} {s : Sys T P ObjRef (GameJob S U) (World S)}
    (h : Reachable (game.program.system P) s) (hrest : s.Resting) {obj : Nat} {j : GameJob S U}
    (hj : j = .register obj ∨ j = .unregister obj) (a : T ⊕ P) : (.manager, j) ∉ s.owed a := by
  intro hmem
  obtain ⟨t, old, n, is, -, hl⟩ := (booked_reachable h obj).inside a j hmem hj
  have := hrest t _ _ hl
  cases this

/-- Only a destroyed object is unregistered. -/
theorem destroyed_of_unregister {game : Game T S U} {s : Sys T P ObjRef (GameJob S U) (World S)}
    (h : Reachable (game.program.system P) s) {obj : Nat}
    (hun : .unregister obj ∈ s.entered .manager) : s.world.destroyed obj = true := by
  have hone := (booked_reachable h obj).once
  have hpos := List.count_pos_iff.mpr hun
  rw [unregisters] at hone
  split at hone
  · assumption
  · omega

/-- **At rest the manager knows whom it should**, under the names of `Scene.lean`. -/
theorem registry_at_rest {game : Game T S U} {s : Sys T P ObjRef (GameJob S U) (World S)}
    (h : Reachable (game.program.system P) s) (hqueue : (s.cells .manager).jobQueue.items = [])
    (hrest : s.Resting) (obj : Nat) : s.world.registry obj = some obj ↔
      s.world.entered obj = true ∧ s.world.destroyed obj = false := by
  have B := booked_reachable h obj
  have hall := calledJobs_at_rest h (open_reachable h).unmarked hqueue hrest
  have hreplay : s.world.registry = replay (s.entered .manager) :=
    (registry_eq_replay h).trans (congrArg replay hall)
  have hreg : s.world.entered obj = true ↔ .register obj ∈ s.entered .manager := by
    rw [announced_reachable h obj]
    exact or_iff_left fun ⟨a, ha⟩ => not_owed_at_rest h hrest (.inl rfl) a ha
  have hun : s.world.destroyed obj = true ↔ .unregister obj ∈ s.entered .manager := by
    refine ⟨fun hd => ?_, destroyed_of_unregister h⟩
    have hzero : total (List.count (ObjRef.manager, GameJob.unregister obj)) s.owed = 0 :=
      total_eq_zero fun a => List.count_eq_zero.mpr (not_owed_at_rest h hrest (.inr rfl) a)
    have hone := B.once
    rw [unregisters, hzero, if_pos hd] at hone
    rw [← List.count_pos_iff]
    omega
  rw [hreplay, hreg]
  constructor
  · intro hfind
    obtain ⟨-, r, hr, hk⟩ := found_of_replay hfind
    refine ⟨List.mem_of_getElem? hr, ?_⟩
    by_contra hd
    obtain ⟨k, hun'⟩ := List.mem_iff_getElem?.mp (hun.mp (by simpa using hd))
    exact hk k (B.order r k hr hun') hun'
  · rintro ⟨hin, hd⟩
    obtain ⟨r, hr⟩ := List.mem_iff_getElem?.mp hin
    refine replay_of_found hr fun k _ hk => ?_
    rw [hun.mpr (List.mem_of_getElem? hk)] at hd
    cases hd

/-! ## The two tables -/

/-- Whoever had a job posted to it is constructed. -/
theorem made_of_entered {game : Game T S U} {r : Registry T P S U}
    (h : Reachable (game.registry P) r) {obj : Nat} :
    r.sys.entered (.object obj) ≠ [] → obj ∈ r.made := by
  have hstep : ∀ (r : Registry T P S U) sys', (r.sys.entered (.object obj) ≠ [] → obj ∈ r.made) →
      PostsToMade r.made r.sys sys' → sys'.entered (.object obj) ≠ [] → obj ∈ r.made := by
    intro r sys' I hmade hne
    by_cases heq : sys'.entered (.object obj) = r.sys.entered (.object obj)
    · rw [heq] at hne
      exact I hne
    · exact hmade obj heq
  apply h.invariant (I := fun r => r.sys.entered (.object obj) ≠ [] → obj ∈ r.made)
  · rintro r rfl hne
    exact absurd rfl hne
  · intro r r' _ I hnext
    cases hnext with
    | construct obj' _ => exact fun hne => List.mem_append_left _ (I hne)
    | quiet sys' _ hmade _ | call sys' j _ hmade _ => exact hstep r sys' I hmade

theorem made_of_touched {game : Game T S U} {r : Registry T P S U}
    (h : Reachable (game.registry P) r) {obj : Nat}
    (htouch : r.sys.world.entered obj = true ∨ r.sys.world.destroyed obj = true) : obj ∈ r.made := by
  apply made_of_entered h
  intro hnil
  apply called_of_touched ((registry_projection game).reachable h) obj htouch
  rw [Sys.calledJobs, hnil, List.take_nil]

/-- The manager only hears of objects that are constructed. -/
theorem made_of_announced {game : Game T S U} {r : Registry T P S U}
    (h : Reachable (game.registry P) r) {obj : Nat}
    (hin : .register obj ∈ r.sys.entered .manager ∨ .unregister obj ∈ r.sys.entered .manager) :
    obj ∈ r.made := by
  have hr := (registry_projection game).reachable h
  rcases hin with hreg | hun
  · exact made_of_touched h (.inl ((announced_reachable hr obj).mpr (.inl hreg)))
  · exact made_of_touched h (.inr (destroyed_of_unregister hr hun))

/-- **The table under serial numbers is the table under names.** -/
def Coupled (r : Registry T P S U) : Prop :=
  ∀ k obj, r.objects k = some obj ↔
    obj ∈ r.made ∧ r.sn obj = k ∧ r.sys.world.registry obj = some obj

theorem Coupled.construct {r : Registry T P S U} (C : Coupled r) {obj : Nat} (hobj : obj ∉ r.made)
    (hfree : r.sys.world.registry obj ≠ some obj) : Coupled (r.construct obj) := by
  intro k obj'
  show r.objects k = some obj' ↔
    obj' ∈ r.made ++ [obj] ∧ update r.sn obj r.nextSN obj' = k ∧ r.sys.world.registry obj' = some obj'
  rw [C k obj']
  by_cases heq : obj' = obj
  · subst heq
    constructor
    · intro h
      exact absurd h.1 hobj
    · intro h
      exact absurd h.2.2 hfree
  · rw [update_of_ne heq, List.mem_append, List.mem_singleton, or_iff_left heq]

/-- What is written for one object says nothing about the serial numbers of the others. -/
theorem Coupled.elsewhere {r : Registry T P S U} (C : Coupled r) {obj₀ : Nat} {k : UInt64}
    (hk : k ≠ r.sn obj₀) (v : Option Nat) (obj : Nat) : r.objects k = some obj ↔
      obj ∈ r.made ∧ r.sn obj = k ∧ update r.sys.world.registry obj₀ v obj = some obj := by
  rw [C k obj]
  by_cases heq : obj = obj₀
  · subst heq
    constructor
    · intro h
      exact absurd h.2.1.symm hk
    · intro h
      exact absurd h.2.1.symm hk
  · rw [update_of_ne heq]

/-- A job of the manager writes the same entry into both. -/
theorem Coupled.write {r : Registry T P S U} (C : Coupled r)
    (hinj : ∀ obj obj', obj ∈ r.made → obj' ∈ r.made → r.sn obj = r.sn obj' → obj = obj')
    {j : GameJob S U} (hmade : ∀ obj, j = .register obj ∨ j = .unregister obj → obj ∈ r.made)
    {sys' : Sys T P ObjRef (GameJob S U) (World S)}
    (hw : sys'.world.registry = j.book r.sys.world.registry) :
    Coupled { r with sys := sys', objects := j.write r.sn r.objects } := by
  intro k obj
  show j.write r.sn r.objects k = some obj ↔
    obj ∈ r.made ∧ r.sn obj = k ∧ sys'.world.registry obj = some obj
  rw [hw]
  cases j with
  | register obj₀ =>
    have hobj₀ := hmade obj₀ (.inl rfl)
    simp only [GameJob.write, GameJob.book]
    by_cases hk : k = r.sn obj₀
    · subst hk
      rw [update_self]
      constructor
      · intro h
        obtain rfl := Option.some.inj h
        exact ⟨hobj₀, rfl, update_self ..⟩
      · rintro ⟨hobj, hsn, -⟩
        rw [hinj obj obj₀ hobj hobj₀ hsn]
    · rw [update_of_ne hk]
      exact C.elsewhere hk _ obj
  | unregister obj₀ =>
    have hobj₀ := hmade obj₀ (.inr rfl)
    simp only [GameJob.write, GameJob.book]
    by_cases hk : k = r.sn obj₀
    · subst hk
      rw [update_self]
      constructor
      · intro h
        cases h
      · rintro ⟨hobj, hsn, hreg⟩
        rw [hinj obj obj₀ hobj hobj₀ hsn, update_self] at hreg
        cases hreg
    · rw [update_of_ne hk]
      exact C.elsewhere hk _ obj
  | enter sc | leave sc | exitScene | destroy | postTo sn u | user u => exact C k obj

theorem coupled_reachable {game : Game T S U} {r : Registry T P S U}
    (h : Reachable (game.registry P) r) : r.made.length ≤ 2 ^ 64 → Coupled r := by
  apply h.invariant (I := fun r => r.made.length ≤ 2 ^ 64 → Coupled r)
  · rintro r rfl _ k obj
    constructor
    · intro hfind
      cases hfind
    · rintro ⟨hmem, -⟩
      cases hmem
  · intro r r' hr I hnext hlen
    have hsys := (registry_projection game).reachable hr
    cases hnext with
    | construct obj hobj =>
      have hle : r.made.length ≤ 2 ^ 64 := by
        have : (r.made ++ [obj]).length ≤ 2 ^ 64 := hlen
        rw [List.length_append] at this
        omega
      refine (I hle).construct hobj fun hfind => hobj ?_
      rw [registry_eq_replay hsys] at hfind
      obtain ⟨-, i, hi, -⟩ := found_of_replay hfind
      exact made_of_announced hr (.inl (List.mem_of_mem_take (List.mem_of_getElem? hi)))
    | quiet sys' hs _ hnone =>
      obtain ⟨e, hstep⟩ := hs
      have hw : sys'.world.registry = r.sys.world.registry := by
        rcases call_of_step hsys hstep with ⟨-, hw, -⟩ | ⟨t, o, old, e', hl, hloops, -, hw⟩
        · rw [hw]
        · rw [hw]
          cases o with
          | object obj => exact (registry_body game e'.job r.sys.world).2 obj
          | manager =>
            refine absurd ⟨t, old, e', hl, rfl, ?_⟩ (hnone e'.job)
            rw [hloops, update_self, hl]
            intro heq
            cases heq
      intro k obj
      show r.objects k = some obj ↔ obj ∈ r.made ∧ r.sn obj = k ∧ sys'.world.registry obj = some obj
      rw [hw]
      exact I hlen k obj
    | call sys' j hs _ hc =>
      obtain ⟨e, hstep⟩ := hs
      refine (I hlen).write (fun obj obj' => (numbered_registry hr).injective hlen) ?_ ?_
      · intro obj hj
        obtain ⟨t, old, e', hl, rfl, -⟩ := hc
        have hin : e'.job ∈ r.sys.entered .manager := List.mem_of_getElem? (next_job hsys hl).2
        rcases hj with hj | hj
        · exact made_of_announced hr (.inl (hj ▸ hin))
        · exact made_of_announced hr (.inr (hj ▸ hin))
      · rw [world_of_calls hstep hc]
        exact (registry_body game j r.sys.world).1

/-! ## Exactness -/

/-- **`m_objects` is exact at rest.**  In every run with at most 2^64 objects, whenever the manager's
    queue is empty and no job is running, `m_objects` maps exactly the serial numbers of the objects
    that an `Enter` job ran for and a `Destroy` job did not, each to that object; and no two objects
    have the same number. -/
theorem registry_exact {game : Game T S U} {r : Registry T P S U}
    (h : Reachable (game.registry P) r) (hmade : r.made.length ≤ 2 ^ 64)
    (hqueue : (r.sys.cells .manager).jobQueue.items = []) (hrest : r.sys.Resting) :
    (∀ k obj, r.objects k = some obj ↔ obj ∈ r.made ∧ r.sn obj = k ∧
      r.sys.world.entered obj = true ∧ r.sys.world.destroyed obj = false) ∧
    ∀ obj obj', obj ∈ r.made → obj' ∈ r.made → r.sn obj = r.sn obj' → obj = obj' := by
  constructor
  · intro k obj
    rw [coupled_reachable h hmade k obj,
      registry_at_rest ((registry_projection game).reachable h) hqueue hrest obj]
  · intro obj obj'
    exact (numbered_registry h).injective hmade

/-! ## Runs of the job system as runs of the game -/

/-- Only the manager and the objects in `known` are posted to. -/
def OwesTo (known : List Nat) (s s' : Sys T P ObjRef (GameJob S U) (World S)) : Prop :=
  ∀ a, ∀ x ∈ s.owed a, x.1 = .manager ∨ ∃ obj ∈ known, x.1 = .object obj

/-- Any number of objects can be constructed before anything else happens. -/
theorem constructed (game : Game T S U) (n : Nat) : ∃ r : Registry T P S U,
    Reachable (game.registry P) r ∧ r.sys = game.program.initial ∧ r.made = List.range n := by
  induction n with
  | zero => exact ⟨game.unborn, .start rfl, rfl, rfl⟩
  | succ n ih =>
    obtain ⟨r, hr, hsys, hmade⟩ := ih
    refine ⟨r.construct n, .step hr (.construct r n ?_), hsys, ?_⟩
    · rw [hmade]
      exact List.not_mem_range_self
    · rw [List.range_succ, ← hmade]
      rfl

/-- With some objects constructed, the job system can take every run that is about these. -/
theorem registry_of_run {game : Game T S U} {r₀ : Registry T P S U}
    (h₀ : Reachable (game.registry P) r₀) (hsys : r₀.sys = game.program.initial) {known : List Nat}
    (hknown : ∀ obj ∈ known, obj ∈ r₀.made) {s : Sys T P ObjRef (GameJob S U) (World S)}
    (h : Reachable ((game.program.system P).guard (OwesTo known)) s) : ∃ r,
    Reachable (game.registry P) r ∧ r.sys = s ∧ r.made = r₀.made ∧ r.sn = r₀.sn := by
  induction h with
  | start h0 => exact ⟨r₀, h₀, hsys.trans h0.symm, rfl, rfl⟩
  | @step s s' _ hn ih =>
    obtain ⟨r, hr, rfl, hmade, hsn⟩ := ih
    obtain ⟨hs, howes⟩ := hn
    have hto : PostsToMade r.made r.sys s' := by
      intro obj hne
      obtain ⟨e, hstep⟩ := hs
      rcases entered_of_step hstep (.object obj) with heq | ⟨a, j, ha, -⟩
      · exact absurd heq hne
      · rcases howes a _ ha with hman | ⟨obj', hin, heq⟩
        · cases hman
        · cases heq
          rw [hmade]
          exact hknown obj hin
    by_cases hc : ∃ j, Calls r.sys s' .manager j
    · obtain ⟨j, hc⟩ := hc
      exact ⟨_, .step hr (.call r s' j hs hto hc), rfl, hmade, hsn⟩
    · exact ⟨_, .step hr (.quiet r s' hs hto fun j hj => hc ⟨j, hj⟩), rfl, hmade, hsn⟩

end Runs

namespace Village

/-- Whether only the manager and the objects in `known` are posted to. -/
def owesTo (known : List Nat) (s s' : State) : Bool :=
  [Sum.inl Thread.core, .inl .game, .inr ()].all fun a => (s.owed a).all fun x =>
    x.1 == .manager || known.any fun obj => x.1 == .object obj

theorem owesTo_iff {known : List Nat} {s s' : State} (h : owesTo known s s' = true) :
    OwesTo known s s' := by
  intro a x hx
  have hin : a ∈ [Sum.inl Thread.core, .inl .game, .inr ()] := by
    cases a with
    | inl t => cases t <;> simp
    | inr p => simp
  have := List.all_eq_true.mp (List.all_eq_true.mp h a hin) x hx
  rw [Bool.or_eq_true, beq_iff_eq, List.any_eq_true] at this
  exact this.imp id fun ⟨obj, hin, heq⟩ => ⟨obj, hin, beq_iff_eq.mp heq⟩

/-- The caller creates the object, the game thread enters it, the core thread registers it. -/
def settle (obj : Nat) : Schedule := call (.create obj) 8 ++ run .game 23 ++ run .core 15

/-- Whether the manager's queue is empty and no thread has anything in its hands. -/
def still (s : State) : Bool :=
  (s.cells .manager).jobQueue.items.isEmpty && [Thread.core, .game].all fun t => match s.loops t with
    | .busy _ _ => false
    | _ => true

theorem still_iff {s : State} (h : still s = true) :
    (s.cells .manager).jobQueue.items = [] ∧ s.Resting := by
  rw [still, Bool.and_eq_true, List.isEmpty_iff] at h
  refine ⟨h.1, fun t o ph hl => ?_⟩
  have := List.all_eq_true.mp h.2 t (by cases t <;> simp)
  rw [hl] at this
  cases this

end Village

/-- One object is constructed, enters the square and is registered under serial number 1. -/
theorem registry_exact_village : ∃ r : Registry Village.Thread Unit Village.Scene Unit,
    Reachable (village.registry Unit) r ∧ r.objects 1 = some 0 := by
  obtain ⟨r₀, h₀, hsys, hmade₀⟩ := constructed (P := Unit) village 1
  obtain ⟨s, hs, hp⟩ := Village.reachable (Village.settle 0) (Village.owesTo [0])
    (fun _ _ => Village.owesTo_iff)
    (fun s => Village.still s && s.world.entered 0 && !s.world.destroyed 0) (by decide)
  rw [Bool.and_eq_true, Bool.and_eq_true, Bool.not_eq_true'] at hp
  obtain ⟨⟨hstill, hent⟩, hdes⟩ := hp
  obtain ⟨hqueue, hrest⟩ := Village.still_iff hstill
  obtain ⟨r, hr, rfl, hmade, -⟩ := registry_of_run h₀ hsys (by rw [hmade₀]; simp) hs
  rw [hmade₀] at hmade
  have hsn : r.sn 0 = 1 := (numbered_registry hr).sn 0 0 (by rw [hmade]; rfl)
  refine ⟨r, hr, ((registry_exact hr (by rw [hmade]; decide) hqueue hrest).1 1 0).mpr ?_⟩
  exact ⟨by rw [hmade]; decide, hsn, hent, hdes⟩

/-- **2^64 + 1 objects.**  The first and the last one have the same serial number; both enter the square
    and are registered, and then `m_objects` has one entry for the two. -/
theorem serial_numbers_wrap : ∃ (r : Registry Village.Thread Unit Village.Scene Unit) (obj : Nat),
    Reachable (village.registry Unit) r ∧ (r.sys.cells .manager).jobQueue.items = [] ∧
      r.sys.Resting ∧ 0 ∈ r.made ∧ obj ∈ r.made ∧ obj ≠ 0 ∧ r.sn obj = r.sn 0 ∧
      (r.sys.world.entered 0 = true ∧ r.sys.world.destroyed 0 = false) ∧
      r.sys.world.entered obj = true ∧ r.sys.world.destroyed obj = false := by
  obtain ⟨r₀, h₀, hsys, hmade₀⟩ := constructed (P := Unit) village (2 ^ 64 + 1)
  have hknown : ∀ obj ∈ [0, 2 ^ 64], obj ∈ r₀.made := by
    intro obj hin
    rw [hmade₀, List.mem_range]
    rcases List.mem_pair.mp hin with rfl | rfl
    · exact Nat.succ_pos _
    · exact Nat.lt_succ_self _
  obtain ⟨s, hs, hp⟩ := Village.reachable (Village.settle 0 ++ Village.settle (2 ^ 64))
    (Village.owesTo [0, 2 ^ 64]) (fun _ _ => Village.owesTo_iff)
    (fun s => Village.still s && [0, 2 ^ 64].all fun obj =>
      s.world.entered obj && !s.world.destroyed obj) (by decide)
  rw [Bool.and_eq_true, List.all_eq_true] at hp
  obtain ⟨hqueue, hrest⟩ := Village.still_iff hp.1
  have halive : ∀ obj ∈ [0, 2 ^ 64], s.world.entered obj = true ∧ s.world.destroyed obj = false := by
    intro obj hin
    simpa using hp.2 obj hin
  obtain ⟨r, hr, rfl, hmade, -⟩ := registry_of_run h₀ hsys hknown hs
  have hsn : ∀ i, i < 2 ^ 64 + 1 → r.sn i = UInt64.ofNat (1 + i) := by
    intro i hi
    apply (numbered_registry hr).sn
    rw [hmade, hmade₀]
    exact List.getElem?_range hi
  refine ⟨r, 2 ^ 64, hr, hqueue, hrest, ?_, ?_, by decide, ?_, halive 0 (by simp),
    halive (2 ^ 64) (by simp)⟩
  · rw [hmade]
    exact hknown 0 (by simp)
  · rw [hmade]
    exact hknown (2 ^ 64) (by simp)
  · rw [hsn _ (Nat.lt_succ_self _), hsn 0 (Nat.succ_pos _)]
    decide

end JunCore.Logic
