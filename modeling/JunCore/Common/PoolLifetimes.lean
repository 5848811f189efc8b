/-
  The lifetimes of the objects in an `LFObjectPool` with `use_ctor_`.

  An object is constructed with its node, by `new Node`, be it in the pool's constructor or in an `Alloc`
  that finds the list empty; an `Alloc` that takes a node off the list constructs it again; `Free`
  destructs it; and `delete` of the node, in the pool's destructor, destructs it once more.  So the
  lifetimes are right only as long as no object is given out at all (`pool_lifetimes`).

  The calls are those of `LFObjectPool`, watched: `life p` is what has been done to the object `p` so far,
  and `given` is what the calls of `Alloc` have returned.
-/
import JunCore.Common.LFObjectPool

set_option linter.unusedVariables false
set_option linter.unusedSectionVars false

namespace JunCore.LFObjectPool

open Transition Function Linked LFQueueSteps

/-! ## What is done to an object -/

inductive LifeCall
  | constructor
  | destructor
  deriving DecidableEq

/-- The constructor and destructor calls on each object, the first one first. -/
abbrev Lives := Nat → List LifeCall

def Lives.add (life : Lives) (p : Nat) (call : LifeCall) : Lives := update life p (life p ++ [call])

/-- What an operation of the pool does to an object. -/
def Pc.live (m : Pool) (life : Lives) : Pc → Lives
  -- `new (&topClean->object) T`
  | .construct p => life.add p .constructor
  -- `object()` of `new Node`
  | .create => life.add m.created .constructor
  -- `object->~T()`
  | .destruct p => life.add p .destructor
  | _ => life

/-- The turns of the constructor's loop. -/
def Lives.new : Nat → Lives
  | 0 => fun _ => []
  | n + 1 => (Lives.new n).add n .constructor

/-- The loop of `~LFObjectPool`: `delete` of each node on the list; `none` if it takes more than `fuel`
    turns. -/
def deleteNodes (next : Nat → Option Nat) : Nat → Option Nat → Lives → Option Lives
  | _, none, life => some life
  | 0, some _, _ => none
  | fuel + 1, some p, life => deleteNodes next fuel (next p) (life.add p .destructor)

/-! ## Pools that are watched -/

variable {C : Type} [DecidableEq C]

structure Watched (C : Type) where
  sys : Sys C
  life : Lives
  given : List Nat

/-- A step of the callers, and what it does to an object or returns. -/
def Watched.step (s : Watched C) (a : Act C) : Option (Watched C) :=
  (LFObjectPool.step s.sys a).map fun sys' =>
    match a with
    | .go c => ⟨sys', (s.sys.callers c).pc.live s.sys.pool s.life, (s.sys.callers c).pc.gets ++ s.given⟩
    | _ => ⟨sys', s.life, s.given⟩

/-- A pool with `use_ctor`, just made, and what its callers do with it. -/
def watched (C : Type) [DecidableEq C] : System (Watched C) where
  init s := ∃ before nodeNum, s = ⟨⟨.new before nodeNum true, fun _ => {}⟩, .new nodeNum, []⟩
  next s s' := ∃ a, s.step a = some s'

/-- `~LFObjectPool`.  There are no more nodes than have been created. -/
def Watched.destroy (s : Watched C) : Option Lives :=
  deleteNodes s.sys.pool.next s.sys.pool.created s.sys.pool.topStamp.node s.life

/-- No call is going on, and all objects have been freed. -/
def Watched.Quiet (s : Watched C) : Prop := ∀ c, (s.sys.callers c).pc = .idle ∧ (s.sys.callers c).held = []

/-- **A well-formed lifetime**: the calls alternate, from a constructor to a destructor. -/
def WellFormed (calls : List LifeCall) : Prop :=
  calls.head? = some .constructor ∧ calls.IsChain (· ≠ ·) ∧ calls.getLast? = some .destructor

/-! ## The nodes on the list -/

/-- What a caller knows about the object it frees. -/
def Pc.Lived (life : Lives) (given : List Nat) : Pc → Prop
  | .check p | .destruct p => p ∈ given
  | .reloadTop p | .storeNext p _ | .pushTop p _ => p ∈ given ∧ (life p).getLast? = some .destructor
  | _ => True

/-- Nobody holds the node or has it in hands. -/
def Sys.Free (s : Sys C) (p : Nat) : Prop :=
  p < s.pool.created ∧ ∀ c, p ∉ (s.callers c).held ∧ (s.callers c).pc.hands ≠ some p

/-- **Where the objects are in their lives**: an object that was given out and is free again has been
    destructed, and one that never was has only been constructed. -/
structure Lived (s : Watched C) : Prop where
  useCtor : s.sys.pool.useCtor = true
  held : ∀ c, ∀ p ∈ (s.sys.callers c).held, p ∈ s.given
  calls : ∀ c, (s.sys.callers c).pc.Lived s.life s.given
  given : ∀ p ∈ s.given, p < s.sys.pool.created
  free : ∀ p, s.sys.Free p →
    if p ∈ s.given then (s.life p).getLast? = some .destructor else s.life p = [.constructor]
  unborn : ∀ p, s.sys.pool.created ≤ p → s.life p = []

/-! ## What one operation does -/

theorem Lives.add_other {life : Lives} {p q : Nat} {call : LifeCall} (h : q ≠ p) :
    life.add p call q = life q := update_of_ne h _ _

theorem Lives.add_self (life : Lives) (p : Nat) (call : LifeCall) :
    life.add p call p = life p ++ [call] := update_self _ _ _

section

variable {m : Pool} {life : Lives} {pc : Pc} {p : Nat}

/-- An operation leaves alone what the caller does not have in hands. -/
theorem Pc.live_other (h : pc.hands ≠ some p) (hp : pc = .create → p ≠ m.created) :
    pc.live m life p = life p := by
  cases pc with
  | construct q => exact Lives.add_other fun heq => h (by rw [heq]; rfl)
  | destruct q => exact Lives.add_other fun heq => h (by rw [heq]; rfl)
  | create => exact Lives.add_other (hp rfl)
  | _ => rfl

theorem Pc.run_useCtor (m : Pool) (pc : Pc) : (pc.run m).1.useCtor = m.useCtor := by
  cases pc with
  | loadTop | casTop _ _ _ | pushTop _ _ =>
    rw [Pc.run]
    split <;> rfl
  | check p =>
    rw [Pc.run]
    split
    · rfl
    · split
      · rfl
      · split <;> rfl
  | _ => rfl

theorem Pc.run_created (m : Pool) (pc : Pc) :
    (pc.run m).1.created = m.created ∨ pc = .create ∧ (pc.run m).1.created = m.created + 1 := by
  cases pc with
  | create => exact .inr ⟨rfl, rfl⟩
  | loadTop | casTop _ _ _ | pushTop _ _ =>
    rw [Pc.run]
    split <;> exact .inl rfl
  | check p =>
    rw [Pc.run]
    split
    · exact .inl rfl
    · split
      · exact .inl rfl
      · split <;> exact .inl rfl
  | _ => exact .inl rfl

/-- A caller keeps what it has in hands, until it returns it or the CAS of `Free` succeeds. -/
theorem Pc.run_hands (m : Pool) (h : pc.hands = some p) :
    (pc.run m).2.hands = some p ∨ p ∈ pc.gets ∨ (∃ top, pc = .pushTop p top) ∨
      ∃ text, (pc.run m).2 = .thrown text := by
  cases pc with
  | construct q | countUse q | destruct q | reloadTop q | storeNext q top => exact .inl h
  | allocated q =>
    cases h
    exact .inr (.inl List.mem_cons_self)
  | check q =>
    rw [Pc.run]
    split
    · exact .inr (.inr (.inr ⟨_, rfl⟩))
    · split
      · exact .inr (.inr (.inr ⟨_, rfl⟩))
      · split
        · exact .inr (.inr (.inr ⟨_, rfl⟩))
        · left
          show (if m.useCtor = true then Pc.destruct q else .reloadTop q).hands = some p
          split <;> exact h
  | pushTop q top =>
    cases h
    exact .inr (.inr (.inl ⟨top, rfl⟩))
  | _ => cases h

/-- What a caller knows is about the object in its hands. -/
theorem Pc.Lived.mono {life' : Lives} {given given' : List Nat} (h : pc.Lived life given)
    (hlife : ∀ p, pc.hands = some p → life' p = life p) (hgiven : ∀ p ∈ given, p ∈ given') :
    pc.Lived life' given' := by
  cases pc with
  | check p | destruct p => exact hgiven p h
  | reloadTop p | storeNext p top | pushTop p top =>
    exact ⟨hgiven p h.1, by rw [hlife p rfl]; exact h.2⟩
  | _ => trivial

/-- What the caller knows after the operation. -/
theorem Pc.Lived.run {given : List Nat} (h : pc.Lived life given) (hctor : m.useCtor = true) :
    (pc.run m).2.Lived (pc.live m life) (pc.gets ++ given) := by
  cases pc with
  | loadTop =>
    rw [Pc.run]
    split <;> trivial
  | casTop top p next =>
    rw [Pc.run, if_pos hctor]
    split <;> trivial
  | check p =>
    rw [Pc.run, if_pos hctor]
    split
    · trivial
    · split
      · trivial
      · split
        · trivial
        · exact h
  | destruct p =>
    refine ⟨h, ?_⟩
    show (life.add p .destructor p).getLast? = _
    rw [Lives.add_self, List.getLast?_concat]
  | reloadTop p | storeNext p top => exact h
  | pushTop p top =>
    rw [Pc.run]
    split
    · trivial
    · exact h
  | _ => trivial

end

/-! ## What one step leaves free -/

variable [Fintype C]

section

variable {s : Sys C} {c d e : C} {p q : Nat}

/-- Who starts a call of `Free` has the object in hands. -/
theorem Sys.Free.back_free (hidle : (s.callers c).pc = .idle) (h : (s.free c p).Free q) : s.Free q := by
  have hself : (s.free c p).callers c = ⟨.check p, (s.callers c).held.erase p⟩ := update_self _ _ _
  have hne : q ≠ p := by
    rintro rfl
    have := (h.2 c).2
    rw [hself] at this
    exact this rfl
  refine ⟨h.1, fun d => ?_⟩
  have hd := h.2 d
  by_cases heq : d = c
  · subst heq
    rw [hself] at hd
    exact ⟨fun hheld => hd.1 ((List.mem_erase_of_ne hne).2 hheld), by rw [hidle]; exact fun h => by cases h⟩
  · rwa [show (s.free c p).callers d = s.callers d from update_of_ne heq _ _] at hd

theorem Sys.hand_callers (s : Sys C) (c d : C) (p : Nat) (e : C) :
    (s.hand c d p).callers e =
      let given : C → Caller := update s.callers c { s.callers c with held := (s.callers c).held.erase p }
      update given d { given d with held := p :: (given d).held } e := rfl

theorem Sys.hand_held_self (s : Sys C) (c d : C) (p : Nat) : p ∈ ((s.hand c d p).callers d).held := by
  rw [Sys.hand_callers]
  simp only [update_self]
  exact List.mem_cons_self

/-- Handing over moves no object but this one. -/
theorem Sys.hand_held_iff (hne : q ≠ p) : q ∈ ((s.hand c d p).callers e).held ↔ q ∈ (s.callers e).held := by
  have hgiven : ∀ e, q ∈ (update s.callers c { s.callers c with held := (s.callers c).held.erase p } e).held ↔
      q ∈ (s.callers e).held := by
    intro e
    rw [update_apply]
    split
    · rename_i he
      rw [he]
      exact List.mem_erase_of_ne hne
    · exact Iff.rfl
  rw [Sys.hand_callers]
  simp only
  rw [update_apply]
  split
  · rename_i he
    rw [he]
    simp only [List.mem_cons, hne, false_or]
    exact hgiven d
  · exact hgiven e

theorem Sys.Free.back_hand (h : (s.hand c d p).Free q) : s.Free q := by
  have hne : q ≠ p := by
    rintro rfl
    exact (h.2 d).1 (Sys.hand_held_self s c d q)
  exact ⟨h.1, fun e => ⟨mt (Sys.hand_held_iff hne).2 (h.2 e).1, by rw [← Sys.hand_pc]; exact (h.2 e).2⟩⟩

/-- Only the CAS of `Free` makes an object free. -/
theorem Sys.Free.back_go (hkept : ∀ text, ((s.go c).callers c).pc ≠ .thrown text) (h : (s.go c).Free p) :
    s.Free p ∨ ∃ top, (s.callers c).pc = .pushTop p top := by
  by_cases hpush : ∃ top, (s.callers c).pc = .pushTop p top
  · exact .inr hpush
  left
  have hself := (Sys.go_self (s := s) (c := c))
  have hc := h.2 c
  rw [hself] at hc hkept
  refine ⟨?_, fun d => ?_⟩
  · have hlt : p < ((s.callers c).pc.run s.pool).1.created := h.1
    rcases Pc.run_created s.pool (s.callers c).pc with hsame | ⟨hpc, hnew⟩
    · rwa [hsame] at hlt
    · -- a new node is in the hands of who created it
      have hp : p ≠ s.pool.created := by
        rintro rfl
        refine hc.2 ?_
        show ((s.callers c).pc.run s.pool).2.hands = _
        rw [hpc]
        rfl
      omega
  · by_cases heq : d = c
    · subst heq
      refine ⟨fun hheld => hc.1 (List.mem_append_right _ hheld), fun hhands => ?_⟩
      rcases Pc.run_hands s.pool hhands with hkeep | hget | hpush' | ⟨text, hthrown⟩
      · exact hc.2 hkeep
      · exact hc.1 (List.mem_append_left _ hget)
      · exact hpush hpush'
      · exact hkept text hthrown
    · have hd := h.2 d
      rwa [Sys.go_callers heq] at hd

end

/-! ## Every run -/

section

variable {s : Watched C}

theorem Lived.start (before : Pool) (nodeNum : Nat) :
    Lived (C := C) ⟨⟨.new before nodeNum true, fun _ => {}⟩, .new nodeNum, []⟩ := by
  have hspec := pushMany_spec { before with
    useCtor := true
    topStamp := ⟨0, none⟩
    capacity := .ofNat 32 nodeNum
    useCount := 0#32
    created := 0 } rfl rfl nodeNum
  have hcreated : (Pool.new before nodeNum true).created = nodeNum := hspec.1
  -- the loop constructs each object once
  have hlife : ∀ n p, Lives.new n p = if p < n then [.constructor] else [] := by
    intro n
    induction n with
    | zero => exact fun p => rfl
    | succ n ih =>
      intro p
      by_cases hp : p = n
      · subst hp
        rw [Lives.new, Lives.add_self, ih, if_neg (Nat.lt_irrefl _), if_pos (Nat.lt_succ_self _)]
        rfl
      · rw [Lives.new, Lives.add_other hp, ih]
        have : p < n ↔ p < n + 1 := by omega
        simp only [this]
  have hctor : ∀ n (m : Pool), (Pool.pushMany n m).useCtor = m.useCtor := by
    intro n
    induction n with
    | zero => exact fun m => rfl
    | succ n ih => exact fun m => ih m
  refine ⟨hctor nodeNum _, fun c p hp => absurd hp List.not_mem_nil, fun c => trivial,
    fun p hp => absurd hp List.not_mem_nil, fun p hp => ?_, fun p hp => ?_⟩
  · have hlt : p < nodeNum := hcreated ▸ hp.1
    rw [if_neg List.not_mem_nil]
    show Lives.new nodeNum p = _
    rw [hlife, if_pos hlt]
  · have hle : nodeNum ≤ p := hcreated ▸ hp
    show Lives.new nodeNum p = _
    rw [hlife, if_neg (by omega)]

/-- **An operation of a call.** -/
theorem Lived.go (S : Lived s) {free : List Nat} (X : Exclusive s.sys free) {c : C}
    (hkept : ∀ text, ((s.sys.go c).callers c).pc ≠ .thrown text) :
    Lived (C := C) ⟨s.sys.go c, (s.sys.callers c).pc.live s.sys.pool s.life, (s.sys.callers c).pc.gets ++ s.given⟩ := by
  have hother : ∀ p, (s.sys.callers c).pc.hands ≠ some p → p < s.sys.pool.created →
      (s.sys.callers c).pc.live s.sys.pool s.life p = s.life p :=
    fun p h hp => Pc.live_other h fun _ => Nat.ne_of_lt hp
  have hcreated := Pc.run_created s.sys.pool (s.sys.callers c).pc
  refine ⟨(Pc.run_useCtor _ _).trans S.useCtor, fun d p hp => ?_, fun d => ?_, fun p hp => ?_, fun p hp => ?_,
    fun p hp => ?_⟩
  · by_cases hd : d = c
    · subst hd
      rw [Sys.go_self] at hp
      rcases List.mem_append.1 hp with hget | hheld
      · exact List.mem_append_left _ hget
      · exact List.mem_append_right _ (S.held d p hheld)
    · rw [Sys.go_callers hd] at hp
      exact List.mem_append_right _ (S.held d p hp)
  · by_cases hd : d = c
    · subst hd
      simp only [Sys.go_self]
      exact (S.calls d).run S.useCtor
    · simp only [Sys.go_callers hd]
      refine (S.calls d).mono (fun p hp => hother p (fun hc => hd ?_) (X.kept d p (.inr hp))) fun p hp =>
        List.mem_append_right _ hp
      exact ((X.hands c d p hc).2 hp).symm
  · have hlt : p < s.sys.pool.created := by
      rcases List.mem_append.1 hp with hget | hgiven
      · refine X.kept c p (.inr ?_)
        generalize (s.sys.callers c).pc = pc at hget
        cases pc with
        | allocated q => rw [List.mem_singleton.1 hget]; rfl
        | _ => exact absurd hget List.not_mem_nil
      · exact S.given p hgiven
    show p < ((s.sys.callers c).pc.run s.sys.pool).1.created
    omega
  · rcases Sys.Free.back_go hkept hp with hfree | ⟨top, hpc⟩
    · -- free before: nobody has touched it
      have hget : p ∉ (s.sys.callers c).pc.gets := by
        have := (hfree.2 c).2
        generalize (s.sys.callers c).pc = pc at this
        cases pc with
        | allocated q =>
          intro hp
          exact this (by rw [List.mem_singleton.1 hp]; rfl)
        | _ => exact List.not_mem_nil
      have hold := S.free p hfree
      have hiff : p ∈ (s.sys.callers c).pc.gets ++ s.given ↔ p ∈ s.given := by simp [hget]
      simp only [hiff, hother p (hfree.2 c).2 hfree.1]
      exact hold
    · have hcall := S.calls c
      simp only [hpc] at hcall ⊢
      rw [if_pos (List.mem_append_right _ hcall.1)]
      exact hcall.2
  · have hle : ((s.sys.callers c).pc.run s.sys.pool).1.created ≤ p := hp
    refine (Pc.live_other (fun hhands => ?_) fun hpc => ?_).trans (S.unborn p (by omega))
    · have := X.kept c p (.inr hhands)
      omega
    · rcases hcreated with hsame | ⟨-, hnew⟩
      · rw [hpc] at hsame
        have : s.sys.pool.created + 1 = s.sys.pool.created := hsame
        omega
      · omega

/-- **Every step.** -/
theorem Lived.step (S : Lived s) {free : List Nat} (X : Exclusive s.sys free) {a : Act C} {s' : Watched C}
    (hkept : ∀ c text, (s'.sys.callers c).pc ≠ .thrown text) (h : s.step a = some s') : Lived s' := by
  obtain ⟨sys', hstep, rfl⟩ := Option.map_eq_some_iff.1 h
  cases a with
  | alloc c =>
    simp only [LFObjectPool.step] at hstep
    split at hstep
    · rename_i hidle
      obtain rfl := Option.some.inj hstep
      have hpc : ∀ d, (s.sys.alloc c).callers d = s.sys.callers d ∨
          (s.sys.alloc c).callers d = { s.sys.callers d with pc := .loadTop } ∧ d = c := by
        intro d
        show update s.sys.callers c _ d = _ ∨ update s.sys.callers c _ d = _ ∧ _
        rw [update_apply]
        split
        · rename_i hd
          rw [hd]
          exact .inr ⟨rfl, rfl⟩
        · exact .inl rfl
      refine ⟨S.useCtor, fun d p hp => S.held d p ?_, fun d => ?_, S.given, fun p hp => S.free p ⟨hp.1, fun d => ?_⟩,
        S.unborn⟩
      · rcases hpc d with hsame | ⟨hnew, -⟩
        · rwa [← hsame]
        · simp only [hnew] at hp
          exact hp
      · rcases hpc d with hsame | ⟨hnew, -⟩
        · simp only [hsame]
          exact S.calls d
        · simp only [hnew]
          trivial
      · have hd := hp.2 d
        rcases hpc d with hsame | ⟨hnew, rfl⟩
        · simp only [hsame] at hd
          exact hd
        · simp only [hnew] at hd
          exact ⟨hd.1, by rw [hidle]; exact fun h => by cases h⟩
    · cases hstep
  | free c p =>
    simp only [LFObjectPool.step] at hstep
    split at hstep
    · rename_i hidle
      split at hstep
      · rename_i hheld
        obtain rfl := Option.some.inj hstep
        refine ⟨S.useCtor, fun d q hq => ?_, fun d => ?_, S.given, fun q hq => S.free q (hq.back_free hidle), S.unborn⟩
        · by_cases hd : d = c
          · subst hd
            rw [show (s.sys.free d p).callers d = ⟨.check p, (s.sys.callers d).held.erase p⟩ from update_self _ _ _] at hq
            exact S.held d q (List.mem_of_mem_erase hq)
          · rw [show (s.sys.free c p).callers d = s.sys.callers d from update_of_ne hd _ _] at hq
            exact S.held d q hq
        · by_cases hd : d = c
          · subst hd
            simp only [show (s.sys.free d p).callers d = ⟨.check p, (s.sys.callers d).held.erase p⟩ from update_self _ _ _]
            exact S.held d p hheld
          · simp only [show (s.sys.free c p).callers d = s.sys.callers d from update_of_ne hd _ _]
            exact S.calls d
      · cases hstep
    · cases hstep
  | go c =>
    simp only [LFObjectPool.step] at hstep
    split at hstep
    · cases hstep
    · obtain rfl := Option.some.inj hstep
      exact S.go X (hkept c)
  | hand c d p =>
    simp only [LFObjectPool.step] at hstep
    split at hstep
    · rename_i hheld
      obtain rfl := Option.some.inj hstep
      refine ⟨S.useCtor, fun e q hq => ?_, fun e => ?_, S.given, fun q hq => S.free q hq.back_hand, S.unborn⟩
      · by_cases hne : q = p
        · subst hne
          exact S.held c q hheld
        · exact S.held e q ((Sys.hand_held_iff hne).1 hq)
      · simp only [Sys.hand_pc]
        exact S.calls e
    · cases hstep

/-- The runs in which no stamp cycles through all its values inside of a call. -/
def watchedFresh (C : Type) [DecidableEq C] : System (Watched C) := (watched C).guard fun s _ => s.sys.Fresh

theorem Watched.fresh (h : Reachable (watchedFresh C) s) : Reachable (LFObjectPool.fresh C) s.sys := by
  have hproject : Projection (watched C) (system C) Watched.sys := by
    refine ⟨fun s h0 => ?_, fun s s' hn => ?_⟩
    · obtain ⟨before, nodeNum, rfl⟩ := h0
      exact ⟨before, nodeNum, true, rfl⟩
    · obtain ⟨a, ha⟩ := hn
      obtain ⟨sys', hstep, rfl⟩ := Option.map_eq_some_iff.1 ha
      right
      refine ⟨a, hstep.trans ?_⟩
      cases a <;> rfl
  exact (hproject.guard fun _ _ hfresh => hfresh).reachable h

theorem lived (h : Reachable (watchedFresh C) s) : Lived s := by
  induction h with
  | start h0 =>
    obtain ⟨before, nodeNum, rfl⟩ := h0
    exact .start before nodeNum
  | step hr hn ih =>
    obtain ⟨L, S⟩ := sound (Watched.fresh hr)
    obtain ⟨a, ha⟩ := hn.1
    exact ih.step S.exclusive (fun c text => never_thrown (Watched.fresh (.step hr hn)) c text) ha

/-! ## The pool's destructor -/

/-- The loop deletes the nodes of the list one after the other, and then ends. -/
theorem deleteNodes_chain {next : Nat → Option Nat} {free : List Nat} {top : Option Nat} {fuel : Nat}
    (hchain : Chain next top free) (hnodup : free.Nodup) (hfuel : free.length ≤ fuel) (life : Lives) :
    ∃ life', deleteNodes next fuel top life = some life' ∧
      ∀ p, life' p = life p ++ if p ∈ free then [.destructor] else [] := by
  induction free generalizing top fuel life with
  | nil =>
    obtain rfl : top = none := hchain
    exact ⟨life, by cases fuel <;> rfl, fun p => by simp⟩
  | cons q free ih =>
    obtain ⟨rfl, hrest⟩ := hchain
    obtain ⟨hq, hnodup'⟩ := List.nodup_cons.1 hnodup
    obtain ⟨fuel, rfl⟩ : ∃ k, fuel = k + 1 := ⟨fuel - 1, by simp at hfuel; omega⟩
    obtain ⟨life', hrun, hlife'⟩ := ih hrest hnodup' (by simpa using hfuel) (life.add q .destructor)
    refine ⟨life', hrun, fun p => ?_⟩
    rw [hlife']
    by_cases hp : p = q
    · subst hp
      rw [Lives.add_self, if_neg hq, if_pos List.mem_cons_self, List.append_nil]
    · rw [Lives.add_other hp]
      simp [hp]

/-- An object that is destructed twice in a row. -/
theorem not_wellFormed {calls : List LifeCall} (h : calls.getLast? = some .destructor) :
    ¬ WellFormed (calls ++ [.destructor]) := by
  intro hw
  have := (List.isChain_append.1 hw.2.1).2.2 .destructor h .destructor rfl
  exact this rfl

/-- **The lifetimes of all objects**, once they have been freed and the pool is destroyed: they are
    well-formed exactly when no call has ever given one out. -/
theorem lifetimes (h : Reachable (watchedFresh C) s) (hquiet : s.Quiet) :
    ∃ life, s.destroy = some life ∧
      ((∀ p < s.sys.pool.created, WellFormed (life p)) ↔ s.given = []) := by
  obtain ⟨free, X⟩ : ∃ free, Exclusive s.sys free := by
    obtain ⟨L, hsound⟩ := sound (Watched.fresh h)
    exact ⟨L.free, hsound.exclusive⟩
  have S := lived h
  -- all nodes are on the list
  have hfree : ∀ p, p < s.sys.pool.created → s.sys.Free p := by
    intro p hp
    refine ⟨hp, fun c => ?_⟩
    rw [(hquiet c).1, (hquiet c).2]
    exact ⟨List.not_mem_nil, fun h => by cases h⟩
  have hlength : free.length ≤ s.sys.pool.created := by
    have hsub : free ⊆ List.range s.sys.pool.created :=
      fun p hp => List.mem_range.2 ((X.listed p).1 hp).1
    simpa using (X.acyclic.subperm hsub).length_le
  obtain ⟨life, hrun, hlife⟩ := deleteNodes_chain X.chain X.acyclic hlength s.life
  refine ⟨life, hrun, fun hwell => List.eq_nil_iff_forall_not_mem.2 fun p hp => ?_, fun hnone p hp => ?_⟩
  · have hlt := S.given p hp
    have hended := S.free p (hfree p hlt)
    rw [if_pos hp] at hended
    have := hwell p hlt
    rw [hlife, if_pos ((X.listed p).2 (hfree p hlt))] at this
    exact not_wellFormed hended this
  · have hborn := S.free p (hfree p hp)
    rw [hnone, if_neg List.not_mem_nil] at hborn
    rw [hlife, if_pos ((X.listed p).2 (hfree p hp)), hborn]
    refine ⟨rfl, ?_, rfl⟩
    simp

end

/-! ## One call after the other -/

/-- With one caller nobody else changes `top_stamp_`, and a copy is what it is. -/
def Pc.Current (m : Pool) : Pc → Prop
  | .loadNext top _ | .casTop top _ _ | .storeNext _ top | .pushTop _ top => top = m.topStamp
  | _ => True

theorem Pc.Current.fresh {m : Pool} {pc : Pc} (h : pc.Current m) : pc.Fresh m := by
  cases pc with
  | loadNext top p | casTop top p next | storeNext p top | pushTop p top =>
    obtain rfl : top = m.topStamp := h
    show m.topStamp.count < m.topStamp.count + 131072
    omega
  | _ => trivial

theorem Pc.Current.run {m : Pool} {pc : Pc} (h : pc.Current m) : (pc.run m).2.Current (pc.run m).1 := by
  cases pc with
  | loadTop =>
    rw [Pc.run]
    split
    · exact rfl
    · trivial
  | loadNext top p | storeNext p top => exact h
  | reloadTop p => exact rfl
  | casTop top p next =>
    rw [Pc.run]
    split
    · cases hctor : m.useCtor <;> trivial
    · trivial
  | pushTop p top =>
    rw [Pc.run]
    split <;> trivial
  | check p =>
    rw [Pc.run]
    split
    · trivial
    · split
      · trivial
      · split
        · trivial
        · cases hctor : m.useCtor <;> trivial
  | _ => trivial

theorem current {s : Watched Unit} (h : Reachable (watched Unit) s) :
    (s.sys.callers ()).pc.Current s.sys.pool := by
  refine h.invariant (I := fun s : Watched Unit => (s.sys.callers ()).pc.Current s.sys.pool) (fun s h0 => ?_)
    fun s s' _ I hn => ?_
  · obtain ⟨before, nodeNum, rfl⟩ := h0
    trivial
  · obtain ⟨a, ha⟩ := hn
    obtain ⟨sys', hstep, rfl⟩ := Option.map_eq_some_iff.1 ha
    cases a with
    | alloc c =>
      simp only [LFObjectPool.step] at hstep
      split at hstep
      · obtain rfl := Option.some.inj hstep
        trivial
      · cases hstep
    | free c p =>
      simp only [LFObjectPool.step] at hstep
      split at hstep
      · split at hstep
        · obtain rfl := Option.some.inj hstep
          trivial
        · cases hstep
      · cases hstep
    | go c =>
      simp only [LFObjectPool.step] at hstep
      split at hstep
      · cases hstep
      · obtain rfl := Option.some.inj hstep
        simp only [show (s.sys.go c).callers () = ((s.sys.callers ()).run s.sys.pool).2 from Sys.go_self]
        exact I.run
    | hand c d p =>
      simp only [LFObjectPool.step] at hstep
      split at hstep
      · obtain rfl := Option.some.inj hstep
        simp only [Sys.hand_pc]
        exact I
      · cases hstep

theorem watchedFresh_of_one {s : Watched Unit} (h : Reachable (watched Unit) s) :
    Reachable (watchedFresh Unit) s := by
  induction h with
  | start h0 => exact .start h0
  | step hr hn ih => exact .step ih ⟨hn, fun _ => (current hr).fresh⟩

/-- **Pool objects have well-formed lifetimes** exactly if `Alloc` is never called: for every sequence of
    calls on a pool with `use_ctor`, whatever `node_num`, after which all objects are freed and the
    pool is destroyed. -/
theorem pool_lifetimes (s : Watched Unit) (h : Reachable (watched Unit) s) (hquiet : s.Quiet) :
    ∃ life, s.destroy = some life ∧
      ((∀ p < s.sys.pool.created, WellFormed (life p)) ↔ s.given = []) :=
  lifetimes (watchedFresh_of_one h) hquiet

/-- The check for a schedule of one caller. -/
def Watched.isQuiet (s : Watched Unit) : Bool :=
  match s.sys.callers () with
  | ⟨.idle, []⟩ => true
  | _ => false

theorem Watched.quiet {s : Watched Unit} (h : s.isQuiet = true) : s.Quiet := by
  intro c
  unfold Watched.isQuiet at h
  split at h
  · rename_i heq
    exact ⟨by rw [heq], by rw [heq]⟩
  · cases h

theorem watched_next (s : Watched Unit) (a : Act Unit) (s' : Watched Unit) (h : s.step a = some s') :
    (watched Unit).next s s' := ⟨a, h⟩

/-- A pool of two nodes, of which one is taken and given back. -/
theorem pool_lifetimes_two : ∃ s : Watched Unit, Reachable (watched Unit) s ∧ s.Quiet ∧ s.given = [1] ∧
    ∃ life, s.destroy = some life ∧ ((∀ p < s.sys.pool.created, WellFormed (life p)) ↔ s.given = []) := by
  have hinit : (watched Unit).init ⟨⟨.new blank 2 true, fun _ => {}⟩, .new 2, []⟩ := ⟨_, _, rfl⟩
  obtain ⟨s, hr, hp⟩ := exists_reachable_of_exec hinit watched_next
    (.alloc () :: .replicate 6 (.go ()) ++ .free () 1 :: .replicate 7 (.go ()))
    (fun s => s.isQuiet && decide (s.given = [1])) (by decide +kernel)
  rw [Bool.and_eq_true] at hp
  have hquiet := Watched.quiet hp.1
  exact ⟨s, hr, hquiet, of_decide_eq_true hp.2, pool_lifetimes s hr hquiet⟩

/-- What an `LFQueue` does with its dummy node: one `Alloc`, one `Free`, and the object is destructed
    twice. -/
theorem destructed_twice : ∃ s : Watched Unit, Reachable (watched Unit) s ∧ s.Quiet ∧ s.sys.pool.created = 1 ∧
    ∃ life, s.destroy = some life ∧ life 0 = [.constructor, .destructor, .destructor] ∧
      ¬ WellFormed (life 0) := by
  have hinit : (watched Unit).init ⟨⟨.new blank 0 true, fun _ => {}⟩, .new 0, []⟩ := ⟨_, _, rfl⟩
  obtain ⟨s, hr, hp⟩ := exists_reachable_of_exec hinit watched_next
    (.alloc () :: .replicate 5 (.go ()) ++ .free () 0 :: .replicate 7 (.go ()))
    (fun s => s.isQuiet && decide (s.sys.pool.created = 1) &&
      s.destroy.any fun life => life 0 == [.constructor, .destructor, .destructor]) (by decide +kernel)
  rw [Bool.and_eq_true, Bool.and_eq_true] at hp
  obtain ⟨life, hlife, hcalls⟩ := (Option.any_eq_true _ _).mp hp.2
  have hcalls := eq_of_beq hcalls
  refine ⟨s, hr, Watched.quiet hp.1.1, of_decide_eq_true hp.1.2, life, hlife, hcalls, ?_⟩
  rw [hcalls]
  have hlast : [LifeCall.constructor, .destructor].getLast? = some .destructor := rfl
  exact not_wellFormed hlast

end JunCore.LFObjectPool
