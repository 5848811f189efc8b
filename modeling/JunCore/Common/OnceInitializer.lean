/-
  `JunCommon/synchronization/OnceInitializer.h`: one resource for many users, as `WSAInitializer` uses it.

  `Initialize` counts its caller first and looks at the state afterwards.  `Cleanup` takes its caller out
  of the count first, and the one that was the last cleans up and resets the state afterwards.  In between,
  the state still says INITIALIZED: who calls `Initialize` then is told that there is a resource, and it
  goes away (`cleaned_up_under_a_user`).

  Any number of threads, any interleaving of their steps, `init_func` succeeds or fails as it likes.  To
  fail is to return false or to throw; both do the same to the two members.

  `Sound` says, by the state alone, how many threads are where.  Each part of it is a sum over the
  threads, so that a step of one thread is a line of arithmetic.
-/
import JunCore.Lib.Counting
import JunCore.Lib.Transition

set_option linter.unusedVariables false
set_option linter.unusedSectionVars false

namespace JunCore.OnceInitializer

open Transition Function Counting

/-! ## The threads and what they share -/

inductive InitState
  | notInitialized
  | initializing
  | initialized
  | failed
  deriving DecidableEq

/-- The next thing a thread does. -/
inductive PC
  | idle
  -- in `Initialize`, counted
  | loadState
  | compareExchange
  | initFunc
  | storeInitialized
  | notifyWaiters
  | storeFailed
  | waitLoad
  | giveUp
  -- in `Cleanup`
  | fetchSub
  | cleanupFunc
  | storeNotInitialized
  deriving DecidableEq

structure Caller where
  pc : PC := .idle
  /-- its calls of `Initialize` that returned true and whose `Cleanup` has not begun -/
  held : Nat := 0

structure Shared where
  state : InitState := .notInitialized
  referenceCount : Int32 := 0
  /-- successful runs of `init_func`; read by nothing -/
  inits : Nat := 0
  /-- started runs of `cleanup_func`; read by nothing -/
  cleanups : Nat := 0

/-- A thread calls, or goes on; `ok` is what `init_func` does if it runs. -/
inductive Input
  | callInitialize
  | callCleanup
  | advance (ok : Bool)

/-- A thread in `Initialize` loads `state_`; it goes on to `other` if that decides nothing. -/
def Caller.look (g : Shared) (c : Caller) (other : PC) : Caller :=
  match g.state with
  | .initialized => { pc := .idle, held := c.held + 1 }
  | .failed => { c with pc := .giveUp }
  | .notInitialized | .initializing => { c with pc := other }

def Caller.step (g : Shared) (c : Caller) : Input → Option (Shared × Caller)
  | .callInitialize => match c.pc with
    | .idle => some ({ g with referenceCount := g.referenceCount + 1 }, { c with pc := .loadState })
    | _ => none
  | .callCleanup => match c.pc, c.held with
    | .idle, held + 1 => some (g, { pc := .fetchSub, held := held })
    | _, _ => none
  | .advance ok => match c.pc with
    | .idle => none
    | .loadState => some (g, c.look g .compareExchange)
    | .compareExchange =>
        if g.state = .notInitialized then some ({ g with state := .initializing }, { c with pc := .initFunc })
        else some (g, { c with pc := .waitLoad })
    | .initFunc =>
        if ok then some ({ g with inits := g.inits + 1 }, { c with pc := .storeInitialized })
        else some (g, { c with pc := .storeFailed })
    | .storeInitialized => some ({ g with state := .initialized }, { c with pc := .notifyWaiters })
    | .notifyWaiters => some (g, { pc := .idle, held := c.held + 1 })
    | .storeFailed => some ({ g with state := .failed }, { c with pc := .giveUp })
    | .waitLoad => some (g, c.look g .waitLoad)
    | .giveUp => some ({ g with referenceCount := g.referenceCount - 1 }, { c with pc := .idle })
    | .fetchSub =>
        some ({ g with referenceCount := g.referenceCount - 1 },
          { c with pc := if g.referenceCount = 1 then .cleanupFunc else .idle })
    | .cleanupFunc => some ({ g with cleanups := g.cleanups + 1 }, { c with pc := .storeNotInitialized })
    | .storeNotInitialized => some ({ g with state := .notInitialized }, { c with pc := .idle })

variable {T : Type} [DecidableEq T] [Fintype T]

structure Sys (T : Type) where
  shared : Shared := {}
  callers : T → Caller := fun _ => {}

def Sys.step (s : Sys T) (e : T × Input) : Option (Sys T) :=
  ((s.callers e.1).step s.shared e.2).map fun r => ⟨r.1, update s.callers e.1 r.2⟩

def onceInitializer (T : Type) [DecidableEq T] : System (Sys T) where
  init s := s = {}
  next s s' := ∃ e, s.step e = some s'

/-! ## The users and their protection -/

/-- Whoever has the resource finds it initialised. -/
def Sys.Protected (s : Sys T) : Prop :=
  ∀ t, 0 < (s.callers t).held → s.shared.inits = s.shared.cleanups + 1 ∧ s.shared.state = .initialized

/-- Between the decrement that read 1 and the reset of the state. -/
def PC.cleaning : PC → Bool
  | .cleanupFunc | .storeNotInitialized => true
  | _ => false

/-- About to look at the state. -/
def PC.looking : PC → Bool
  | .loadState | .waitLoad => true
  | _ => false

/-- Between its increment of the count and its decrement. -/
def PC.counted : PC → Bool
  | .idle | .cleanupFunc | .storeNotInitialized => false
  | _ => true

/-- What the thread contributes to the count. -/
def Caller.counts (c : Caller) : Nat := c.held + c.pc.counted.toNat

/-- No `Initialize` finds INITIALIZED while a `Cleanup` is cleaning up. -/
def NotCleaning (s s' : Sys T) : Prop :=
  ∀ t, (s.callers t).pc.looking = true → (s.callers t).held < (s'.callers t).held →
    ∀ u, (s.callers u).pc.cleaning = false

/-- A `Cleanup` that reads 1 is the only call counted. -/
def LastOne (s s' : Sys T) : Prop :=
  ∀ t, (s.callers t).pc = .fetchSub → (s'.callers t).pc = .cleanupFunc →
    total Caller.counts s.callers = 1

def Careful (s s' : Sys T) : Prop := NotCleaning s s' ∧ LastOne s s'

instance (s s' : Sys T) : Decidable (NotCleaning s s') :=
  inferInstanceAs (Decidable (∀ t, _ = true → _ < _ → ∀ u, _ = false))

instance (s s' : Sys T) : Decidable (LastOne s s') :=
  inferInstanceAs (Decidable (∀ t, _ = PC.fetchSub → _ = PC.cleanupFunc → _ = 1))

instance (s s' : Sys T) : Decidable (Careful s s') := inferInstanceAs (Decidable (_ ∧ _))

/-! ## What the steps do -/

theorem Sys.step_cases {s s' : Sys T} {e : T × Input} (h : s.step e = some s') :
    ∃ g c, (s.callers e.1).step s.shared e.2 = some (g, c) ∧ s' = ⟨g, update s.callers e.1 c⟩ := by
  rw [Sys.step, Option.map_eq_some_iff] at h
  obtain ⟨⟨g, c⟩, hstep, rfl⟩ := h
  exact ⟨g, c, hstep, rfl⟩

/-- The steps of a thread. -/
inductive Caller.Moves (g : Shared) : Caller → Shared → Caller → Prop
  | enter (n : Nat) :
      Moves g ⟨.idle, n⟩ { g with referenceCount := g.referenceCount + 1 } ⟨.loadState, n⟩
  | leave (n : Nat) : Moves g ⟨.idle, n + 1⟩ g ⟨.fetchSub, n⟩
  | take {pc : PC} (n : Nat) : pc.looking = true → g.state = .initialized →
      Moves g ⟨pc, n⟩ g ⟨.idle, n + 1⟩
  | refuse {pc : PC} (n : Nat) : pc.looking = true → g.state = .failed → Moves g ⟨pc, n⟩ g ⟨.giveUp, n⟩
  | compare (n : Nat) : Moves g ⟨.loadState, n⟩ g ⟨.compareExchange, n⟩
  | spin (n : Nat) : Moves g ⟨.waitLoad, n⟩ g ⟨.waitLoad, n⟩
  | win (n : Nat) : g.state = .notInitialized →
      Moves g ⟨.compareExchange, n⟩ { g with state := .initializing } ⟨.initFunc, n⟩
  | lose (n : Nat) : Moves g ⟨.compareExchange, n⟩ g ⟨.waitLoad, n⟩
  | succeed (n : Nat) : Moves g ⟨.initFunc, n⟩ { g with inits := g.inits + 1 } ⟨.storeInitialized, n⟩
  | fail (n : Nat) : Moves g ⟨.initFunc, n⟩ g ⟨.storeFailed, n⟩
  | publish (n : Nat) :
      Moves g ⟨.storeInitialized, n⟩ { g with state := .initialized } ⟨.notifyWaiters, n⟩
  | notify (n : Nat) : Moves g ⟨.notifyWaiters, n⟩ g ⟨.idle, n + 1⟩
  | publishFailure (n : Nat) : Moves g ⟨.storeFailed, n⟩ { g with state := .failed } ⟨.giveUp, n⟩
  | giveUp (n : Nat) :
      Moves g ⟨.giveUp, n⟩ { g with referenceCount := g.referenceCount - 1 } ⟨.idle, n⟩
  | last (n : Nat) : g.referenceCount = 1 →
      Moves g ⟨.fetchSub, n⟩ { g with referenceCount := g.referenceCount - 1 } ⟨.cleanupFunc, n⟩
  | notLast (n : Nat) :
      Moves g ⟨.fetchSub, n⟩ { g with referenceCount := g.referenceCount - 1 } ⟨.idle, n⟩
  | clean (n : Nat) :
      Moves g ⟨.cleanupFunc, n⟩ { g with cleanups := g.cleanups + 1 } ⟨.storeNotInitialized, n⟩
  | reset (n : Nat) :
      Moves g ⟨.storeNotInitialized, n⟩ { g with state := .notInitialized } ⟨.idle, n⟩

theorem Caller.step_moves {g g' : Shared} {c c' : Caller} {input : Input}
    (h : c.step g input = some (g', c')) : c.Moves g g' c' := by
  obtain ⟨pc, n⟩ := c
  cases input with
  | callInitialize =>
    cases pc <;> simp only [Caller.step, Option.some.injEq, Prod.mk.injEq, reduceCtorEq] at h
    obtain ⟨rfl, rfl⟩ := h
    exact .enter n
  | callCleanup =>
    cases pc <;> cases n <;> simp only [Caller.step, Option.some.injEq, Prod.mk.injEq, reduceCtorEq] at h
    obtain ⟨rfl, rfl⟩ := h
    exact .leave _
  | advance ok =>
    cases pc with
    | idle => cases h
    | loadState =>
      obtain ⟨rfl, rfl⟩ := Prod.mk.inj (Option.some.inj h)
      cases hg : g.state <;> simp only [Caller.look, hg]
      · exact .compare n
      · exact .compare n
      · exact .take n rfl hg
      · exact .refuse n rfl hg
    | waitLoad =>
      obtain ⟨rfl, rfl⟩ := Prod.mk.inj (Option.some.inj h)
      cases hg : g.state <;> simp only [Caller.look, hg]
      · exact .spin n
      · exact .spin n
      · exact .take n rfl hg
      · exact .refuse n rfl hg
    | compareExchange =>
      simp only [Caller.step] at h
      split at h <;> obtain ⟨rfl, rfl⟩ := Prod.mk.inj (Option.some.inj h)
      · exact .win n ‹_›
      · exact .lose n
    | initFunc =>
      simp only [Caller.step] at h
      split at h <;> obtain ⟨rfl, rfl⟩ := Prod.mk.inj (Option.some.inj h)
      · exact .succeed n
      · exact .fail n
    | storeInitialized =>
      obtain ⟨rfl, rfl⟩ := Prod.mk.inj (Option.some.inj h)
      exact .publish n
    | notifyWaiters =>
      obtain ⟨rfl, rfl⟩ := Prod.mk.inj (Option.some.inj h)
      exact .notify n
    | storeFailed =>
      obtain ⟨rfl, rfl⟩ := Prod.mk.inj (Option.some.inj h)
      exact .publishFailure n
    | giveUp =>
      obtain ⟨rfl, rfl⟩ := Prod.mk.inj (Option.some.inj h)
      exact .giveUp n
    | fetchSub =>
      obtain ⟨rfl, rfl⟩ := Prod.mk.inj (Option.some.inj h)
      by_cases hlast : g.referenceCount = 1
      · rw [if_pos hlast]
        exact .last n hlast
      · rw [if_neg hlast]
        exact .notLast n
    | cleanupFunc =>
      obtain ⟨rfl, rfl⟩ := Prod.mk.inj (Option.some.inj h)
      exact .clean n
    | storeNotInitialized =>
      obtain ⟨rfl, rfl⟩ := Prod.mk.inj (Option.some.inj h)
      exact .reset n

/-! ## How many threads are where -/

/-- Its successes that have not been given back, counting the one it is about to return and the one it is
    about to give back. -/
def Caller.users : Caller → Nat
  | ⟨.notifyWaiters, n⟩ | ⟨.fetchSub, n⟩ => n + 1
  | ⟨_, n⟩ => n

/-- Whether the thread is at one of two places. -/
def Caller.atPC (pc pc' : PC) (c : Caller) : Nat := if c.pc = pc ∨ c.pc = pc' then 1 else 0

/-- What the state says about the threads: `users` in all, `trying` in `init_func` or with its failure,
    `ready` with its success, `sweeping` and `resetting` in `Cleanup`. -/
def Sound (g : Shared) (users trying ready sweeping resetting : Nat) : Prop :=
  match g.state with
  | .notInitialized | .failed =>
      users = 0 ∧ trying = 0 ∧ ready = 0 ∧ sweeping = 0 ∧ resetting = 0 ∧ g.inits = g.cleanups
  | .initializing =>
      users = 0 ∧ sweeping = 0 ∧ resetting = 0 ∧ trying + ready = 1 ∧ g.inits = g.cleanups + ready
  | .initialized =>
      trying = 0 ∧ ready = 0 ∧ (sweeping = 0 ∧ resetting = 0 ∧ g.inits = g.cleanups + 1 ∨
        sweeping + resetting = 1 ∧ users = 0 ∧ g.inits = g.cleanups + sweeping)

def Sys.Sound (s : Sys T) : Prop :=
  OnceInitializer.Sound s.shared (total Caller.users s.callers)
    (total (Caller.atPC .initFunc .storeFailed) s.callers)
    (total (Caller.atPC .storeInitialized .storeInitialized) s.callers)
    (total (Caller.atPC .cleanupFunc .cleanupFunc) s.callers)
    (total (Caller.atPC .storeNotInitialized .storeNotInitialized) s.callers)

/-- The number `n` that shows what the threads count by `f` goes with the thread that takes a step. -/
def Shifts (f : Caller → Nat) (c c' : Caller) (n n' : Nat) : Prop := n' + f c = n + f c' ∧ f c ≤ n

theorem shifts_total (f : Caller → Nat) (callers : T → Caller) (t : T) (c' : Caller) :
    Shifts f (callers t) c' (total f callers) (total f (update callers t c')) :=
  ⟨total_update f callers t c', le_total f callers t⟩

theorem looking_cases {pc : PC} (h : pc.looking = true) : pc = .loadState ∨ pc = .waitLoad := by
  cases pc with
  | loadState => exact .inl rfl
  | waitLoad => exact .inr rfl
  | _ => cases h

/-- **One step.**  A thread that takes the resource must not meet one that cleans up, and the one that
    cleans up must be the only user. -/
theorem Caller.Moves.sound {g g' : Shared} {u i r s n u' i' r' s' n' : Nat} {c c' : Caller}
    (M : c.Moves g g' c') (S : Sound g u i r s n)
    (hu : Shifts Caller.users c c' u u') (hi : Shifts (Caller.atPC .initFunc .storeFailed) c c' i i')
    (hr : Shifts (Caller.atPC .storeInitialized .storeInitialized) c c' r r')
    (hs : Shifts (Caller.atPC .cleanupFunc .cleanupFunc) c c' s s')
    (hn : Shifts (Caller.atPC .storeNotInitialized .storeNotInitialized) c c' n n')
    (htake : c.pc.looking = true → c.held < c'.held → s = 0 ∧ n = 0)
    (hlast : c.pc = .fetchSub → c'.pc = .cleanupFunc → u = 1) : Sound g' u' i' r' s' n' := by
  simp only [Shifts, Caller.users, Caller.atPC] at hu hi hr hs hn
  cases M with
  | take m hl hg =>
    have hz := htake hl (Nat.lt_succ_self m)
    rcases looking_cases hl with rfl | rfl <;>
      simp only [Sound, hg, reduceCtorEq, or_self, if_false] at * <;> omega
  | refuse m hl hg =>
    rcases looking_cases hl with rfl | rfl <;>
      simp only [Sound, hg, reduceCtorEq, or_self, if_false] at * <;> omega
  | last m hrc =>
    have hone := hlast rfl rfl
    cases hg : g.state <;> simp only [Sound, hg, reduceCtorEq, or_self, if_false, if_true] at * <;> omega
  | _ =>
    -- the state decides, and the sums move by what this thread counts
    cases hg : g.state <;>
      simp only [Sound, hg, reduceCtorEq, or_self, or_true, true_or, if_false, if_true] at * <;> omega

theorem users_le_counts (c : Caller) : c.users ≤ c.counts := by
  obtain ⟨pc, n⟩ := c
  cases pc <;> simp [Caller.users, Caller.counts, PC.counted]

theorem sound_reachable {s : Sys T} (h : Reachable ((onceInitializer T).guard Careful) s) : s.Sound := by
  apply h.invariant (I := Sys.Sound)
  · rintro s rfl
    have hzero : ∀ f : Caller → Nat, f {} = 0 → total f (fun _ : T => {}) = 0 :=
      fun f hf => total_eq_zero fun _ => hf
    exact ⟨hzero _ rfl, hzero _ rfl, hzero _ rfl, hzero _ rfl, hzero _ rfl, rfl⟩
  · rintro s s' _ S ⟨⟨⟨t, input⟩, hstep⟩, hclean, hlast⟩
    obtain ⟨g, c, hc, rfl⟩ := Sys.step_cases hstep
    refine (Caller.step_moves hc).sound S (shifts_total ..) (shifts_total ..) (shifts_total ..)
      (shifts_total ..) (shifts_total ..) (fun hlook hheld => ?_) fun hfetch hcleanup => ?_
    · have hnone := hclean t hlook (by simpa using hheld)
      constructor
      · refine total_eq_zero fun v => if_neg fun hv => ?_
        have := hnone v
        rw [or_self] at hv
        rw [hv] at this
        cases this
      · refine total_eq_zero fun v => if_neg fun hv => ?_
        have := hnone v
        rw [or_self] at hv
        rw [hv] at this
        cases this
    · have hone := hlast t hfetch (by simpa using hcleanup)
      have hle := total_mono users_le_counts s.callers
      have hpos := le_total Caller.users s.callers t
      have huser : 0 < (s.callers t).users := by
        obtain ⟨pc, n, hpc⟩ : ∃ pc n, s.callers t = ⟨pc, n⟩ := ⟨_, _, rfl⟩
        rw [hpc] at hfetch ⊢
        rw [show pc = .fetchSub from hfetch]
        exact Nat.succ_pos n
      omega

/-! ## The count -/

theorem Caller.Moves.count {g g' : Shared} {c c' : Caller} (M : c.Moves g g' c') :
    g'.referenceCount + Int32.ofNat c.counts = g.referenceCount + Int32.ofNat c'.counts := by
  cases M with
  | enter n =>
    show g.referenceCount + 1 + Int32.ofNat n = g.referenceCount + Int32.ofNat (n + 1)
    rw [Int32.ofNat_add, Int32.add_assoc, Int32.add_comm 1]
    rfl
  | giveUp n | last n hrc | notLast n =>
    show g.referenceCount - 1 + Int32.ofNat (n + 1) = g.referenceCount + Int32.ofNat n
    rw [Nat.add_comm, Int32.ofNat_add, ← Int32.add_assoc]
    exact congrArg (· + Int32.ofNat n) (Int32.sub_add_cancel g.referenceCount 1)
  | take n hl hg | refuse n hl hg => rcases looking_cases hl with rfl | rfl <;> rfl
  | _ => rfl

/-- The count shows how many calls are counted, modulo 2^32. -/
theorem count_reachable {s : Sys T} (h : Reachable (onceInitializer T) s) :
    s.shared.referenceCount = Int32.ofNat (total Caller.counts s.callers) := by
  apply h.invariant (I := fun s => s.shared.referenceCount = Int32.ofNat (total Caller.counts s.callers))
  · rintro s rfl
    have hzero : total Caller.counts (fun _ : T => {}) = 0 := total_eq_zero fun _ => rfl
    show (0 : Int32) = Int32.ofNat (total Caller.counts fun _ : T => {})
    rw [hzero]
    rfl
  · rintro s s' _ IH ⟨⟨t, input⟩, hstep⟩
    obtain ⟨g, c, hc, rfl⟩ := Sys.step_cases hstep
    have hcount := (Caller.step_moves hc).count
    rw [IH, ← Int32.ofNat_add, ← total_update Caller.counts s.callers t c, Int32.ofNat_add,
      Int32.add_left_inj] at hcount
    exact hcount

theorem Caller.Moves.read_one {g g' : Shared} {c c' : Caller} (M : c.Moves g g' c')
    (hc : c.pc = .fetchSub) (hc' : c'.pc = .cleanupFunc) : g.referenceCount = 1 := by
  cases M with
  | last n hrc => exact hrc
  | take n hl hg | refuse n hl hg | notLast n => cases hc'
  | _ => cases hc

/-- A `Cleanup` that reads 1 is the only call counted, unless more than 2^32 are. -/
theorem lastOne_of_few {s s' : Sys T} (h : Reachable (onceInitializer T) s)
    (hfew : total Caller.counts s.callers ≤ 2 ^ 32) (hnext : (onceInitializer T).next s s') :
    LastOne s s' := by
  obtain ⟨⟨t, input⟩, hstep⟩ := hnext
  obtain ⟨g, c, hc, rfl⟩ := Sys.step_cases hstep
  intro t' hfetch hcleanup
  have hread : s.shared.referenceCount = 1 := by
    by_cases htt : t' = t
    · subst htt
      simp only [update_self] at hcleanup
      exact (Caller.step_moves hc).read_one hfetch hcleanup
    · simp only [update_of_ne htt] at hcleanup
      rw [hfetch] at hcleanup
      cases hcleanup
  rw [count_reachable h] at hread
  have hmod : total Caller.counts s.callers % 2 ^ 32 = 1 :=
    congrArg (fun x : Int32 => x.toBitVec.toNat) hread
  omega

/-! ## The protection -/

theorem Sys.Sound.initialized {s : Sys T} (S : s.Sound) {t : T} (ht : 0 < (s.callers t).users) :
    s.shared.inits = s.shared.cleanups + 1 ∧ s.shared.state = .initialized := by
  have hle := le_total Caller.users s.callers t
  unfold Sys.Sound OnceInitializer.Sound at S
  cases hg : s.shared.state <;> simp only [hg] at S
  · omega
  · omega
  · exact ⟨by omega, rfl⟩
  · omega

theorem held_le_users (c : Caller) : c.held ≤ c.users := by
  obtain ⟨pc, n⟩ := c
  cases pc <;> simp [Caller.users]

/-- To take the resource is to have found INITIALIZED. -/
theorem Caller.Moves.taken {g g' : Shared} {c c' : Caller} (M : c.Moves g g' c')
    (hlook : c.pc.looking = true) (hheld : c.held < c'.held) : g.state = .initialized ∧ g' = g := by
  cases M with
  | take n hl hg => exact ⟨hg, rfl⟩
  | notify n => cases hlook
  | _ => exact absurd hheld (by simp)

/-- While the resource is being removed: what is left of it, by where the `Cleanup` is. -/
theorem Sys.Sound.removing {s : Sys T} (S : s.Sound) (hg : s.shared.state = .initialized) {v : T} :
    ((s.callers v).pc = .cleanupFunc → s.shared.inits = s.shared.cleanups + 1) ∧
      ((s.callers v).pc = .storeNotInitialized → s.shared.inits = s.shared.cleanups) := by
  have hs := le_total (Caller.atPC .cleanupFunc .cleanupFunc) s.callers v
  have hn := le_total (Caller.atPC .storeNotInitialized .storeNotInitialized) s.callers v
  unfold Sys.Sound OnceInitializer.Sound at S
  simp only [hg] at S
  constructor
  · intro hv
    simp only [Caller.atPC, hv, or_self, if_true] at hs
    omega
  · intro hv
    simp only [Caller.atPC, hv, or_self, if_true] at hn
    omega

/-- **Users are protected as long as nobody comes in while the resource is being removed.**  Where the
    first condition is broken, the protection is gone at once or with the next step. -/
theorem users_protected {s : Sys T} (h : Reachable ((onceInitializer T).guard Careful) s) :
    s.Protected ∧ ∀ s', (onceInitializer T).next s s' → ¬ NotCleaning s s' →
      ¬ s'.Protected ∨ ∃ s'', (onceInitializer T).next s' s'' ∧ ¬ s''.Protected := by
  have S := sound_reachable h
  refine ⟨fun t ht => S.initialized (Nat.lt_of_lt_of_le ht (held_le_users _)), ?_⟩
  rintro s' ⟨⟨t, input⟩, hstep⟩ hbad
  obtain ⟨g, c, hc, rfl⟩ := Sys.step_cases hstep
  simp only [NotCleaning, not_forall] at hbad
  obtain ⟨t', hlook, hheld, v, hv⟩ := hbad
  obtain rfl : t' = t := by
    by_contra htt
    simp only [update_of_ne htt] at hheld
    exact Nat.lt_irrefl _ hheld
  simp only [update_self] at hheld
  obtain ⟨hg, rfl⟩ := (Caller.step_moves hc).taken hlook hheld
  have hvt : v ≠ t' := by
    rintro rfl
    rcases looking_cases hlook with hpc | hpc <;> rw [hpc] at hv <;> exact hv rfl
  have hpos : 0 < c.held := Nat.lt_of_le_of_lt (Nat.zero_le _) hheld
  obtain ⟨hcleanup, hreset⟩ := S.removing hg (v := v)
  cases hpc : (s.callers v).pc with
  | storeNotInitialized =>
    left
    intro P
    have hone : s.shared.inits = s.shared.cleanups + 1 := (P t' (by simpa using hpos)).1
    have := hreset hpc
    omega
  | cleanupFunc =>
    -- `cleanup_func` starts
    right
    refine ⟨⟨{ s.shared with cleanups := s.shared.cleanups + 1 }, update (update s.callers t' c) v
      { s.callers v with pc := .storeNotInitialized }⟩, ⟨(v, .advance true), ?_⟩, ?_⟩
    · rw [Sys.step]
      simp only [update_of_ne hvt, Caller.step, hpc, Option.map_some]
    · intro P
      have hone : s.shared.inits = s.shared.cleanups + 1 + 1 :=
        (P t' (by simpa [update_of_ne hvt.symm] using hpos)).1
      have := hcleanup hpc
      omega
  | _ => simp [hpc, PC.cleaning] at hv

/-! ## Two threads -/

/-- Thread `true` makes the resource. -/
def first : List (Bool × Input) :=
  [(true, .callInitialize), (true, .advance true), (true, .advance true), (true, .advance true),
    (true, .advance true), (true, .advance true)]

theorem step_next (s : Sys T) (e : T × Input) (s' : Sys T) (h : s.step e = some s') :
    (onceInitializer T).next s s' := ⟨e, h⟩

/-- Thread `false` comes later; `true` gives the resource back, and `false` still has it. -/
theorem users_protected_two : ∃ s : Sys Bool, 0 < (s.callers false).held ∧ (s.callers true).held = 0 ∧
    s.shared.inits = s.shared.cleanups + 1 ∧ s.shared.state = .initialized := by
  obtain ⟨s, h, hcheck⟩ := exists_reachable_of_exec (M := (onceInitializer Bool).guard Careful)
    rfl (next_of_gate (g := fun s s' => decide (Careful s s')) step_next
      fun s s' hdec => of_decide_eq_true hdec)
    (first ++ [(false, .callInitialize), (false, .advance true), (true, .callCleanup),
      (true, .advance true)])
    (fun s => (s.callers false).held == 1 && (s.callers true).held == 0) (by decide +kernel)
  rw [Bool.and_eq_true, beq_iff_eq, beq_iff_eq] at hcheck
  have hpos : 0 < (s.callers false).held := by omega
  exact ⟨s, hpos, hcheck.2, (users_protected h).1 false hpos⟩

/-- **Cleaned up under a user.**  Thread `true`, the last user, has taken itself out of the count; thread
    `false` comes, reads INITIALIZED and is told that there is a resource; then `cleanup_func` runs. -/
theorem cleaned_up_under_a_user :
    ∃ s : Sys Bool, Reachable (onceInitializer Bool) s ∧ ¬ s.Protected := by
  obtain ⟨s, h, hcheck⟩ := exists_reachable_of_exec (M := onceInitializer Bool) rfl
    step_next
    (first ++ [(true, .callCleanup), (true, .advance true), (false, .callInitialize),
      (false, .advance true), (true, .advance true)])
    (fun s => (s.callers false).held == 1 && s.shared.inits == 1 && s.shared.cleanups == 1) (by decide)
  simp only [Bool.and_eq_true, beq_iff_eq] at hcheck
  obtain ⟨⟨hheld, hinits⟩, hcleanups⟩ := hcheck
  refine ⟨s, h, fun P => ?_⟩
  have := (P false (by omega)).1
  omega

end JunCore.OnceInitializer
