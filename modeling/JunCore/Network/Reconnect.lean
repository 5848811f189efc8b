/-
  `JunCore/network/Client.cpp`: `TriggerReconnect` and the reconnect thread.

  A request is counted in `pendingConnectCount_` and then signalled; the thread takes the signal, waits
  for a while, loads the count, makes that many attempts and subtracts what it has loaded.  Many requests
  may share a signal.  None of them is lost: one that comes after the load has its own signal, or will
  have it (`Sound.woken`).

  The count is an `int`.  With 2 ^ 31 requests waiting it is negative, and the thread goes back to sleep
  without an attempt (`too_many_pending`).
-/
import JunCore.Lib.Transition
import Mathlib.Data.BitVec

set_option linter.unusedVariables false
set_option linter.unusedSectionVars false

namespace JunCore.Network

open Transition Function

/-! ## The program -/

/-- What the reconnect thread does next. -/
inductive ThreadPc
  | testRunning
  | acquire
  | checkRunning
  -- reads the clock, and sleeps if it was woken a short time ago
  | delay
  | load
  /-- `i` attempts of the loop have been made -/
  | post (pending : BitVec 32) (i : Nat)
  | subtract (pending : BitVec 32)
  | stopped
  deriving DecidableEq

/-- The requests that the thread has loaded and not subtracted yet. -/
def ThreadPc.loaded : ThreadPc → Nat
  | .post pending _ | .subtract pending => pending.toNat
  | _ => 0

/-- The attempts that have been made for them. -/
def ThreadPc.made : ThreadPc → Nat
  | .post _ i => i
  | .subtract pending => pending.toNat
  | _ => 0

/-- Whether the thread loads the count before it sleeps again. -/
def ThreadPc.awake : ThreadPc → Bool
  | .checkRunning | .delay | .load | .stopped => true
  | _ => false

/-- A client: its reconnect thread, the callers of `TriggerReconnect` and the one of `StopClient`. -/
structure Reconnect (C : Type) where
  pendingConnectCount : BitVec 32 := 0#32
  running : Bool := true
  /-- `reconnectSignal_` -/
  signal : Bool := false
  thread : ThreadPc := .testRunning
  /-- who has counted a request and has not signalled it yet -/
  signalling : C → Bool := fun _ => false
  /-- `StopClient` has cleared `running_` and has not signalled yet -/
  stopping : Bool := false
  /-- the calls of `TriggerReconnect` -/
  triggers : Nat := 0
  /-- the calls of `PostConnectEx` that the thread has made -/
  attempts : Nat := 0

/-- A caller starts `TriggerReconnect` with its `fetch_add`; it releases the signal; `StopClient` clears
    `running_`; it releases the signal; the reconnect thread goes on. -/
inductive ReconnectAct (C : Type)
  | trigger (c : C)
  | release (c : C)
  | stop
  | releaseStop
  | go

variable {C : Type} [DecidableEq C]

namespace Reconnect

/-- One operation of `ReconnectThreadFunc`; there is none while it is blocked or has returned. -/
def go (s : Reconnect C) : Option (Reconnect C) :=
  match s.thread with
  | .testRunning => some { s with thread := if s.running then .acquire else .stopped }
  | .acquire => if s.signal then some { s with signal := false, thread := .checkRunning } else none
  | .checkRunning => some { s with thread := if s.running then .delay else .stopped }
  | .delay => some { s with thread := .load }
  | .load => some { s with
      thread := if 0 < s.pendingConnectCount.toInt then .post s.pendingConnectCount 0 else .testRunning }
  | .post pending i =>
    if (i : Int) < pending.toInt then some { s with attempts := s.attempts + 1, thread := .post pending (i + 1) }
    else some { s with thread := .subtract pending }
  | .subtract pending => some { s with
      pendingConnectCount := s.pendingConnectCount - pending, thread := .testRunning }
  | .stopped => none

def step (s : Reconnect C) : ReconnectAct C → Option (Reconnect C)
  | .trigger c =>
    if s.signalling c then none
    else some { s with
      pendingConnectCount := s.pendingConnectCount + 1#32
      triggers := s.triggers + 1
      signalling := update s.signalling c true }
  | .release c =>
    if s.signalling c then some { s with signal := true, signalling := update s.signalling c false } else none
  | .stop => if s.running then some { s with running := false, stopping := true } else none
  | .releaseStop => if s.stopping then some { s with signal := true, stopping := false } else none
  | .go => s.go

/-- A client that has just started its thread, and any number of callers. -/
def system (C : Type) [DecidableEq C] : System (Reconnect C) where
  init s := s = {}
  next s s' := ∃ a, s.step a = some s'

/-- Fewer than 2 ^ 31 requests are pending when the thread loads the count. -/
def Moderate (s : Reconnect C) : Prop := s.thread = .load → s.triggers < s.attempts + 2 ^ 31

/-- The runs with fewer than 2 ^ 31 requests pending at any load. -/
def moderate (C : Type) [DecidableEq C] : System (Reconnect C) := (system C).guard fun s _ => s.Moderate

/-! ## The invariant -/

/-- `done` requests have been subtracted.  The count is right modulo 2 ^ 32, and a request that is not in
    the loop the thread is in has been signalled, or will be, or will be loaded. -/
structure Sound (s : Reconnect C) (done : Nat) : Prop where
  count : s.pendingConnectCount + BitVec.ofNat 32 done = BitVec.ofNat 32 s.triggers
  attempts : s.attempts = done + s.thread.made
  loaded : done + s.thread.loaded ≤ s.triggers
  loop : ∀ pending i, s.thread = .post pending i → i ≤ pending.toNat ∧ pending.toNat < 2 ^ 31
  woken : s.thread.awake = false → done + s.thread.loaded < s.triggers →
    s.signal = true ∨ ∃ c, s.signalling c = true

/-- What the thread loads, if fewer than 2 ^ 31 requests are pending. -/
theorem count_eq {count : BitVec 32} {done triggers : Nat}
    (h : count + BitVec.ofNat 32 done = BitVec.ofNat 32 triggers) (hle : done ≤ triggers)
    (hlt : triggers < done + 2 ^ 31) : count.toNat = triggers - done := by
  have hnat := congrArg BitVec.toNat h
  rw [BitVec.toNat_add, BitVec.toNat_ofNat, BitVec.toNat_ofNat] at hnat
  have := count.isLt
  omega

theorem toInt_eq {b : BitVec 32} (h : b.toNat < 2 ^ 31) : b.toInt = b.toNat :=
  BitVec.toInt_eq_toNat_of_lt (by omega)

theorem Sound.start : Sound ({} : Reconnect C) 0 where
  count := rfl
  attempts := rfl
  loaded := Nat.le_refl _
  loop pending i h := by cases h
  woken _ h := absurd h (Nat.not_lt_zero _)

/-- **An operation of the thread.** -/
theorem Sound.go {s s' : Reconnect C} {done : Nat} (S : Sound s done) (hmoderate : s.Moderate)
    (h : s.go = some s') : ∃ done', Sound s' done' := by
  unfold Reconnect.go at h
  have hattempts := S.attempts
  have hloaded := S.loaded
  have hwoken := S.woken
  cases hthread : s.thread with
  | testRunning =>
    rw [hthread] at h hattempts hloaded hwoken
    obtain rfl := Option.some.inj h
    refine ⟨done, ?_⟩
    cases s.running with
    | true => exact ⟨S.count, hattempts, hloaded, fun _ _ h => (by cases h), hwoken⟩
    | false => exact ⟨S.count, hattempts, hloaded, fun _ _ h => (by cases h), fun h => (by cases h)⟩
  | acquire =>
    rw [hthread] at h hattempts hloaded
    obtain ⟨-, heq⟩ := Option.ite_none_right_eq_some.mp h
    obtain rfl := Option.some.inj heq
    exact ⟨done, S.count, hattempts, hloaded, fun _ _ h => (by cases h), fun h => (by cases h)⟩
  | checkRunning =>
    rw [hthread] at h hattempts hloaded
    obtain rfl := Option.some.inj h
    refine ⟨done, ?_⟩
    cases s.running <;>
      exact ⟨S.count, hattempts, hloaded, fun _ _ h => (by cases h), fun h => (by cases h)⟩
  | delay =>
    rw [hthread] at h hattempts hloaded
    obtain rfl := Option.some.inj h
    exact ⟨done, S.count, hattempts, hloaded, fun _ _ h => (by cases h), fun h => (by cases h)⟩
  | load =>
    rw [hthread] at h hattempts hloaded
    have hlt : s.triggers < done + 2 ^ 31 := by
      have := hmoderate hthread
      rwa [hattempts] at this
    have hcount := count_eq S.count hloaded hlt
    have hint := toInt_eq (b := s.pendingConnectCount) (by omega)
    have hdone : done ≤ s.triggers := hloaded
    obtain rfl := Option.some.inj h
    refine ⟨done, ?_⟩
    split
    · -- all requests are loaded
      refine ⟨S.count, hattempts, ?_, fun pending i hpost => ?_, fun _ hmore => ?_⟩
      · show done + s.pendingConnectCount.toNat ≤ s.triggers
        omega
      · cases hpost
        omega
      · have hmore : done + s.pendingConnectCount.toNat < s.triggers := hmore
        omega
    · -- there is none
      refine ⟨S.count, hattempts, hloaded, fun _ _ h => (by cases h), fun _ hmore => ?_⟩
      have hmore : done + 0 < s.triggers := hmore
      omega
  | post pending i =>
    rw [hthread] at h hattempts hloaded hwoken
    have hloop := S.loop pending i hthread
    have hint := toInt_eq hloop.2
    dsimp only at h
    split at h
    · obtain rfl := Option.some.inj h
      refine ⟨done, S.count, ?_, hloaded, fun pending' i' hpost => ?_, hwoken⟩
      · show s.attempts + 1 = done + (i + 1)
        rw [hattempts]
        rfl
      · cases hpost
        omega
    · obtain rfl := Option.some.inj h
      refine ⟨done, S.count, ?_, hloaded, fun _ _ h => (by cases h), hwoken⟩
      show s.attempts = done + pending.toNat
      rw [hattempts]
      show done + i = done + pending.toNat
      omega
  | subtract pending =>
    rw [hthread] at h hattempts hloaded hwoken
    obtain rfl := Option.some.inj h
    refine ⟨done + pending.toNat, ?_, hattempts, hloaded, fun _ _ h => (by cases h), fun _ => hwoken rfl⟩
    have hcount := S.count
    show s.pendingConnectCount - pending + BitVec.ofNat 32 (done + pending.toNat) = _
    rw [BitVec.ofNat_add, BitVec.ofNat_toNat, BitVec.setWidth_eq, BitVec.add_comm (BitVec.ofNat 32 done),
      ← BitVec.add_assoc, BitVec.sub_add_cancel]
    exact hcount
  | stopped =>
    rw [hthread] at h
    cases h

/-- **Every step.** -/
theorem Sound.step {s s' : Reconnect C} {done : Nat} (S : Sound s done) (hmoderate : s.Moderate)
    {a : ReconnectAct C} (h : s.step a = some s') : ∃ done', Sound s' done' := by
  cases a with
  | trigger c =>
    obtain ⟨-, heq⟩ := Option.ite_none_left_eq_some.mp h
    obtain rfl := Option.some.inj heq
    refine ⟨done, ?_, S.attempts, Nat.le_succ_of_le S.loaded, S.loop, fun _ _ => .inr ⟨c, update_self _ _ _⟩⟩
    show s.pendingConnectCount + 1#32 + BitVec.ofNat 32 done = BitVec.ofNat 32 (s.triggers + 1)
    rw [BitVec.add_assoc, BitVec.add_comm 1#32, ← BitVec.add_assoc, S.count, BitVec.ofNat_add]
  | release c =>
    obtain ⟨-, heq⟩ := Option.ite_none_right_eq_some.mp h
    obtain rfl := Option.some.inj heq
    exact ⟨done, S.count, S.attempts, S.loaded, S.loop, fun _ _ => .inl rfl⟩
  | stop =>
    obtain ⟨-, heq⟩ := Option.ite_none_right_eq_some.mp h
    obtain rfl := Option.some.inj heq
    exact ⟨done, S.count, S.attempts, S.loaded, S.loop, S.woken⟩
  | releaseStop =>
    obtain ⟨-, heq⟩ := Option.ite_none_right_eq_some.mp h
    obtain rfl := Option.some.inj heq
    exact ⟨done, S.count, S.attempts, S.loaded, S.loop, fun _ _ => .inl rfl⟩
  | go => exact S.go hmoderate h

/-- **Every run.** -/
theorem sound {s : Reconnect C} (h : Reachable (moderate C) s) : ∃ done, Sound s done := by
  induction h with
  | start h0 =>
    obtain rfl := h0
    exact ⟨0, .start⟩
  | step _ hn ih =>
    obtain ⟨done, S⟩ := ih
    obtain ⟨a, ha⟩ := hn.1
    exact S.step hn.2 ha

/-- **No request is lost or repeated**: when the reconnect thread is blocked and no call of
    `TriggerReconnect` is in progress, nothing is pending and there has been one attempt for each call. -/
theorem reconnect_exact {s : Reconnect C} (h : Reachable (moderate C) s) (hblocked : s.thread = .acquire)
    (hsignal : s.signal = false) (hquiet : ∀ c, s.signalling c = false) :
    s.pendingConnectCount = 0#32 ∧ s.attempts = s.triggers := by
  obtain ⟨done, S⟩ := sound h
  have hattempts := S.attempts
  have hloaded := S.loaded
  have hwoken := S.woken
  rw [hblocked] at hattempts hloaded hwoken
  have hdone : done = s.triggers := by
    refine Nat.le_antisymm hloaded (Nat.le_of_not_lt fun hmore => ?_)
    rcases hwoken rfl hmore with h' | ⟨c, hc⟩
    · rw [hsignal] at h'
      cases h'
    · rw [hquiet c] at hc
      cases hc
  refine ⟨?_, hattempts.trans hdone⟩
  have hcount := count_eq S.count hloaded (by omega)
  exact BitVec.eq_of_toNat_eq (by rw [hcount]; show s.triggers - done = 0; omega)

/-! ## Two runs -/

theorem next_of_step (s : Reconnect C) (a : ReconnectAct C) (s' : Reconnect C) (h : s.step a = some s') :
    (system C).next s s' := ⟨a, h⟩

theorem moderate_next (s : Reconnect Unit) (a : ReconnectAct Unit) (s' : Reconnect Unit)
    (h : gate step (fun s _ => s.thread != .load || decide (s.triggers < s.attempts + 2 ^ 31)) s a = some s') :
    (moderate Unit).next s s' := by
  refine next_of_gate next_of_step (fun s s' hs hload => ?_) s a s' h
  simpa [hload] using hs

/-- A request comes while the thread is in its loop for another one. -/
theorem reconnect_exact_two : ∃ s : Reconnect Unit, Reachable (moderate Unit) s ∧ s.triggers = 2 ∧
    s.pendingConnectCount = 0#32 ∧ s.attempts = s.triggers := by
  have hinit : (moderate Unit).init {} := rfl
  obtain ⟨s, hr, hp⟩ := exists_reachable_of_exec hinit moderate_next
    ([.go, .trigger (), .release ()] ++ .replicate 5 .go ++ [.trigger (), .release ()] ++ .replicate 11 .go)
    (fun s => decide (s.thread = .acquire ∧ s.signal = false ∧ s.signalling () = false ∧ s.triggers = 2))
    (by decide)
  obtain ⟨hblocked, hsignal, hquiet, htwo⟩ := of_decide_eq_true hp
  exact ⟨s, hr, htwo, reconnect_exact hr hblocked hsignal fun _ => hquiet⟩

/-- The thread has not started yet, and `n` requests have been made. -/
def requested (n : Nat) : Reconnect Unit :=
  { pendingConnectCount := BitVec.ofNat 32 n, signal := n != 0, triggers := n }

theorem requested_reachable (n : Nat) : Reachable (system Unit) (requested n) := by
  induction n with
  | zero => exact .start rfl
  | succ n ih =>
    have hset : ∀ f : Unit → Bool, update (update f () true) () false = fun _ => false := by
      intro f
      funext c
      exact update_self _ _ _
    refine reachable_of_exec next_of_step [.trigger (), .release ()] ih ?_
    show some _ = some (requested (n + 1))
    simp only [requested, BitVec.ofNat_add, hset]
    rfl

/-- **Too many requests**: 2 ^ 31 are made before the thread loads the count, which is negative then; the
    thread is blocked again, nothing is in progress, and nothing has been attempted. -/
theorem too_many_pending : ∃ s : Reconnect Unit, Reachable (system Unit) s ∧ s.thread = .acquire ∧
    s.signal = false ∧ (∀ c, s.signalling c = false) ∧ s.triggers = 2 ^ 31 ∧ s.attempts = 0 ∧
    s.pendingConnectCount ≠ 0#32 := by
  refine ⟨{ requested (2 ^ 31) with thread := .acquire, signal := false }, ?_, rfl, rfl, fun _ => rfl, rfl, rfl,
    by decide⟩
  exact reachable_of_exec next_of_step (List.replicate 6 .go) (requested_reachable (2 ^ 31)) rfl

end Reconnect

end JunCore.Network
