/-
  `JunCore/log.cpp`: `Logger::Shutdown`, and what becomes of the messages in the ring.

  The logger thread tests `shouldStop` at the top of its loop only, and ends there; it processes at most
  100 messages between two tests, and none after the last one (`log_lost`; `JobThread::Run` drains its
  queue after its loop, and without the thread, `LogSync` writes each message at once).  A second call of
  `Shutdown` finds `shutdown_called` set and returns while the first one still waits.
-/
import JunCore.Common.AsyncLog

set_option linter.unusedVariables false
set_option linter.unusedSectionVars false

namespace JunCore.LogShutdown

open Transition Function AsyncLog

variable {T : Type} [DecidableEq T]

/-! ## What is to hold -/

/-- The messages with these numbers were processed. -/
def Processed (g : Shared) (returned : List Nat) : Prop := ∀ w ∈ returned, w < g.processed.length

/-- **Shutdown keeps the log**: where a call of `Shutdown` returns, the messages whose `LogAsync` had
    returned before it was called have been processed; and each message once, in order. -/
structure Keeps (s : Sys T) : Prop where
  once : s.shared.processed = (s.shared.accepted.take s.shared.processed.length).map message
  all : ∀ (t : T) (returned : List Nat), s.threads t = .back returned → Processed s.shared returned

/-- A call of `Shutdown` that waits for the logger thread, or will. -/
def stopping : Pc → Option (List Nat)
  | .setCalled returned | .storeStop returned | .join returned => some returned
  | _ => none

/-- A call of `Shutdown` at its first test. -/
def testing : Pc → Option (List Nat)
  | .testCalled returned => some returned
  | _ => none

/-- Nothing is left for whoever shuts down when the logger thread finds `shouldStop` set, and nothing for
    a call that finds `shutdown_called` set. -/
def Drained (s s' : Sys T) : Prop :=
  (s.reader = .test → s'.reader = .ended →
    ∀ t, ∀ returned ∈ stopping (s.threads t), Processed s.shared returned) ∧
  ∀ t, ∀ returned ∈ testing (s.threads t), s'.threads t = .back returned → Processed s.shared returned

/-! ## What the steps do -/

/-- Not in `Shutdown`. -/
def Logs (pc : Pc) : Prop := stopping pc = none ∧ ∀ returned, pc ≠ .back returned

inductive Shuts (g : Shared) (reader : Reader) : Pc → Shared → Pc → Prop
  | logs {pc pc' : Pc} {g' : Shared} (h : Logs pc') (hstop : g'.shouldStop = g.shouldStop)
      (hcalled : g'.shutdownCalled = g.shutdownCalled) : Shuts g reader pc g' pc'
  | early (returned : List Nat) : Shuts g reader (.testCalled returned) g (.back returned)
  | first (returned : List Nat) (h : g.shutdownCalled = false) :
      Shuts g reader (.testCalled returned) g (.setCalled returned)
  | call (returned : List Nat) :
      Shuts g reader (.setCalled returned) { g with shutdownCalled := true } (.storeStop returned)
  | stop (returned : List Nat) :
      Shuts g reader (.storeStop returned) { g with shouldStop := true } (.join returned)
  | join (returned : List Nat) (h : reader = .ended) :
      Shuts g reader (.join returned) g (.back returned)

theorem go_shuts {g g' : Shared} {reader : Reader} {ok : Bool} {pc pc' : Pc}
    (h : pc.go g reader ok = some (g', pc')) : Shuts g reader pc g' pc' := by
  cases pc with
  | idle => cases h
  | loadRead r w | cas r w =>
    have h := Option.some.inj h
    split at h
    · obtain ⟨rfl, rfl⟩ := Prod.mk.inj h
      exact .logs ⟨rfl, fun _ h => by cases h⟩ rfl rfl
    · obtain ⟨rfl, rfl⟩ := Prod.mk.inj h
      exact .logs ⟨rfl, fun _ h => by cases h⟩ rfl rfl
  | loadWrite r | setLevel r w | formatPrefix r w | format r w | newline r w | setValid r w | back returned =>
    obtain ⟨rfl, rfl⟩ := Prod.mk.inj (Option.some.inj h)
    exact .logs ⟨rfl, fun _ h => by cases h⟩ rfl rfl
  | testCalled returned =>
    have h := Option.some.inj h
    split at h
    · obtain ⟨rfl, rfl⟩ := Prod.mk.inj h
      exact .early returned
    · obtain ⟨rfl, rfl⟩ := Prod.mk.inj h
      exact .first returned (Bool.eq_false_iff.mpr ‹_›)
  | setCalled returned =>
    obtain ⟨rfl, rfl⟩ := Prod.mk.inj (Option.some.inj h)
    exact .call returned
  | storeStop returned =>
    obtain ⟨rfl, rfl⟩ := Prod.mk.inj (Option.some.inj h)
    exact .stop returned
  | join returned =>
    simp only [Pc.go] at h
    split at h
    · obtain ⟨rfl, rfl⟩ := Prod.mk.inj (Option.some.inj h)
      exact .join returned ‹_›
    · cases h

theorem go_processed {g g' : Shared} {reader : Reader} {ok : Bool} {pc pc' : Pc}
    (h : pc.go g reader ok = some (g', pc')) : g'.processed = g.processed := by
  cases Pc.go_moves h <;> rfl

theorem step_cases {s s' : Sys T} {a : Act T} (h : step s a = some s') :
    (∃ t g pc, Shuts s.shared s.reader (s.threads t) g pc ∧ g.processed = s.shared.processed ∧
      s' = { s with shared := g, threads := update s.threads t pc }) ∨
    ∃ g rd, s.reader.go s.shared = some (g, rd) ∧ s' = { s with shared := g, reader := rd } := by
  cases a with
  | log t r | shutdown t =>
    simp only [step] at h
    split at h
    · obtain rfl := Option.some.inj h
      exact .inl ⟨t, s.shared, _, .logs ⟨rfl, fun _ h => by cases h⟩ rfl rfl, rfl, rfl⟩
    · cases h
  | go t ok =>
    obtain ⟨⟨g, pc⟩, hgo, rfl⟩ := Option.map_eq_some_iff.mp h
    exact .inl ⟨t, g, pc, go_shuts hgo, go_processed hgo, rfl⟩
  | reader =>
    obtain ⟨⟨g, rd⟩, hgo, rfl⟩ := Option.map_eq_some_iff.mp h
    exact .inr ⟨g, rd, hgo, rfl⟩

/-- Its `shutdown_called = true` is done. -/
def Called : Pc → Prop
  | .storeStop _ | .join _ => True
  | _ => False

/-- **The invariant.**  When the logger thread has ended, no call can pass its first test any more. -/
structure Stops (s : Sys T) : Prop where
  called : s.shared.shouldStop = true → s.shared.shutdownCalled = true
  past : ∀ t, Called (s.threads t) → s.shared.shutdownCalled = true
  ended : s.reader = .ended → s.shared.shouldStop = true ∧
    ∀ t returned, stopping (s.threads t) = some returned → Processed s.shared returned
  back : ∀ t returned, s.threads t = .back returned → Processed s.shared returned

theorem Stops.thread {s : Sys T} (I : Stops s) {t : T} {g : Shared} {pc : Pc}
    (hprocessed : g.processed = s.shared.processed) (hstop : s.shared.shouldStop = true → g.shouldStop = true)
    (hcalled : s.shared.shutdownCalled = true → g.shutdownCalled = true)
    (hflags : g.shouldStop = true → g.shutdownCalled = true) (hpast : Called pc → g.shutdownCalled = true)
    (hended : s.reader = .ended → ∀ returned, stopping pc = some returned → Processed s.shared returned)
    (hback : ∀ returned, pc = .back returned → Processed s.shared returned) :
    Stops { s with shared := g, threads := update s.threads t pc } := by
  have hsame : ∀ returned, Processed s.shared returned → Processed g returned := by
    intro returned h w hw
    rw [hprocessed]
    exact h w hw
  refine ⟨hflags, fun u hu => ?_, fun hr => ⟨hstop (I.ended hr).1, fun u returned hu => ?_⟩,
    fun u returned hu => ?_⟩
  · dsimp only at hu
    rw [update_apply] at hu
    split at hu
    · exact hpast hu
    · exact hcalled (I.past u hu)
  · dsimp only at hu
    rw [update_apply] at hu
    split at hu
    · exact hsame _ (hended hr returned hu)
    · exact hsame _ ((I.ended hr).2 u returned hu)
  · dsimp only at hu
    rw [update_apply] at hu
    split at hu
    · exact hsame _ (hback returned hu)
    · exact hsame _ (I.back u returned hu)

/-- What is in the ring when the logger thread ends stays there. -/
theorem ended_processed {s s' : Sys T} (hr : s.reader = .ended) (h : Reachable ((logger T).after s) s') :
    s'.reader = .ended ∧ s'.shared.processed = s.shared.processed := by
  refine h.invariant (I := fun s' => s'.reader = .ended ∧ s'.shared.processed = s.shared.processed)
    (fun s' h0 => ?_) fun s₁ s₂ _ I hn => ?_
  · obtain rfl : s' = s := h0
    exact ⟨hr, rfl⟩
  · obtain ⟨a, ha⟩ := hn
    rcases step_cases ha with ⟨t, g, pc, _, hprocessed, rfl⟩ | ⟨g, reader, hgo, rfl⟩
    · exact ⟨I.1, hprocessed.trans I.2⟩
    · rw [I.1] at hgo
      cases hgo

instance (g : Shared) (returned : List Nat) : Decidable (Processed g returned) :=
  inferInstanceAs (Decidable (∀ w ∈ returned, _))

instance [Fintype T] (s s' : Sys T) : Decidable (Drained s s') :=
  inferInstanceAs (Decidable ((_ → _ → ∀ t, ∀ returned ∈ _, _) ∧ ∀ t, ∀ returned ∈ _, _ → _))

/-- A message is logged. -/
def logging : List (Act Unit) := .log () hello :: .replicate 8 (.go () true)

end JunCore.LogShutdown
