/-
  No lost wakeup.

  `Flush` clears `m_processing` only after a failed `Dequeue`, and then looks at the counter of
  `m_jobQueue` again.  A job may be linked anywhere in between, and the counter lags behind the
  links, so the re-check alone does not close the gap.  What does is the sum of both sides:

  * `View.lag` — the queue holds as many jobs as its counter shows, plus one for each poster
    between its link and its increment, plus one for each `Dequeue` between its decrement and
    what follows it;
  * `Awake` — while `m_processing` is clear and a job waits, somebody is still on the way to the
    CAS: a poster that has linked its job, or a `Flush` that has not finished its re-check.

  The interesting step is the counter test of the re-check.  It reads zero although a job waits
  only if a poster has not counted its job yet, and that poster's CAS comes after its count.
-/
import JunCore.Logic.Token

set_option linter.unusedVariables false
set_option linter.unusedSectionVars false

namespace JunCore.Logic

open Transition Function Counting

variable {T P O J W K : Type} [DecidableEq T] [DecidableEq P] [DecidableEq O]

/-! ## How far the counter lags -/

/-- A `PostJob` between the link of its job and the increment. -/
def counting : Option (PostCall T J) → Nat
  | some ⟨_, .count _⟩ => 1
  | _ => 0

/-- A `Dequeue` of `m_jobQueue` between its decrement and the unlink, or the increment that takes
    the decrement back. -/
def dequeuing : Option (Phase T O J) → Nat
  | some (.jobDequeueFail _) | some (.jobUnlink _) => 1
  | _ => 0

/-- A dequeuing thread drains the object. -/
theorem dequeuing_le_drains (x : Option (Phase T O J)) : dequeuing x ≤ drains x := by
  cases x with
  | none => exact Nat.le_refl 0
  | some ph =>
    cases ph with
    | jobDequeueFail old | jobUnlink old => exact Nat.le_refl 1
    | _ => exact Nat.zero_le _

theorem postStep_lag (c : Cell T J) (f : PostCall T J) :
    ((postStep c f).1.jobQueue.items.length : Int) + c.jobQueue.nodeCount + counting (some f)
      = c.jobQueue.items.length + (postStep c f).1.jobQueue.nodeCount
        + counting (postStep c f).2.1 := by
  obtain ⟨j, pc⟩ := f
  cases pc with
  | loadMarked => cases hm : c.markedForDelete <;> simp [postStep, hm, counting]
  | link => simp [postStep, counting]; omega
  | count n => simp [postStep, counting]; omega
  | cas n => cases hp : c.processing <;> simp [postStep, hp, counting]
  | register n r => cases r <;> simp [postStep, RegPC.step, counting]

theorem flushStep_lag (is : List (Instr T O J)) (c : Cell T J) {ph : Phase T O J}
    (h : ph ≠ .delete) :
    ((flushStep is c ph).cell.jobQueue.items.length : Int) + c.jobQueue.nodeCount
        + dequeuing (some ph)
      = c.jobQueue.items.length + (flushStep is c ph).cell.jobQueue.nodeCount
        + dequeuing (flushStep is c ph).phase := by
  cases ph with
  | delete => exact absurd rfl h
  | jobDequeue old =>
    simp only [flushStep]
    split <;> simp [dequeuing] <;> omega
  | jobDequeueFail old => simp [flushStep, dequeuing]; omega
  | jobUnlink old =>
    cases hq : c.jobQueue.items with
    | nil => simp [flushStep, hq, dequeuing]
    | cons e rest => simp [flushStep, hq, dequeuing]; omega
  | running old n is' =>
    cases is' using Instr.list_cases with
    | nil | setJobThread t rest | markForDelete rest | postJob o j rest =>
      simp [flushStep, dequeuing]
  | recheckCas => cases hp : c.processing <;> simp [flushStep, hp, dequeuing]
  | handOver r | reRegister r => cases r <;> simp [flushStep, RegPC.step, dequeuing]
  | flushLoadMarked | afterJob old | checkThread old | loadCount | checkMarked =>
    simp only [flushStep]
    split <;> simp [dequeuing]
  | loadOldThread | jobStart old e | storeFalse => simp [flushStep, dequeuing]

/-! ## The invariant -/

/-- A `PostJob` that has linked its job and is on its way to the CAS. -/
def PostPC.rousing : PostPC T → Prop
  | .count _ | .cas _ => True
  | _ => False

/-- A `Flush` that has stored `false` and is on its way through the re-check. -/
def Phase.rechecking : Phase T O J → Prop
  | .loadCount | .recheckCas => True
  | _ => False

/-- Somebody is going to look at `m_processing`. -/
def View.roused (v : View T P O J) : Prop :=
  (∃ a f, v.frame a = some f ∧ f.pc.rousing) ∨ ∃ t ph, v.loop t = some ph ∧ ph.rechecking

variable [Fintype T] [Fintype P]

/-- How many operations on `m_jobQueue` are between their two halves. -/
def View.lag (v : View T P O J) : Nat := total counting v.frame + total dequeuing v.loop

/-- **The wakeup invariant** of one object. -/
structure Awake (v : View T P O J) : Prop where
  count : v.cell.markedForDelete = false →
    (v.cell.jobQueue.items.length : Int) = v.cell.jobQueue.nodeCount + v.lag
  wake : v.cell.markedForDelete = false → v.cell.processing = false →
    v.cell.jobQueue.items ≠ [] → v.roused

namespace Awake

theorem initial (t : T) : Awake (View.initial t : View T P O J) where
  count _ := by
    have h₁ : total counting (View.initial t : View T P O J).frame = 0 := total_eq_zero fun _ => rfl
    have h₂ : total dequeuing (View.initial t : View T P O J).loop = 0 := total_eq_zero fun _ => rfl
    rw [View.lag, h₁, h₂]
    rfl
  wake _ _ h := absurd rfl h

theorem enter {v : View T P O J} (A : Awake v) {a : T ⊕ P} (h : v.frame a = none) (j : J) :
    Awake (v.enter a j) where
  count hu := by
    have hsum := total_update counting v.frame a (some (.enter j))
    rw [h] at hsum
    have hlag : (v.enter a j).lag = v.lag := by
      show total counting (update v.frame a (some (.enter j))) + total dequeuing v.loop = _
      rw [View.lag]
      simp only [counting, PostCall.enter] at hsum ⊢
      omega
    rw [hlag]
    exact A.count hu
  wake hu hp hne := by
    rcases A.wake hu hp hne with ⟨a', f, hf, hr⟩ | hloop
    · have ha : a' ≠ a := by
        rintro rfl
        rw [h] at hf; cases hf
      exact .inl ⟨a', f, by simpa [View.enter, ha] using hf, hr⟩
    · exact .inr hloop

theorem take {v : View T P O J} (A : Awake v) {t : T} (h : v.loop t = none) :
    Awake (v.take t) where
  count hu := by
    have hsum := total_update dequeuing v.loop t (some .flushLoadMarked)
    rw [h] at hsum
    have hlag : (v.take t).lag = v.lag := by
      show total counting v.frame + total dequeuing (update v.loop t (some .flushLoadMarked)) = _
      rw [View.lag]
      simp only [dequeuing] at hsum
      omega
    rw [hlag]
    exact A.count hu
  wake hu hp hne := by
    rcases A.wake hu hp hne with hframe | ⟨t', ph, hl, hr⟩
    · exact .inl hframe
    · have ht : t' ≠ t := by
        rintro rfl
        rw [h] at hl; cases hl
      exact .inr ⟨t', ph, by simpa [View.take, ht] using hl, hr⟩

/-- A poster that has not linked its job yet is about to, or has nothing to do with the queue; one
    that has stays on its way until its CAS finds the flag set or sets it. -/
theorem wake_postStep (c : Cell T J) (f : PostCall T J)
    (hp : (postStep c f).1.processing = false)
    (hne : (postStep c f).1.jobQueue.items ≠ []) :
    (∃ f', (postStep c f).2.1 = some f' ∧ f'.pc.rousing) ∨
      c.processing = false ∧ c.jobQueue.items ≠ [] ∧ ¬ f.pc.rousing := by
  obtain ⟨j, pc⟩ := f
  cases pc with
  | loadMarked =>
    right
    cases hm : c.markedForDelete <;> simp_all [postStep, PostPC.rousing]
  | link | count n => exact .inl ⟨_, rfl, trivial⟩
  | cas n => cases hc : c.processing <;> simp [postStep, hc] at hp
  | register n r => right; cases r <;> exact ⟨hp, hne, id⟩

theorem post {v : View T P O J} (A : Awake v) {a : T ⊕ P} {f : PostCall T J}
    (h : v.frame a = some f) : Awake (v.post a f) := by
  have hm := (postStep_keeps v.cell f).2
  exact {
    count := by
      intro hu
      have hold := A.count (hm ▸ hu)
      have hsum := total_update counting v.frame a (postStep v.cell f).2.1
      have hstep := postStep_lag v.cell f
      rw [h] at hsum
      show ((postStep v.cell f).1.jobQueue.items.length : Int)
        = (postStep v.cell f).1.jobQueue.nodeCount
          + (total counting (update v.frame a (postStep v.cell f).2.1) + total dequeuing v.loop : Nat)
      rw [View.lag] at hold
      omega
    wake := by
      intro hu hp hne
      rcases wake_postStep v.cell f hp hne with ⟨f', hf', hr⟩ | ⟨hp', hne', hnot⟩
      · exact .inl ⟨a, f', by simpa [View.post] using hf', hr⟩
      · rcases A.wake (hm ▸ hu) hp' hne' with ⟨a', f', hf', hr⟩ | hloop
        · have ha : a' ≠ a := by
            rintro rfl
            rw [h] at hf'; cases hf'
            exact hnot hr
          exact .inl ⟨a', f', by simpa [View.post, ha] using hf', hr⟩
        · exact .inr hloop }

/-- The ways a step of `Flush` can leave a clear flag over a queue that is not empty. -/
theorem wake_flushStep (is : List (Instr T O J)) (c : Cell T J) {ph : Phase T O J}
    (hp : (flushStep is c ph).cell.processing = false)
    (hne : (flushStep is c ph).cell.jobQueue.items ≠ []) :
    (∃ ph', (flushStep is c ph).phase = some ph' ∧ ph'.rechecking) ∨
      ph = .loadCount ∧ c.jobQueue.nodeCount ≤ 0 ∧ c.jobQueue.items ≠ [] ∨
      c.processing = false ∧ c.jobQueue.items ≠ [] ∧ ¬ ph.rechecking := by
  cases ph with
  | storeFalse => exact .inl ⟨_, rfl, trivial⟩
  | loadCount =>
    by_cases hc : c.jobQueue.getUseCount > 0
    · exact .inl ⟨.recheckCas, by simp [flushStep, hc], trivial⟩
    · exact .inr (.inl ⟨rfl, Int.not_lt.mp hc, hne⟩)
  | recheckCas => cases hc : c.processing <;> simp [flushStep, hc] at hp
  | jobUnlink old =>
    right; right
    cases hq : c.jobQueue.items with
    | nil => simp [flushStep, hq] at hne
    | cons e rest => exact ⟨by simpa [flushStep, hq] using hp, by simp, id⟩
  | delete => exact absurd rfl hne
  | running old n is' =>
    right; right
    cases is' using Instr.list_cases with
    | nil | setJobThread t rest | markForDelete rest | postJob o j rest =>
      exact ⟨hp, hne, id⟩
  | _ => exact .inr (.inr ⟨hp, hne, id⟩)

theorem flush {v : View T P O J} (I : Owned v) (A : Awake v) {t : T} {ph : Phase T O J}
    (h : v.loop t = some ph) (is : List (Instr T O J)) : Awake (v.flush t is ph) := by
  exact {
    count := by
      intro hu
      have hold := A.count (unmarked_of_flushStep hu)
      have hsum := total_update dequeuing v.loop t (flushStep is v.cell ph).phase
      have hdel : ph ≠ .delete := by
        rintro rfl
        have hmarked : v.cell.markedForDelete = true := I.loop t _ h
        rw [unmarked_of_flushStep hu] at hmarked
        cases hmarked
      have hstep := flushStep_lag is v.cell hdel
      rw [h] at hsum
      show ((flushStep is v.cell ph).cell.jobQueue.items.length : Int)
        = (flushStep is v.cell ph).cell.jobQueue.nodeCount
          + (total counting v.frame
              + total dequeuing (update v.loop t (flushStep is v.cell ph).phase) : Nat)
      rw [View.lag] at hold
      omega
    wake := by
      intro hu hp hne
      rcases wake_flushStep is v.cell hp hne with ⟨ph', hl', hr⟩ | ⟨rfl, hzero, hne'⟩ |
        ⟨hp', hne', hnot⟩
      · exact .inr ⟨t, ph', by simpa [View.flush] using hl', hr⟩
      · -- the counter is behind, and not because of a `Dequeue`: nobody drains during a re-check
        have hcount := A.count (unmarked_of_flushStep hu)
        have hlen : 0 < v.cell.jobQueue.items.length := List.length_pos_iff.mpr hne'
        have hdeq : total dequeuing v.loop = 0 := total_eq_zero fun t' => by
          have h₁ := dequeuing_le_drains (v.loop t')
          have h₂ := I.apart t t' .loadCount h trivial
          omega
        rw [View.lag] at hcount
        obtain ⟨a, ha⟩ := exists_of_total_pos (f := counting) (g := v.frame) (by omega)
        cases hf : v.frame a with
        | none => rw [hf] at ha; cases ha
        | some f =>
          obtain ⟨j, pc⟩ := f
          rw [hf] at ha
          cases pc with
          | count n => exact .inl ⟨a, _, hf, trivial⟩
          | _ => cases ha
      · rcases A.wake (unmarked_of_flushStep hu) hp' hne' with hframe | ⟨t', ph', hl', hr⟩
        · exact .inl hframe
        · have ht : t' ≠ t := by
            rintro rfl
            rw [h] at hl'; cases hl'
            exact hnot hr
          exact .inr ⟨t', ph', by simpa [View.flush, ht] using hl', hr⟩ }

/-- **The step lemma.** -/
theorem step {v v' : View T P O J} (I : Owned v) (A : Awake v) (h : View.Step v v') : Awake v' := by
  cases h with
  | enter a j h => exact A.enter h j
  | post a f h => exact A.post h
  | take t h hq => exact A.take h
  | flush t is ph h => exact A.flush I h is
  | selfCall t is ph j h hf _ => exact (A.flush I h is).enter hf j

end Awake

/-- **The run lemma.** -/
theorem Awake.of_reachable {t : T} {v : View T P O J} (h : Reachable (View.system t) v) : Awake v := by
  apply h.invariant (I := Awake)
  · rintro v rfl
    exact .initial t
  · intro v v' hr A hs
    exact A.step (.of_reachable hr) hs

end JunCore.Logic
