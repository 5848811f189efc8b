/-
  `JunCommon/timer/SlidingWindowCounter.h`: values counted by the second, in a ring of sixty slots.

  Before a value is added the window moves on by the whole seconds that have passed since
  `last_update_ms_`, which is then set to the present, and with it the part of a second that was not
  counted is gone.  So the counter's own clock runs late, and by half if the calls come every 1999 ms.
  An average therefore never misses a value that is young enough (`Log.inWindow_of_within`), but it may
  count values that are too old (`counted_too_old`).

  A time is a number of milliseconds and never goes back; a call reads the clock once.  A value is a
  natural number: sums are exact.
-/
import JunCore.Lib.Buckets
import Mathlib.Algebra.Order.Ring.Rat
import Mathlib.Data.Nat.Cast.Order.Ring
import Mathlib.Data.List.Chain

set_option linter.unusedVariables false

namespace JunCore.Common

open Buckets Function

/-! ## The counter -/

def maxSamples : Nat := 60

structure TimeWindowCounter where
  samples : Nat → Nat := fun _ => 0
  writePos : Nat := 0
  lastUpdateMs : Nat

namespace TimeWindowCounter

/-- `static_cast<int>(elapsed_ms / 1000)` -/
def getElapsedSeconds (c : TimeWindowCounter) (now : Nat) : Int :=
  (BitVec.ofNat 32 ((now - c.lastUpdateMs) / 1000)).toInt

/-- One turn of the loop of `advance_time_window`. -/
def nextSlot (c : TimeWindowCounter) : TimeWindowCounter :=
  let pos := (c.writePos + 1) % maxSamples
  { c with writePos := pos, samples := update c.samples pos 0 }

def nextSlots (c : TimeWindowCounter) : Nat → TimeWindowCounter
  | 0 => c
  | k + 1 => (c.nextSlots k).nextSlot

def advanceTimeWindow (c : TimeWindowCounter) (now : Nat) : TimeWindowCounter :=
  let elapsed := c.getElapsedSeconds now
  if 1 ≤ elapsed then { c.nextSlots (min elapsed.toNat maxSamples) with lastUpdateMs := now } else c

/-- `samples_[write_pos_] += value` -/
def addSample (c : TimeWindowCounter) (value : Nat) : TimeWindowCounter :=
  { c with samples := update c.samples c.writePos (c.samples c.writePos + value) }

def record (c : TimeWindowCounter) (now value : Nat) : TimeWindowCounter :=
  (c.advanceTimeWindow now).addSample value

/-- `samples_[(write_pos_ - i + max_samples) % max_samples]`.  The index is not negative, as long as
    `i` is at most sixty. -/
def sampleAt (c : TimeWindowCounter) (i : Nat) : Nat :=
  c.samples (((c.writePos : Int) - i + maxSamples).tmod maxSamples).toNat

def getAverage (c : TimeWindowCounter) (now : Nat) (seconds : Int) : ℚ :=
  if seconds ≤ 0 ∨ (maxSamples : Int) < seconds then 0
  else
    let timeGap := c.getElapsedSeconds now
    if seconds ≤ timeGap then 0
    else
      let validSeconds := seconds - timeGap
      let total := ((List.range validSeconds.toNat).map c.sampleAt).sum
      (total : ℚ) / seconds

end TimeWindowCounter

/-- A call `record(value)` at a time. -/
structure Record where
  time : Nat
  value : Nat
  deriving DecidableEq

def Record.run (c : TimeWindowCounter) (calls : List Record) : TimeWindowCounter :=
  calls.foldl (fun c r => c.record r.time r.value) c

/-! ## The counter's own clock -/

/-- What the times alone say: when the window last moved, and how far it has come. -/
structure Clock where
  last : Nat
  ticks : Nat
  deriving DecidableEq

namespace Clock

/-- Whole seconds only, and the rest is dropped. -/
def advance (k : Clock) (now : Nat) : Clock :=
  if 1 ≤ (now - k.last) / 1000 then ⟨now, k.ticks + (now - k.last) / 1000⟩ else k

/-- What the clock would show at `now`. -/
def showing (k : Clock) (now : Nat) : Nat := k.ticks + (now - k.last) / 1000

end Clock

/-- A recorded value, when it came and what the counter's clock showed then. -/
structure Stamped where
  time : Nat
  value : Nat
  tick : Nat
  deriving DecidableEq

def clockAfter (k : Clock) (calls : List Record) : Clock :=
  calls.foldl (fun k r => k.advance r.time) k

def stamped (k : Clock) : List Record → List Stamped
  | [] => []
  | r :: rs => ⟨r.time, r.value, (k.advance r.time).ticks⟩ :: stamped (k.advance r.time) rs

/-- No call comes so late that the seconds since the last move of the window are no `int`. -/
def Timely (k : Clock) : List Record → Nat → Prop
  | [], T => (T - k.last) / 1000 < 2 ^ 31
  | r :: rs, T => (r.time - k.last) / 1000 < 2 ^ 31 ∧ Timely (k.advance r.time) rs T

/-! ## What is to hold -/

/-- What was recorded within the last `s` seconds before `T`. -/
def sumWithin (calls : List Record) (T s : Nat) : Nat :=
  weigh Record.value (fun r => T ≤ r.time + 1000 * s) calls

/-- **Sliding window accuracy** of the average over `n` seconds at time `T`, of a counter made at
    time `t₀`: nothing younger than `n - 1` seconds is missing, and nothing older than `n + 1` seconds is
    counted. -/
def Accurate (t₀ : Nat) (calls : List Record) (T n : Nat) : Prop :=
  let c := Record.run { lastUpdateMs := t₀ } calls
  (sumWithin calls T (n - 1) : ℚ) ≤ n * c.getAverage T n ∧
    n * c.getAverage T n ≤ sumWithin calls T (n + 1)

/-- **Nothing stale**: a value that was recorded more than `n + 1` seconds before `T` is at least `n`
    seconds old by the counter's own clock, or is zero. -/
def NothingStale (t₀ : Nat) (calls : List Record) (T n : Nat) : Prop :=
  ∀ e ∈ stamped ⟨t₀, 0⟩ calls, e.time + 1000 * (n + 1) < T → e.value ≠ 0 →
    e.tick + n ≤ (clockAfter ⟨t₀, 0⟩ calls).showing T

/-! ## The ring -/

namespace TimeWindowCounter

theorem getElapsedSeconds_eq {c : TimeWindowCounter} {now : Nat}
    (h : (now - c.lastUpdateMs) / 1000 < 2 ^ 31) :
    c.getElapsedSeconds now = ((now - c.lastUpdateMs) / 1000 : Nat) := by
  rw [getElapsedSeconds, BitVec.toInt_ofNat']
  exact Int.bmod_eq_of_le (by omega) (by omega)

theorem sampleAt_eq {c : TimeWindowCounter} (hpos : c.writePos < maxSamples) {i : Nat} (hi : i < maxSamples) :
    c.sampleAt i = c.samples ((c.writePos + maxSamples - i) % maxSamples) := by
  have hindex : (c.writePos : Int) - i + maxSamples = ((c.writePos + maxSamples - i : Nat) : Int) := by
    omega
  rw [sampleAt, hindex, ← Int.ofNat_tmod, Int.toNat_natCast]

theorem nextSlot_writePos (c : TimeWindowCounter) : c.nextSlot.writePos < maxSamples :=
  Nat.mod_lt _ (by decide)

/-- The slot that was the newest is now the second. -/
theorem nextSlot_sampleAt {c : TimeWindowCounter} (hpos : c.writePos < maxSamples) {i : Nat}
    (hi : i < maxSamples) : c.nextSlot.sampleAt i = if i = 0 then 0 else c.sampleAt (i - 1) := by
  rw [sampleAt_eq c.nextSlot_writePos hi]
  split
  · rename_i hzero
    subst hzero
    simp [nextSlot, maxSamples]
  · rename_i hne
    rw [sampleAt_eq hpos (by omega)]
    have hback : (c.nextSlot.writePos + maxSamples - i) % maxSamples =
        (c.writePos + maxSamples - (i - 1)) % maxSamples := by
      simp only [nextSlot, maxSamples] at hpos hi ⊢
      omega
    rw [hback]
    refine update_of_ne ?_ _ _
    simp only [maxSamples] at hpos hi ⊢
    omega

theorem nextSlots_writePos {c : TimeWindowCounter} (hpos : c.writePos < maxSamples) (k : Nat) :
    (c.nextSlots k).writePos < maxSamples := by
  cases k with
  | zero => exact hpos
  | succ k => exact nextSlot_writePos _

theorem nextSlots_sampleAt {c : TimeWindowCounter} (hpos : c.writePos < maxSamples) (k : Nat) {i : Nat}
    (hi : i < maxSamples) : (c.nextSlots k).sampleAt i = if i < k then 0 else c.sampleAt (i - k) := by
  induction k generalizing i with
  | zero => rfl
  | succ k ih =>
    rw [nextSlots, nextSlot_sampleAt (nextSlots_writePos hpos k) hi]
    split
    · rename_i hzero
      rw [if_pos (by omega)]
    · rename_i hne
      rw [ih (by omega), Nat.sub_sub, Nat.add_comm 1 k]
      have : i - 1 < k ↔ i < k + 1 := by omega
      simp only [this]

/-- What moving the window does, if the seconds that have passed are an `int`. -/
theorem advanceTimeWindow_spec {c : TimeWindowCounter} (hpos : c.writePos < maxSamples) {now : Nat}
    (h : (now - c.lastUpdateMs) / 1000 < 2 ^ 31) {k : Clock} (hlast : c.lastUpdateMs = k.last) :
    (c.advanceTimeWindow now).lastUpdateMs = (k.advance now).last ∧
    (c.advanceTimeWindow now).writePos < maxSamples ∧
    ∀ i < maxSamples, (c.advanceTimeWindow now).sampleAt i =
      if i < (now - k.last) / 1000 then 0 else c.sampleAt (i - (now - k.last) / 1000) := by
  rw [← hlast]
  generalize hs : (now - c.lastUpdateMs) / 1000 = s at h
  have helapsed : c.getElapsedSeconds now = (s : Int) := by rw [getElapsedSeconds_eq (hs ▸ h), hs]
  simp only [advanceTimeWindow, Clock.advance, helapsed, ← hlast, hs]
  by_cases hpassed : 1 ≤ s
  · rw [if_pos (by omega), if_pos hpassed]
    refine ⟨rfl, nextSlots_writePos hpos _, fun i hi => ?_⟩
    have hread := nextSlots_sampleAt hpos (min (s : Int).toNat maxSamples) hi
    -- what has not been moved out is in a slot below sixty, and the loop stops at sixty
    have hturns : i < min (s : Int).toNat maxSamples ↔ i < s := by omega
    refine hread.trans ?_
    by_cases hold : i < s
    · rw [if_pos (hturns.2 hold), if_pos hold]
    · rw [if_neg (mt hturns.1 hold), if_neg hold]
      congr 1
      omega
  · rw [if_neg (by omega), if_neg hpassed]
    refine ⟨hlast, hpos, fun i _ => ?_⟩
    rw [if_neg (by omega)]
    congr 1
    omega

/-- The value goes to the newest slot. -/
theorem addSample_sampleAt {c : TimeWindowCounter} (hpos : c.writePos < maxSamples) (value : Nat) {i : Nat}
    (hi : i < maxSamples) :
    (c.addSample value).sampleAt i = c.sampleAt i + if i = 0 then value else 0 := by
  have hpos' : (c.addSample value).writePos < maxSamples := hpos
  rw [sampleAt_eq hpos' hi, sampleAt_eq hpos hi]
  by_cases hzero : i = 0
  · subst hzero
    have hhere : (c.writePos + maxSamples - 0) % maxSamples = c.writePos := by
      rw [Nat.sub_zero, Nat.add_mod_right, Nat.mod_eq_of_lt hpos]
    rw [if_pos rfl, hhere]
    refine (congrArg _ hhere).trans ?_
    exact update_self _ _ _
  · rw [if_neg hzero, Nat.add_zero]
    have hother : (c.writePos + maxSamples - i) % maxSamples ≠ c.writePos := by
      simp only [maxSamples] at hpos hi ⊢
      omega
    exact update_of_ne hother _ _

end TimeWindowCounter

/-! ## The clock -/

namespace Clock

theorem advance_ticks (k : Clock) (now : Nat) : (k.advance now).ticks = k.showing now := by
  unfold advance showing
  split
  · rfl
  · rename_i h
    omega

theorem advance_le (k : Clock) {now : Nat} (h : k.last ≤ now) :
    k.last ≤ (k.advance now).last ∧ (k.advance now).last ≤ now := by
  unfold advance
  split <;> simp [h]

/-- Less than a second is lost. -/
theorem advance_lt (k : Clock) (now : Nat) : now < (k.advance now).last + 1000 := by
  unfold advance
  split
  · simp
  · rename_i h
    omega

/-- The clock is not fast. -/
theorem advance_slow (k : Clock) {now : Nat} (h : k.last ≤ now) :
    k.last + 1000 * (k.advance now).ticks ≤ (k.advance now).last + 1000 * k.ticks := by
  unfold advance
  split
  · show k.last + 1000 * (k.ticks + (now - k.last) / 1000) ≤ now + 1000 * k.ticks
    omega
  · exact Nat.le_refl _

end Clock

/-- The calls come at these times, none before `t` and none after `T`. -/
def InTime (t : Nat) (calls : List Record) (T : Nat) : Prop :=
  (t :: (calls.map Record.time ++ [T])).IsChain (· ≤ ·)

@[simp] theorem inTime_nil {t T : Nat} : InTime t [] T ↔ t ≤ T := by simp [InTime]

@[simp] theorem inTime_cons {t T : Nat} {r : Record} {rs : List Record} :
    InTime t (r :: rs) T ↔ t ≤ r.time ∧ InTime r.time rs T := by simp [InTime]

theorem clockAfter_spec {calls : List Record} {k : Clock} {t T : Nat} (hk : k.last ≤ t)
    (h : InTime t calls T) :
    k.ticks ≤ (clockAfter k calls).ticks ∧ (clockAfter k calls).last ≤ T ∧
    k.last + 1000 * (clockAfter k calls).ticks ≤ (clockAfter k calls).last + 1000 * k.ticks := by
  induction calls generalizing k t with
  | nil => exact ⟨Nat.le_refl _, hk.trans (inTime_nil.1 h), Nat.le_refl _⟩
  | cons r rs ih =>
    rw [inTime_cons] at h
    have hr : k.last ≤ r.time := hk.trans h.1
    have hstep := k.advance_slow hr
    have hticks : (k.advance r.time).ticks = k.ticks + (r.time - k.last) / 1000 := k.advance_ticks r.time
    have hrest := ih (k.advance_le hr).2 h.2
    change _ ≤ (clockAfter (k.advance r.time) rs).ticks ∧ (clockAfter (k.advance r.time) rs).last ≤ T ∧
      k.last + 1000 * (clockAfter (k.advance r.time) rs).ticks ≤
        (clockAfter (k.advance r.time) rs).last + 1000 * k.ticks
    omega

/-- Where an entry stands between the two clocks: its age is at most what has passed, by whole
    seconds, since the window last moved before it. -/
theorem stamped_spec {calls : List Record} {k : Clock} {t T : Nat} (hk : k.last ≤ t)
    (h : InTime t calls T) {e : Stamped} (he : e ∈ stamped k calls) :
    t ≤ e.time ∧ k.ticks ≤ e.tick ∧ e.tick ≤ (clockAfter k calls).ticks ∧
    e.time + 1000 * (clockAfter k calls).ticks < (clockAfter k calls).last + 1000 * e.tick + 1000 := by
  induction calls generalizing k t with
  | nil => exact absurd he List.not_mem_nil
  | cons r rs ih =>
    rw [inTime_cons] at h
    have hr : k.last ≤ r.time := hk.trans h.1
    have hticks : (k.advance r.time).ticks = k.ticks + (r.time - k.last) / 1000 := k.advance_ticks r.time
    change _ ∧ _ ∧ e.tick ≤ (clockAfter (k.advance r.time) rs).ticks ∧
      e.time + 1000 * (clockAfter (k.advance r.time) rs).ticks <
        (clockAfter (k.advance r.time) rs).last + 1000 * e.tick + 1000
    rcases List.mem_cons.1 he with rfl | hin
    · have hrun := clockAfter_spec (k.advance_le hr).2 h.2
      have hlost := k.advance_lt r.time
      simp only
      omega
    · have hrest := ih (k.advance_le hr).2 h.2 hin
      omega

/-- A later value does not bear an earlier stamp. -/
theorem stamped_inOrder {calls : List Record} {k : Clock} {t T : Nat} (hk : k.last ≤ t)
    (h : InTime t calls T) {e e' : Stamped} (he : e ∈ stamped k calls) (he' : e' ∈ stamped k calls)
    (hlt : e.time < e'.time) : e.tick ≤ e'.tick := by
  induction calls generalizing k t with
  | nil => exact absurd he List.not_mem_nil
  | cons r rs ih =>
    rw [inTime_cons] at h
    have hadvance := (k.advance_le (hk.trans h.1)).2
    rcases List.mem_cons.1 he with rfl | hin
    · rcases List.mem_cons.1 he' with rfl | hin'
      · exact Nat.le_refl _
      · exact (stamped_spec hadvance h.2 hin').2.1
    · rcases List.mem_cons.1 he' with rfl | hin'
      · have := (stamped_spec hadvance h.2 hin).1
        simp only at hlt
        omega
      · exact ih hadvance h.2 hin hin'

theorem weigh_stamped (p : Nat → Prop) [DecidablePred p] (k : Clock) (calls : List Record) :
    weigh Record.value (fun r => p r.time) calls =
      weigh Stamped.value (fun e => p e.time) (stamped k calls) := by
  induction calls generalizing k with
  | nil => rfl
  | cons r rs ih => rw [stamped, weigh_cons, weigh_cons, ih (k.advance r.time)]

/-! ## What the slots hold -/

/-- **The slots by age**: the slot that is `i` back from the newest holds what is `i` seconds old by the
    counter's own clock. -/
structure Slotted (c : TimeWindowCounter) (k : Clock) (log : List Stamped) : Prop where
  last : c.lastUpdateMs = k.last
  pos : c.writePos < maxSamples
  slots : ∀ i < maxSamples, c.sampleAt i = weigh Stamped.value (fun e => k.ticks = e.tick + i) log
  stamps : ∀ e ∈ log, e.tick ≤ k.ticks

namespace Slotted

theorem init (t₀ : Nat) : Slotted { lastUpdateMs := t₀ } ⟨t₀, 0⟩ [] :=
  ⟨rfl, Nat.succ_pos 59, fun _ _ => rfl, fun _ he => absurd he List.not_mem_nil⟩

theorem record {c : TimeWindowCounter} {k : Clock} {log : List Stamped} (h : Slotted c k log)
    {now : Nat} (hnow : (now - k.last) / 1000 < 2 ^ 31) (value : Nat) :
    Slotted (c.record now value) (k.advance now) (log ++ [⟨now, value, (k.advance now).ticks⟩]) := by
  obtain ⟨hlast, hpos, hread⟩ := TimeWindowCounter.advanceTimeWindow_spec h.pos (h.last ▸ hnow) h.last
  have hticks : (k.advance now).ticks = k.ticks + (now - k.last) / 1000 := k.advance_ticks now
  constructor
  · exact hlast
  · exact hpos
  · intro i hi
    rw [TimeWindowCounter.record, TimeWindowCounter.addSample_sampleAt hpos value hi, hread i hi]
    rw [weigh_append, weigh_cons, weigh_nil, Nat.add_zero]
    congr 1
    · split
      · rename_i hnew
        symm
        exact weigh_eq_zero fun e he => by have := h.stamps e he; omega
      · rename_i hold
        rw [h.slots _ (by omega)]
        exact weigh_congr fun e _ => by omega
    · have : (k.advance now).ticks = (k.advance now).ticks + i ↔ i = 0 := by omega
      simp only [this]
  · intro e he
    rcases List.mem_append.1 he with hin | hin
    · have := h.stamps e hin
      omega
    · rw [List.mem_singleton.1 hin]

/-- Every run of `record` calls keeps the slots by age. -/
theorem run {calls : List Record} {c : TimeWindowCounter} {k : Clock} {log : List Stamped} {T : Nat}
    (h : Slotted c k log) (htimely : Timely k calls T) :
    Slotted (Record.run c calls) (clockAfter k calls) (log ++ stamped k calls) := by
  induction calls generalizing c k log with
  | nil => rwa [stamped, List.append_nil]
  | cons r rs ih =>
    have hrest := ih (h.record htimely.1 r.value) htimely.2
    rwa [List.append_assoc] at hrest

end Slotted

theorem timely_query {calls : List Record} {k : Clock} {T : Nat} (h : Timely k calls T) :
    (T - (clockAfter k calls).last) / 1000 < 2 ^ 31 := by
  induction calls generalizing k with
  | nil => exact h
  | cons r rs ih => exact ih h.2

/-- **The sum that an average is made from**: what is less than `n` seconds old by the counter's own
    clock. -/
theorem Slotted.getAverage {c : TimeWindowCounter} {k : Clock} {log : List Stamped} (h : Slotted c k log)
    {T n : Nat} (hT : (T - k.last) / 1000 < 2 ^ 31) (hn : 1 ≤ n ∧ n ≤ maxSamples) :
    (n * c.getAverage T n : ℚ) = weigh Stamped.value (fun e => k.showing T < e.tick + n) log := by
  have hne : (n : ℚ) ≠ 0 := Nat.cast_ne_zero.2 (by omega)
  generalize hs : (T - k.last) / 1000 = s at hT
  have hgap : c.getElapsedSeconds T = (s : Int) := by
    rw [TimeWindowCounter.getElapsedSeconds_eq (by rw [h.last, hs]; exact hT), h.last, hs]
  rw [TimeWindowCounter.getAverage, if_neg (by omega)]
  simp only [hgap, Clock.showing, hs]
  split
  · rename_i hlong
    rw [mul_zero, weigh_eq_zero fun e he => by have := h.stamps e he; omega, Nat.cast_zero]
  · rename_i hshort
    have hvalid : ((n : Int) - s).toNat = n - s := by omega
    have hslots : (List.range (n - s)).map c.sampleAt =
        (List.range (n - s)).map fun i => weigh Stamped.value (fun e => k.ticks = e.tick + i) log :=
      List.map_congr_left fun i hi => h.slots i (by have := List.mem_range.1 hi; omega)
    rw [hvalid, hslots, sum_buckets h.stamps]
    have hwindow : weigh Stamped.value (fun e => k.ticks < e.tick + (n - s)) log =
        weigh Stamped.value (fun e => k.ticks + s < e.tick + n) log :=
      weigh_congr fun e _ => by omega
    rw [hwindow, Int.cast_natCast, mul_div_cancel₀ _ hne]

/-! ## Accuracy -/

/-- **When an average is accurate**: exactly when nothing stale is in its window. -/
theorem average_accurate (t₀ : Nat) (calls : List Record) (T n : Nat) (hn : 1 ≤ n ∧ n ≤ maxSamples)
    (horder : InTime t₀ calls T) (htimely : Timely ⟨t₀, 0⟩ calls T) :
    Accurate t₀ calls T n ↔ NothingStale t₀ calls T n := by
  have hrun := (Slotted.init t₀).run htimely
  have hsum := hrun.getAverage (timely_query htimely) hn
  rw [List.nil_append] at hsum
  have hspec := fun e (he : e ∈ stamped ⟨t₀, 0⟩ calls) => stamped_spec (Nat.le_refl _) horder he
  have hlast := (clockAfter_spec (k := ⟨t₀, 0⟩) (Nat.le_refl _) horder).2.1
  have hwithin := fun s => weigh_stamped (fun t => T ≤ t + 1000 * s) ⟨t₀, 0⟩ calls
  simp only [Accurate, NothingStale, sumWithin, hwithin, hsum, Nat.cast_le]
  -- nothing that is young enough is missing, whatever the calls
  have hlower : weigh Stamped.value (fun e => T ≤ e.time + 1000 * (n - 1)) (stamped ⟨t₀, 0⟩ calls) ≤
      weigh Stamped.value (fun e => (clockAfter ⟨t₀, 0⟩ calls).showing T < e.tick + n)
        (stamped ⟨t₀, 0⟩ calls) := by
    refine weigh_mono fun e he _ hyoung => ?_
    have := hspec e he
    simp only [Clock.showing]
    omega
  refine ⟨fun h e he hold hvalue => ?_, fun h => ⟨hlower, weigh_mono fun e he hvalue hwindow => ?_⟩⟩
  · -- a stale value is counted beside all that came after it
    by_contra hfresh
    have hmore : ∀ e' ∈ stamped ⟨t₀, 0⟩ calls, T ≤ e'.time + 1000 * (n + 1) →
        (clockAfter ⟨t₀, 0⟩ calls).showing T < e'.tick + n := by
      intro e' he' hyoung
      have := stamped_inOrder (Nat.le_refl _) horder he he' (by omega)
      omega
    have := weigh_lt (f := Stamped.value) hmore he (by omega) (by omega) hvalue
    omega
  · by_contra hold
    have := h e he (by omega) hvalue
    omega

/-- With a call every second the clock is exact. -/
theorem average_accurate_exact :
    InTime 0 [⟨500, 100⟩, ⟨1000, 100⟩, ⟨2000, 100⟩] 2500 ∧
      Accurate 0 [⟨500, 100⟩, ⟨1000, 100⟩, ⟨2000, 100⟩] 2500 2 := by
  have horder : InTime 0 [⟨500, 100⟩, ⟨1000, 100⟩, ⟨2000, 100⟩] 2500 := by simp
  have htimely : Timely ⟨0, 0⟩ [⟨500, 100⟩, ⟨1000, 100⟩, ⟨2000, 100⟩] 2500 := by simp [Timely, Clock.advance]
  refine ⟨horder, (average_accurate 0 _ 2500 2 (by decide) horder htimely).2 fun e he hold _ => ?_⟩
  simp only [stamped, List.mem_cons, List.not_mem_nil, or_false] at he
  rcases he with rfl | rfl | rfl <;> simp at hold

/-- With a call every 1999 ms the clock ticks once in two seconds, and an average over three seconds
    counts a value that is 4500 ms old. -/
theorem counted_too_old :
    InTime 0 [⟨0, 100⟩, ⟨1999, 100⟩, ⟨3998, 100⟩] 4500 ∧ Timely ⟨0, 0⟩ [⟨0, 100⟩, ⟨1999, 100⟩, ⟨3998, 100⟩] 4500 ∧
      ¬ Accurate 0 [⟨0, 100⟩, ⟨1999, 100⟩, ⟨3998, 100⟩] 4500 3 := by
  refine ⟨by simp, by simp [Timely, Clock.advance], fun h => absurd h.2 ?_⟩
  decide +kernel

end JunCore.Common
