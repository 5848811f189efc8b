/-
  `JunCommon/timer/Profiler.h` and `Profiler.cpp`: measured times by name, without the extremes.

  `VaildateData` holds back the two largest and the two smallest times, so that they do not enter the
  average.  A time that takes the place of one that is held back lets that one disappear: it is added to
  no total.  So the books balance exactly when no place is ever taken twice, and that is a matter of the
  order: the first two times must be the largest, in descending order, and of the rest the first two the
  smallest, in ascending order (`samples_conserved`).

  Every thread has a row of entries of its own (there are rows for `MAX_THREAD_NUM` threads).  A call is
  one step; `now` is what `GetTickCount64` returns in it.
-/
import JunCore.Lib.Extremes
import JunCore.Lib.Transition
import Mathlib.Algebra.BigOperators.Group.List.Basic
import Mathlib.Algebra.GroupWithZero.Nat

set_option linter.unusedVariables false
set_option linter.unusedSectionVars false

namespace JunCore.Profiler

open Transition Function Extremes

/-! ## The program -/

abbrev Dword := BitVec 32

def maxDword : Dword := 0xFFFFFFFF#32

def profileDataNum : Nat := 100

def profileNameLen : Nat := 128

structure ProfileData where
  useFlag : Bool := false
  resetFlag : Bool := false
  name : List UInt8 := []
  totalTime : BitVec 64 := 0#64
  totalCall : BitVec 32 := 0#32
  startTime : Dword := 0#32
  max : Dword × Dword := (0#32, 0#32)
  min : Dword × Dword := (maxDword, maxDword)
  /-- the times given to `VaildateData` since `Init`; read by nothing -/
  samples : List Dword := []
  deriving DecidableEq

/-- `max[i] < profileTime` -/
abbrev Exceeds (x t : Dword) : Prop := x < t

/-- `min[i] > profileTime` -/
abbrev Undercuts (x t : Dword) : Prop := x > t

namespace ProfileData

/-- Whether it returns true, and what it leaves behind. -/
def vaildateData (d : ProfileData) (profileTime : Dword) : Bool × ProfileData :=
  match offer Exceeds d.max profileTime with
  | some max => (true, { d with max := max })
  | none =>
    match offer Undercuts d.min profileTime with
    | some min => (true, { d with min := min })
    | none => (false, d)

def init (d : ProfileData) : ProfileData :=
  { d with
    totalTime := 0#64
    totalCall := 0#32
    max := (0#32, 0#32)
    min := (maxDword, maxDword)
    samples := [] }

/-- What is left to do in `ProfileEnd` when the entry is found; whether it returns, too. -/
def record (d : ProfileData) (profileTime : Dword) : Bool × ProfileData :=
  let r := { d with samples := d.samples ++ [profileTime] }.vaildateData profileTime
  if r.1 then r
  else (false,
    { r.2 with
      totalTime := r.2.totalTime + profileTime.setWidth 64
      totalCall := r.2.totalCall + 1#32 })

end ProfileData

/-- The loop does not end with the entry whose time has been added to the totals. -/
def profileEnd (name : List UInt8) (now : BitVec 64) : List ProfileData → List ProfileData
  | [] => []
  | d :: ds =>
    if d.useFlag = false then d :: ds
    else if d.name ≠ name then d :: profileEnd name now ds
    else if d.resetFlag = true then { d.init with resetFlag := false } :: ds
    else
      let r := d.record (now.setWidth 32 - d.startTime)
      if r.1 then r.2 :: ds else r.2 :: profileEnd name now ds

/-- The first loop of `ProfileBegin`: an entry of this name. -/
def restart (name : List UInt8) (now : BitVec 64) : List ProfileData → Option (List ProfileData)
  | [] => none
  | d :: ds =>
    if d.name = name then some ({ d with startTime := now.setWidth 32 } :: ds)
    else (restart name now ds).map (d :: ·)

/-- The second one: an entry that is not in use. -/
def enter (name : List UInt8) (now : BitVec 64) : List ProfileData → List ProfileData
  | [] => []
  | d :: ds =>
    if d.useFlag = false then
      { d with
        name := name.take (profileNameLen - 1)
        useFlag := true
        startTime := now.setWidth 32 } :: ds
    else d :: enter name now ds

def profileBegin (name : List UInt8) (now : BitVec 64) (row : List ProfileData) : List ProfileData :=
  (restart name now row).getD (enter name now row)

/-- One row of `ProfileReset`. -/
def resetRow : List ProfileData → List ProfileData
  | [] => []
  | d :: ds => if d.useFlag = false then d :: ds else { d with resetFlag := true } :: resetRow ds

/-- `profile_data_`, by thread. -/
structure Sys (T : Type) where
  rows : T → List ProfileData := fun _ => List.replicate profileDataNum {}

inductive Call (T : Type)
  | profileBegin (t : T) (name : List UInt8) (now : BitVec 64)
  | profileEnd (t : T) (name : List UInt8) (now : BitVec 64)
  | profileReset

variable {T : Type} [DecidableEq T]

/-- A row that nobody uses has nothing to reset. -/
def step (p : Sys T) : Call T → Sys T
  | .profileBegin t name now => ⟨update p.rows t (profileBegin name now (p.rows t))⟩
  | .profileEnd t name now => ⟨update p.rows t (profileEnd name now (p.rows t))⟩
  | .profileReset => ⟨fun t => resetRow (p.rows t)⟩

def profiler (T : Type) [DecidableEq T] : System (Sys T) where
  init p := p = {}
  next p p' := ∃ c, step p c = p'

/-! ## What is to hold -/

/-- The values in `max` and `min`, without the marks. -/
def ProfileData.heldBack (d : ProfileData) : List Dword := held 0#32 d.max ++ held maxDword d.min

/-- **The books balance**: what was measured is in the totals or held back. -/
structure ProfileData.Conserved (d : ProfileData) : Prop where
  time : (d.samples.map BitVec.toNat).sum = d.totalTime.toNat + (d.heldBack.map BitVec.toNat).sum
  calls : d.samples.length = d.totalCall.toNat + d.heldBack.length
  few : d.samples.length ≤ d.totalCall.toNat + 4

/-- The times come in a good order: of those that are not 0 the first two lead downwards, and of the rest
    the first two (those of `MAXDWORD` apart) lead upwards; the others can be counted by a `DWORD`. -/
structure Settled (ts : List Dword) : Prop where
  tops : Leads Exceeds (ts.filter (· ≠ 0#32))
  bottoms : Leads Undercuts ((withoutLeaders 0#32 ts).filter (· ≠ maxDword))
  counted : (withoutLeaders maxDword (withoutLeaders 0#32 ts)).length < 4294967296

/-! ## One entry -/

theorem top_mark : IsMark Exceeds 0#32 where
  free t := by
    show (0#32).toNat < t.toNat ↔ ¬ t = 0#32
    rw [BitVec.toNat_eq, BitVec.toNat_ofNat]
    omega
  last x := Nat.not_lt_zero _

theorem bottom_mark : IsMark Undercuts maxDword where
  free t := by
    show t.toNat < (0xFFFFFFFF#32).toNat ↔ ¬ t = 0xFFFFFFFF#32
    have hlt := t.isLt
    rw [BitVec.toNat_eq, BitVec.toNat_ofNat]
    omega
  last x := by
    show ¬ (0xFFFFFFFF#32).toNat < x.toNat
    have hlt := x.isLt
    rw [BitVec.toNat_ofNat]
    omega

/-- What the two largest let pass, and what the two smallest let pass of it. -/
def middle (ts : List Dword) : List Dword := passed Exceeds (0#32, 0#32) ts

def counted (ts : List Dword) : List Dword := passed Undercuts (maxDword, maxDword) (middle ts)

/-- What an entry says about the times it was given. -/
structure ProfileData.Sound (d : ProfileData) : Prop where
  max : d.max = keep Exceeds (0#32, 0#32) d.samples
  min : d.min = keep Undercuts (maxDword, maxDword) (middle d.samples)
  time : d.totalTime = BitVec.ofNat 64 ((counted d.samples).map BitVec.toNat).sum
  calls : d.totalCall = BitVec.ofNat 32 (counted d.samples).length

namespace ProfileData

theorem Sound.init (d : ProfileData) : d.init.Sound := ⟨rfl, rfl, rfl, rfl⟩

/-- **One time more.** -/
theorem Sound.record {d : ProfileData} (S : d.Sound) (t : Dword) : (d.record t).2.Sound := by
  have hmax := keep_append Exceeds (0#32, 0#32) d.samples [t]
  have hmiddle := passed_append Exceeds (0#32, 0#32) d.samples [t]
  rw [← S.max] at hmax hmiddle
  cases htop : offer Exceeds d.max t with
  | some max =>
    simp only [keep, passed, htop, List.append_nil] at hmax hmiddle
    have hsame : middle (d.samples ++ [t]) = middle d.samples := hmiddle
    have hrecord : d.record t = (true, { d with samples := d.samples ++ [t], max := max }) := by
      simp [ProfileData.record, vaildateData, htop]
    rw [hrecord]
    exact ⟨hmax.symm, by rw [hsame]; exact S.min, by rw [counted, hsame]; exact S.time,
      by rw [counted, hsame]; exact S.calls⟩
  | none =>
    simp only [keep, passed, htop] at hmax hmiddle
    have hmore : middle (d.samples ++ [t]) = middle d.samples ++ [t] := hmiddle
    have hmin := keep_append Undercuts (maxDword, maxDword) (middle d.samples) [t]
    have hcounted := passed_append Undercuts (maxDword, maxDword) (middle d.samples) [t]
    rw [← S.min, ← hmore] at hmin hcounted
    cases hbottom : offer Undercuts d.min t with
    | some min =>
      simp only [keep, passed, hbottom, List.append_nil] at hmin hcounted
      have hsame : counted (d.samples ++ [t]) = counted d.samples := hcounted
      have hrecord : d.record t = (true, { d with samples := d.samples ++ [t], min := min }) := by
        simp [ProfileData.record, vaildateData, htop, hbottom]
      rw [hrecord]
      exact ⟨hmax.symm, hmin.symm, by rw [hsame]; exact S.time, by rw [hsame]; exact S.calls⟩
    | none =>
      simp only [keep, passed, hbottom] at hmin hcounted
      have hone : counted (d.samples ++ [t]) = counted d.samples ++ [t] := hcounted
      have hrecord : d.record t = (false, { d with
          samples := d.samples ++ [t]
          totalTime := d.totalTime + t.setWidth 64
          totalCall := d.totalCall + 1#32 }) := by
        simp [ProfileData.record, vaildateData, htop, hbottom]
      rw [hrecord]
      refine ⟨hmax.symm, hmin.symm, ?_, ?_⟩
      · show d.totalTime + t.setWidth 64 = _
        rw [hone, S.time, List.map_append, List.sum_append, List.map_singleton, List.sum_singleton,
          BitVec.ofNat_add, BitVec.ofNat_toNat]
      · show d.totalCall + 1#32 = _
        rw [hone, S.calls, List.length_append, BitVec.ofNat_add]
        rfl

end ProfileData

theorem sum_le (ts : List Dword) : (ts.map BitVec.toNat).sum ≤ ts.length * 4294967295 := by
  induction ts with
  | nil => exact Nat.le_refl 0
  | cons t ts ih =>
    have hlt := t.isLt
    rw [List.map_cons, List.sum_cons, List.length_cons, Nat.add_mul]
    omega

/-- The values that have disappeared from `max`, and from `min`. -/
def lostTops (ts : List Dword) : List Dword := lost Exceeds 0#32 (0#32, 0#32) ts

def lostBottoms (ts : List Dword) : List Dword := lost Undercuts maxDword (maxDword, maxDword) (middle ts)

/-- Where the times are. -/
theorem ProfileData.Sound.perm {d : ProfileData} (S : d.Sound) :
    d.samples.Perm (d.heldBack ++ (counted d.samples ++ (lostTops d.samples ++ lostBottoms d.samples))) := by
  have htops := keep_perm top_mark (0#32, 0#32) d.samples
  have hbottoms := keep_perm bottom_mark (maxDword, maxDword) (middle d.samples)
  rw [held_free, List.nil_append, ← S.max] at htops
  rw [held_free, List.nil_append, ← S.min] at hbottoms
  rw [List.perm_iff_count] at htops hbottoms ⊢
  intro x
  have h1 := htops x
  have h2 := hbottoms x
  simp only [List.count_append] at h1 h2
  simp only [ProfileData.heldBack, counted, lostTops, lostBottoms, List.count_append]
  change _ = _ + (List.count x (middle d.samples) + _) at h1
  omega

/-- In a good order nothing is lost, and the rest is counted. -/
theorem settled_iff (ts : List Dword) :
    Settled ts ↔ lostTops ts = [] ∧ lostBottoms ts = [] ∧ (counted ts).length < 4294967296 := by
  have htops := lost_eq_nil_iff top_mark ts
  have hbottoms := lost_eq_nil_iff bottom_mark (middle ts)
  constructor
  · rintro ⟨h1, h2, h3⟩
    have hmiddle : middle ts = withoutLeaders 0#32 ts := passed_of_leads top_mark h1
    rw [← hmiddle] at h2 h3
    rw [← passed_of_leads bottom_mark h2] at h3
    exact ⟨htops.mpr h1, hbottoms.mpr h2, h3⟩
  · rintro ⟨h1, h2, h3⟩
    have hmiddle : middle ts = withoutLeaders 0#32 ts := passed_of_leads top_mark (htops.mp h1)
    have hleads := hbottoms.mp h2
    rw [counted, passed_of_leads bottom_mark hleads] at h3
    rw [hmiddle] at hleads h3
    exact ⟨htops.mp h1, hleads, h3⟩

/-- **An entry's books** balance exactly if its times came in a good order. -/
theorem ProfileData.Sound.conserved {d : ProfileData} (S : d.Sound) : d.Conserved ↔ Settled d.samples := by
  have hlength := S.perm.length_eq
  have hsum := (S.perm.map BitVec.toNat).sum_eq
  have hcalls : d.totalCall.toNat = (counted d.samples).length % 4294967296 := by
    rw [S.calls, BitVec.toNat_ofNat]
  simp only [List.length_append, List.map_append, List.sum_append] at hlength hsum
  have hheld : d.heldBack.length ≤ 4 := by
    have h1 := length_held_le (m := 0#32) d.max
    have h2 := length_held_le (m := maxDword) d.min
    rw [ProfileData.heldBack, List.length_append]
    omega
  rw [settled_iff]
  constructor
  · intro C
    have hbooks := C.calls
    refine ⟨List.eq_nil_of_length_eq_zero ?_, List.eq_nil_of_length_eq_zero ?_, ?_⟩ <;> omega
  · rintro ⟨h1, h2, h3⟩
    rw [h1, h2] at hlength hsum
    -- no more than 2^32 times of less than 2^32 each
    have hfits := sum_le (counted d.samples)
    have htime : d.totalTime.toNat = ((counted d.samples).map BitVec.toNat).sum := by
      rw [S.time, BitVec.toNat_ofNat, Nat.mod_eq_of_lt (by omega)]
    simp only [List.length_nil, List.map_nil, List.sum_nil] at hlength hsum
    exact ⟨by omega, by omega, by omega⟩

/-! ## Every entry of every row -/

theorem sound_new : ({} : ProfileData).Sound := ⟨rfl, rfl, rfl, rfl⟩

theorem sound_profileEnd {row : List ProfileData} (h : ∀ d ∈ row, d.Sound) (name : List UInt8)
    (now : BitVec 64) : ∀ d ∈ profileEnd name now row, d.Sound := by
  induction row with
  | nil => exact h
  | cons d ds ih =>
    rw [List.forall_mem_cons] at h
    unfold profileEnd
    split
    · exact List.forall_mem_cons.mpr h
    · split
      · exact List.forall_mem_cons.mpr ⟨h.1, ih h.2⟩
      · split
        · exact List.forall_mem_cons.mpr ⟨⟨rfl, rfl, rfl, rfl⟩, h.2⟩
        · have hone := h.1.record (now.setWidth 32 - d.startTime)
          dsimp only
          split
          · exact List.forall_mem_cons.mpr ⟨hone, h.2⟩
          · exact List.forall_mem_cons.mpr ⟨hone, ih h.2⟩

/-- To start the clock, or to give an entry a name, adds no time. -/
theorem ProfileData.Sound.congr {d d' : ProfileData} (S : d.Sound) (hmax : d'.max = d.max)
    (hmin : d'.min = d.min) (htime : d'.totalTime = d.totalTime) (hcall : d'.totalCall = d.totalCall)
    (hsamples : d'.samples = d.samples) : d'.Sound := by
  constructor
  · rw [hmax, hsamples, S.max]
  · rw [hmin, hsamples, S.min]
  · rw [htime, hsamples, S.time]
  · rw [hcall, hsamples, S.calls]

theorem sound_restart {row row' : List ProfileData} (h : ∀ d ∈ row, d.Sound) {name : List UInt8}
    {now : BitVec 64} (hrow : restart name now row = some row') : ∀ d ∈ row', d.Sound := by
  induction row generalizing row' with
  | nil => cases hrow
  | cons d ds ih =>
    rw [List.forall_mem_cons] at h
    unfold restart at hrow
    split at hrow
    · obtain rfl := Option.some.inj hrow
      exact List.forall_mem_cons.mpr ⟨h.1.congr rfl rfl rfl rfl rfl, h.2⟩
    · obtain ⟨ds', hds, rfl⟩ := Option.map_eq_some_iff.mp hrow
      exact List.forall_mem_cons.mpr ⟨h.1, ih h.2 hds⟩

theorem sound_enter {row : List ProfileData} (h : ∀ d ∈ row, d.Sound) (name : List UInt8)
    (now : BitVec 64) : ∀ d ∈ enter name now row, d.Sound := by
  induction row with
  | nil => exact h
  | cons d ds ih =>
    rw [List.forall_mem_cons] at h
    unfold enter
    split
    · exact List.forall_mem_cons.mpr ⟨h.1.congr rfl rfl rfl rfl rfl, h.2⟩
    · exact List.forall_mem_cons.mpr ⟨h.1, ih h.2⟩

theorem sound_profileBegin {row : List ProfileData} (h : ∀ d ∈ row, d.Sound) (name : List UInt8)
    (now : BitVec 64) : ∀ d ∈ profileBegin name now row, d.Sound := by
  cases hrow : restart name now row with
  | none =>
    rw [profileBegin, hrow]
    exact sound_enter h name now
  | some row' =>
    rw [profileBegin, hrow]
    exact sound_restart h hrow

theorem sound_resetRow {row : List ProfileData} (h : ∀ d ∈ row, d.Sound) : ∀ d ∈ resetRow row, d.Sound := by
  induction row with
  | nil => exact h
  | cons d ds ih =>
    rw [List.forall_mem_cons] at h
    unfold resetRow
    split
    · exact List.forall_mem_cons.mpr h
    · exact List.forall_mem_cons.mpr ⟨h.1.congr rfl rfl rfl rfl rfl, ih h.2⟩

theorem sound_reachable {p : Sys T} (h : Reachable (profiler T) p) : ∀ t, ∀ d ∈ p.rows t, d.Sound := by
  refine h.invariant (I := fun p : Sys T => ∀ t, ∀ d ∈ p.rows t, d.Sound) ?_ ?_
  · rintro p rfl t d hd
    obtain rfl : d = {} := List.eq_of_mem_replicate hd
    exact sound_new
  · rintro p p' _ S ⟨c, rfl⟩ t
    cases c with
    | profileBegin u name now =>
      show ∀ d ∈ update p.rows u _ t, d.Sound
      rw [update_apply]
      split
      · exact sound_profileBegin (S u) name now
      · exact S t
    | profileEnd u name now =>
      show ∀ d ∈ update p.rows u _ t, d.Sound
      rw [update_apply]
      split
      · exact sound_profileEnd (S u) name now
      · exact S t
    | profileReset => exact sound_resetRow (S t)

/-- **Conservation of the samples**: for every entry, at any time, exactly if the times it was given since
    the last reset came in a good order. -/
theorem samples_conserved (p : Sys T) (h : Reachable (profiler T) p) (t : T) (d : ProfileData)
    (hd : d ∈ p.rows t) : d.Conserved ↔ Settled d.samples :=
  (sound_reachable h t d hd).conserved

/-! ## Two runs -/

def afterCalls (calls : List (Call T)) : Sys T := calls.foldl step {}

theorem reachable_afterCalls (calls : List (Call T)) : Reachable (profiler T) (afterCalls calls) := by
  have hfrom : ∀ p : Sys T, Reachable (profiler T) p → Reachable (profiler T) (calls.foldl step p) := by
    induction calls with
    | nil => exact fun p hp => hp
    | cons c cs ih => exact fun p hp => ih _ (.step hp ⟨c, rfl⟩)
  exact hfrom {} (.start rfl)

/-- Measures `ts` one after the other, under one name. -/
def measuring (ts : List (BitVec 64)) : List (Call Unit) :=
  ts.flatMap fun t => [.profileBegin () [97] 1000#64, .profileEnd () [97] (1000#64 + t)]

def firstEntry (calls : List (Call Unit)) : ProfileData := ((afterCalls calls).rows ()).headD {}

theorem firstEntry_mem (calls : List (Call Unit)) (h : (afterCalls calls).rows () ≠ []) :
    firstEntry calls ∈ (afterCalls calls).rows () := by
  rw [firstEntry, List.headD_eq_head?_getD, List.head?_eq_some_head h]
  exact List.head_mem h

/-- The largest come first, and then the smallest. -/
theorem samples_conserved_five : (firstEntry (measuring [9, 8, 2, 3, 5, 7])).Conserved := by
  refine (samples_conserved _ (reachable_afterCalls (measuring [9, 8, 2, 3, 5, 7])) () _
    (firstEntry_mem _ (by decide +kernel))).mpr ?_
  have hsamples : (firstEntry (measuring [9, 8, 2, 3, 5, 7])).samples = [9, 8, 2, 3, 5, 7] := by decide +kernel
  rw [hsamples]
  exact ⟨by decide, by decide, by decide⟩

/-- 5 ms and then 7 ms: the 5 are nowhere. -/
theorem sample_lost : ¬ ∀ p : Sys Unit, Reachable (profiler Unit) p → ∀ t, ∀ d ∈ p.rows t, d.Conserved := by
  intro h
  have C := (h _ (reachable_afterCalls (measuring [5, 7])) () _ (firstEntry_mem _ (by decide +kernel))).calls
  exact absurd C (by decide +kernel)

end JunCore.Profiler
