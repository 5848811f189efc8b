/-
  `JunCore/log.cpp`: the log files, and when the logger goes on to the next one.

  `WriteToFile` counts what it writes, and opens another file when the count would pass `MAX_FILE_SIZE`.
  `OpenNewLogFile` takes the base file if it is there, or else the first of the files with a number that is
  not full, and sets the count; but with number 2 it sets it to 0 whatever is in the file, and with a
  higher number a new file keeps the count of the old one.  Besides, a file that is almost full is taken
  for a text that does not fit any more, and a newline of the text is two bytes of a file that is open in
  text mode.  The books are right as long as none of this happens (`log_rotation`).

  The files are a list of names and sizes; a later entry of a name does not count.  The clock is read for
  every name, and may say anything; `textMode` is whether `fopen` without `b` translates newlines, as it
  does on Windows.  The directories are there, and every file can be opened.
-/
import JunCore.Common.LogFormat
import JunCore.Lib.Transition
import Mathlib.Data.List.Nodup
import Mathlib.Data.List.Perm.Subperm

set_option linter.unusedVariables false

namespace JunCore.LogRotation

open Transition CString Decimal LogFormat

/-! ## The program -/

abbrev Name := Bytes

abbrev Files := List (Name × Nat)

def maxFileSize : Nat := 10 * 1024 * 1024

/-- A text that `WriteToFile` is called with. -/
structure Text extends Str where
  short : bytes.length < 1024

/-- What comes before the last dot, or everything. -/
def beforeDot (text : Bytes) : Bytes :=
  if ascii ['.'] ⊆ text then text.take (text.length - (afterLast (ascii ['.']) text).length - 1) else text

def getProcessName (fullPath : Bytes) : Bytes := beforeDot (afterLast (ascii ['\\', '/']) fullPath)

/-- A number behind `setw(w)`. -/
def setw (w : Nat) (n : Int) : Bytes := List.replicate (w - (padded 0 n).length) 48 ++ padded 0 n

def getCurrentTimeString (tm : Tm) : Bytes :=
  setw 4 (tm.year + 1900) ++ setw 2 (tm.mon + 1) ++ setw 2 tm.mday ++ setw 2 tm.hour ++ setw 2 tm.min ++
    setw 2 tm.sec

def generateLogFileName (fullPath : Bytes) (now : Tm) (sequence : Nat) : Name :=
  let processName := getProcessName fullPath
  let fileName :=
    if sequence = 0 then processName ++ ascii ['_'] ++ getCurrentTimeString now ++ ascii ['.', 'l', 'o', 'g']
    else processName ++ ascii ['_'] ++ getCurrentTimeString now ++ ascii ['_'] ++ decimal sequence ++
      ascii ['.', 'l', 'o', 'g']
  ascii ['L', 'o', 'g', '/'] ++ processName ++ ascii ['/'] ++ fileName

/-- The members of the logger that are about its files, and the files; `written` are those it has written
    to, and is read by nothing. -/
structure Logger where
  files : Files
  logFile : Option Name := none
  currentLogFileName : Name := []
  currentFileSize : Nat := 0
  written : List Name := []
  deriving DecidableEq

section

variable (fullPath : Bytes) (textMode : Bool)

/-- The name that `OpenNewLogFile` makes with this number, by what the clock says; the base file, with
    number 0, comes first, and number 2 second. -/
def logName (clock : Nat → Tm) (sequence : Nat) : Name :=
  generateLogFileName fullPath (clock (sequence - 1)) sequence

/-- The loop of `OpenNewLogFile`: the number that it ends with. -/
def search (l : Logger) (clock : Nat → Tm) : Nat → Nat → Option (Logger × Nat)
  | 0, _ => none
  | fuel + 1, sequence =>
    let fileName := logName fullPath clock sequence
    match l.files.lookup fileName with
    | none => some ({ l with files := (fileName, 0) :: l.files, logFile := some fileName }, sequence)
    | some fileSize =>
      if fileSize < maxFileSize then
        some ({ l with logFile := some fileName, currentFileSize := fileSize }, sequence)
      else search l clock fuel (sequence + 1)

/-- `none` if the loop does not end. -/
def openNewLogFile (l : Logger) (clock : Nat → Tm) : Option Logger :=
  let fileName := logName fullPath clock 0
  match l.files.lookup fileName with
  | none => newFile l
  | some fileSize =>
    if fileSize < maxFileSize then
      some { l with logFile := some fileName, currentLogFileName := fileName, currentFileSize := fileSize }
    else newFile l
where
  /-- What follows the test of the base file. -/
  newFile (l : Logger) : Option Logger :=
    (search fullPath l clock (l.files.length + 1) 2).map fun (l, sequence) =>
      let l := { l with currentLogFileName := logName fullPath clock sequence }
      if sequence = 2 then { l with currentFileSize := 0 } else l

/-- The bytes that a text is in a file. -/
def sizeOnDisk (text : Bytes) : Nat := text.length + if textMode then text.count 10 else 0

/-- `fwrite` and the count, if a file is open. -/
def write (l : Logger) (text : Bytes) : Logger :=
  match l.logFile with
  | none => l
  | some f =>
    { l with
      files := (f, (l.files.lookup f).getD 0 + sizeOnDisk textMode text) :: l.files
      currentFileSize := l.currentFileSize + text.length
      written := f :: l.written }

def writeToFile (l : Logger) (text : Text) (clock : Nat → Tm) : Option Logger :=
  if l.logFile = none then some l
  else if maxFileSize < l.currentFileSize + text.bytes.length then
    (openNewLogFile fullPath { l with logFile := none } clock).map fun l => write textMode l text.bytes
  else some (write textMode l text.bytes)

/-- A call, and what the clock says in it. -/
inductive Act
  | callInitialize (clock : Nat → Tm)
  | callWriteToFile (text : Text) (clock : Nat → Tm)

def step (l : Logger) : Act → Option Logger
  | .callInitialize clock => openNewLogFile fullPath l clock
  | .callWriteToFile text clock => writeToFile fullPath textMode l text clock

/-- Any files may be there at first. -/
def logger : System Logger where
  init l := ∃ files, l = { files := files }
  next l l' := ∃ a, step fullPath textMode l a = some l'

end

/-! ## The books -/

/-- The file cannot be opened for one more byte. -/
def Full (files : Files) (f : Name) : Prop := ∃ size, files.lookup f = some size ∧ maxFileSize ≤ size

/-- **The books are right.** -/
structure Kept (l : Logger) : Prop where
  counter : ∀ f, l.logFile = some f → l.files.lookup f = some l.currentFileSize
  bounded : ∀ f ∈ l.written, ∀ size, l.files.lookup f = some size → size ≤ maxFileSize

section

variable (fullPath : Bytes) (textMode : Bool)

/-- The base file is not there, or full, and of the files with a number `k` is the first that is not. -/
structure FirstUsable (files : Files) (clock : Nat → Tm) (k : Nat) : Prop where
  base : ∀ size, files.lookup (logName fullPath clock 0) = some size → maxFileSize ≤ size
  two_le : 2 ≤ k
  full : ∀ j, 2 ≤ j → j < k → Full files (logName fullPath clock j)
  usable : ¬ Full files (logName fullPath clock k)

/-- The file that is next is one that the logger counts right, and has room for `n` bytes: the base file, a
    new one with number 2, an empty one with number 2, or one with a higher number that is there; or a new
    one with a higher number, if the count is 0. -/
def OpensRight (l : Logger) (clock : Nat → Tm) (n : Nat) : Prop :=
  (∃ size, l.files.lookup (logName fullPath clock 0) = some size ∧ size < maxFileSize ∧
    size + n ≤ maxFileSize) ∨
  ∃ k, FirstUsable fullPath l.files clock k ∧
    ((l.files.lookup (logName fullPath clock k) = none ∧ (k = 2 ∨ l.currentFileSize = 0)) ∨
      ∃ size, l.files.lookup (logName fullPath clock k) = some size ∧ (k = 2 → size = 0) ∧
        size + n ≤ maxFileSize)

/-- A call that keeps the books. -/
def Meets (l : Logger) : Act → Prop
  | .callInitialize clock => OpensRight fullPath l clock 0
  | .callWriteToFile text clock =>
    l.logFile = none ∨ (sizeOnDisk textMode text.bytes = text.bytes.length ∧
      (l.currentFileSize + text.bytes.length ≤ maxFileSize ∨
        OpensRight fullPath l clock text.bytes.length))

/-- The runs in which every call does. -/
def guarded : System Logger where
  init := (logger fullPath textMode).init
  next l l' := ∃ a, Meets fullPath textMode l a ∧ step fullPath textMode l a = some l'

end

/-! ## Names -/

theorem afterLast_append (front : Bytes) {c : UInt8} {last : Bytes} (h : c ∉ last) :
    afterLast [c] (front ++ [c] ++ last) = last := by
  have hall : ∀ x ∈ last.reverse, decide (x ∉ [c]) = true := fun x hx => by
    rw [decide_eq_true_eq, List.mem_singleton]
    exact fun heq => h (heq ▸ List.mem_reverse.mp hx)
  rw [afterLast, List.reverse_append, List.reverse_append, List.takeWhile_append_of_pos hall,
    List.reverse_singleton, List.singleton_append,
    List.takeWhile_cons_of_neg (by simp), List.append_nil, List.reverse_reverse]

section

variable {fullPath : Bytes} {textMode : Bool}

/-- Files with different numbers have different names, whatever the clock says. -/
theorem logName_injective {clock : Nat → Tm} {j k : Nat} (hj : 2 ≤ j) (hk : 2 ≤ k)
    (h : logName fullPath clock j = logName fullPath clock k) : j = k := by
  have hno : ∀ n, (95 : UInt8) ∉ decimal n ++ ascii ['.', 'l', 'o', 'g'] := fun n hmem => by
    rcases List.mem_append.mp hmem with hmem | hmem
    · exact absurd (isDigit_of_mem hmem) (by decide)
    · exact absurd hmem (by decide)
  have hlast : ∀ n, 2 ≤ n →
      afterLast [95] (logName fullPath clock n) = decimal n ++ ascii ['.', 'l', 'o', 'g'] := fun n hn => by
    have hzero : n ≠ 0 := by omega
    rw [← afterLast_append (ascii ['L', 'o', 'g', '/'] ++ getProcessName fullPath ++ ascii ['/'] ++
      getProcessName fullPath ++ ascii ['_'] ++ getCurrentTimeString (clock (n - 1))) (hno n)]
    congr 1
    rw [logName, generateLogFileName, if_neg hzero]
    simp only [List.append_assoc]
    rfl
  have hdigits := hlast j hj
  rw [h, hlast k hk] at hdigits
  exact (decimal_injective (List.append_cancel_right hdigits)).symm

/-! ## The loop -/

theorem lookup_set (files : Files) (f g : Name) (n : Nat) :
    List.lookup g ((f, n) :: files) = if g = f then some n else files.lookup g := by
  rw [List.lookup_cons]
  by_cases h : g = f
  · rw [if_pos h, h, beq_self_eq_true]
  · rw [if_neg h, beq_false_of_ne h]

/-- What the loop does: it passes full files, and opens the first one that is not. -/
theorem search_cases {l l' : Logger} {clock : Nat → Tm} {fuel sequence k : Nat}
    (h : search fullPath l clock fuel sequence = some (l', k)) :
    sequence ≤ k ∧ (∀ j, sequence ≤ j → j < k → Full l.files (logName fullPath clock j)) ∧
      ((l.files.lookup (logName fullPath clock k) = none ∧
          l' = { l with files := (logName fullPath clock k, 0) :: l.files,
                        logFile := some (logName fullPath clock k) }) ∨
        ∃ size, l.files.lookup (logName fullPath clock k) = some size ∧ size < maxFileSize ∧
          l' = { l with logFile := some (logName fullPath clock k), currentFileSize := size }) := by
  induction fuel generalizing sequence with
  | zero => cases h
  | succ fuel ih =>
    rw [search] at h
    split at h
    · rename_i hnone
      obtain ⟨rfl, rfl⟩ := Prod.mk.inj (Option.some.inj h)
      exact ⟨Nat.le_refl _, fun j h₁ h₂ => absurd h₂ (Nat.not_lt.mpr h₁), .inl ⟨hnone, rfl⟩⟩
    · rename_i size hsize
      split at h
      · rename_i hlt
        obtain ⟨rfl, rfl⟩ := Prod.mk.inj (Option.some.inj h)
        exact ⟨Nat.le_refl _, fun j h₁ h₂ => absurd h₂ (Nat.not_lt.mpr h₁), .inr ⟨size, hsize, hlt, rfl⟩⟩
      · rename_i hfull
        obtain ⟨hle, hpassed, hopened⟩ := ih h
        refine ⟨Nat.le_of_succ_le hle, fun j h₁ h₂ => ?_, hopened⟩
        rcases Nat.eq_or_lt_of_le h₁ with rfl | hlt
        · exact ⟨size, hsize, Nat.le_of_not_lt hfull⟩
        · exact hpassed j hlt h₂

/-- As long as it goes on, it finds files. -/
theorem full_of_search_none {l : Logger} {clock : Nat → Tm} {fuel sequence : Nat}
    (h : search fullPath l clock fuel sequence = none) :
    ∀ i < fuel, Full l.files (logName fullPath clock (sequence + i)) := by
  induction fuel generalizing sequence with
  | zero => exact fun i hi => absurd hi (Nat.not_lt_zero _)
  | succ fuel ih =>
    rw [search] at h
    split at h
    · cases h
    · rename_i size hsize
      split at h
      · cases h
      · rename_i hfull
        rintro (_ | i) hi
        · exact ⟨size, hsize, Nat.le_of_not_lt hfull⟩
        · rw [← Nat.add_assoc, Nat.add_right_comm]
          exact ih h i (Nat.lt_of_succ_lt_succ hi)

theorem mem_of_lookup {files : Files} {f : Name} {n : Nat} (h : files.lookup f = some n) :
    f ∈ files.map Prod.fst := by
  induction files with
  | nil => cases h
  | cons e files ih =>
    rw [lookup_set] at h
    split at h
    · rename_i heq
      exact heq ▸ List.mem_cons_self
    · exact List.mem_cons_of_mem _ (ih h)

/-- **The loop ends**: there are more numbers than files. -/
theorem search_ends (fullPath : Bytes) (l : Logger) (clock : Nat → Tm) :
    ∃ l' k, search fullPath l clock (l.files.length + 1) 2 = some (l', k) := by
  cases h : search fullPath l clock (l.files.length + 1) 2 with
  | some x => exact ⟨x.1, x.2, rfl⟩
  | none =>
    have hfull := full_of_search_none h
    let names := (List.range (l.files.length + 1)).map fun i => logName fullPath clock (2 + i)
    have hnodup : names.Nodup := List.Nodup.map_on
      (fun i _ j _ heq => Nat.add_left_cancel (logName_injective (by omega) (by omega) heq)) List.nodup_range
    have hsubset : names ⊆ l.files.map Prod.fst := fun f hf => by
      obtain ⟨i, hi, rfl⟩ := List.mem_map.mp hf
      obtain ⟨size, hsize, -⟩ := hfull i (List.mem_range.mp hi)
      exact mem_of_lookup hsize
    have hle := (List.subperm_of_subset hnodup hsubset).length_le
    rw [List.length_map, List.length_map, List.length_range] at hle
    exact absurd hle (Nat.not_succ_le_self _)

/-! ## A file is opened -/

/-- What `OpenNewLogFile` has opened: a file `f` of `size` bytes, and `counter` is the count. -/
structure Opened (l l' : Logger) (f : Name) (size counter : Nat) : Prop where
  logFile : l'.logFile = some f
  written : l'.written = l.written
  currentFileSize : l'.currentFileSize = counter
  size_eq : l'.files.lookup f = some size
  size_lt : size < maxFileSize
  others : ∀ g n, l'.files.lookup g = some n → l.files.lookup g = some n ∨ n = 0
  /-- what the count can be -/
  counted : counter = size ∨ counter = 0 ∨ (size = 0 ∧ counter = l.currentFileSize)

theorem FirstUsable.unique {files : Files} {clock : Nat → Tm} {j k : Nat}
    (F : FirstUsable fullPath files clock j) (G : FirstUsable fullPath files clock k) : j = k := by
  rcases Nat.lt_trichotomy j k with hlt | rfl | hlt
  · exact absurd (G.full j F.two_le hlt) F.usable
  · rfl
  · exact absurd (F.full k G.two_le hlt) G.usable

theorem not_full_iff {files : Files} {f : Name} :
    ¬ Full files f ↔ ∀ size, files.lookup f = some size → size < maxFileSize :=
  ⟨fun h size hsize => Nat.lt_of_not_le fun hle => h ⟨size, hsize, hle⟩,
    fun h ⟨size, hsize, hle⟩ => absurd (h size hsize) (Nat.not_lt.mpr hle)⟩

/-- The loop, and what comes behind it. -/
theorem newFile_spec {l : Logger} {clock : Nat → Tm} {n : Nat} (hn : n ≤ maxFileSize)
    (hbase : ∀ size, l.files.lookup (logName fullPath clock 0) = some size → maxFileSize ≤ size) :
    ∃ l' f size counter, openNewLogFile.newFile fullPath clock l = some l' ∧ Opened l l' f size counter ∧
      (OpensRight fullPath l clock n ↔ counter = size ∧ size + n ≤ maxFileSize) := by
  obtain ⟨l₁, k, hsearch⟩ := search_ends fullPath l clock
  obtain ⟨hk, hpassed, hopened⟩ := search_cases hsearch
  have hfirst : ¬ Full l.files (logName fullPath clock k) → FirstUsable fullPath l.files clock k :=
    fun hnot => ⟨hbase, hk, hpassed, hnot⟩
  have hright : FirstUsable fullPath l.files clock k → (OpensRight fullPath l clock n ↔
      (l.files.lookup (logName fullPath clock k) = none ∧ (k = 2 ∨ l.currentFileSize = 0)) ∨
        ∃ size, l.files.lookup (logName fullPath clock k) = some size ∧ (k = 2 → size = 0) ∧
          size + n ≤ maxFileSize) := by
    intro F
    constructor
    · rintro (⟨size, hsize, hlt, -⟩ | ⟨j, G, hj⟩)
      · exact absurd hlt (Nat.not_lt.mpr (hbase size hsize))
      · obtain rfl := F.unique G
        exact hj
    · exact fun h => .inr ⟨k, F, h⟩
  have hcall : openNewLogFile.newFile fullPath clock l =
      some { l₁ with currentLogFileName := logName fullPath clock k
                     currentFileSize := if k = 2 then 0 else l₁.currentFileSize } := by
    rw [openNewLogFile.newFile, hsearch]
    by_cases htwo : k = 2
    · simp [htwo]
    · simp [htwo]
  rcases hopened with ⟨hnone, rfl⟩ | ⟨size, hsize, hlt, rfl⟩
  · have F := hfirst (not_full_iff.mpr fun size hsize => by rw [hnone] at hsize; cases hsize)
    refine ⟨_, logName fullPath clock k, 0, _, hcall,
      ⟨rfl, rfl, rfl, (lookup_set _ _ _ _).trans (if_pos rfl), by decide, ?_, ?_⟩, ?_⟩
    · intro g m hg
      rw [lookup_set] at hg
      split at hg
      · exact .inr (Option.some.inj hg).symm
      · exact .inl hg
    · dsimp only
      split
      · exact .inl rfl
      · exact .inr (.inr ⟨rfl, rfl⟩)
    · rw [hright F, hnone]
      simp only [true_and, reduceCtorEq, false_and, exists_false, or_false, Nat.zero_add, hn, and_true]
      split
      · rename_i htwo
        exact iff_of_true (.inl htwo) rfl
      · rename_i htwo
        exact ⟨fun h => h.resolve_left htwo, .inr⟩
  · have F := hfirst (not_full_iff.mpr fun size' hsize' => by
      rw [hsize] at hsize'
      exact Option.some.inj hsize' ▸ hlt)
    refine ⟨_, logName fullPath clock k, size, _, hcall,
      ⟨rfl, rfl, rfl, hsize, hlt, fun g m hg => .inl hg, ?_⟩, ?_⟩
    · dsimp only
      split
      · exact .inr (.inl rfl)
      · exact .inl rfl
    · rw [hright F, hsize]
      simp only [reduceCtorEq, false_and, false_or, Option.some.injEq, exists_eq_left']
      split
      · rename_i htwo
        exact and_congr_left fun _ => ⟨fun h => (h htwo).symm, fun h _ => h.symm⟩
      · rename_i htwo
        exact and_congr_left fun _ => ⟨fun _ => rfl, fun _ h => absurd h htwo⟩

/-- **`OpenNewLogFile`**: it opens a file, and counts it right with room for `n` bytes exactly under this
    condition. -/
theorem openNewLogFile_spec (fullPath : Bytes) (l : Logger) (clock : Nat → Tm) {n : Nat} (hn : n ≤ maxFileSize) :
    ∃ l' f size counter, openNewLogFile fullPath l clock = some l' ∧ Opened l l' f size counter ∧
      (OpensRight fullPath l clock n ↔ counter = size ∧ size + n ≤ maxFileSize) := by
  rw [openNewLogFile]
  split
  · rename_i hnone
    exact newFile_spec hn fun size hsize => by rw [hnone] at hsize; cases hsize
  · rename_i size hsize
    split
    · rename_i hlt
      refine ⟨_, _, size, size, rfl, ⟨rfl, rfl, rfl, hsize, hlt, fun g m hg => .inl hg, .inl rfl⟩, ?_⟩
      refine ⟨?_, fun h => .inl ⟨size, hsize, hlt, h.2⟩⟩
      rintro (⟨size', hsize', -, hfits⟩ | ⟨k, F, -⟩)
      · rw [hsize] at hsize'
        exact ⟨rfl, Option.some.inj hsize' ▸ hfits⟩
      · exact absurd hlt (Nat.not_lt.mpr (F.base size hsize))
    · rename_i hfull
      refine newFile_spec hn fun size' hsize' => ?_
      rw [hsize] at hsize'
      exact Option.some.inj hsize' ▸ Nat.le_of_not_lt hfull

/-! ## Steps -/

theorem Opened.bounded {l l' : Logger} {f : Name} {size counter : Nat} (O : Opened l l' f size counter)
    (K : Kept l) : ∀ g ∈ l'.written, ∀ n, l'.files.lookup g = some n → n ≤ maxFileSize := by
  intro g hg n hn
  rw [O.written] at hg
  rcases O.others g n hn with h | rfl
  · exact K.bounded g hg n h
  · exact Nat.zero_le _

/-- After it the books are right if the count is. -/
theorem Opened.kept_iff {l l' : Logger} {f : Name} {size counter : Nat} (O : Opened l l' f size counter)
    (K : Kept l) : Kept l' ↔ counter = size := by
  constructor
  · intro K'
    have hcounter := K'.counter f O.logFile
    rw [O.size_eq, O.currentFileSize] at hcounter
    exact (Option.some.inj hcounter).symm
  · intro heq
    refine ⟨fun g hg => ?_, O.bounded K⟩
    obtain rfl : f = g := Option.some.inj (O.logFile.symm.trans hg)
    rw [O.size_eq, O.currentFileSize, heq]

/-- A text is written to the open file. -/
theorem write_kept_iff {l : Logger} {f : Name} {size : Nat} (text : Bytes) (hf : l.logFile = some f)
    (hsize : l.files.lookup f = some size)
    (hbounded : ∀ g ∈ l.written, ∀ n, l.files.lookup g = some n → n ≤ maxFileSize) :
    Kept (write textMode l text) ↔ l.currentFileSize + text.length = size + sizeOnDisk textMode text ∧
      size + sizeOnDisk textMode text ≤ maxFileSize := by
  have hwrite : write textMode l text =
      { l with files := (f, size + sizeOnDisk textMode text) :: l.files
               currentFileSize := l.currentFileSize + text.length, written := f :: l.written } := by
    rw [write, hf]
    dsimp only
    rw [hsize, Option.getD_some]
  rw [hwrite]
  have hself : List.lookup f ((f, size + sizeOnDisk textMode text) :: l.files) =
      some (size + sizeOnDisk textMode text) := (lookup_set _ _ _ _).trans (if_pos rfl)
  constructor
  · intro K
    refine ⟨?_, K.bounded f List.mem_cons_self _ hself⟩
    exact (Option.some.inj (hself.symm.trans (K.counter f hf))).symm
  · rintro ⟨hcount, hle⟩
    refine ⟨fun g hg => ?_, fun g hg n hn => ?_⟩
    · obtain rfl : f = g := Option.some.inj (hf.symm.trans hg)
      exact hself.trans (congrArg some hcount.symm)
    · dsimp only at hg hn
      rw [lookup_set] at hn
      split at hn
      · exact Option.some.inj hn ▸ hle
      · rename_i hne
        exact hbounded g ((List.mem_cons.mp hg).resolve_left hne) n hn

theorem length_le_sizeOnDisk (textMode : Bool) (text : Bytes) : text.length ≤ sizeOnDisk textMode text :=
  Nat.le_add_right _ _

theorem sizeOnDisk_le (textMode : Bool) (text : Bytes) : sizeOnDisk textMode text ≤ 2 * text.length := by
  unfold sizeOnDisk
  have hcount := List.count_le_length (l := text) (a := (10 : UInt8))
  split <;> omega

/-- **One step**: a call keeps the books exactly if it meets the condition. -/
theorem step_kept_iff (fullPath : Bytes) (textMode : Bool) {l : Logger} (K : Kept l) (a : Act) :
    ∃ l', step fullPath textMode l a = some l' ∧ (Kept l' ↔ Meets fullPath textMode l a) := by
  cases a with
  | callInitialize clock =>
    obtain ⟨l', f, size, counter, hcall, O, hright⟩ := openNewLogFile_spec fullPath l clock
      (Nat.zero_le _)
    refine ⟨l', hcall, ?_⟩
    rw [O.kept_iff K, Meets, hright]
    exact ⟨fun h => ⟨h, Nat.le_of_lt O.size_lt⟩, And.left⟩
  | callWriteToFile text clock =>
    have hshort := text.short
    have hmin := length_le_sizeOnDisk textMode text.bytes
    have hmax := sizeOnDisk_le textMode text.bytes
    simp only [step, writeToFile, Meets]
    cases hf : l.logFile with
    | none => exact ⟨l, if_pos rfl, iff_of_true K (.inl rfl)⟩
    | some f =>
      simp only [reduceCtorEq, if_false, false_or]
      split
      · -- the logger goes on to the next file
        rename_i hlt
        obtain ⟨l', f', size, counter, hcall, O, hright⟩ :=
          openNewLogFile_spec fullPath { l with logFile := none } clock
            (show text.bytes.length ≤ maxFileSize by unfold maxFileSize; omega)
        refine ⟨write textMode l' text.bytes, by rw [hcall]; rfl, ?_⟩
        have K₀ : Kept { l with logFile := none } := ⟨nofun, K.bounded⟩
        have hsame : OpensRight fullPath l clock text.bytes.length ↔
            OpensRight fullPath { l with logFile := none } clock text.bytes.length := Iff.rfl
        rw [write_kept_iff text.bytes O.logFile O.size_eq (O.bounded K₀), O.currentFileSize, hsame, hright]
        have hcounted := O.counted
        dsimp only at hcounted
        constructor
        · rintro ⟨hcount, hle⟩
          unfold maxFileSize at *
          refine ⟨by omega, .inr ⟨by omega, by omega⟩⟩
        · rintro ⟨hdisk, hor⟩
          obtain ⟨hcount, hle⟩ := hor.resolve_left (by omega)
          exact ⟨by omega, by omega⟩
      · rename_i hle
        refine ⟨write textMode l text.bytes, rfl, ?_⟩
        rw [write_kept_iff text.bytes hf (K.counter f hf) K.bounded]
        constructor
        · rintro ⟨hcount, -⟩
          exact ⟨by omega, .inl (by omega)⟩
        · rintro ⟨hdisk, -⟩
          exact ⟨by omega, by omega⟩

/-- **Every run** whose calls meet the condition keeps the books. -/
theorem kept_reachable {l : Logger} (h : Reachable (guarded fullPath textMode) l) : Kept l := by
  refine Reachable.invariant (I := Kept) ?_ ?_ h
  · rintro l ⟨files, rfl⟩
    exact ⟨nofun, nofun⟩
  · rintro l l' - K ⟨a, hmeets, hstep⟩
    obtain ⟨l'', hstep', hiff⟩ := step_kept_iff fullPath textMode K a
    obtain rfl : l'' = l' := Option.some.inj (hstep'.symm.trans hstep)
    exact hiff.mpr hmeets

end

/-- **Log rotation**: as long as every call meets the condition, the count is the size of the open file and
    no file that was written to is too large; and the first call that does not meet it breaks this. -/
theorem log_rotation (fullPath : Bytes) (textMode : Bool) (l : Logger)
    (h : Reachable (guarded fullPath textMode) l) :
    Kept l ∧ ∀ a, ∃ l', step fullPath textMode l a = some l' ∧ (Kept l' ↔ Meets fullPath textMode l a) :=
  ⟨kept_reachable h, step_kept_iff _ _ (kept_reachable h)⟩

/-! ## Two runs -/

/-- `C:\srv\echo.exe` -/
def samplePath : Bytes := ascii ['C', ':', '\\', 's', 'r', 'v', '\\', 'e', 'c', 'h', 'o', '.', 'e', 'x', 'e']

def noon : Nat → Tm := fun _ => ⟨125, 0, 9, 12, 0, 0⟩

example : logName samplePath noon 2 =
    ascii ("Log/echo/echo_20250109120000_2.log".toList) := by decide

def hello : Text := ⟨⟨ascii ['h', 'e', 'l', 'l', 'o'], by decide⟩, by decide⟩

def afterHello : Logger where
  files := [(logName samplePath noon 2, 5), (logName samplePath noon 2, 0)]
  logFile := some (logName samplePath noon 2)
  currentLogFileName := logName samplePath noon 2
  currentFileSize := 5
  written := [logName samplePath noon 2]

/-- No files are there, and the logger is initialized and writes a text. -/
theorem log_rotation_hello : Kept afterHello ∧
    ∀ a, ∃ l', step samplePath true afterHello a = some l' ∧ (Kept l' ↔ Meets samplePath true afterHello a) := by
  refine log_rotation samplePath true afterHello ?_
  have hopens : OpensRight samplePath { files := [] } noon 0 :=
    .inr ⟨2, ⟨nofun, Nat.le_refl _, fun j h₁ h₂ => absurd h₁ (Nat.not_le.mpr h₂), fun ⟨_, h, _⟩ => nomatch h⟩,
      .inl ⟨rfl, .inl rfl⟩⟩
  refine .step (.step (.start ⟨[], rfl⟩) ⟨.callInitialize noon, hopens, rfl⟩)
    ⟨.callWriteToFile hello noon, .inr ⟨by decide, .inl (by decide)⟩, by decide⟩

/-- The base file is full, and number 2 has 100 bytes: the count is 0. -/
theorem counter_reset : ¬ ∀ l, Reachable (logger samplePath false) l → Kept l := by
  intro h
  let files : Files := [(logName samplePath noon 0, maxFileSize), (logName samplePath noon 2, 100)]
  let l : Logger :=
    { files := files, logFile := some (logName samplePath noon 2)
      currentLogFileName := logName samplePath noon 2, currentFileSize := 0 }
  have hreachable : Reachable (logger samplePath false) l :=
    .step (.start ⟨files, rfl⟩) ⟨.callInitialize noon, by decide⟩
  exact absurd ((h l hreachable).counter _ rfl) (by decide)

end JunCore.LogRotation
