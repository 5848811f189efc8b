/-
  `JunCommon/algorithm/Parser.cpp`: the buffer of the parser.

  `LoadFile` frees the buffer of the last file first, and then opens the new one.  If it cannot, the
  pointers stay where they were, at a buffer that is freed: it is read by the next `GetValue`, and freed
  again by the next `LoadFile` or the destructor.  So every buffer is freed once, and read only before,
  exactly if no file fails to open after another one has been loaded (`buffers_owned_iff`).

  Buffers are numbered as they are allocated; what happens to them is listed (`Event`).  A file is the
  bytes that are read from it, or none if it cannot be opened.
-/
import JunCore.Common.Parser

set_option linter.unusedVariables false

namespace JunCore.ParserBuffers

open CString
open JunCore.Parser (Cursor buffer)

/-! ## The program -/

inductive Event
  | alloc (b : Nat)
  | free (b : Nat)
  | read (b : Nat)
  deriving DecidableEq

/-- A buffer and a place in it; `none` is `nullptr`. -/
abbrev Ptr := Option (Nat × Nat)

structure State where
  buffers : List Cursor := []
  events : List Event := []
  fileBegin : Ptr := none
  fileCur : Ptr := none
  fileEnd : Ptr := none
  deriving DecidableEq

/-- `if (fileBegin != nullptr) free(fileBegin)` -/
def freeBegin (p : State) : State :=
  match p.fileBegin with
  | none => p
  | some (b, _) => { p with events := p.events ++ [.free b] }

/-- `LoadFile`, and what it returns. -/
def loadFile (p : State) (file : Option Bytes) : State × Nat :=
  let p := freeBegin p
  match file with
  | none => (p, 0)
  | some file =>
    let b := p.buffers.length
    ({ buffers := p.buffers ++ [buffer file], events := p.events ++ [.alloc b], fileBegin := some (b, 0),
       fileCur := some (b, 0), fileEnd := some (b, file.length + 1) }, file.length)

/-- The bytes from `fileCur` to `fileEnd`, and their buffer. -/
def region (p : State) : Option Nat × Cursor :=
  match p.fileCur, p.fileEnd with
  | some (b, i), some (_, j) => (some b, ((p.buffers.getD b []).take j).drop i)
  | _, _ => (none, [])

/-- `GetValue`, and what it returns; what is in a freed buffer is not known.  The cursor is put at the
    beginning, and what it moves on is of no use to anyone. -/
def getValue {α : Type} (read : α → Cursor → Option (Bool × α)) (value : α) (p : State)
    (sectionName key : Bytes) : State × Option (Bool × α) :=
  let p := { p with fileCur := p.fileBegin }
  match region p with
  | (some b, c :: text) =>
    ({ p with events := p.events ++ [.read b] },
      if .free b ∈ p.events then none else Parser.getValue read value (c :: text) sectionName key)
  | (_, text) => (p, Parser.getValue read value text sectionName key)

/-- `~Parser` -/
def destruct (p : State) : State := freeBegin p

inductive Call
  | loadFile (file : Option Bytes)
  | getValueInt (value : BitVec 32) (sectionName key : Bytes)
  | getValueStr (value : Bytes) (sectionName key : Bytes)

def step (p : State) : Call → State
  | .loadFile file => (loadFile p file).1
  | .getValueInt value sectionName key => (getValue Parser.getValueInt value p sectionName key).1
  | .getValueStr value sectionName key => (getValue Parser.getValueStr value p sectionName key).1

def run (calls : List Call) : State := calls.foldl step {}

/-! ## Ownership -/

/-- **Each buffer is freed once, and read only before.** -/
structure Owned (p : State) : Prop where
  once : ∀ b < p.buffers.length, p.events.count (.free b) = 1
  live : ∀ front b back, p.events = front ++ .read b :: back → .free b ∉ front

/-- After a file has been loaded, no other one fails to open. -/
def NoLateFailure (calls : List Call) : Prop :=
  ∀ front back, calls = front ++ .loadFile none :: back → ∀ file, .loadFile (some file) ∉ front

/-- No event reads what is freed. -/
def Live (events : List Event) : Prop := ∀ front b back, events = front ++ .read b :: back → .free b ∉ front

theorem live_append {events : List Event} {e : Event} (h : Live events)
    (he : ∀ b, e = .read b → .free b ∉ events) : Live (events ++ [e]) := by
  intro front b back heq
  rcases List.eq_nil_or_concat back with rfl | ⟨back, e', rfl⟩
  · obtain ⟨rfl, hlast⟩ := List.append_inj' heq rfl
    exact he b (List.cons.inj hlast).1
  · rw [List.concat_eq_append, ← List.cons_append, ← List.append_assoc] at heq
    exact h front b back (List.append_inj' heq rfl).1

/-- The parser as it should be: no file is loaded yet; or the pointers are at the last buffer, which is not
    freed, and all before it are, once. -/
inductive Good (p : State) : Prop
  | empty (hbegin : p.fileBegin = none) (hend : p.fileEnd = none) (hbuffers : p.buffers = [])
      (hevents : p.events = [])
  | loaded (b n : Nat) (hbegin : p.fileBegin = some (b, 0)) (hend : p.fileEnd = some (b, n))
      (hlast : p.buffers.length = b + 1) (hfreed : ∀ b' < b, p.events.count (.free b') = 1)
      (hkept : ∀ b', b ≤ b' → p.events.count (.free b') = 0) (hlive : Live p.events)

/-- What a call does that loads no file: the cursor goes to the beginning, and the buffer there, if there is
    one, may be read. -/
def Looks (p p' : State) : Prop :=
  p' = { p with fileCur := p.fileBegin } ∨
    ∃ b i, p.fileBegin = some (b, i) ∧ p' = { p with fileCur := p.fileBegin, events := p.events ++ [.read b] }

theorem getValue_looks {α : Type} (read : α → Cursor → Option (Bool × α)) (value : α) (p : State)
    (sectionName key : Bytes) : Looks p (getValue read value p sectionName key).1 := by
  unfold getValue
  dsimp only
  split
  · rename_i b c text hregion
    unfold region at hregion
    dsimp only at hregion
    split at hregion
    · rename_i b' i _ j hbegin _
      obtain ⟨hb, -⟩ := Prod.mk.inj hregion
      exact .inr ⟨b', i, hbegin, by rw [Option.some.inj hb]⟩
    · cases (Prod.mk.inj hregion).1
  · exact .inl rfl

/-- A call loads a file, or tries to, or looks for a value. -/
theorem step_cases (p : State) (c : Call) :
    (∃ file, c = .loadFile file ∧ step p c = (loadFile p file).1) ∨
      (∀ file, c ≠ .loadFile file) ∧ Looks p (step p c) := by
  cases c with
  | loadFile file => exact .inl ⟨file, rfl, rfl⟩
  | getValueInt value sectionName key => exact .inr ⟨nofun, getValue_looks _ _ _ _ _⟩
  | getValueStr value sectionName key => exact .inr ⟨nofun, getValue_looks _ _ _ _ _⟩

namespace Looks

variable {p p' : State}

theorem fileBegin_eq (L : Looks p p') : p'.fileBegin = p.fileBegin := by
  rcases L with rfl | ⟨b, i, -, rfl⟩ <;> rfl

theorem buffers_eq (L : Looks p p') : p'.buffers = p.buffers := by
  rcases L with rfl | ⟨b, i, -, rfl⟩ <;> rfl

theorem grows (L : Looks p p') : p.events <+: p'.events := by
  rcases L with rfl | ⟨b, i, -, rfl⟩
  · exact List.prefix_rfl
  · exact List.prefix_append _ _

theorem good (L : Looks p p') (G : Good p) : Good p' := by
  rcases L with rfl | ⟨b, i, hb, rfl⟩
  · cases G with
    | empty hbegin hend hbuffers hevents => exact .empty hbegin hend hbuffers hevents
    | loaded b n hbegin hend hlast hfreed hkept hlive => exact .loaded b n hbegin hend hlast hfreed hkept hlive
  · cases G with
    | empty hbegin hend hbuffers hevents =>
      rw [hbegin] at hb
      cases hb
    | loaded b' n hbegin hend hlast hfreed hkept hlive =>
      obtain ⟨rfl, -⟩ := Prod.mk.inj (Option.some.inj (hbegin.symm.trans hb))
      have hcount : ∀ b, (p.events ++ [Event.read b']).count (Event.free b) =
          p.events.count (Event.free b) := fun b => by
        rw [List.count_append]
        exact Nat.add_zero _
      refine .loaded b' n hbegin hend hlast (fun b hb => ?_) (fun b hb => ?_) (live_append hlive ?_)
      · exact (hcount b).trans (hfreed b hb)
      · exact (hcount b).trans (hkept b hb)
      · intro b heq
        obtain rfl := Event.read.inj heq
        exact List.count_eq_zero.mp (hkept b' (Nat.le_refl _))

end Looks

/-- Freeing the last buffer leaves every buffer freed once. -/
theorem Good.freed {p : State} (G : Good p) :
    (freeBegin p).buffers = p.buffers ∧ Live (freeBegin p).events ∧
      (∀ b < p.buffers.length, (freeBegin p).events.count (.free b) = 1) ∧
      ∀ b, p.buffers.length ≤ b → (freeBegin p).events.count (.free b) = 0 := by
  cases G with
  | empty hbegin hend hbuffers hevents =>
    have hsame : freeBegin p = p := by rw [freeBegin, hbegin]
    rw [hsame, hbuffers, hevents]
    exact ⟨rfl, fun front b back h => absurd h.symm (List.append_ne_nil_of_right_ne_nil _ (List.cons_ne_nil _ _)),
      fun b hb => absurd hb (Nat.not_lt_zero _), fun b _ => rfl⟩
  | loaded b n hbegin hend hlast hfreed hkept hlive =>
    have hfree : freeBegin p = { p with events := p.events ++ [.free b] } := by rw [freeBegin, hbegin]
    have hcount : ∀ b', (p.events ++ [Event.free b]).count (Event.free b') =
        p.events.count (Event.free b') + if b' = b then 1 else 0 := fun b' => by
      rw [List.count_append, List.count_singleton]
      by_cases hb : b' = b
      · rw [if_pos hb, hb, beq_self_eq_true, if_pos rfl]
      · rw [if_neg hb, beq_false_of_ne (fun h => hb (Event.free.inj h).symm), if_neg (by decide)]
    rw [hfree, hlast]
    refine ⟨rfl, live_append hlive (fun b' h => by cases h), fun b' hb' => ?_, fun b' hb' => ?_⟩
    · rw [hcount]
      by_cases hb : b' = b
      · rw [if_pos hb, hb, hkept b (Nat.le_refl _)]
      · rw [if_neg hb, hfreed b' (by omega)]
    · rw [hcount, if_neg (by omega), hkept b' (by omega)]

theorem Good.loadFile {p : State} (G : Good p) {file : Option Bytes} (h : file = none → p.fileBegin = none) :
    Good (loadFile p file).1 := by
  obtain ⟨hbuffers, hlive, hfreed, hkept⟩ := G.freed
  cases file with
  | none =>
    have hsame : (ParserBuffers.loadFile p none).1 = p := by
      show freeBegin p = p
      rw [freeBegin, h rfl]
    rwa [hsame]
  | some file =>
    have hcount : ∀ b b', ((freeBegin p).events ++ [Event.alloc b]).count (Event.free b') =
        (freeBegin p).events.count (Event.free b') := fun b b' => by
      rw [List.count_append]
      exact Nat.add_zero _
    refine .loaded (freeBegin p).buffers.length (file.length + 1) rfl rfl ?_ (fun b hb => ?_) (fun b hb => ?_)
      (live_append hlive fun b h => by cases h)
    · exact List.length_append
    · rw [hbuffers] at hb
      exact (hcount _ _).trans (hfreed b hb)
    · rw [hbuffers] at hb
      exact (hcount _ _).trans (hkept b hb)

/-! ## The pointer that dangles -/

/-- The pointers are at a buffer that is there, and that is freed already. -/
def Dangles (p : State) : Prop :=
  ∃ b i, p.fileBegin = some (b, i) ∧ b < p.buffers.length ∧ 1 ≤ p.events.count (.free b)

/-- A buffer is freed twice. -/
def Twice (p : State) : Prop := ∃ b < p.buffers.length, 2 ≤ p.events.count (.free b)

/-- Events are only added, and buffers are. -/
theorem loadFile_grows (p : State) (file : Option Bytes) :
    p.events <+: (loadFile p file).1.events ∧ p.buffers <+: (loadFile p file).1.buffers := by
  have hfree : p.events <+: (freeBegin p).events ∧ (freeBegin p).buffers = p.buffers := by
    unfold freeBegin
    split
    · exact ⟨List.prefix_rfl, rfl⟩
    · exact ⟨List.prefix_append _ _, rfl⟩
  cases file with
  | none => exact ⟨hfree.1, by rw [← hfree.2]; exact List.prefix_rfl⟩
  | some file => exact ⟨hfree.1.trans (List.prefix_append _ _), by rw [← hfree.2]; exact List.prefix_append _ _⟩

theorem step_grows (p : State) (c : Call) :
    p.events <+: (step p c).events ∧ p.buffers <+: (step p c).buffers := by
  rcases step_cases p c with ⟨file, -, hstep⟩ | ⟨-, L⟩
  · rw [hstep]
    exact loadFile_grows p file
  · rw [L.buffers_eq]
    exact ⟨L.grows, List.prefix_rfl⟩

theorem Twice.step {p : State} (h : Twice p) (c : Call) : Twice (step p c) := by
  obtain ⟨b, hb, hcount⟩ := h
  obtain ⟨hevents, hbuffers⟩ := step_grows p c
  exact ⟨b, Nat.lt_of_lt_of_le hb hbuffers.length_le, hcount.trans (hevents.sublist.count_le _)⟩

theorem freeBegin_of_some {p : State} {b i : Nat} (h : p.fileBegin = some (b, i)) :
    freeBegin p = { p with events := p.events ++ [.free b] } := by rw [freeBegin, h]

/-- The next free of a dangling pointer is the second one. -/
theorem Dangles.freed {p : State} (h : Dangles p) : Twice (freeBegin p) := by
  obtain ⟨b, i, hbegin, hb, hcount⟩ := h
  rw [freeBegin_of_some hbegin]
  refine ⟨b, hb, ?_⟩
  rw [List.count_append, List.count_singleton_self]
  omega

theorem Dangles.step {p : State} (h : Dangles p) (c : Call) : Dangles (step p c) ∨ Twice (step p c) := by
  rcases step_cases p c with ⟨file, -, hstep⟩ | ⟨-, L⟩
  · refine .inr ?_
    rw [hstep]
    obtain ⟨b, hb, hcount⟩ := h.freed
    cases file with
    | none => exact ⟨b, hb, hcount⟩
    | some file =>
      refine ⟨b, Nat.lt_of_lt_of_le hb (List.prefix_append _ _).length_le, hcount.trans ?_⟩
      exact (List.prefix_append _ _).sublist.count_le _
  · obtain ⟨b, i, hbegin, hb, hcount⟩ := h
    refine .inl ⟨b, i, L.fileBegin_eq.trans hbegin, ?_, hcount.trans (L.grows.sublist.count_le _)⟩
    rw [L.buffers_eq]
    exact hb

/-- From then on nothing helps any more. -/
theorem twice_of_dangles (calls : List Call) {p : State} (h : Dangles p ∨ Twice p) :
    Twice (destruct (calls.foldl step p)) := by
  induction calls generalizing p with
  | nil =>
    rcases h with h | ⟨b, hb, hcount⟩
    · exact h.freed
    · show Twice (freeBegin p)
      unfold freeBegin
      split
      · exact ⟨b, hb, hcount⟩
      · exact ⟨b, hb, hcount.trans ((List.prefix_append _ _).sublist.count_le _)⟩
  | cons c calls ih =>
    refine ih ?_
    rcases h with h | h
    · exact h.step c
    · exact .inr (h.step c)

/-! ## Runs -/

/-- The pointers are at a buffer from the first file on. -/
theorem pointer_of_loaded (calls : List Call) (p : State)
    (h : (∃ b i, p.fileBegin = some (b, i) ∧ b < p.buffers.length) ∨ ∃ file, .loadFile (some file) ∈ calls) :
    ∃ b i, (calls.foldl step p).fileBegin = some (b, i) ∧ b < (calls.foldl step p).buffers.length := by
  induction calls generalizing p with
  | nil => exact h.resolve_right fun ⟨file, hmem⟩ => by cases hmem
  | cons c calls ih =>
    refine ih _ ?_
    rcases step_cases p c with ⟨file, rfl, hstep⟩ | ⟨hc, L⟩
    · rw [hstep]
      cases file with
      | none =>
        refine h.imp ?_ fun ⟨file, hmem⟩ => ⟨file, (List.mem_cons.mp hmem).resolve_left nofun⟩
        rintro ⟨b, i, hbegin, hb⟩
        rw [loadFile, freeBegin_of_some hbegin]
        exact ⟨b, i, hbegin, hb⟩
      | some file =>
        refine .inl ⟨(freeBegin p).buffers.length, 0, rfl, ?_⟩
        show _ < ((freeBegin p).buffers ++ [buffer file]).length
        rw [List.length_append]
        exact Nat.lt_succ_self _
    · rw [L.fileBegin_eq, L.buffers_eq]
      exact h.imp id fun ⟨file, hmem⟩ => ⟨file, (List.mem_cons.mp hmem).resolve_left fun heq => hc _ heq.symm⟩

/-- Nothing is loaded, and the pointers are at nothing. -/
theorem begin_of_not_loaded (calls : List Call) (p : State) (hp : p.fileBegin = none)
    (h : ∀ file, .loadFile (some file) ∉ calls) : (calls.foldl step p).fileBegin = none := by
  induction calls generalizing p with
  | nil => exact hp
  | cons c calls ih =>
    refine ih _ ?_ fun file hmem => h file (List.mem_cons_of_mem _ hmem)
    rcases step_cases p c with ⟨file, rfl, hstep⟩ | ⟨-, L⟩
    · rw [hstep]
      cases file with
      | none =>
        rw [loadFile, freeBegin, hp]
        exact hp
      | some file => exact absurd List.mem_cons_self (h file)
    · exact L.fileBegin_eq.trans hp

theorem NoLateFailure.of_append {calls more : List Call} (h : NoLateFailure (calls ++ more)) :
    NoLateFailure calls :=
  fun front back heq => h front (back ++ more) (by rw [heq, List.append_assoc]; rfl)

/-- A run is good as long as no file fails to open late. -/
theorem good_run (calls : List Call) (h : NoLateFailure calls) : Good (run calls) := by
  induction calls using List.reverseRecOn with
  | nil => exact .empty rfl rfl rfl rfl
  | append_singleton calls c ih =>
    have G := ih h.of_append
    show Good ((calls ++ [c]).foldl step {})
    rw [List.foldl_append]
    show Good (step (run calls) c)
    rcases step_cases (run calls) c with ⟨file, rfl, hstep⟩ | ⟨-, L⟩
    · rw [hstep]
      exact G.loadFile fun hfile => begin_of_not_loaded calls {} rfl (h calls [] (by rw [hfile]))
    · exact L.good G

theorem Good.owned {p : State} (G : Good p) : Owned (destruct p) := by
  obtain ⟨hbuffers, hlive, hfreed, -⟩ := G.freed
  exact ⟨fun b hb => hfreed b (hbuffers ▸ hb), hlive⟩

/-- **The buffers are owned over a whole run and the destructor exactly if no file fails to open after another
    one has been loaded.** -/
theorem buffers_owned_iff (calls : List Call) : Owned (destruct (run calls)) ↔ NoLateFailure calls := by
  refine ⟨fun howned front back heq file hmem => ?_, fun h => (good_run calls h).owned⟩
  -- the failed call frees the buffer that the pointers stay at
  have hdangles : Dangles (step (run front) (.loadFile none)) := by
    obtain ⟨b, i, hbegin, hb⟩ := pointer_of_loaded front {} (.inr ⟨file, hmem⟩)
    have hfree := freeBegin_of_some hbegin
    refine ⟨b, i, ?_, ?_, ?_⟩
    · exact (congrArg State.fileBegin hfree).trans hbegin
    · exact Nat.lt_of_lt_of_eq hb (congrArg (fun p => p.buffers.length) hfree).symm
    · refine List.one_le_count_iff.mpr ?_
      show Event.free b ∈ (freeBegin (run front)).events
      rw [run, hfree]
      exact List.mem_append_right _ List.mem_cons_self
  obtain ⟨b, hb, htwice⟩ := twice_of_dangles back (.inl hdangles)
  have hrun : run calls = back.foldl step (step (run front) (.loadFile none)) := by
    rw [heq, run, List.foldl_append]
    rfl
  rw [← hrun] at hb htwice
  have honce := howned.once b hb
  omega

/-- **A file is loaded, and the next one cannot be opened**: the destructor frees the buffer of the first one
    again. -/
theorem freed_again : ¬ ∀ calls : List Call, Owned (destruct (run calls)) := fun h => by
  have htwo : (destruct (run [.loadFile (some []), .loadFile none])).events.count (.free 0) = 2 := by decide
  have hone := (h [.loadFile (some []), .loadFile none]).once 0 (by decide)
  omega

end JunCore.ParserBuffers
