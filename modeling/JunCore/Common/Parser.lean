/-
  `JunCommon/algorithm/Parser.h` and `Parser.cpp`: values from a configuration file.

  The file is in a buffer with a NUL behind it.  `FindChar` goes to the next byte that is not a blank,
  `FindSpace` to the next blank, and both pass comments; `NextChar` is one after the other.  `FindWord`
  looks at every place that `NextChar` comes to.  `GetValue` finds the section, the key and the value so,
  but does not look at what `NextChar` returns in between: where this is false the cursor is at the end
  of the buffer, and the next read is outside of it (`reads_inside_iff`).

  A cursor is what is left of the buffer, so at its end it is empty, and a read there is `none`.  A byte
  is unsigned; a comparison with a digit is the same for a signed one.
-/
import JunCore.Lib.CString
import JunCore.Lib.Decimal
import Mathlib.Data.List.Infix

set_option linter.unusedVariables false

namespace JunCore.Parser

open CString Decimal

/-! ## The program -/

/-- What is left of the buffer from `fileCur` on. -/
abbrev Cursor := List UInt8

def isSpace (c : UInt8) : Bool := c == 32 || c == 10 || c == 9

/-- `*fileCur == '/' && *(fileCur + 1) == '/'` -/
def isComment : Cursor → Option Bool
  | [] => none
  | c :: rest => if c = 47 then rest.head?.map (· == 47) else some false

/-- The loop of `FindChar` and `FindSpace`: to the next byte at which it stops.  In a comment it goes on to
    the newline, or to the last byte of the buffer, and leaves this behind, too. -/
def scan (stop : UInt8 → Bool) : Bool → Cursor → Option (Bool × Cursor)
  | _, [] => some (false, [])
  | true, c :: rest => scan stop (c != 10) rest
  | false, c :: rest =>
    (isComment (c :: rest)).bind fun comment =>
      if comment then scan stop true rest
      else if stop c then some (true, c :: rest)
      else scan stop false rest

def findChar (c : Cursor) : Option (Bool × Cursor) := scan (fun b => !isSpace b) false c

def findSpace (c : Cursor) : Option (Bool × Cursor) := scan isSpace false c

def nextChar (c : Cursor) : Option (Bool × Cursor) := do
  let (found, c) ← findSpace c
  if found then findChar c else return (false, c)

/-- `0 == strncmp(fileCur, word, wordLen)` -/
def startsWith : Cursor → Bytes → Option Bool
  | _, [] => some true
  | [], _ :: _ => none
  | c :: cs, w :: ws => if c = w then startsWith cs ws else some false

/-- The word is here, and a blank behind it. -/
def testWord (word : Bytes) (c : Cursor) : Option Bool := do
  if ← startsWith c word then
    let b ← (c.drop word.length).head?
    return isSpace b
  else return false

/-- The loop of `FindWord`. -/
def findWordFrom (word : Bytes) : Nat → Cursor → Option (Bool × Cursor)
  | 0, _ => none
  | fuel + 1, c => do
    if ← testWord word c then return (true, c)
    else
      let (found, c) ← nextChar c
      if found then findWordFrom word fuel c else return (false, c)

def findWord (word : Bytes) (c : Cursor) : Option (Bool × Cursor) := do
  let (found, c) ← findChar c
  if found then findWordFrom word (c.length + 1) c else return (false, c)

/-- The inner loop of `GetValueInt`. -/
def readDigits (value : BitVec 32) : Cursor → Option (BitVec 32)
  | [] => none
  | c :: rest =>
    if IsDigit c then readDigits (value * 10 + BitVec.ofNat 32 (digitValue c)) rest else some value

def getValueInt (value : BitVec 32) (c : Cursor) : Option (Bool × BitVec 32) := do
  let b ← c.head?
  if IsDigit b then return (true, ← readDigits 0 c) else return (false, 0)

/-- The inner loop of `GetValueStr`. -/
def readQuoted : Cursor → Option Bytes
  | [] => none
  | c :: rest => if c = 34 then some [] else (readQuoted rest).map (c :: ·)

def getValueStr (value : Bytes) (c : Cursor) : Option (Bool × Bytes) := do
  let b ← c.head?
  if b = 34 then return (true, ← readQuoted c.tail) else return (false, value)

/-- `GetValue`, by the function that reads the value: what it returns, and what is in `value` then. -/
def getValue {α : Type} (read : α → Cursor → Option (Bool × α)) (value : α) (text : Cursor)
    (sectionName key : Bytes) : Option (Bool × α) := do
  let (found, c) ← findWord sectionName text
  if !found then return (false, value)
  let (_, c) ← nextChar c
  if (← c.head?) ≠ 123 then return (false, value)
  let (found, c) ← findWord key c
  if !found then return (false, value)
  let (_, c) ← nextChar c
  if (← c.head?) ≠ 61 then return (false, value)
  let (_, c) ← nextChar c
  read value c

/-- What `LoadFile` puts into the buffer. -/
def buffer (file : Bytes) : Cursor := file ++ [0]

/-! ## What is not in a comment -/

/-- The bytes outside of comments; the newline of a comment belongs to it. -/
def visible : Bool → Cursor → Bytes
  | _, [] => []
  | true, c :: rest => visible (c != 10) rest
  | false, c :: rest => if isComment (c :: rest) = some true then visible true rest else c :: visible false rest

/-- Behind the word that is here there is a blank, and then another byte. -/
def Continues (c : Cursor) : Prop :=
  ∃ x ∈ (visible false c).dropWhile fun b => !isSpace b, isSpace x = false

instance (c : Cursor) : Decidable (Continues c) := inferInstanceAs (Decidable (∃ x ∈ _, _))

/-- The quoted value that begins here ends. -/
def Closed (c : Cursor) : Prop := c.head? = some 34 → 34 ∈ c.tail

/-- **No read goes wrong**: the section's name, the key and the `=` are followed by something, as far as
    `GetValue` comes, and then it is at a value that it can read. -/
def Stays (Readable : Cursor → Prop) (text : Cursor) (sectionName key : Bytes) : Prop :=
  ∀ c, findWord sectionName text = some (true, c) → Continues c ∧
    ∀ c₁, nextChar c = some (true, c₁) → c₁.head? = some 123 →
      ∀ c₂, findWord key c₁ = some (true, c₂) → Continues c₂ ∧
        ∀ c₃, nextChar c₂ = some (true, c₃) → c₃.head? = some 61 → Continues c₃ ∧
          ∀ c₄, nextChar c₃ = some (true, c₄) → Readable c₄

/-! ## Cursors -/

/-- A part of a buffer up to its end: the last byte, if there is one, is the NUL. -/
def Ends (c : Cursor) : Prop := ∀ x, c.getLast? = some x → x = 0

theorem ends_buffer (file : Bytes) : Ends (buffer file) := by
  intro x hx
  rw [buffer, List.getLast?_concat] at hx
  exact (Option.some.inj hx).symm

theorem Ends.suffix {c c' : Cursor} (E : Ends c) (h : c' <:+ c) : Ends c' := by
  obtain ⟨front, rfl⟩ := h
  intro x hx
  refine E x ?_
  rw [List.getLast?_append, hx]
  rfl

theorem Ends.tail {x : UInt8} {rest : Cursor} (E : Ends (x :: rest)) : Ends rest := E.suffix (List.suffix_cons _ _)

/-- What is before the last byte has something behind it. -/
theorem Ends.ne_nil {x : UInt8} {rest : Cursor} (E : Ends (x :: rest)) (hx : x ≠ 0) : rest ≠ [] := by
  rintro rfl
  exact hx (E x rfl)

theorem isComment_isSome {x : UInt8} {rest : Cursor} (E : Ends (x :: rest)) :
    ∃ comment, isComment (x :: rest) = some comment := by
  rw [isComment]
  split
  · rename_i hx
    subst hx
    obtain ⟨y, rest', rfl⟩ := List.exists_cons_of_ne_nil (E.ne_nil (by decide))
    exact ⟨_, rfl⟩
  · exact ⟨_, rfl⟩

/-- The cursor is at a byte where the scan stops, and not at a comment. -/
structure StopsAt (stop : UInt8 → Bool) (c : Cursor) : Prop where
  head : ∀ x, c.head? = some x → stop x = true
  noComment : c ≠ [] → isComment c = some false

/-! ## The scanners -/

section

variable {stop : UInt8 → Bool} {x : UInt8} {rest : Cursor}

theorem scan_comment (h : isComment (x :: rest) = some true) :
    scan stop false (x :: rest) = scan stop true rest := by
  rw [scan, h]
  rfl

theorem scan_byte (h : isComment (x :: rest) = some false) :
    scan stop false (x :: rest) = if stop x then some (true, x :: rest) else scan stop false rest := by
  rw [scan, h]
  rfl

theorem visible_comment (h : isComment (x :: rest) = some true) :
    visible false (x :: rest) = visible true rest := by
  rw [visible, if_pos h]

theorem visible_byte (h : isComment (x :: rest) = some false) :
    visible false (x :: rest) = x :: visible false rest := by
  rw [visible, h, if_neg (by decide)]

end

/-- **What a scan does**: it goes to the first byte outside of comments at which it stops, or to the end. -/
theorem scan_spec (stop : UInt8 → Bool) {c : Cursor} (E : Ends c) (m : Bool) :
    ∃ c', scan stop m c = some (!c'.isEmpty, c') ∧ c' <:+ c ∧
      visible false c' = (visible m c).dropWhile (fun b => !stop b) ∧ StopsAt stop c' := by
  induction c generalizing m with
  | nil =>
    refine ⟨[], ?_, List.suffix_rfl, ?_, nofun, fun h => absurd rfl h⟩
    · cases m <;> rfl
    · cases m <;> rfl
  | cons x rest ih =>
    cases m with
    | true =>
      obtain ⟨c', hscan, hsuffix, hvisible, hstop⟩ := ih E.tail (x != 10)
      exact ⟨c', hscan, hsuffix.trans (List.suffix_cons _ _), hvisible, hstop⟩
    | false =>
      obtain ⟨comment, hcomment⟩ := isComment_isSome E
      cases comment with
      | true =>
        obtain ⟨c', hscan, hsuffix, hvisible, hstop⟩ := ih E.tail true
        rw [scan_comment hcomment, visible_comment hcomment]
        exact ⟨c', hscan, hsuffix.trans (List.suffix_cons _ _), hvisible, hstop⟩
      | false =>
        rw [scan_byte hcomment, visible_byte hcomment]
        by_cases hx : stop x = true
        · refine ⟨x :: rest, by rw [if_pos hx]; rfl, List.suffix_rfl, ?_, ?_, fun _ => hcomment⟩
          · rw [List.dropWhile_cons_of_neg (by simp [hx]), visible_byte hcomment]
          · intro y hy
            exact Option.some.inj hy ▸ hx
        · obtain ⟨c', hscan, hsuffix, hvisible, hstop⟩ := ih E.tail false
          refine ⟨c', by rw [if_neg hx, hscan], hsuffix.trans (List.suffix_cons _ _), ?_, hstop⟩
          rw [List.dropWhile_cons_of_pos (by simp [hx]), hvisible]

/-- The cursor is at a byte that is not a blank, and not at a comment, or at the end. -/
abbrev AtWord (c : Cursor) : Prop := StopsAt (fun b => !isSpace b) c

theorem findChar_spec {c : Cursor} (E : Ends c) :
    ∃ c', findChar c = some (!c'.isEmpty, c') ∧ c' <:+ c ∧
      visible false c' = (visible false c).dropWhile isSpace ∧ AtWord c' := by
  obtain ⟨c', hscan, hsuffix, hvisible, hstop⟩ := scan_spec (fun b => !isSpace b) E false
  refine ⟨c', hscan, hsuffix, ?_, hstop⟩
  simpa only [Bool.not_not] using hvisible

theorem visible_eq_nil {c : Cursor} {stop : UInt8 → Bool} (S : StopsAt stop c) : visible false c = [] ↔ c = [] := by
  cases c with
  | nil => exact iff_of_true rfl rfl
  | cons x rest =>
    rw [visible_byte (S.noComment (List.cons_ne_nil _ _))]
    exact iff_of_false (List.cons_ne_nil _ _) (List.cons_ne_nil _ _)

/-- **`NextChar`**: it finds something exactly if there is something behind the word. -/
theorem nextChar_spec {c : Cursor} (E : Ends c) :
    ∃ c', nextChar c = some (!c'.isEmpty, c') ∧ c' <:+ c ∧ AtWord c' ∧ (c' ≠ [] ↔ Continues c) := by
  obtain ⟨c₁, hspace, hsuffix₁, hvisible₁, hstop₁⟩ := scan_spec isSpace E false
  cases c₁ with
  | nil =>
    refine ⟨[], ?_, List.nil_suffix, ⟨nofun, fun h => absurd rfl h⟩, iff_of_false (fun h => h rfl) ?_⟩
    · rw [nextChar, findSpace, hspace]
      rfl
    · rintro ⟨x, hx, -⟩
      rw [← hvisible₁] at hx
      cases hx
  | cons y rest =>
    obtain ⟨c', hchar, hsuffix, hvisible, hword⟩ := findChar_spec (E.suffix hsuffix₁)
    refine ⟨c', ?_, hsuffix.trans hsuffix₁, hword, ?_⟩
    · rw [nextChar, findSpace, hspace]
      exact hchar
    · rw [Ne, ← visible_eq_nil hword, hvisible, hvisible₁, List.dropWhile_eq_nil_iff, Continues]
      simp only [not_forall, Bool.not_eq_true, exists_prop]

/-- It moves on from a word. -/
theorem nextChar_shorter {c c' : Cursor} {found : Bool} (E : Ends c) (hc : c ≠ []) (W : AtWord c)
    (h : nextChar c = some (found, c')) : c'.length < c.length := by
  obtain ⟨x, rest, rfl⟩ := List.exists_cons_of_ne_nil hc
  have hx : isSpace x = false := by simpa using W.head x rfl
  have hcomment := W.noComment hc
  -- `FindSpace` passes this byte
  have hsame : nextChar (x :: rest) = (do
      let (found, c) ← findSpace rest
      if found then findChar c else return (false, c)) := by
    rw [nextChar, findSpace, scan_byte hcomment, hx]
    rfl
  rw [hsame] at h
  obtain ⟨c', hnext, hsuffix, -, -⟩ := nextChar_spec E.tail
  rw [nextChar] at hnext
  rw [hnext] at h
  obtain ⟨-, rfl⟩ := Prod.mk.inj (Option.some.inj h)
  exact Nat.lt_succ_of_le hsuffix.length_le

/-! ## Words -/

/-- The word is here, with a blank behind it. -/
def HasWord (word : Bytes) (c : Cursor) : Prop := ∃ b rest, c = word ++ b :: rest ∧ isSpace b = true

theorem startsWith_spec {c : Cursor} {word : Bytes} (E : Ends c) (hc : c ≠ []) (hword : (0 : UInt8) ∉ word) :
    startsWith c word = some (decide (word <+: c)) := by
  induction word generalizing c with
  | nil =>
    cases c with
    | nil => exact absurd rfl hc
    | cons x rest => rw [startsWith, decide_eq_true List.nil_prefix]
  | cons w word ih =>
    obtain ⟨x, rest, rfl⟩ := List.exists_cons_of_ne_nil hc
    rw [startsWith]
    by_cases hx : x = w
    · subst hx
      have hzero : x ≠ 0 := fun h => hword (h ▸ List.mem_cons_self)
      rw [if_pos rfl, ih E.tail (E.ne_nil hzero) fun h => hword (List.mem_cons_of_mem _ h)]
      simp only [List.cons_prefix_cons, true_and]
    · rw [if_neg hx, decide_eq_false]
      rw [List.cons_prefix_cons]
      exact fun h => hx h.1.symm

theorem testWord_spec {c : Cursor} {word : Bytes} (E : Ends c) (hc : c ≠ []) (hword : (0 : UInt8) ∉ word) :
    ∃ b, testWord word c = some b ∧ (b = true ↔ HasWord word c) := by
  rw [testWord, startsWith_spec E hc hword, Option.bind_eq_bind, Option.bind_some]
  by_cases hprefix : word <+: c
  · obtain ⟨rest, rfl⟩ := hprefix
    cases rest with
    | nil =>
      -- the NUL would be part of the word
      rw [List.append_nil] at E hc
      exact absurd (List.mem_of_getLast? ((List.getLast?_eq_some_getLast hc).trans
        (congrArg some (E _ (List.getLast?_eq_some_getLast hc))))) hword
    | cons b rest =>
      refine ⟨isSpace b, ?_, fun hb => ⟨b, rest, rfl, hb⟩, ?_⟩
      · rw [decide_eq_true (List.prefix_append _ _), if_pos rfl, List.drop_left]
        rfl
      · rintro ⟨b', rest', heq, hb⟩
        obtain ⟨rfl, -⟩ := List.cons.inj (List.append_cancel_left heq)
        exact hb
  · refine ⟨false, by rw [decide_eq_false hprefix]; rfl, nofun, ?_⟩
    rintro ⟨b, rest, rfl, -⟩
    exact absurd (List.prefix_append _ _) hprefix

/-- The loop of `FindWord` ends, at the word or at the end of the buffer. -/
theorem findWordFrom_spec {word : Bytes} (hword : (0 : UInt8) ∉ word) {fuel : Nat} {c : Cursor} (E : Ends c)
    (hc : c ≠ []) (W : AtWord c) (hfuel : c.length < fuel) :
    ∃ c', findWordFrom word fuel c = some (!c'.isEmpty, c') ∧ c' <:+ c ∧ (c' ≠ [] → HasWord word c') := by
  induction fuel generalizing c with
  | zero => exact absurd hfuel (Nat.not_lt_zero _)
  | succ fuel ih =>
    obtain ⟨b, htest, hb⟩ := testWord_spec E hc hword
    rw [findWordFrom, htest]
    cases b with
    | true =>
      refine ⟨c, ?_, List.suffix_rfl, fun _ => hb.mp rfl⟩
      obtain ⟨x, rest, rfl⟩ := List.exists_cons_of_ne_nil hc
      rfl
    | false =>
      obtain ⟨c₁, hnext, hsuffix, W₁, -⟩ := nextChar_spec E
      have hlt := nextChar_shorter E hc W hnext
      simp only [Option.bind_eq_bind, Option.bind_some, hnext, Bool.false_eq_true, if_false]
      cases c₁ with
      | nil => exact ⟨[], rfl, List.nil_suffix, fun h => absurd rfl h⟩
      | cons x rest =>
        obtain ⟨c', hrest, hsuffix', hfound⟩ := ih (E.suffix hsuffix) (List.cons_ne_nil _ _) W₁ (by omega)
        exact ⟨c', hrest, hsuffix'.trans hsuffix, hfound⟩

theorem not_hasWord_nul {word : Bytes} : ¬ HasWord word [0] := by
  rintro ⟨b, rest, heq, hspace⟩
  cases word with
  | nil =>
    obtain ⟨rfl, -⟩ := List.cons.inj heq
    cases hspace
  | cons w word =>
    obtain ⟨-, hnil⟩ := List.cons.inj heq
    exact absurd hnil.symm (List.append_ne_nil_of_right_ne_nil _ (List.cons_ne_nil _ _))

/-- At the NUL nothing is found any more. -/
theorem findWordFrom_nul {word : Bytes} (hword : (0 : UInt8) ∉ word) {fuel : Nat} (hfuel : 0 < fuel) :
    findWordFrom word fuel [0] = some (false, []) := by
  obtain ⟨fuel, rfl⟩ := Nat.exists_eq_succ_of_ne_zero (Nat.pos_iff_ne_zero.mp hfuel)
  obtain ⟨b, htest, hb⟩ := testWord_spec (ends_buffer []) (List.cons_ne_nil _ _) hword
  have htest' : testWord word [0] = some b := htest
  cases b with
  | true => exact absurd (hb.mp rfl) not_hasWord_nul
  | false =>
    rw [findWordFrom, htest']
    rfl

/-- **`FindWord`** -/
theorem findWord_spec {word : Bytes} (hword : (0 : UInt8) ∉ word) {c : Cursor} (E : Ends c) :
    ∃ c', findWord word c = some (!c'.isEmpty, c') ∧ c' <:+ c ∧ (c' ≠ [] → HasWord word c') := by
  obtain ⟨c₁, hchar, hsuffix, -, W⟩ := findChar_spec E
  rw [findWord, hchar]
  cases c₁ with
  | nil => exact ⟨[], rfl, List.nil_suffix, fun h => absurd rfl h⟩
  | cons x rest =>
    obtain ⟨c', hloop, hsuffix', hfound⟩ := findWordFrom_spec hword (E.suffix hsuffix) (List.cons_ne_nil _ _) W
      (Nat.lt_succ_self _)
    exact ⟨c', hloop, hsuffix'.trans hsuffix, hfound⟩

/-! ## Lookups -/

section

variable {β : Type} (fail : β) (next : Cursor → Option β)

/-- Find a word, and go on there. -/
def search (word : Bytes) (c : Cursor) : Option β :=
  (findWord word c).bind fun x => if !x.1 then some fail else next x.2

/-- Call `NextChar`, and go on whatever it returns. -/
def behind (c : Cursor) : Option β := (nextChar c).bind fun x => next x.2

/-- The same, and go on if this byte is there. -/
def expect (mark : UInt8) (c : Cursor) : Option β :=
  behind (fun c => c.head?.bind fun b => if b ≠ mark then some fail else next c) c

end

theorem getValue_eq {α : Type} (read : α → Cursor → Option (Bool × α)) (value : α) (text : Cursor)
    (sectionName key : Bytes) :
    getValue read value text sectionName key =
      search (false, value) (expect (false, value)
        (search (false, value) (expect (false, value) (behind (read value)) 61) key) 123) sectionName text := rfl

section

variable {β : Type} {fail : β} {next : Cursor → Option β} {P : Cursor → Prop} {c : Cursor} (E : Ends c)
include E

theorem isSome_search {word : Bytes} (hword : (0 : UInt8) ∉ word)
    (hnext : ∀ c', Ends c' → ((next c').isSome = true ↔ P c')) :
    (search fail next word c).isSome = true ↔ ∀ c', findWord word c = some (true, c') → P c' := by
  obtain ⟨c', hfind, hsuffix, -⟩ := findWord_spec hword E
  rw [search, hfind, Option.bind_some]
  cases c' with
  | nil => exact iff_of_true rfl fun c' h => by cases h
  | cons x rest =>
    refine (hnext _ (E.suffix hsuffix)).trans ⟨fun h c' hc' => ?_, fun h => h _ rfl⟩
    obtain ⟨-, rfl⟩ := Prod.mk.inj (Option.some.inj hc')
    exact h

/-- If `NextChar` does not find anything, the next read goes wrong. -/
theorem isSome_behind (hnil : next [] = none)
    (hnext : ∀ c', Ends c' → c' ≠ [] → ((next c').isSome = true ↔ P c')) :
    (behind next c).isSome = true ↔ Continues c ∧ ∀ c', nextChar c = some (true, c') → P c' := by
  obtain ⟨c', hnextChar, hsuffix, -, hfound⟩ := nextChar_spec E
  rw [behind, hnextChar, Option.bind_some, ← hfound]
  cases c' with
  | nil => exact iff_of_false (by rw [hnil]; exact nofun) fun h => h.1 rfl
  | cons x rest =>
    have hne := List.cons_ne_nil x rest
    refine (hnext _ (E.suffix hsuffix) hne).trans ⟨fun h => ⟨hne, fun c' hc' => ?_⟩, fun h => h.2 _ rfl⟩
    obtain ⟨-, rfl⟩ := Prod.mk.inj (Option.some.inj hc')
    exact h

theorem isSome_expect {mark : UInt8} (hnext : ∀ c', Ends c' → ((next c').isSome = true ↔ P c')) :
    (expect fail next mark c).isSome = true ↔
      Continues c ∧ ∀ c', nextChar c = some (true, c') → c'.head? = some mark → P c' := by
  refine isSome_behind E rfl fun c' E' hne => ?_
  obtain ⟨x, rest, rfl⟩ := List.exists_cons_of_ne_nil hne
  rw [List.head?_cons, Option.bind_some, Option.some.injEq]
  by_cases hx : x = mark
  · rw [if_neg (not_not.mpr hx), hnext _ E']
    exact ⟨fun h _ => h, fun h => h hx⟩
  · rw [if_pos hx]
    exact iff_of_true rfl fun h => absurd h hx

end

theorem readDigits_isSome {c : Cursor} (E : Ends c) (hc : c ≠ []) (value : BitVec 32) :
    (readDigits value c).isSome = true := by
  induction c generalizing value with
  | nil => exact absurd rfl hc
  | cons x rest ih =>
    rw [readDigits]
    split
    · rename_i hdigit
      refine ih E.tail (E.ne_nil ?_) _
      rintro rfl
      exact absurd hdigit (by decide)
    · rfl

theorem readQuoted_isSome {c : Cursor} : (readQuoted c).isSome = true ↔ 34 ∈ c := by
  induction c with
  | nil => exact iff_of_false nofun nofun
  | cons x rest ih =>
    rw [readQuoted, List.mem_cons]
    split
    · rename_i hx
      exact iff_of_true rfl (.inl hx.symm)
    · rename_i hx
      rw [Option.isSome_map, ih]
      exact ⟨.inr, fun h => h.resolve_left fun h' => hx h'.symm⟩

theorem readQuoted_append {u rest : Bytes} (hu : (34 : UInt8) ∉ u) : readQuoted (u ++ 34 :: rest) = some u := by
  induction u with
  | nil => rfl
  | cons x u ih =>
    have hx : x ≠ 34 := fun hx => hu (by rw [hx]; exact List.mem_cons_self)
    rw [List.cons_append, readQuoted, if_neg hx, ih fun h => hu (List.mem_cons_of_mem _ h)]
    rfl

theorem getValueInt_isSome (value : BitVec 32) {c : Cursor} (E : Ends c) (hc : c ≠ []) :
    (getValueInt value c).isSome = true := by
  have hread := readDigits_isSome E hc 0
  obtain ⟨x, rest, rfl⟩ := List.exists_cons_of_ne_nil hc
  rw [getValueInt, List.head?_cons, Option.bind_eq_bind, Option.bind_some]
  split
  · obtain ⟨v, hv⟩ := Option.isSome_iff_exists.mp hread
    rw [hv]
    rfl
  · rfl

theorem getValueStr_isSome (value : Bytes) {c : Cursor} (hc : c ≠ []) :
    (getValueStr value c).isSome = true ↔ Closed c := by
  obtain ⟨x, rest, rfl⟩ := List.exists_cons_of_ne_nil hc
  rw [getValueStr, Closed, List.head?_cons, List.tail_cons, ← readQuoted_isSome, Option.bind_eq_bind,
    Option.bind_some]
  by_cases hx : x = 34
  · rw [if_pos hx]
    cases readQuoted rest with
    | none => exact iff_of_false nofun fun h => nomatch h (congrArg some hx)
    | some v => exact iff_of_true rfl fun _ => rfl
  · rw [if_neg hx]
    exact iff_of_true rfl fun h => absurd (Option.some.inj h) hx

/-- **A lookup**, by what it reads with. -/
theorem getValue_isSome {α : Type} {read : α → Cursor → Option (Bool × α)} {Readable : Cursor → Prop} {value : α}
    (hread : ∀ c, Ends c → c ≠ [] → ((read value c).isSome = true ↔ Readable c)) (hnil : read value [] = none)
    {text : Cursor} (E : Ends text) (sectionName key : Str) :
    (getValue read value text sectionName.bytes key.bytes).isSome = true ↔
      Stays Readable text sectionName.bytes key.bytes := by
  rw [getValue_eq]
  refine isSome_search E sectionName.noNul fun c E => ?_
  refine isSome_expect E fun c₁ E₁ => ?_
  refine isSome_search E₁ key.noNul fun c₂ E₂ => ?_
  refine isSome_expect E₂ fun c₃ E₃ => ?_
  exact isSome_behind E₃ hnil hread

/-- **The parser stays inside its file**, and its loops end, exactly if no read goes wrong: for the `int`
    and for the string. -/
theorem reads_inside_iff (file : Bytes) (sectionName key : Str) (n : BitVec 32) (s : Bytes) :
    ((getValue getValueInt n (buffer file) sectionName.bytes key.bytes).isSome = true ↔
      Stays (fun _ => True) (buffer file) sectionName.bytes key.bytes) ∧
    ((getValue getValueStr s (buffer file) sectionName.bytes key.bytes).isSome = true ↔
      Stays Closed (buffer file) sectionName.bytes key.bytes) :=
  ⟨getValue_isSome (fun c E hc => iff_of_true (getValueInt_isSome n E hc) trivial) rfl (ends_buffer file) _ _,
    getValue_isSome (fun c _ hc => getValueStr_isSome s hc) rfl (ends_buffer file) _ _⟩

/-- `S //` and the end of the file. -/
theorem read_behind_end : ¬ ∀ (file : Bytes) (sectionName key : Str) (n : BitVec 32),
    (getValue getValueInt n (buffer file) sectionName.bytes key.bytes).isSome = true := fun h =>
  absurd (h [83, 32, 47, 47] ⟨[83], by decide⟩ ⟨[75], by decide⟩ 0) (by decide)

end JunCore.Parser
