/-
  `JunCommon/algorithm/Parser.h`: the format of a configuration file, and lookups in it.

  A file is sections, each with its entries between braces (`Config`), and its text is their tokens with
  blanks between them (`Lays`).  `GetValue` does not look for the closing brace: it finds the first word
  behind the section's name that is the key, in whatever section that is (`Config.flat`).  And it does not
  read a number with a minus sign.  So it answers what is in the section exactly if the key is there and
  can be read, or is not met in the sections behind it either (`sections_respected`).
-/
import JunCore.Common.Parser

set_option linter.unusedVariables false

namespace JunCore.Parser

open CString Decimal

/-! ## The format -/

def IsLetter (c : UInt8) : Prop := (65 ≤ c.toNat ∧ c.toNat ≤ 90) ∨ (97 ≤ c.toNat ∧ c.toNat ≤ 122)

instance (c : UInt8) : Decidable (IsLetter c) := inferInstanceAs (Decidable (_ ∨ _))

/-- A name: a letter, and then letters, digits and underscores. -/
structure Ident where
  first : UInt8
  rest : Bytes
  letter : IsLetter first
  chars : ∀ c ∈ rest, IsLetter c ∨ IsDigit c ∨ c = 95
  deriving DecidableEq

def Ident.text (w : Ident) : Bytes := w.first :: w.rest

/-- A decimal number, perhaps with a minus sign, in the range of an `int`. -/
structure IntToken where
  negative : Bool
  digits : Bytes
  ne : digits ≠ []
  isDigit : ∀ c ∈ digits, IsDigit c
  range : value digits < 2147483648 + if negative then 1 else 0
  deriving DecidableEq

def IntToken.toInt (t : IntToken) : Int := if t.negative then -(value t.digits : Int) else value t.digits

/-- A string without blanks, quotes and slashes. -/
structure StrToken where
  bytes : Bytes
  plain : ∀ c ∈ bytes, isSpace c = false ∧ c ≠ 34 ∧ c ≠ 47
  deriving DecidableEq

inductive Value
  | int (t : IntToken)
  | str (t : StrToken)
  deriving DecidableEq

def Value.text : Value → Bytes
  | .int t => (if t.negative then [45] else []) ++ t.digits
  | .str t => 34 :: (t.bytes ++ [34])

/-- The value for the overload that takes it. -/
def Value.int? : Value → Option (BitVec 32)
  | .int t => some (BitVec.ofInt 32 t.toInt)
  | .str _ => none

def Value.str? : Value → Option Bytes
  | .int _ => none
  | .str t => some t.bytes

structure Entry where
  key : Ident
  value : Value
  deriving DecidableEq

structure Section where
  name : Ident
  entries : List Entry
  keysDistinct : (entries.map Entry.key).Nodup
  deriving DecidableEq

structure Config where
  sections : List Section
  namesDistinct : (sections.map Section.name).Nodup
  noKeyIsName : ∀ s ∈ sections, ∀ e ∈ s.entries, ∀ s' ∈ sections, e.key ≠ s'.name

/-- The value of a key in a section. -/
def Section.find (s : Section) (key : Ident) : Option Value :=
  (s.entries.find? (·.key = key)).map Entry.value

/-- **What is asked for**: the value of the key in the section with this name. -/
def Config.lookup (cfg : Config) (name key : Ident) : Option Value :=
  (cfg.sections.find? (·.name = name)).bind (·.find key)

/-! ## Its text -/

inductive Token
  | word (w : Ident)
  | opening
  | closing
  | equals
  | value (v : Value)
  deriving DecidableEq

def Token.text : Token → Bytes
  | .word w => w.text
  | .opening => [123]
  | .closing => [125]
  | .equals => [61]
  | .value v => v.text

def Entry.tokens (e : Entry) : List Token := [.word e.key, .equals, .value e.value]

def Section.tokens (s : Section) : List Token :=
  .word s.name :: .opening :: (s.entries.flatMap Entry.tokens ++ [.closing])

def Config.tokens (cfg : Config) : List Token := cfg.sections.flatMap Section.tokens

/-- The text of tokens, each but the last one followed by blanks. -/
inductive Spells : List Token → Bytes → Prop
  | nil : Spells [] []
  | cons {t : Token} {sep : Bytes} {ts : List Token} {body : Bytes} (hsep : ∀ b ∈ sep, isSpace b = true)
      (hne : ts ≠ [] → sep ≠ []) (hrest : Spells ts body) : Spells (t :: ts) (t.text ++ (sep ++ body))

/-- The text of a file with these tokens. -/
def Lays (ts : List Token) (text : Bytes) : Prop :=
  ∃ lead body, (∀ b ∈ lead, isSpace b = true) ∧ Spells ts body ∧ text = lead ++ body

/-! ## What is found -/

/-- The first word in these sections that is the key: its value, if it is a key there. -/
def later (key : Ident) : List Section → Option Value
  | [] => none
  | s :: rest =>
    if s.name = key then none
    else match s.find key with
      | some v => some v
      | none => later key rest

/-- The value that is behind the key which comes first behind the section's name. -/
def Config.flat (cfg : Config) (name key : Ident) : Option Value :=
  match cfg.sections.dropWhile (·.name ≠ name) with
  | [] => none
  | s :: rest =>
    match s.find key with
    | some v => some v
    | none => later key rest

def Value.HasMinus : Value → Prop
  | .int t => t.negative = true
  | .str _ => False

def Value.IsStr : Value → Prop
  | .int _ => False
  | .str _ => True

/-- **The condition for the `int`**: the value in the section has no minus sign; or the key is not in the
    section, and what comes first behind it is not a number without one. -/
def Config.SeesInt (cfg : Config) (name key : Ident) : Prop :=
  match cfg.lookup name key with
  | some v => ¬ v.HasMinus
  | none => ∀ v, cfg.flat name key = some v → v.HasMinus ∨ v.IsStr

/-- **The condition for the string**: the key is in the section, or what comes first behind it is not a
    string. -/
def Config.SeesStr (cfg : Config) (name key : Ident) : Prop :=
  match cfg.lookup name key with
  | some _ => True
  | none => ∀ v, cfg.flat name key = some v → ¬ v.IsStr

/-- True with the value, or false. -/
def Answers {α : Type} (r : Option (Bool × α)) (answer : Option α) : Prop :=
  ∃ found x, r = some (found, x) ∧ answer = if found then some x else none

/-! ## Tokens -/

/-- Bytes that no scan stops at, or takes for a comment. -/
structure Solid (t : Bytes) : Prop where
  ne : t ≠ []
  bytes : ∀ b ∈ t, isSpace b = false ∧ b ≠ 47

theorem solid_singleton {b : UInt8} (hspace : isSpace b = false) (hslash : b ≠ 47) : Solid [b] := by
  refine ⟨List.cons_ne_nil _ _, fun x hx => ?_⟩
  rw [List.mem_singleton.mp hx]
  exact ⟨hspace, hslash⟩

/-- The blanks and the slash are before the digits and the letters. -/
theorem not_space_of_le {c : UInt8} (h : 48 ≤ c.toNat) : isSpace c = false ∧ c ≠ 47 := by
  have hbytes : ∀ b : UInt8, b.toNat < 48 → c ≠ b := fun b hb heq => by
    subst heq
    omega
  refine ⟨?_, hbytes 47 (by decide)⟩
  rw [isSpace, beq_false_of_ne (hbytes 32 (by decide)), beq_false_of_ne (hbytes 10 (by decide)),
    beq_false_of_ne (hbytes 9 (by decide))]
  rfl

theorem not_space_of_letter {c : UInt8} (h : IsLetter c) : isSpace c = false ∧ c ≠ 47 :=
  not_space_of_le (by unfold IsLetter at h; omega)

theorem not_space_of_digit {c : UInt8} (h : IsDigit c) : isSpace c = false ∧ c ≠ 47 := not_space_of_le h.1

theorem Ident.solid (w : Ident) : Solid w.text where
  ne := List.cons_ne_nil _ _
  bytes b hb := by
    rcases List.mem_cons.mp hb with rfl | hb
    · exact not_space_of_letter w.letter
    · rcases w.chars b hb with h | h | rfl
      · exact not_space_of_letter h
      · exact not_space_of_digit h
      · decide

theorem Ident.noNul (w : Ident) : (0 : UInt8) ∉ w.text := by
  intro h
  rcases List.mem_cons.mp h with h | h
  · exact absurd (h ▸ w.letter) (by decide)
  · exact absurd (w.chars 0 h) (by decide)

theorem Value.solid (v : Value) : Solid v.text := by
  cases v with
  | int t =>
    refine ⟨List.append_ne_nil_of_right_ne_nil _ t.ne, fun b hb => ?_⟩
    rcases List.mem_append.mp hb with hb | hb
    · split at hb
      · rw [List.mem_singleton.mp hb]
        decide
      · cases hb
    · exact not_space_of_digit (t.isDigit b hb)
  | str t =>
    refine ⟨List.cons_ne_nil _ _, fun b hb => ?_⟩
    rcases List.mem_cons.mp hb with rfl | hb
    · decide
    · rcases List.mem_append.mp hb with hb | hb
      · exact ⟨(t.plain b hb).1, (t.plain b hb).2.2⟩
      · rw [List.mem_singleton.mp hb]
        decide

theorem Token.solid (t : Token) : Solid t.text := by
  cases t with
  | word w => exact w.solid
  | value v => exact v.solid
  | opening => exact solid_singleton rfl (by decide)
  | closing => exact solid_singleton rfl (by decide)
  | equals => exact solid_singleton rfl (by decide)

/-- A value does not begin with a letter. -/
theorem Value.head_not_letter (v : Value) : ∀ b, v.text.head? = some b → ¬ IsLetter b := by
  intro b hb
  cases v with
  | int t =>
    obtain ⟨negative, digits, hne, hdigit, hrange⟩ := t
    obtain ⟨d, ds, rfl⟩ := List.exists_cons_of_ne_nil hne
    cases negative with
    | true =>
      obtain rfl : 45 = b := Option.some.inj hb
      decide
    | false =>
      obtain rfl : d = b := Option.some.inj hb
      have hd := hdigit d List.mem_cons_self
      unfold IsDigit at hd
      unfold IsLetter
      omega
  | str t =>
    obtain rfl : 34 = b := Option.some.inj hb
    decide

/-- Only a word has the text of a word. -/
theorem Token.text_eq_iff (t : Token) (w : Ident) : t.text = w.text ↔ t = .word w := by
  have hletter : ∀ t : Token, (∀ b, t.text.head? = some b → ¬ IsLetter b) → t.text ≠ w.text := fun t h heq =>
    h w.first (by rw [heq]; rfl) w.letter
  cases t with
  | word w' =>
    rw [Token.word.injEq]
    refine ⟨fun h => ?_, fun h => by rw [h]; rfl⟩
    obtain ⟨hfirst, hrest⟩ := List.cons.inj h
    obtain ⟨first, rest, hl, hc⟩ := w
    obtain ⟨first', rest', hl', hc'⟩ := w'
    dsimp only at hfirst hrest
    subst hfirst hrest
    rfl
  | value v => exact iff_of_false (hletter (.value v) v.head_not_letter) nofun
  | opening => exact iff_of_false (hletter .opening fun b hb => Option.some.inj hb ▸ by decide) nofun
  | closing => exact iff_of_false (hletter .closing fun b hb => Option.some.inj hb ▸ by decide) nofun
  | equals => exact iff_of_false (hletter .equals fun b hb => Option.some.inj hb ▸ by decide) nofun

/-! ## Scans over tokens -/

theorem isComment_of_ne {x : UInt8} {rest : Cursor} (h : x ≠ 47) : isComment (x :: rest) = some false := by
  rw [isComment, if_neg h]

theorem findSpace_solid {t : Bytes} (h : ∀ b ∈ t, isSpace b = false ∧ b ≠ 47) (c : Cursor) :
    findSpace (t ++ c) = findSpace c := by
  induction t with
  | nil => rfl
  | cons x t ih =>
    obtain ⟨hspace, hslash⟩ := h x List.mem_cons_self
    rw [List.cons_append, findSpace, scan_byte (isComment_of_ne hslash), hspace, if_neg (by decide)]
    exact ih fun b hb => h b (List.mem_cons_of_mem _ hb)

theorem ne_slash_of_space {b : UInt8} (h : isSpace b = true) : b ≠ 47 := by
  rintro rfl
  cases h

theorem findChar_blanks {sep : Bytes} (h : ∀ b ∈ sep, isSpace b = true) (c : Cursor) :
    findChar (sep ++ c) = findChar c := by
  induction sep with
  | nil => rfl
  | cons x sep ih =>
    have hx := h x List.mem_cons_self
    rw [List.cons_append, findChar, scan_byte (isComment_of_ne (ne_slash_of_space hx)), hx, Bool.not_true,
      if_neg (by decide)]
    exact ih fun b hb => h b (List.mem_cons_of_mem _ hb)

theorem findChar_at {x : UInt8} {rest : Cursor} (hspace : isSpace x = false) (hslash : x ≠ 47) :
    findChar (x :: rest) = some (true, x :: rest) := by
  rw [findChar, scan_byte (isComment_of_ne hslash), hspace, Bool.not_false, if_pos rfl]

/-- The cursor is where these tokens begin. -/
def At (ts : List Token) (c : Cursor) : Prop := ∃ body, Spells ts body ∧ c = body ++ [0]

/-- There is a byte at a cursor, and it is not a blank. -/
theorem At.head {ts : List Token} {c : Cursor} (A : At ts c) :
    ∃ x rest, c = x :: rest ∧ isSpace x = false ∧ x ≠ 47 := by
  obtain ⟨body, hbody, rfl⟩ := A
  cases hbody with
  | nil => exact ⟨0, [], rfl, rfl, by decide⟩
  | @cons t sep ts body hsep hne hrest =>
    obtain ⟨x, rest, heq⟩ := List.exists_cons_of_ne_nil t.solid.ne
    rw [heq]
    have hx := t.solid.bytes x (heq ▸ List.mem_cons_self)
    exact ⟨x, _, rfl, hx.1, hx.2⟩

theorem At.findChar {ts : List Token} {c : Cursor} (A : At ts c) : findChar c = some (true, c) := by
  obtain ⟨x, rest, rfl, hspace, hslash⟩ := A.head
  exact findChar_at hspace hslash

theorem At.ends {ts : List Token} {c : Cursor} (A : At ts c) : Ends c := by
  obtain ⟨body, -, rfl⟩ := A
  exact ends_buffer body

/-- The token that the cursor is at, and what follows. -/
theorem At.uncons {t : Token} {ts : List Token} {c : Cursor} (A : At (t :: ts) c) :
    ∃ sep c', c = t.text ++ (sep ++ c') ∧ (∀ b ∈ sep, isSpace b = true) ∧ (ts ≠ [] → sep ≠ []) ∧ At ts c' := by
  obtain ⟨body, hbody, rfl⟩ := A
  cases hbody with
  | @cons _ sep _ body hsep hne hrest =>
    exact ⟨sep, body ++ [0], by simp only [List.append_assoc], hsep, hne, body, hrest, rfl⟩

/-- **`NextChar`** goes on to the next token. -/
theorem At.nextChar {t : Token} {ts : List Token} {c : Cursor} (A : At (t :: ts) c) (hts : ts ≠ []) :
    ∃ c', At ts c' ∧ nextChar c = some (true, c') := by
  obtain ⟨sep, c', rfl, hsep, hne, A'⟩ := A.uncons
  obtain ⟨b, sep', rfl⟩ := List.exists_cons_of_ne_nil (hne hts)
  have hb := hsep b List.mem_cons_self
  refine ⟨c', A', ?_⟩
  rw [Parser.nextChar, findSpace_solid t.solid.bytes, List.cons_append, findSpace,
    scan_byte (isComment_of_ne (ne_slash_of_space hb)), if_pos hb]
  show Parser.findChar ((b :: sep') ++ c') = _
  rw [findChar_blanks hsep, A'.findChar]

/-- Behind the last token there is the NUL, or the end. -/
theorem At.nextChar_last {t : Token} {c : Cursor} (A : At [t] c) :
    Parser.nextChar c = some (false, []) ∨ Parser.nextChar c = some (true, [0]) := by
  obtain ⟨sep, c', rfl, hsep, -, A'⟩ := A.uncons
  obtain ⟨body, hbody, rfl⟩ := A'
  cases hbody
  rw [Parser.nextChar, findSpace_solid t.solid.bytes]
  cases sep with
  | nil => exact .inl rfl
  | cons b sep =>
    have hb := hsep b List.mem_cons_self
    rw [List.cons_append, findSpace, scan_byte (isComment_of_ne (ne_slash_of_space hb)), if_pos hb]
    exact .inr (findChar_blanks hsep [0])

/-- Words without blanks that are followed by a blank are equal if they begin at the same place. -/
theorem eq_of_append_eq {u v : Bytes} {a b : UInt8} {r s : Bytes} (h : u ++ a :: r = v ++ b :: s)
    (hu : ∀ x ∈ u, isSpace x = false) (hv : ∀ x ∈ v, isSpace x = false) (ha : isSpace a = true)
    (hb : isSpace b = true) : u = v := by
  have hword : ∀ (w : Bytes) x t, (∀ y ∈ w, isSpace y = false) → isSpace x = true →
      (w ++ x :: t).takeWhile (fun y => !isSpace y) = w := fun w x t hw hx => by
    rw [List.takeWhile_append_of_pos fun y hy => by rw [hw y hy]; rfl,
      List.takeWhile_cons_of_neg (by rw [hx]; decide), List.append_nil]
  rw [← hword u a r hu ha, h, hword v b s hv hb]

/-- **A token is tested**: it is found if it is the word. -/
theorem At.testWord {t : Token} {ts : List Token} {c : Cursor} (A : At (t :: ts) c) (w : Ident)
    (h : ts ≠ [] ∨ t ≠ .word w) :
    testWord w.text c = some (decide (t = .word w)) := by
  obtain ⟨x, rest, heq, -, -⟩ := A.head
  obtain ⟨b, htest, hb⟩ := testWord_spec A.ends (heq ▸ List.cons_ne_nil _ _) w.noNul
  obtain ⟨sep, c', rfl, hsep, hne, A'⟩ := A.uncons
  have hsolid : ∀ y ∈ t.text, isSpace y = false := fun y hy => (t.solid.bytes y hy).1
  have hplain : ∀ y ∈ w.text, isSpace y = false := fun y hy => (w.solid.bytes y hy).1
  rw [htest, Option.some.injEq]
  by_cases ht : t = .word w
  · rw [decide_eq_true ht, hb]
    obtain ⟨s, sep', rfl⟩ := List.exists_cons_of_ne_nil (hne (h.resolve_right fun h' => h' ht))
    exact ⟨s, sep' ++ c', by rw [ht]; rfl, hsep s List.mem_cons_self⟩
  · rw [decide_eq_false ht, ← Bool.not_eq_true, hb]
    rintro ⟨y, rest', heq', hy⟩
    cases sep with
    | cons s sep =>
      exact ht ((t.text_eq_iff w).mp (eq_of_append_eq heq' hsolid hplain (hsep s List.mem_cons_self) hy))
    | nil =>
      -- there is no blank behind the last token
      have hts : ts = [] := Classical.byContradiction fun h' => hne h' rfl
      subst hts
      obtain ⟨body, hbody, rfl⟩ := A'
      cases hbody
      have hmem : y ∈ t.text ++ ([] ++ ([] ++ [0])) := by
        rw [heq']
        exact List.mem_append_right _ List.mem_cons_self
      rcases List.mem_append.mp hmem with hmem | hmem
      · rw [hsolid y hmem] at hy
        cases hy
      · rw [List.mem_singleton.mp hmem] at hy
        cases hy

/-! ## Lookups over tokens -/

/-- The tokens from the first one on that is the word. -/
def fromWord (w : Ident) (ts : List Token) : List Token := ts.dropWhile (· ≠ .word w)

/-- **`FindWord`** finds the first token that is the word. -/
theorem findWordFrom_at {w : Ident} {fuel : Nat} {ts : List Token} {c : Cursor} (A : At ts c) (hts : ts ≠ [])
    (hlast : ts.getLast? ≠ some (.word w)) (hfuel : c.length < fuel) :
    (fromWord w ts = [] ∧ findWordFrom w.text fuel c = some (false, [])) ∨
      ∃ c', At (fromWord w ts) c' ∧ fromWord w ts ≠ [] ∧ findWordFrom w.text fuel c = some (true, c') := by
  induction ts generalizing fuel c with
  | nil => exact absurd rfl hts
  | cons t ts ih =>
    obtain ⟨fuel, rfl⟩ := Nat.exists_eq_succ_of_ne_zero (by omega : fuel ≠ 0)
    have htest := A.testWord w (by
      by_cases h : ts = []
      · exact .inr fun ht => hlast (by rw [h, ht]; rfl)
      · exact .inl h)
    rw [findWordFrom, htest]
    by_cases ht : t = .word w
    · rw [decide_eq_true ht]
      have hfrom : fromWord w (t :: ts) = t :: ts := List.dropWhile_cons_of_neg (by simp [ht])
      rw [hfrom]
      exact .inr ⟨c, A, List.cons_ne_nil _ _, rfl⟩
    · rw [decide_eq_false ht]
      have hfrom : fromWord w (t :: ts) = fromWord w ts := List.dropWhile_cons_of_pos (by simp [ht])
      rw [hfrom]
      cases ts with
      | nil =>
        refine .inl ⟨rfl, ?_⟩
        obtain ⟨x, rest, rfl, -, -⟩ := A.head
        rw [List.length_cons] at hfuel
        rcases A.nextChar_last with h | h
        · simp only [Option.bind_eq_bind, Option.bind_some, h, Bool.false_eq_true, if_false]
          rfl
        · simp only [Option.bind_eq_bind, Option.bind_some, h, Bool.false_eq_true, if_false, if_true]
          exact findWordFrom_nul w.noNul (by omega)
      | cons t' ts =>
        obtain ⟨c', A', hnext⟩ := A.nextChar (List.cons_ne_nil _ _)
        obtain ⟨x, rest, heq, hspace, hslash⟩ := A.head
        have hlt := nextChar_shorter A.ends (heq ▸ List.cons_ne_nil _ _)
          ⟨fun y hy => by
            rw [heq] at hy
            rw [← Option.some.inj hy, hspace]
            rfl,
          fun _ => by rw [heq]; exact isComment_of_ne hslash⟩ hnext
        simp only [Option.bind_eq_bind, Option.bind_some, hnext, Bool.false_eq_true, if_false, if_true]
        exact ih A' (List.cons_ne_nil _ _) (by rwa [List.getLast?_cons_cons] at hlast) (by omega)

section

variable {β : Type} (fail : β) (next : Cursor → Option β)

/-- The search from blanks before the tokens on. -/
theorem search_at {w : Ident} {ts : List Token} {lead : Bytes} {c : Cursor} (hlead : ∀ b ∈ lead, isSpace b = true)
    (A : At ts c) (hlast : ts.getLast? ≠ some (.word w)) :
    (fromWord w ts = [] ∧ search fail next w.text (lead ++ c) = some fail) ∨
      ∃ c', At (fromWord w ts) c' ∧ fromWord w ts ≠ [] ∧ search fail next w.text (lead ++ c) = next c' := by
  have hchar : findChar (lead ++ c) = some (true, c) := by rw [findChar_blanks hlead, A.findChar]
  rw [search, findWord, hchar]
  cases ts with
  | nil =>
    obtain ⟨body, hbody, rfl⟩ := A
    cases hbody
    refine .inl ⟨rfl, ?_⟩
    simp only [Option.bind_eq_bind, Option.bind_some, if_true, List.nil_append]
    rw [findWordFrom_nul w.noNul (by decide)]
    rfl
  | cons t ts =>
    simp only [Option.bind_eq_bind, Option.bind_some, if_true]
    rcases findWordFrom_at A (List.cons_ne_nil _ _) hlast (Nat.lt_succ_self _) with ⟨hnil, h⟩ | ⟨c', A', hne, h⟩
    · exact .inl ⟨hnil, by rw [h]; rfl⟩
    · exact .inr ⟨c', A', hne, by rw [h]; rfl⟩

theorem behind_at {t : Token} {ts : List Token} {c : Cursor} (A : At (t :: ts) c) (hts : ts ≠ []) :
    ∃ c', At ts c' ∧ behind next c = next c' := by
  obtain ⟨c', A', hnext⟩ := A.nextChar hts
  exact ⟨c', A', by rw [behind, hnext]; rfl⟩

/-- The next token is looked at. -/
theorem expect_at (mark : UInt8) {t t' : Token} {ts : List Token} {c : Cursor} (A : At (t :: t' :: ts) c) :
    ∃ c', At (t' :: ts) c' ∧
      expect fail next mark c = if t'.text.head? = some mark then next c' else some fail := by
  obtain ⟨c', A', hbehind⟩ := behind_at (fun c => c.head?.bind fun b => if b ≠ mark then some fail else next c)
    A (List.cons_ne_nil _ _)
  refine ⟨c', A', hbehind.trans ?_⟩
  obtain ⟨sep, c'', rfl, -, -, -⟩ := A'.uncons
  obtain ⟨x, rest, heq⟩ := List.exists_cons_of_ne_nil t'.solid.ne
  rw [heq, List.cons_append, List.head?_cons, List.head?_cons, Option.bind_some]
  by_cases hx : x = mark
  · rw [if_neg (not_not.mpr hx), if_pos (congrArg some hx)]
  · rw [if_pos hx, if_neg fun h => hx (Option.some.inj h)]

end

/-! ## Sections -/

theorem fromWord_cons_ne {w : Ident} {t : Token} {ts : List Token} (h : t ≠ .word w) :
    fromWord w (t :: ts) = fromWord w ts := List.dropWhile_cons_of_pos (by simp [h])

theorem fromWord_cons_eq {w : Ident} {ts : List Token} : fromWord w (.word w :: ts) = .word w :: ts :=
  List.dropWhile_cons_of_neg (by simp)

/-- The key among some entries, or behind them. -/
theorem fromWord_entries (key : Ident) (entries : List Entry) (ts : List Token) :
    (∃ v ts', (entries.find? (·.key = key)).map Entry.value = some v ∧
      fromWord key (entries.flatMap Entry.tokens ++ ts) = .word key :: .equals :: .value v :: (ts' ++ ts)) ∨
    ((entries.find? (·.key = key)).map Entry.value = none ∧
      fromWord key (entries.flatMap Entry.tokens ++ ts) = fromWord key ts) := by
  induction entries with
  | nil => exact .inr ⟨rfl, rfl⟩
  | cons e entries ih =>
    rw [List.flatMap_cons, List.append_assoc]
    by_cases he : e.key = key
    · refine .inl ⟨e.value, entries.flatMap Entry.tokens, ?_, ?_⟩
      · rw [List.find?_cons_of_pos (by simp [he])]
        rfl
      · rw [← he]
        exact fromWord_cons_eq
    · rw [List.find?_cons_of_neg (by simp [he])]
      have hpass : fromWord key (e.tokens ++ (entries.flatMap Entry.tokens ++ ts)) =
          fromWord key (entries.flatMap Entry.tokens ++ ts) := by
        show fromWord key (.word e.key :: .equals :: .value e.value :: _) = _
        rw [fromWord_cons_ne (by simp [he]), fromWord_cons_ne (by simp), fromWord_cons_ne (by simp)]
        rfl
      rw [hpass]
      exact ih

/-- The key in a section behind its name, or behind it. -/
theorem fromWord_section (s : Section) (key : Ident) (ts : List Token) :
    (∃ v ts', s.find key = some v ∧
      fromWord key (.opening :: (s.entries.flatMap Entry.tokens ++ (.closing :: ts))) =
        .word key :: .equals :: .value v :: (ts' ++ .closing :: ts)) ∨
    (s.find key = none ∧
      fromWord key (.opening :: (s.entries.flatMap Entry.tokens ++ (.closing :: ts))) = fromWord key ts) := by
  rw [fromWord_cons_ne (by simp)]
  rcases fromWord_entries key s.entries (.closing :: ts) with ⟨v, ts', hfind, hfrom⟩ | ⟨hfind, hfrom⟩
  · exact .inl ⟨v, ts', hfind, hfrom⟩
  · exact .inr ⟨hfind, by rw [hfrom, fromWord_cons_ne (by simp)]⟩

theorem tokens_cons (s : Section) (ss : List Section) : (s :: ss).flatMap Section.tokens =
    .word s.name :: .opening :: (s.entries.flatMap Entry.tokens ++ (.closing :: ss.flatMap Section.tokens)) := by
  rw [List.flatMap_cons, Section.tokens, List.cons_append, List.cons_append, List.append_assoc,
    List.singleton_append]

/-- The first word in some sections that is the key: none, a section's name, or a key with its value. -/
theorem fromWord_sections (key : Ident) (ss : List Section) :
    (later key ss = none ∧ (fromWord key (ss.flatMap Section.tokens) = [] ∨
      ∃ ts, fromWord key (ss.flatMap Section.tokens) = .word key :: .opening :: ts ∧ ∃ s ∈ ss, s.name = key)) ∨
    ∃ v ts, later key ss = some v ∧ ts ≠ [] ∧
      fromWord key (ss.flatMap Section.tokens) = .word key :: .equals :: .value v :: ts := by
  induction ss with
  | nil => exact .inl ⟨rfl, .inl rfl⟩
  | cons s ss ih =>
    rw [tokens_cons, later]
    by_cases hs : s.name = key
    · rw [if_pos hs, hs, fromWord_cons_eq]
      exact .inl ⟨rfl, .inr ⟨_, rfl, s, List.mem_cons_self, hs⟩⟩
    · rw [if_neg hs, fromWord_cons_ne (by simp [hs])]
      rcases fromWord_section s key (ss.flatMap Section.tokens) with ⟨v, ts', hfind, hfrom⟩ | ⟨hfind, hfrom⟩
      · rw [hfind, hfrom]
        exact .inr ⟨v, _, rfl, List.append_ne_nil_of_right_ne_nil _ (List.cons_ne_nil _ _), rfl⟩
      · rw [hfind, hfrom]
        refine ih.imp (And.imp_right (Or.imp_right ?_)) id
        rintro ⟨ts, hts, s', hmem, hname⟩
        exact ⟨ts, hts, s', List.mem_cons_of_mem _ hmem, hname⟩

/-- A section's name is found at the section, if it is no key. -/
theorem fromWord_name {name : Ident} {ss : List Section} (h : ∀ s ∈ ss, ∀ e ∈ s.entries, e.key ≠ name) :
    fromWord name (ss.flatMap Section.tokens) = (ss.dropWhile (·.name ≠ name)).flatMap Section.tokens := by
  induction ss with
  | nil => rfl
  | cons s ss ih =>
    by_cases hs : s.name = name
    · rw [List.dropWhile_cons_of_neg (by simp [hs]), tokens_cons, hs, fromWord_cons_eq]
    · rw [List.dropWhile_cons_of_pos (by simp [hs]), tokens_cons, fromWord_cons_ne (by simp [hs])]
      rcases fromWord_section s name (ss.flatMap Section.tokens) with ⟨v, ts', hfind, -⟩ | ⟨-, hfrom⟩
      · obtain ⟨e, he, -⟩ := Option.map_eq_some_iff.mp hfind
        have hkey : e.key = name := by simpa using List.find?_some he
        exact absurd hkey (h s List.mem_cons_self e (List.mem_of_find?_eq_some he))
      · rw [hfrom, ih fun s' hs' => h s' (List.mem_cons_of_mem _ hs')]

theorem getLast?_tokens (ss : List Section) (w : Ident) :
    (ss.flatMap Section.tokens).getLast? ≠ some (.word w) := by
  induction ss with
  | nil => exact nofun
  | cons s ss ih =>
    rw [List.flatMap_cons, List.getLast?_append]
    cases h : (ss.flatMap Section.tokens).getLast? with
    | some t =>
      rw [h] at ih
      exact ih
    | none =>
      rw [Option.none_or, Section.tokens, List.getLast?_cons_cons, ← List.cons_append, List.getLast?_concat]
      exact nofun

/-! ## Answers -/

theorem Answers.unique {α : Type} {r : Option (Bool × α)} {answer answer' : Option α} (h : Answers r answer)
    (h' : Answers r answer') : answer = answer' := by
  obtain ⟨found, x, hr, rfl⟩ := h
  obtain ⟨found', x', hr', rfl⟩ := h'
  obtain ⟨rfl, rfl⟩ := Prod.mk.inj (Option.some.inj (hr.symm.trans hr'))
  rfl

theorem lookup_eq (cfg : Config) (name key : Ident) : cfg.lookup name key =
    match cfg.sections.dropWhile (·.name ≠ name) with
    | [] => none
    | s :: _ => s.find key := by
  rw [Config.lookup, List.find?_eq_head?_dropWhile_not]
  have hsame : (cfg.sections.dropWhile fun s => !decide (s.name = name)) =
      cfg.sections.dropWhile fun s => decide (s.name ≠ name) := by
    congr 1
    funext s
    rw [decide_not]
  rw [hsame]
  cases cfg.sections.dropWhile fun s => decide (s.name ≠ name) <;> rfl

section

variable {α : Type} {read : α → Cursor → Option (Bool × α)} {reads : Value → Option α} {value : α}
  (hread : ∀ (v : Value) b rest, isSpace b = true → Answers (read value (v.text ++ b :: rest)) (reads v))
include hread

/-- At the key. -/
theorem key_answers {key : Ident} {v : Value} {ts : List Token} {c : Cursor} (hts : ts ≠ [])
    (A : At (.word key :: .equals :: .value v :: ts) c) :
    Answers (expect (false, value) (behind (read value)) 61 c) (reads v) := by
  obtain ⟨c₁, A₁, h₁⟩ := expect_at (false, value) (behind (read value)) 61 A
  rw [h₁, if_pos (show Token.equals.text.head? = some 61 from rfl)]
  obtain ⟨c₂, A₂, h₂⟩ := behind_at (read value) A₁ (List.cons_ne_nil _ _)
  rw [h₂]
  obtain ⟨sep, c₃, rfl, hsep, hne, -⟩ := A₂.uncons
  obtain ⟨b, sep, rfl⟩ := List.exists_cons_of_ne_nil (hne hts)
  exact hread v b _ (hsep b List.mem_cons_self)

/-- At the opening brace of a section. -/
theorem section_answers {s : Section} {rest : List Section} {key : Ident} {c : Cursor}
    (A : At (.opening :: (s.entries.flatMap Entry.tokens ++ (.closing :: rest.flatMap Section.tokens))) c) :
    Answers (search (false, value) (expect (false, value) (behind (read value)) 61) key.text c)
      ((match s.find key with
        | some v => some v
        | none => later key rest).bind reads) := by
  have hlast := getLast?_tokens (s :: rest) key
  rw [tokens_cons, List.getLast?_cons_cons] at hlast
  rcases search_at (false, value) (expect (false, value) (behind (read value)) 61)
    (show ∀ b ∈ ([] : Bytes), isSpace b = true from nofun) A hlast with ⟨hnil, hs⟩ | ⟨c', A', hne, hs⟩
  · -- the key does not come any more
    rw [List.nil_append] at hs
    rw [hs]
    rcases fromWord_section s key (rest.flatMap Section.tokens) with ⟨v, ts', -, hfrom⟩ | ⟨hfind, hfrom⟩
    · rw [hnil] at hfrom
      cases hfrom
    · rw [hfind]
      rcases fromWord_sections key rest with ⟨hlater, -⟩ | ⟨v, ts, -, -, hfrom'⟩
      · rw [hlater]
        exact ⟨false, value, rfl, rfl⟩
      · rw [← hfrom, hnil] at hfrom'
        cases hfrom'
  · rw [List.nil_append] at hs
    rw [hs]
    rcases fromWord_section s key (rest.flatMap Section.tokens) with ⟨v, ts', hfind, hfrom⟩ | ⟨hfind, hfrom⟩
    · rw [hfrom] at A'
      rw [hfind]
      exact key_answers hread (List.append_ne_nil_of_right_ne_nil _ (List.cons_ne_nil _ _)) A'
    · rw [hfind]
      rw [hfrom] at A'
      rcases fromWord_sections key rest with ⟨hlater, hnil | ⟨ts, hname, -⟩⟩ | ⟨v, ts, hlater, hts, hkey⟩
      · exact absurd (hfrom.trans hnil) hne
      · -- a section has the name of the key
        rw [hname] at A'
        rw [hlater]
        obtain ⟨c₁, -, h₁⟩ := expect_at (false, value) (behind (read value)) 61 A'
        rw [h₁, if_neg (by decide)]
        exact ⟨false, value, rfl, rfl⟩
      · rw [hkey] at A'
        rw [hlater]
        exact key_answers hread hts A'

/-- **What the lookup answers**: the value that comes first behind the section's name, if it is readable. -/
theorem getValue_answers (cfg : Config) {text : Bytes} (L : Lays cfg.tokens text) (name key : Ident) :
    Answers (getValue read value (buffer text) name.text key.text) ((cfg.flat name key).bind reads) := by
  obtain ⟨lead, body, hlead, hbody, rfl⟩ := L
  have hbuffer : buffer (lead ++ body) = lead ++ (body ++ [0]) := List.append_assoc _ _ _
  rw [getValue_eq, hbuffer]
  have hfound := search_at (false, value) (expect (false, value)
    (search (false, value) (expect (false, value) (behind (read value)) 61) key.text) 123) hlead
    ⟨body, hbody, rfl⟩ (getLast?_tokens cfg.sections name)
  rw [Config.flat]
  cases h : cfg.sections.dropWhile (·.name ≠ name) with
  | nil =>
    -- no section has this name, but a key may
    have hnone : ∀ s ∈ cfg.sections, s.name ≠ name := fun s hs => by
      simpa using List.dropWhile_eq_nil_iff.mp h s hs
    rcases hfound with ⟨-, hs⟩ | ⟨c', A', hne, hs⟩
    · rw [hs]
      exact ⟨false, value, rfl, rfl⟩
    · rw [hs]
      rcases fromWord_sections name cfg.sections with ⟨-, hnil | ⟨ts, -, s, hmem, heq⟩⟩ | ⟨v, ts, -, -, hkey⟩
      · exact absurd hnil hne
      · exact absurd heq (hnone s hmem)
      · change At (fromWord name (cfg.sections.flatMap Section.tokens)) c' at A'
        rw [hkey] at A'
        obtain ⟨c₁, -, h₁⟩ := expect_at (false, value)
          (search (false, value) (expect (false, value) (behind (read value)) 61) key.text) 123 A'
        rw [h₁, if_neg (by decide)]
        exact ⟨false, value, rfl, rfl⟩
  | cons s rest =>
    have hs : s ∈ cfg.sections := (List.dropWhile_suffix _).subset (h ▸ List.mem_cons_self)
    have hname : s.name = name := by
      have hhead := List.head?_dropWhile_not (fun s : Section => decide (s.name ≠ name)) cfg.sections
      rw [h] at hhead
      simpa using hhead
    have hfrom : fromWord name cfg.tokens = (s :: rest).flatMap Section.tokens := by
      rw [← h]
      exact fromWord_name fun s' hs' e he heq => cfg.noKeyIsName s' hs' e he s hs (heq.trans hname.symm)
    rw [hfrom, tokens_cons] at hfound
    rcases hfound with ⟨hnil, -⟩ | ⟨c', A', -, hcall⟩
    · cases hnil
    · obtain ⟨c₁, A₁, h₁⟩ := expect_at (false, value)
        (search (false, value) (expect (false, value) (behind (read value)) 61) key.text) 123 A'
      rw [hcall, h₁, if_pos (show Token.opening.text.head? = some 123 from rfl)]
      exact section_answers hread A₁

end

/-! ## Values -/

/-- What `GetValueInt` reads. -/
def Value.readInt : Value → Option (BitVec 32)
  | .int t => if t.negative then none else some (BitVec.ofNat 32 (Decimal.value t.digits))
  | .str _ => none

theorem readDigits_digits {ds : Bytes} (h : ∀ c ∈ ds, IsDigit c) {b : UInt8} (hb : ¬ IsDigit b) (rest : Cursor)
    (n : Nat) : readDigits (BitVec.ofNat 32 n) (ds ++ b :: rest) =
      some (BitVec.ofNat 32 (ds.foldl (fun n c => n * 10 + digitValue c) n)) := by
  induction ds generalizing n with
  | nil => rw [List.nil_append, readDigits, if_neg hb, List.foldl_nil]
  | cons d ds ih =>
    have hstep : BitVec.ofNat 32 n * 10 + BitVec.ofNat 32 (digitValue d) =
        BitVec.ofNat 32 (n * 10 + digitValue d) := by
      rw [BitVec.ofNat_add, BitVec.ofNat_mul]
      rfl
    rw [List.cons_append, readDigits, if_pos (h d List.mem_cons_self), hstep,
      ih fun c hc => h c (List.mem_cons_of_mem _ hc)]
    rfl

theorem not_digit_of_space {b : UInt8} (h : isSpace b = true) : ¬ IsDigit b := fun hdigit => by
  rw [(not_space_of_digit hdigit).1] at h
  cases h

theorem getValueInt_answers (n : BitVec 32) (v : Value) (b : UInt8) (rest : Cursor) (hb : isSpace b = true) :
    Answers (getValueInt n (v.text ++ b :: rest)) v.readInt := by
  cases v with
  | int t =>
    obtain ⟨negative, digits, hne, hdigit, hrange⟩ := t
    cases negative with
    | true => exact ⟨false, 0, rfl, rfl⟩
    | false =>
      obtain ⟨d, ds, rfl⟩ := List.exists_cons_of_ne_nil hne
      refine ⟨true, BitVec.ofNat 32 (Decimal.value (d :: ds)), ?_, rfl⟩
      have hread := readDigits_digits hdigit (not_digit_of_space hb) rest 0
      show getValueInt n (d :: (ds ++ b :: rest)) = _
      rw [getValueInt, List.head?_cons, Option.bind_eq_bind, Option.bind_some, if_pos (hdigit d List.mem_cons_self)]
      rw [List.cons_append] at hread
      rw [show (0 : BitVec 32) = BitVec.ofNat 32 0 from rfl, hread]
      rfl
  | str t => exact ⟨false, 0, rfl, rfl⟩

theorem getValueStr_answers (s : Bytes) (v : Value) (b : UInt8) (rest : Cursor) (hb : isSpace b = true) :
    Answers (getValueStr s (v.text ++ b :: rest)) v.str? := by
  cases v with
  | int t =>
    refine ⟨false, s, ?_, rfl⟩
    obtain ⟨negative, digits, hne, hdigit, hrange⟩ := t
    cases negative with
    | true => rfl
    | false =>
      obtain ⟨d, ds, rfl⟩ := List.exists_cons_of_ne_nil hne
      have hd : d ≠ 34 := fun heq => absurd (hdigit d List.mem_cons_self) (heq ▸ by decide)
      show getValueStr s (d :: (ds ++ b :: rest)) = _
      rw [getValueStr, List.head?_cons, Option.bind_eq_bind, Option.bind_some, if_neg hd]
      rfl
  | str t =>
    refine ⟨true, t.bytes, ?_, rfl⟩
    have hno : (34 : UInt8) ∉ t.bytes := fun h => (t.plain 34 h).2.1 rfl
    have htext : (Value.str t).text ++ b :: rest = 34 :: (t.bytes ++ 34 :: (b :: rest)) := by
      simp [Value.text]
    rw [htext, getValueStr, List.head?_cons, Option.bind_eq_bind, Option.bind_some, if_pos rfl, List.tail_cons,
      readQuoted_append hno]
    rfl

theorem readInt_eq_none_iff (v : Value) : v.readInt = none ↔ v.HasMinus ∨ v.IsStr := by
  cases v with
  | int t =>
    rw [Value.readInt, Value.HasMinus]
    by_cases h : t.negative = true
    · rw [if_pos h]
      exact iff_of_true rfl (.inl h)
    · rw [if_neg h]
      exact iff_of_false nofun fun h' => h'.elim h id
  | str t => exact iff_of_true rfl (.inr trivial)

theorem readInt_eq_int?_iff (v : Value) : v.readInt = v.int? ↔ ¬ v.HasMinus := by
  cases v with
  | int t =>
    rw [Value.readInt, Value.int?, Value.HasMinus, IntToken.toInt]
    by_cases h : t.negative = true
    · rw [if_pos h]
      exact iff_of_false nofun (not_not.mpr h)
    · rw [if_neg h, if_neg h, BitVec.ofInt_natCast]
      exact iff_of_true rfl h
  | str t => exact iff_of_true rfl id

theorem str?_eq_none_iff (v : Value) : v.str? = none ↔ ¬ v.IsStr := by
  cases v with
  | int t => exact iff_of_true rfl id
  | str t => exact iff_of_false nofun fun h => h trivial

/-- What is in the section is what comes first. -/
theorem flat_of_lookup {cfg : Config} {name key : Ident} {v : Value} (h : cfg.lookup name key = some v) :
    cfg.flat name key = some v := by
  rw [lookup_eq] at h
  rw [Config.flat]
  cases hs : cfg.sections.dropWhile (·.name ≠ name) with
  | nil =>
    rw [hs] at h
    cases h
  | cons s rest =>
    rw [hs] at h
    dsimp only at h ⊢
    rw [h]

/-- Two answers about what is in a section: what the code reads, and what is wanted. -/
theorem answers_iff {α : Type} {r : Option (Bool × α)} {reads want : Value → Option α} {cfg : Config}
    {name key : Ident} (h : Answers r ((cfg.flat name key).bind reads)) :
    Answers r ((cfg.lookup name key).bind want) ↔
      match cfg.lookup name key with
      | some v => reads v = want v
      | none => ∀ v, cfg.flat name key = some v → reads v = none := by
  have hiff : Answers r ((cfg.lookup name key).bind want) ↔
      (cfg.flat name key).bind reads = (cfg.lookup name key).bind want :=
    ⟨fun h' => h.unique h', fun heq => heq ▸ h⟩
  rw [hiff]
  cases hlookup : cfg.lookup name key with
  | some v =>
    rw [flat_of_lookup hlookup, Option.bind_some, Option.bind_some]
  | none => exact Option.bind_eq_none_iff

/-- **Lookups respect sections** exactly under these conditions. -/
theorem sections_respected (cfg : Config) (text : Bytes) (L : Lays cfg.tokens text) (name key : Ident)
    (n : BitVec 32) (s : Bytes) :
    (Answers (getValue getValueInt n (buffer text) name.text key.text) ((cfg.lookup name key).bind Value.int?) ↔
      cfg.SeesInt name key) ∧
    (Answers (getValue getValueStr s (buffer text) name.text key.text) ((cfg.lookup name key).bind Value.str?) ↔
      cfg.SeesStr name key) := by
  rw [answers_iff (getValue_answers (getValueInt_answers n) cfg L name key),
    answers_iff (getValue_answers (getValueStr_answers s) cfg L name key), Config.SeesInt, Config.SeesStr]
  cases cfg.lookup name key with
  | some v => exact ⟨readInt_eq_int?_iff v, iff_of_true rfl trivial⟩
  | none =>
    exact ⟨forall_congr' fun v => imp_congr_right fun _ => readInt_eq_none_iff v,
      forall_congr' fun v => imp_congr_right fun _ => str?_eq_none_iff v⟩

/-! ## Two files -/

def letter (c : UInt8) (h : IsLetter c) : Ident := ⟨c, [], h, nofun⟩

def sampleInt : IntToken where
  negative := false
  digits := [53]
  ne := by decide
  isDigit c hc := by
    rw [List.mem_singleton.mp hc]
    decide
  range := by decide

/-- `A { }` and `B { K = 5 }` -/
def sampleConfig : Config where
  sections := [⟨letter 65 (by decide), [], by decide⟩,
    ⟨letter 66 (by decide), [⟨letter 75 (by decide), .int sampleInt⟩], by decide⟩]
  namesDistinct := by decide
  noKeyIsName := by decide

/-- One blank behind each token but the last. -/
def spaced : List Token → Bytes
  | [] => []
  | [t] => t.text
  | t :: ts => t.text ++ (32 :: spaced ts)

theorem spells_spaced (ts : List Token) : Spells ts (spaced ts) := by
  induction ts with
  | nil => exact .nil
  | cons t ts ih =>
    cases ts with
    | nil =>
      have hend := Spells.cons (t := t) (show ∀ b ∈ ([] : Bytes), isSpace b = true from nofun)
        (fun h => absurd rfl h) .nil
      rwa [List.append_nil, List.append_nil] at hend
    | cons t' ts => exact .cons (fun b hb => List.mem_singleton.mp hb ▸ rfl) (fun _ => List.cons_ne_nil _ _) ih

theorem lays_spaced (ts : List Token) : Lays ts (spaced ts) := ⟨[], _, nofun, spells_spaced ts, rfl⟩

theorem sections_respected_own : Answers (getValue getValueInt 0 (buffer (spaced sampleConfig.tokens)) [66] [75])
    (some 5#32) :=
  (sections_respected sampleConfig _ (lays_spaced _) (letter 66 (by decide)) (letter 75 (by decide)) 0 []).1.mpr
    (by unfold Config.SeesInt; exact nofun)

/-- The key is not in `A`, but it is in `B`. -/
theorem other_section :
    ¬ ∀ (cfg : Config) (text : Bytes), Lays cfg.tokens text → ∀ (name key : Ident) (n : BitVec 32),
    Answers (getValue getValueInt n (buffer text) name.text key.text)
      ((cfg.lookup name key).bind Value.int?) := by
  intro h
  have hcall : getValue getValueInt 0 (buffer (spaced sampleConfig.tokens)) [65] [75] = some (true, 5#32) := by decide
  obtain ⟨found, x, hr, hx⟩ := h sampleConfig _ (lays_spaced _) (letter 65 (by decide)) (letter 75 (by decide)) 0
  obtain ⟨rfl, rfl⟩ := Prod.mk.inj (Option.some.inj (hcall.symm.trans hr))
  cases hx

end JunCore.Parser
