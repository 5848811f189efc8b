/-
  `JunCommon/algorithm/Parser.cpp`: what comments do to a lookup.

  A comment should be as good as blanks.  It is, where it follows a blank.  Where it follows a word
  directly, `FindWord` does not find the word, which wants a blank behind it, and `FindSpace` passes the
  newline of the comment as well, and takes what begins the next line for the rest of the word.  And a
  comment that ends the file takes the NUL with it, so that a `NextChar` whose result `GetValue` does not
  look at leaves the cursor at the end.

  `blankComments` makes blanks of the comments; a lookup in the text and one in the blanked text go on
  side by side as long as none of this happens (`comments_transparent`).
-/
import JunCore.Common.Parser

set_option linter.unusedVariables false

namespace JunCore.Parser

open CString Decimal

/-! ## Blanks for comments -/

/-- Every comment, up to its newline, is made blanks. -/
def blankComments : Bool → Bytes → Bytes
  | _, [] => []
  | true, c :: rest => (if c = 10 then 10 else 32) :: blankComments (c != 10) rest
  | false, c :: rest =>
    if isComment (c :: rest) = some true then 32 :: blankComments true rest else c :: blankComments false rest

/-- The same from a cursor on: the last byte, which is the NUL, stays. -/
def blanked : Bool → Cursor → Cursor
  | _, [] => []
  | _, [c] => [c]
  | true, c :: d :: rest => (if c = 10 then 10 else 32) :: blanked (c != 10) (d :: rest)
  | false, c :: d :: rest =>
    if isComment (c :: d :: rest) = some true then 32 :: blanked true (d :: rest)
    else c :: blanked false (d :: rest)

/-! ## Where it makes no difference -/

/-- Behind the word that begins here. -/
def wordEnd : Cursor → Cursor
  | [] => []
  | c :: rest => if isComment (c :: rest) = some true ∨ isSpace c = true then c :: rest else wordEnd rest

/-- Behind the comments that begin here. -/
def skipComments : Bool → Cursor → Cursor
  | _, [] => []
  | true, c :: rest => skipComments (c != 10) rest
  | false, c :: rest => if isComment (c :: rest) = some true then skipComments true rest else c :: rest

/-- A comment follows the word directly, and the next line does not begin with a blank (nor with the end
    of the file). -/
def swallows (c : Cursor) : Bool :=
  isComment (wordEnd c) == some true &&
    match skipComments false (wordEnd c) with
    | x :: _ :: _ => !isSpace x
    | _ => false

/-- None of the words that `FindWord` comes to, up to the one that it finds, is affected by a comment: it
    is found if it is in the blanked text, and not run together with the next one. -/
def clearFrom (word : Bytes) : Nat → Cursor → Bool
  | 0, _ => true
  | fuel + 1, c =>
    testWord word c == testWord word (blanked false c) && !swallows c &&
      (testWord word c == some true ||
        match nextChar c with
        | some (true, c') => clearFrom word fuel c'
        | _ => true)

def clear (word : Bytes) (c : Cursor) : Bool :=
  match findChar c with
  | some (true, c') => clearFrom word (c'.length + 1) c'
  | _ => true

/-- The word is not run together with the next one, and if a comment that ends the file follows, nothing
    else would. -/
structure Passes (c : Cursor) : Prop where
  next : swallows c = false
  ends : Continues (blanked false c) → Continues c

/-- The quoted value that begins here has no comment in it. -/
def Plain (c : Cursor) : Prop := ∀ u rest, c = 34 :: (u ++ 34 :: rest) → 34 ∉ u → ¬ [47, 47] <:+: u

/-- **No comment affects the lookup**, as far as it comes. -/
def Unaffected (Value : Cursor → Prop) (text : Cursor) (sectionName key : Bytes) : Prop :=
  clear sectionName text = true ∧
  ∀ c, findWord sectionName text = some (true, c) → Passes c ∧
    ∀ c₁, nextChar c = some (true, c₁) → c₁.head? = some 123 → clear key c₁ = true ∧
      ∀ c₂, findWord key c₁ = some (true, c₂) → Passes c₂ ∧
        ∀ c₃, nextChar c₂ = some (true, c₃) → c₃.head? = some 61 → Passes c₃ ∧
          ∀ c₄, nextChar c₃ = some (true, c₄) → Value c₄

/-! ## The blanked text -/

theorem isComment_iff {c : UInt8} {rest : Cursor} :
    isComment (c :: rest) = some true ↔ c = 47 ∧ rest.head? = some 47 := by
  rw [isComment]
  by_cases hc : c = 47
  · rw [if_pos hc]
    cases rest with
    | nil => exact iff_of_false (fun h => by cases h) fun h => by cases h.2
    | cons d rest =>
      rw [List.head?_cons, Option.map_some, Option.some.injEq, Option.some.injEq, beq_iff_eq]
      exact (and_iff_right hc).symm
  · rw [if_neg hc]
    exact iff_of_false (fun h => by cases h) fun h => hc h.1

/-- The blanked text of a file is what `LoadFile` makes of the blanked file. -/
theorem blanked_append (m : Bool) (file : Bytes) : blanked m (file ++ [0]) = blankComments m file ++ [0] := by
  induction file generalizing m with
  | nil => cases m <;> rfl
  | cons x rest ih =>
    obtain ⟨d, rest', heq⟩ := List.exists_cons_of_ne_nil (List.append_ne_nil_of_right_ne_nil rest
      (List.cons_ne_nil (0 : UInt8) []))
    have hcomment : isComment (x :: rest) = some true ↔ isComment (x :: (rest ++ [0])) = some true := by
      rw [isComment_iff, isComment_iff]
      cases rest with
      | nil => exact and_congr_right fun _ => iff_of_false nofun (by decide)
      | cons y rest => exact Iff.rfl
    rw [List.cons_append]
    cases m with
    | true => rw [blankComments, List.cons_append, ← ih, heq, blanked]
    | false =>
      rw [blankComments, heq, blanked, ← heq, ih, ih]
      by_cases h : isComment (x :: rest) = some true
      · rw [if_pos h, if_pos (hcomment.mp h), List.cons_append]
      · rw [if_neg h, if_neg (fun h' => h (hcomment.mpr h')), List.cons_append]

theorem blanked_buffer (file : Bytes) : blanked false (buffer file) = buffer (blankComments false file) :=
  blanked_append false file

theorem length_blanked (m : Bool) (c : Cursor) : (blanked m c).length = c.length := by
  induction c generalizing m with
  | nil => cases m <;> rfl
  | cons x rest ih =>
    cases rest with
    | nil => cases m <;> rfl
    | cons y rest =>
      cases m with
      | true => exact congrArg Nat.succ (ih _)
      | false =>
        rw [blanked]
        split
        · exact congrArg Nat.succ (ih _)
        · exact congrArg Nat.succ (ih _)

theorem getLast?_blanked (m : Bool) (c : Cursor) : (blanked m c).getLast? = c.getLast? := by
  induction c generalizing m with
  | nil => cases m <;> rfl
  | cons x rest ih =>
    cases rest with
    | nil => cases m <;> rfl
    | cons y rest =>
      have hlast : ∀ (z : UInt8) m, (z :: blanked m (y :: rest)).getLast? = (x :: y :: rest).getLast? := by
        intro z m
        have hne : blanked m (y :: rest) ≠ [] := List.ne_nil_of_length_eq_add_one (length_blanked _ _)
        obtain ⟨w, ws, hw⟩ := List.exists_cons_of_ne_nil hne
        rw [hw, List.getLast?_cons_cons, ← hw, ih, List.getLast?_cons_cons]
      cases m with
      | true => rw [blanked, hlast]
      | false =>
        rw [blanked]
        split <;> rw [hlast]

theorem ends_blanked {c : Cursor} (E : Ends c) (m : Bool) : Ends (blanked m c) := by
  intro x hx
  rw [getLast?_blanked] at hx
  exact E x hx

/-- Outside of comments the text is the same. -/
theorem blanked_byte {x : UInt8} {rest : Cursor} (h : isComment (x :: rest) = some false) :
    blanked false (x :: rest) = x :: blanked false rest := by
  cases rest with
  | nil => rfl
  | cons y rest => rw [blanked, if_neg (by rw [h]; decide)]

/-- And there is no comment in the blanked text. -/
theorem isComment_blanked {x : UInt8} {rest : Cursor} (E : Ends (x :: rest))
    (h : isComment (x :: rest) = some false) : isComment (x :: blanked false rest) = some false := by
  rw [isComment]
  split
  · rename_i hx
    have hne : rest ≠ [] := E.ne_nil (hx ▸ by decide)
    obtain ⟨y, rest, rfl⟩ := List.exists_cons_of_ne_nil hne
    have hy : y ≠ 47 := fun hy => by
      rw [isComment_iff.mpr ⟨hx, by rw [hy, List.head?_cons]⟩] at h
      cases h
    have hbyte : isComment (y :: rest) = some false := by rw [isComment, if_neg hy]
    rw [blanked_byte hbyte, List.head?_cons, Option.map_some, beq_false_of_ne hy]
  · rfl

/-! ## The scanners side by side -/

/-- The cursors of the two texts: both are at a word, or the one in the text is at its end, and the other
    one at its NUL or its end. -/
inductive Mirrors : Option (Bool × Cursor) → Option (Bool × Cursor) → Prop
  | found {c : Cursor} (hc : c ≠ []) (E : Ends c) (W : AtWord c) :
      Mirrors (some (true, c)) (some (true, blanked false c))
  | nul : Mirrors (some (false, [])) (some (true, [0]))
  | ends : Mirrors (some (false, [])) (some (false, []))

theorem Mirrors.eq_of_found {c : Cursor} {r : Option (Bool × Cursor)} (h : Mirrors (some (true, c)) r) :
    r = some (true, blanked false c) := by
  cases h
  rfl

theorem findChar_mirrors {c : Cursor} (E : Ends c) (m : Bool) :
    Mirrors (scan (fun b => !isSpace b) m c) (findChar (blanked m c)) := by
  induction c generalizing m with
  | nil => cases m <;> exact .ends
  | cons x rest ih =>
    cases rest with
    | nil =>
      obtain rfl := E x rfl
      cases m with
      | true => exact .nul
      | false => exact .found (List.cons_ne_nil _ _) E ⟨fun x hx => Option.some.inj hx ▸ rfl, fun _ => rfl⟩
    | cons y rest =>
      have hpass : ∀ (b : UInt8) m, isSpace b = true → b ≠ 47 →
          findChar (b :: blanked m (y :: rest)) = findChar (blanked m (y :: rest)) := by
        intro b m hb hne
        rw [findChar, scan_byte (by rw [isComment, if_neg hne]), hb]
        rfl
      cases m with
      | true =>
        rw [blanked, scan, hpass _ _ (by split <;> rfl) (by split <;> decide)]
        exact ih E.tail _
      | false =>
        obtain ⟨comment, hcomment⟩ := isComment_isSome E
        cases comment with
        | true =>
          rw [scan_comment hcomment, blanked, if_pos hcomment, hpass _ _ rfl (by decide)]
          exact ih E.tail _
        | false =>
          rw [scan_byte hcomment, blanked_byte hcomment, findChar, scan_byte (isComment_blanked E hcomment)]
          by_cases hx : isSpace x = true
          · rw [hx, Bool.not_true, if_neg (by decide), if_neg (by decide)]
            exact ih E.tail _
          · rw [Bool.not_eq_true] at hx
            rw [hx, Bool.not_false, if_pos rfl, if_pos rfl, ← blanked_byte hcomment]
            exact .found (List.cons_ne_nil _ _) E ⟨fun y hy => by rw [← Option.some.inj hy, hx]; rfl,
              fun _ => hcomment⟩

/-- Comments are skipped by every scan. -/
theorem scan_skipComments (stop : UInt8 → Bool) (m : Bool) (c : Cursor) :
    scan stop m c = scan stop false (skipComments m c) := by
  induction c generalizing m with
  | nil => cases m <;> rfl
  | cons x rest ih =>
    cases m with
    | true => exact ih _
    | false =>
      rw [skipComments]
      split
      · rename_i hcomment
        rw [scan_comment hcomment]
        exact ih _
      · rfl

theorem isComment_of_not {x : UInt8} {rest : Cursor} (E : Ends (x :: rest)) (h : isComment (x :: rest) ≠ some true) :
    isComment (x :: rest) = some false := by
  obtain ⟨comment, hcomment⟩ := isComment_isSome E
  cases comment with
  | true => exact absurd hcomment h
  | false => exact hcomment

/-- `FindSpace` passes a word, and is behind it the same. -/
theorem findSpace_wordEnd {c : Cursor} (E : Ends c) : findSpace c = findSpace (wordEnd c) := by
  induction c with
  | nil => rfl
  | cons x rest ih =>
    rw [wordEnd]
    split
    · rfl
    · rename_i h
      have hcomment := isComment_of_not E fun hc => h (.inl hc)
      rw [findSpace, scan_byte hcomment, if_neg fun hx => h (.inr hx)]
      exact ih E.tail

theorem findSpace_blanked_wordEnd {c : Cursor} (E : Ends c) :
    findSpace (blanked false c) = findSpace (blanked false (wordEnd c)) := by
  induction c with
  | nil => rfl
  | cons x rest ih =>
    rw [wordEnd]
    split
    · rfl
    · rename_i h
      have hcomment := isComment_of_not E fun hc => h (.inl hc)
      rw [blanked_byte hcomment, findSpace, scan_byte (isComment_blanked E hcomment),
        if_neg fun hx => h (.inr hx)]
      exact ih E.tail

theorem wordEnd_suffix (c : Cursor) : wordEnd c <:+ c := by
  induction c with
  | nil => exact List.suffix_rfl
  | cons x rest ih =>
    rw [wordEnd]
    split
    · exact List.suffix_rfl
    · exact ih.trans (List.suffix_cons _ _)

theorem skipComments_suffix (m : Bool) (c : Cursor) : skipComments m c <:+ c := by
  induction c generalizing m with
  | nil => cases m <;> exact List.suffix_rfl
  | cons x rest ih =>
    cases m with
    | true => exact (ih _).trans (List.suffix_cons _ _)
    | false =>
      rw [skipComments]
      split
      · exact (ih _).trans (List.suffix_cons _ _)
      · exact List.suffix_rfl

theorem wordEnd_cases {c : Cursor} (E : Ends c) : wordEnd c = [] ∨ ∃ x rest, wordEnd c = x :: rest ∧
    (isComment (x :: rest) = some true ∨ isComment (x :: rest) = some false ∧ isSpace x = true) := by
  induction c with
  | nil => exact .inl rfl
  | cons x rest ih =>
    rw [wordEnd]
    split
    · rename_i h
      refine .inr ⟨x, rest, rfl, ?_⟩
      obtain ⟨comment, hcomment⟩ := isComment_isSome E
      cases comment with
      | true => exact .inl hcomment
      | false => exact .inr ⟨hcomment, h.resolve_left fun h' => by rw [hcomment] at h'; cases h'⟩
    · exact ih E.tail

theorem nextChar_of_findSpace {c c' : Cursor} (h : findSpace c = some (true, c')) : nextChar c = findChar c' := by
  rw [nextChar, h]
  rfl

theorem nextChar_of_end {c : Cursor} (h : findSpace c = some (false, [])) : nextChar c = some (false, []) := by
  rw [nextChar, h]
  rfl

theorem findSpace_at {x : UInt8} {rest : Cursor} (hcomment : isComment (x :: rest) = some false)
    (hx : isSpace x = true) : findSpace (x :: rest) = some (true, x :: rest) := by
  rw [findSpace, scan_byte hcomment, if_pos hx]

/-- **`NextChar`** goes on side by side, unless a comment runs two words together. -/
theorem nextChar_mirrors {c : Cursor} (E : Ends c) (hc : swallows c = false) :
    Mirrors (nextChar c) (nextChar (blanked false c)) := by
  have E' := E.suffix (wordEnd_suffix c)
  have hspace := findSpace_wordEnd E
  have hblanked := findSpace_blanked_wordEnd E
  have hchar := findChar_mirrors E' false
  change Mirrors (findChar (wordEnd c)) (findChar (blanked false (wordEnd c))) at hchar
  rcases wordEnd_cases E with hend | ⟨x, rest, hend, hx⟩
  · rw [hend] at hspace hblanked
    rw [nextChar_of_end hspace, nextChar_of_end hblanked]
    exact .ends
  · rw [swallows] at hc
    rw [hend] at hspace hblanked hchar hc E'
    rcases hx with hcomment | ⟨hcomment, hx⟩
    · -- the blanked text has a blank here, and the text goes on behind the comments
      have hne : rest ≠ [] := by
        rintro rfl
        exact nomatch (isComment_iff.mp hcomment).2
      obtain ⟨y, rest, rfl⟩ := List.exists_cons_of_ne_nil hne
      have hstop : findSpace (blanked false (x :: y :: rest)) = some (true, blanked false (x :: y :: rest)) := by
        rw [blanked, if_pos hcomment]
        exact findSpace_at rfl rfl
      rw [nextChar_of_findSpace (hblanked.trans hstop)]
      have hskip : findSpace c = findSpace (skipComments false (x :: y :: rest)) :=
        hspace.trans (scan_skipComments _ _ _)
      have hskip' : findChar (x :: y :: rest) = findChar (skipComments false (x :: y :: rest)) :=
        scan_skipComments _ _ _
      rw [hskip'] at hchar
      rw [hcomment, beq_self_eq_true, Bool.true_and] at hc
      have E'' := E'.suffix (skipComments_suffix false _)
      generalize skipComments false (x :: y :: rest) = k at hskip hchar hc E''
      match k with
      | [] =>
        rw [nextChar_of_end hskip]
        exact hchar
      | [z] =>
        obtain rfl := E'' z rfl
        rw [nextChar_of_end hskip]
        have hnul : findChar [0] = some (true, [0]) := rfl
        rw [hnul] at hchar
        rw [hchar.eq_of_found]
        exact .nul
      | z :: w :: k =>
        have hz : isSpace z = true := by simpa using hc
        have hbyte : isComment (z :: w :: k) = some false := by
          rw [isComment, if_neg]
          rintro rfl
          cases hz
        rw [nextChar_of_findSpace (hskip.trans (findSpace_at hbyte hz))]
        exact hchar
    · rw [nextChar_of_findSpace (hspace.trans (findSpace_at hcomment hx))]
      have hstop : findSpace (blanked false (x :: rest)) = some (true, blanked false (x :: rest)) := by
        rw [blanked_byte hcomment]
        exact findSpace_at (isComment_blanked E' hcomment) hx
      rw [nextChar_of_findSpace (hblanked.trans hstop)]
      exact hchar

/-! ## Words side by side -/

theorem findWordFrom_mirrors {word : Bytes} (hword : (0 : UInt8) ∉ word) {fuel fuel' : Nat} {c : Cursor}
    (E : Ends c) (hc : c ≠ []) (W : AtWord c) (hfuel : c.length < fuel) (hfuel' : c.length < fuel')
    (hclear : clearFrom word fuel c = true) :
    Mirrors (findWordFrom word fuel c) (findWordFrom word fuel' (blanked false c)) := by
  induction fuel generalizing c fuel' with
  | zero => exact absurd hfuel (Nat.not_lt_zero _)
  | succ fuel ih =>
    obtain ⟨fuel', rfl⟩ := Nat.exists_eq_succ_of_ne_zero (by omega : fuel' ≠ 0)
    obtain ⟨b, htest, -⟩ := testWord_spec E hc hword
    rw [clearFrom, Bool.and_eq_true, Bool.and_eq_true, beq_iff_eq, Bool.not_eq_true'] at hclear
    obtain ⟨⟨hsame, hswallows⟩, hrest⟩ := hclear
    rw [findWordFrom, findWordFrom, ← hsame, htest]
    cases b with
    | true => exact .found hc E W
    | false =>
      have hnext := nextChar_mirrors E hswallows
      obtain ⟨c₁, hc₁, -, -, -⟩ := nextChar_spec E
      have hlt := nextChar_shorter E hc W hc₁
      rw [htest] at hrest
      simp only [Option.bind_eq_bind, Option.bind_some, Bool.false_eq_true, if_false]
      generalize nextChar c = r at hnext hc₁ hrest
      generalize nextChar (blanked false c) = r' at hnext
      cases hnext with
      | @found c₂ hc₁' E₁ W₁ =>
        obtain ⟨-, rfl⟩ := Prod.mk.inj (Option.some.inj hc₁)
        exact ih E₁ hc₁' W₁ (Nat.lt_of_lt_of_le hlt (Nat.le_of_lt_succ hfuel))
          (Nat.lt_of_lt_of_le hlt (Nat.le_of_lt_succ hfuel')) (by simpa using hrest)
      | nul =>
        simp only [Option.bind_some, Bool.false_eq_true, if_false, if_true]
        have hpos := List.length_pos_of_ne_nil hc
        rw [findWordFrom_nul hword (by omega)]
        exact .ends
      | ends => exact .ends

/-- **`FindWord`** finds the word in both texts, or in neither. -/
theorem findWord_mirrors {word : Bytes} (hword : (0 : UInt8) ∉ word) {c : Cursor} (E : Ends c)
    (hclear : clear word c = true) : Mirrors (findWord word c) (findWord word (blanked false c)) := by
  have hchar := findChar_mirrors E false
  change Mirrors (findChar c) (findChar (blanked false c)) at hchar
  rw [clear] at hclear
  rw [findWord, findWord]
  generalize findChar c = r at hchar hclear
  generalize findChar (blanked false c) = r' at hchar
  cases hchar with
  | @found c₁ hc₁ E₁ W₁ =>
    exact findWordFrom_mirrors hword E₁ hc₁ W₁ (Nat.lt_succ_self _)
      (by rw [length_blanked]; exact Nat.lt_succ_self _)
      hclear
  | nul =>
    show Mirrors (some (false, [])) (findWordFrom word 2 [0])
    rw [findWordFrom_nul hword (by decide)]
    exact .ends
  | ends => exact .ends

/-! ## Lookups side by side -/

section

variable {β : Type} {fail : β} {next : Cursor → Option β} {c : Cursor} (E : Ends c)
include E

theorem search_blanked {word : Bytes} (hword : (0 : UInt8) ∉ word) (hclear : clear word c = true)
    (hnext : ∀ c', findWord word c = some (true, c') → Ends c' → c' ≠ [] → AtWord c' →
      next c' = next (blanked false c')) :
    search fail next word c = search fail next word (blanked false c) := by
  have hfind := findWord_mirrors hword E hclear
  obtain ⟨c₂, hc₂, -, hfound⟩ := findWord_spec hword (ends_blanked E false)
  rw [search, search]
  generalize findWord word c = r at hfind hnext
  generalize findWord word (blanked false c) = r' at hfind hc₂
  cases hfind with
  | found hc₁ E₁ W₁ => exact hnext _ rfl E₁ hc₁ W₁
  | nul =>
    obtain ⟨-, rfl⟩ := Prod.mk.inj (Option.some.inj hc₂)
    exact absurd (hfound (List.cons_ne_nil _ _)) not_hasWord_nul
  | ends => rfl

theorem behind_blanked (hnil : next [] = none) (hc : Passes c)
    (hnext : ∀ c', nextChar c = some (true, c') → Ends c' → c' ≠ [] → AtWord c' →
      next c' = next (blanked false c')) :
    behind next c = behind next (blanked false c) := by
  have hchar := nextChar_mirrors E hc.next
  obtain ⟨c₁, hc₁, -, -, hfound⟩ := nextChar_spec E
  obtain ⟨c₂, hc₂, -, -, hfound'⟩ := nextChar_spec (ends_blanked E false)
  rw [behind, behind]
  generalize nextChar c = r at hchar hnext hc₁
  generalize nextChar (blanked false c) = r' at hchar hc₂
  cases hchar with
  | found hc₁' E₁ W₁ => exact hnext _ rfl E₁ hc₁' W₁
  | nul =>
    -- the blanked text goes on
    obtain ⟨-, rfl⟩ := Prod.mk.inj (Option.some.inj hc₁)
    obtain ⟨-, rfl⟩ := Prod.mk.inj (Option.some.inj hc₂)
    exact absurd rfl (hfound.mpr (hc.ends (hfound'.mp (List.cons_ne_nil _ _))))
  | ends => rfl

theorem expect_blanked {mark : UInt8} (hc : Passes c)
    (hnext : ∀ c', nextChar c = some (true, c') → c'.head? = some mark → Ends c' →
      next c' = next (blanked false c')) :
    expect fail next mark c = expect fail next mark (blanked false c) := by
  refine behind_blanked E rfl hc fun c' hc' E' hne W => ?_
  obtain ⟨x, rest, rfl⟩ := List.exists_cons_of_ne_nil hne
  rw [blanked_byte (W.noComment hne), List.head?_cons, List.head?_cons, Option.bind_some, Option.bind_some,
    ← blanked_byte (W.noComment hne)]
  by_cases hx : x = mark
  · rw [if_neg (not_not.mpr hx), if_neg (not_not.mpr hx)]
    exact hnext _ hc' (congrArg some hx) E'
  · rw [if_pos hx, if_pos hx]

end

/-- **A lookup** in both texts, if the value is read from both. -/
theorem getValue_blanked {α : Type} {read : α → Cursor → Option (Bool × α)} {Value : Cursor → Prop} {value : α}
    (hnil : read value [] = none)
    (hread : ∀ c, Ends c → c ≠ [] → AtWord c → Value c → read value c = read value (blanked false c))
    {text : Cursor} (E : Ends text) (sectionName key : Str)
    (U : Unaffected Value text sectionName.bytes key.bytes) :
    getValue read value text sectionName.bytes key.bytes =
      getValue read value (blanked false text) sectionName.bytes key.bytes := by
  rw [getValue_eq, getValue_eq]
  refine search_blanked E sectionName.noNul U.1 fun c hc E _ _ => ?_
  obtain ⟨P, U⟩ := U.2 c hc
  refine expect_blanked E P fun c₁ hc₁ hopen E₁ => ?_
  obtain ⟨hclear, U⟩ := U c₁ hc₁ hopen
  refine search_blanked E₁ key.noNul hclear fun c₂ hc₂ E₂ _ _ => ?_
  obtain ⟨P₂, U⟩ := U c₂ hc₂
  refine expect_blanked E₂ P₂ fun c₃ hc₃ hequals E₃ => ?_
  obtain ⟨P₃, U⟩ := U c₃ hc₃ hequals
  exact behind_blanked E₃ hnil P₃ fun c₄ hc₄ E₄ hne W => hread c₄ E₄ hne W (U c₄ hc₄)

/-! ## Values side by side -/

theorem readDigits_blanked {c : Cursor} (E : Ends c) (value : BitVec 32) :
    readDigits value c = readDigits value (blanked false c) := by
  induction c generalizing value with
  | nil => rfl
  | cons x rest ih =>
    obtain ⟨comment, hcomment⟩ := isComment_isSome E
    cases comment with
    | true =>
      obtain ⟨rfl, hhead⟩ := isComment_iff.mp hcomment
      obtain ⟨y, rest, rfl⟩ := List.exists_cons_of_ne_nil (E.ne_nil (by decide))
      rw [blanked, if_pos hcomment, readDigits, if_neg (by decide), readDigits, if_neg (by decide)]
    | false =>
      rw [blanked_byte hcomment, readDigits, readDigits]
      split
      · exact ih E.tail _
      · rfl

theorem getValueInt_blanked (value : BitVec 32) {c : Cursor} (E : Ends c) (hc : c ≠ []) (W : AtWord c) :
    getValueInt value c = getValueInt value (blanked false c) := by
  rw [getValueInt, getValueInt, ← readDigits_blanked E]
  obtain ⟨x, rest, rfl⟩ := List.exists_cons_of_ne_nil hc
  rw [blanked_byte (W.noComment hc)]
  rfl

theorem mem_of_mem_blanked {m : Bool} {c : Cursor} {x : UInt8} (h : x ∈ blanked m c) (h32 : x ≠ 32) (h10 : x ≠ 10) :
    x ∈ c := by
  induction c generalizing m with
  | nil =>
    revert h
    cases m <;> exact id
  | cons y rest ih =>
    cases rest with
    | nil =>
      revert h
      cases m <;> exact id
    | cons z rest =>
      cases m with
      | true =>
        rw [blanked, List.mem_cons] at h
        refine List.mem_cons_of_mem _ (ih (h.resolve_left fun hx => ?_))
        split at hx
        · exact h10 hx
        · exact h32 hx
      | false =>
        rw [blanked] at h
        split at h
        · exact List.mem_cons_of_mem _ (ih ((List.mem_cons.mp h).resolve_left h32))
        · rcases List.mem_cons.mp h with rfl | h
          · exact List.mem_cons_self
          · exact List.mem_cons_of_mem _ (ih h)

/-- Without a comment in it a quoted value stays. -/
theorem blanked_quoted {u rest : Bytes} (hu : ¬ [47, 47] <:+: u) (hrest : rest ≠ []) :
    blanked false (u ++ 34 :: rest) = u ++ 34 :: blanked false rest := by
  induction u with
  | nil => exact blanked_byte rfl
  | cons x u ih =>
    have hcomment : isComment (x :: (u ++ 34 :: rest)) = some false := by
      rw [isComment]
      split
      · rename_i hx
        cases u with
        | nil => rfl
        | cons y u =>
          have hy : y ≠ 47 := fun hy => hu ⟨[], u, by rw [hx, hy]; rfl⟩
          rw [List.cons_append, List.head?_cons, Option.map_some, beq_false_of_ne hy]
      · rfl
    rw [List.cons_append, blanked_byte hcomment, ih fun h => hu (h.trans (List.infix_cons List.infix_rfl))]
    rfl

theorem getValueStr_blanked (value : Bytes) {c : Cursor} (E : Ends c) (hc : c ≠ []) (W : AtWord c) (P : Plain c) :
    getValueStr value c = getValueStr value (blanked false c) := by
  obtain ⟨x, rest, rfl⟩ := List.exists_cons_of_ne_nil hc
  rw [blanked_byte (W.noComment hc), getValueStr, getValueStr, List.head?_cons, List.head?_cons, List.tail_cons,
    List.tail_cons, Option.bind_eq_bind, Option.bind_some, Option.bind_eq_bind, Option.bind_some]
  by_cases hx : x = 34
  · subst hx
    rw [if_pos rfl, if_pos rfl]
    by_cases hclosed : 34 ∈ rest
    · obtain ⟨u, rest', rfl, hu⟩ := List.eq_append_cons_of_mem hclosed
      have E' : Ends (34 :: rest') := E.suffix (List.suffix_append (34 :: u) _)
      rw [blanked_quoted (P u rest' rfl hu) (E'.ne_nil (by decide)), readQuoted_append hu, readQuoted_append hu]
    · have hnone : ∀ c : Cursor, 34 ∉ c → readQuoted c = none := fun c h =>
        Option.not_isSome_iff_eq_none.mp fun h' => h (readQuoted_isSome.mp h')
      rw [hnone _ hclosed, hnone _ fun h => hclosed (mem_of_mem_blanked h (by decide) (by decide))]
  · rw [if_neg hx, if_neg hx]

/-- **Comments are transparent** as long as none affects the lookup: for the `int` and for the string. -/
theorem comments_transparent (file : Bytes) (sectionName key : Str) (n : BitVec 32) (s : Bytes) :
    (Unaffected (fun _ => True) (buffer file) sectionName.bytes key.bytes →
      getValue getValueInt n (buffer file) sectionName.bytes key.bytes =
        getValue getValueInt n (buffer (blankComments false file)) sectionName.bytes key.bytes) ∧
    (Unaffected Plain (buffer file) sectionName.bytes key.bytes →
      getValue getValueStr s (buffer file) sectionName.bytes key.bytes =
        getValue getValueStr s (buffer (blankComments false file)) sectionName.bytes key.bytes) := by
  rw [← blanked_buffer]
  exact ⟨getValue_blanked rfl (fun c E hc W _ => getValueInt_blanked n E hc W) (ends_buffer file) _ _,
    getValue_blanked rfl (fun c E hc W P => getValueStr_blanked s E hc W P) (ends_buffer file) _ _⟩

/-- `S // x`, and in the next line `{ K = "a" // y` and a closing brace. -/
def sampleFile : Bytes :=
  [83, 32, 47, 47, 32, 120, 10, 123, 32, 75, 32, 61, 32, 34, 97, 34, 32, 47, 47, 32, 121, 10, 125]

theorem unaffected_sample : Unaffected Plain (buffer sampleFile) [83] [75] := by
  refine ⟨by decide, fun c hc => ?_⟩
  rw [(by decide : findWord [83] (buffer sampleFile) = some (true, buffer sampleFile))] at hc
  obtain ⟨-, rfl⟩ := Prod.mk.inj (Option.some.inj hc)
  refine ⟨⟨by decide, by decide⟩, fun c hc _ => ?_⟩
  rw [(by decide : nextChar (buffer sampleFile) = some (true, (buffer sampleFile).drop 7))] at hc
  obtain ⟨-, rfl⟩ := Prod.mk.inj (Option.some.inj hc)
  refine ⟨by decide, fun c hc => ?_⟩
  rw [(by decide : findWord [75] ((buffer sampleFile).drop 7) = some (true, (buffer sampleFile).drop 9))] at hc
  obtain ⟨-, rfl⟩ := Prod.mk.inj (Option.some.inj hc)
  refine ⟨⟨by decide, by decide⟩, fun c hc _ => ?_⟩
  rw [(by decide : nextChar ((buffer sampleFile).drop 9) = some (true, (buffer sampleFile).drop 11))] at hc
  obtain ⟨-, rfl⟩ := Prod.mk.inj (Option.some.inj hc)
  refine ⟨⟨by decide, by decide⟩, fun c hc u rest heq hu => ?_⟩
  rw [(by decide : nextChar ((buffer sampleFile).drop 11) = some (true, (buffer sampleFile).drop 13))] at hc
  obtain ⟨-, rfl⟩ := Prod.mk.inj (Option.some.inj hc)
  -- the value ends at the next quote
  have hquoted : readQuoted (u ++ 34 :: rest) = some u := readQuoted_append hu
  rw [← (List.cons.inj heq).2] at hquoted
  obtain rfl : [97] = u := Option.some.inj hquoted
  decide

theorem comments_transparent_sample :
    Unaffected Plain (buffer sampleFile) [83] [75] ∧
    getValue getValueStr [] (buffer sampleFile) [83] [75] =
      getValue getValueStr [] (buffer (blankComments false sampleFile)) [83] [75] :=
  ⟨unaffected_sample,
    (comments_transparent sampleFile ⟨[83], by decide⟩ ⟨[75], by decide⟩ 0 []).2 unaffected_sample⟩

/-- `S//x`, and in the next line `{ K = 5 }`: the section is not found. -/
theorem comment_hides_section : ¬ ∀ (file : Bytes) (sectionName key : Str) (n : BitVec 32), 34 ∉ file →
    getValue getValueInt n (buffer file) sectionName.bytes key.bytes =
      getValue getValueInt n (buffer (blankComments false file)) sectionName.bytes key.bytes := fun h =>
  absurd (h [83, 47, 47, 120, 10, 123, 32, 75, 32, 61, 32, 53, 32, 125] ⟨[83], by decide⟩ ⟨[75], by decide⟩ 0
    (by decide)) (by decide)

end JunCore.Parser
