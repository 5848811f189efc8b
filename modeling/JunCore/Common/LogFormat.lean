/-
  `JunCore/log.cpp`: the text of a log record.

  `FormatLogPrefix` writes the prefix, `vsnprintf` the message behind it, and then comes the newline.  The
  array has 1024 bytes, `vsnprintf` leaves two of them free, and the newline wants a text that leaves three
  of them free.  So a text that fills what it may fill gets none (`whole_line_iff`).

  What a call reads beside its arguments (the clock, the id of the thread) is given with it (`Call`), and
  the message is what the format and its arguments make.
-/
import JunCore.Common.AsyncLog
import JunCore.Lib.CString
import JunCore.Lib.Decimal

set_option linter.unusedVariables false

namespace JunCore.LogFormat

open CString Decimal

/-! ## The program -/

/-- What `localtime_s` fills in. -/
structure Tm where
  year : Int
  mon : Int
  mday : Int
  hour : Int
  min : Int
  sec : Int

structure Call where
  level : Int
  file : Option Str
  line : Int
  now : Tm
  threadId : BitVec 32

def ascii (cs : List Char) : Bytes := cs.map fun c => UInt8.ofNat c.toNat

/-- `%0wd`, and `%d` for width 0; `%lu` is `decimal`. -/
def padded (w : Nat) (n : Int) : Bytes :=
  let sign := if n < 0 then ascii ['-'] else []
  sign ++ (List.replicate (w - sign.length - (decimal n.natAbs).length) 48 ++ decimal n.natAbs)

def levelStr (level : Int) : Bytes :=
  if level = 0 then ascii ['E', 'R', 'R', 'O', 'R']
  else if level = 1 then ascii ['W', 'A', 'R', 'N']
  else if level = 2 then ascii ['I', 'N', 'F', 'O']
  else if level = 3 then ascii ['D', 'E', 'B', 'U', 'G']
  else ascii ['U', 'N', 'K', 'N', 'O', 'W', 'N']

/-- What comes after the last of these characters, or everything. -/
def afterLast (cs : List UInt8) (text : Bytes) : Bytes := (text.reverse.takeWhile (· ∉ cs)).reverse

def filename : Option Str → Bytes
  | some file => if 0 < file.bytes.length then afterLast (ascii ['\\']) file.bytes else []
  | none => []

/-- The parts of the format of `FormatLogPrefix`. -/
def Call.fields (c : Call) : List Bytes :=
  [ascii ['['], padded 4 (c.now.year + 1900), ascii ['-'], padded 2 (c.now.mon + 1), ascii ['-'],
    padded 2 c.now.mday, ascii [' '], padded 2 c.now.hour, ascii [':'], padded 2 c.now.min, ascii [':'],
    padded 2 c.now.sec, ascii [']', '['], levelStr c.level, ascii [']', '['], decimal c.threadId.toNat,
    ascii [']', '['], filename c.file, ascii [':'], padded 0 c.line, ascii [']', ' ']]

/-- The text that it makes. -/
def Call.header (c : Call) : Bytes := c.fields.flatten

def maxLogLength : Nat := 1024

/-- An `int` as a `size_t`. -/
def asSize (n : Int) : Nat := (n % 18446744073709551616).toNat

def formatLogPrefix (b : Buffer maxLogLength) (c : Call) : Option (Buffer maxLogLength × Int) := do
  let (b, length) ← b.snprintf 0 maxLogLength c.header
  return (b, (length : Int))

/-- What `LogSync` and `LogAsync` do to their array; `none` for a write or a read outside of it. -/
def format (b : Buffer maxLogLength) (c : Call) (message : Str) : Option (Buffer maxLogLength) := do
  let (b, prefixLen) ← formatLogPrefix b c
  let (b, _) ← b.snprintf prefixLen.toNat (asSize (maxLogLength - prefixLen - 1)) message.bytes
  let len ← b.strlen
  if len < maxLogLength - 2 then b.put len [10, 0] else some b

/-- The text that is given to `WriteToFile`; `logText` is the array as it lies on the stack. -/
def logSync (logText : Buffer maxLogLength) (c : Call) (message : Str) : Option (Buffer maxLogLength) :=
  format logText c message

structure LogMessage where
  text : Buffer maxLogLength
  level : Int
  valid : Bool

/-- `LogAsync`, on the slot that it has claimed. -/
def logAsync (msg : LogMessage) (c : Call) (message : Str) : Option LogMessage := do
  let text ← format msg.text c message
  return { text := text, level := c.level, valid := true }

/-! ## Whole lines -/

/-- The array has a record of a prefix and a message: their text, cut off where a newline and a NUL would
    have no room, and a newline at its end. -/
structure Line (header message : Bytes) (b : Buffer maxLogLength) : Prop where
  terminated : (0 : UInt8) ∈ b.bytes
  starts : (header ++ message).take (maxLogLength - 2) <+: b.text
  newline : b.text.getLast? = some 10

/-- Both ways to log make the same text, and it is a line. -/
def WholeLine (c : Call) (message : Str) (logText : Buffer maxLogLength) (msg : LogMessage) : Prop :=
  ∃ sync async, logSync logText c message = some sync ∧ logAsync msg c message = some async ∧
    sync.text = async.text.text ∧ Line c.header message.bytes sync ∧ Line c.header message.bytes async.text

/-! ## No part of a record has a NUL -/

theorem decimal_noNul (n : Nat) : (0 : UInt8) ∉ decimal n := fun hmem =>
  absurd (isDigit_of_mem hmem) (by decide)

theorem padded_noNul (w : Nat) (n : Int) : (0 : UInt8) ∉ padded w n := by
  unfold padded
  dsimp only
  rw [List.mem_append, List.mem_append]
  rintro (hmem | hmem | hmem)
  · split at hmem
    · exact absurd hmem (by decide)
    · cases hmem
  · exact absurd (List.eq_of_mem_replicate hmem) (by decide)
  · exact decimal_noNul _ hmem

theorem levelStr_noNul (level : Int) : (0 : UInt8) ∉ levelStr level := by
  unfold levelStr
  split
  · decide
  · split
    · decide
    · split
      · decide
      · split <;> decide

theorem filename_noNul (file : Option Str) : (0 : UInt8) ∉ filename file := by
  unfold filename
  split
  · rename_i file
    split
    · intro hmem
      rw [afterLast, List.mem_reverse] at hmem
      exact file.noNul (List.mem_reverse.mp ((List.takeWhile_prefix _).subset hmem))
    · simp
  · simp

theorem header_noNul (c : Call) : (0 : UInt8) ∉ c.header := by
  have hfields : ∀ f ∈ c.fields, (0 : UInt8) ∉ f := by
    simp only [Call.fields, List.forall_mem_cons, padded_noNul, levelStr_noNul, decimal_noNul,
      filename_noNul, not_false_eq_true, true_and]
    decide
  intro hmem
  obtain ⟨f, hf, hzero⟩ := List.mem_flatten.mp hmem
  exact hfields f hf hzero

/-! ## The text -/

/-- What is in the array after a call: the prefix and the message, without the newline if they are long. -/
def record (header message : Bytes) : Bytes := AsyncLog.addNewline (AsyncLog.formatBody header message)

theorem asSize_eq {p : Nat} (h : p < 1000) : asSize (maxLogLength - (p : Int) - 1) = 1023 - p := by
  show ((1024 - (p : Int) - 1) % 18446744073709551616).toNat = 1023 - p
  omega

theorem formatLogPrefix_spec (b : Buffer maxLogLength) {c : Call} (h : c.header.length < 1000) :
    ∃ b', formatLogPrefix b c = some (b', (c.header.length : Int)) ∧ b'.Holds c.header := by
  obtain ⟨b', hb', H⟩ := b.snprintf_start (header_noNul c) (show 0 < maxLogLength by decide) (Nat.le_refl _)
  rw [List.take_of_length_le (show c.header.length ≤ maxLogLength - 1 from by unfold maxLogLength; omega)] at H
  refine ⟨b', ?_, H⟩
  rw [formatLogPrefix, hb']
  rfl

/-- **The text of a record.** -/
theorem format_spec (b : Buffer maxLogLength) {c : Call} (message : Str) (h : c.header.length < 1000) :
    ∃ b', format b c message = some b' ∧ b'.Holds (record c.header message.bytes) := by
  obtain ⟨b₁, hfirst, H₁⟩ := formatLogPrefix_spec b h
  have hsize := asSize_eq h
  obtain ⟨b₂, hsecond, H₂⟩ := Buffer.snprintf_holds H₁ message.noNul
    (show 0 < 1023 - c.header.length by omega) (by unfold maxLogLength; omega)
  have hbody : c.header ++ message.bytes.take (1023 - c.header.length - 1) =
      AsyncLog.formatBody c.header message.bytes := by
    rw [AsyncLog.formatBody, Nat.sub_right_comm]
  rw [hbody] at H₂
  generalize hbody' : AsyncLog.formatBody c.header message.bytes = body at H₂
  rw [record, hbody', AsyncLog.addNewline]
  by_cases hlen : body.length < 1022
  · obtain ⟨b₃, hthird, H₃⟩ := Buffer.push_holds H₂ (c := 10) (by decide) (by unfold maxLogLength; omega)
    refine ⟨b₃, ?_, by rwa [if_pos hlen]⟩
    simp only [format, hfirst, Option.bind_eq_bind, Option.bind_some, hsize, Int.toNat_natCast, hsecond,
      H₂.strlen_eq]
    rw [if_pos (show body.length < maxLogLength - 2 from hlen), hthird]
  · refine ⟨b₂, ?_, by rwa [if_neg hlen]⟩
    simp only [format, hfirst, Option.bind_eq_bind, Option.bind_some, hsize, Int.toNat_natCast, hsecond,
      H₂.strlen_eq]
    rw [if_neg (show ¬ body.length < maxLogLength - 2 from hlen)]

/-- The slot has what the model of the ring says. -/
theorem logAsync_spec (msg : LogMessage) {c : Call} (message : Str) (h : c.header.length < 1000) :
    ∃ msg', logAsync msg c message = some msg' ∧
      (⟨msg'.text.text, msg'.level, msg'.valid⟩ : AsyncLog.LogMessage) =
        AsyncLog.message ⟨c.level, c.header, message.bytes⟩ := by
  obtain ⟨b, hb, H⟩ := format_spec msg.text message h
  refine ⟨⟨b, c.level, true⟩, ?_, ?_⟩
  · rw [logAsync, hb]
    rfl
  · rw [H.text_eq]
    rfl

theorem length_formatBody {header message : Bytes} (h : header.length < 1000) :
    (AsyncLog.formatBody header message).length = min 1022 (header ++ message).length := by
  rw [AsyncLog.formatBody, List.length_append, List.length_take, List.length_append]
  omega

theorem formatBody_eq {header message : Bytes} (h : header.length < 1000) :
    AsyncLog.formatBody header message = (header ++ message).take 1022 := by
  rw [AsyncLog.formatBody, List.take_append, List.take_of_length_le (by omega : header.length ≤ 1022)]

theorem starts_record {header message : Bytes} (h : header.length < 1000) :
    (header ++ message).take (maxLogLength - 2) <+: record header message := by
  rw [record, formatBody_eq h, AsyncLog.addNewline]
  split
  · exact List.prefix_append _ _
  · exact List.prefix_rfl

/-- The end of a record: the newline, or what is cut off at. -/
theorem getLast?_record {header message : Bytes} (h : header.length < 1000) :
    (record header message).getLast? = some 10 ↔
      (header ++ message).length < 1022 ∨ (header ++ message)[1021]? = some 10 := by
  have hlength : (AsyncLog.formatBody header message).length = min 1022 (header ++ message).length :=
    length_formatBody h
  rw [record, AsyncLog.addNewline, hlength]
  by_cases hshort : (header ++ message).length < 1022
  · rw [if_pos (by omega), List.getLast?_concat]
    exact iff_of_true rfl (.inl hshort)
  · rw [if_neg (by omega), List.getLast?_eq_getElem?, hlength, formatBody_eq h, Nat.min_eq_left (by omega),
      List.getElem?_take_of_lt (by decide)]
    exact ⟨.inr, fun h' => h'.resolve_left hshort⟩

theorem line_iff {c : Call} {message : Str} {b : Buffer maxLogLength} (h : c.header.length < 1000)
    (H : b.Holds (record c.header message.bytes)) :
    Line c.header message.bytes b ↔ (c.header ++ message.bytes).length < 1022 ∨
      (c.header ++ message.bytes)[1021]? = some 10 := by
  rw [← getLast?_record h, ← H.text_eq]
  refine ⟨Line.newline, fun hnewline => ⟨H.terminated, ?_, hnewline⟩⟩
  rw [H.text_eq]
  exact starts_record h

/-- What `LogSync` makes is a line only under this condition. -/
theorem fits_of_wholeLine {c : Call} {message : Str} {logText : Buffer maxLogLength} {msg : LogMessage}
    (h : c.header.length < 1000) (W : WholeLine c message logText msg) :
    (c.header ++ message.bytes).length < 1022 ∨ (c.header ++ message.bytes)[1021]? = some 10 := by
  obtain ⟨sync, -, hsync, -, -, hline, -⟩ := W
  obtain ⟨sync', hsync', H⟩ := format_spec logText message h
  obtain rfl : sync = sync' := Option.some.inj (hsync.symm.trans hsync')
  exact (line_iff h H).mp hline

/-- **Log records are whole lines** as long as the prefix and the message together are shorter than 1022
    bytes, or happen to have a newline where they are cut off. -/
theorem whole_line_iff (c : Call) (message : Str) (logText : Buffer maxLogLength) (msg : LogMessage)
    (h : c.header.length < 1000) :
    WholeLine c message logText msg ↔ (c.header ++ message.bytes).length < 1022 ∨
      (c.header ++ message.bytes)[1021]? = some 10 := by
  refine ⟨fits_of_wholeLine h, fun hfits => ?_⟩
  obtain ⟨sync, hsync, Hsync⟩ := format_spec logText message h
  obtain ⟨text, htext, Htext⟩ := format_spec msg.text message h
  have hasync : logAsync msg c message = some ⟨text, c.level, true⟩ := by
    rw [logAsync, htext]
    rfl
  exact ⟨sync, _, hsync, hasync, Hsync.text_eq.trans Htext.text_eq.symm, (line_iff h Hsync).mpr hfits,
    (line_iff h Htext).mpr hfits⟩

/-- A call in `..\main.cpp`. -/
def sampleCall : Call where
  level := 2
  file := some ⟨ascii ['.', '.', '\\', 'm', 'a', 'i', 'n', '.', 'c', 'p', 'p'], by decide⟩
  line := 42
  now := ⟨125, 0, 9, 8, 7, 6⟩
  threadId := 1234

/-- An array full of ones. -/
def oldBuffer : Buffer maxLogLength := ⟨List.replicate 1024 1, by rw [List.length_replicate]; rfl⟩

example : sampleCall.header = ascii ("[2025-01-09 08:07:06][INFO][1234][main.cpp:42] ".toList) := by decide

theorem length_header_sample : sampleCall.header.length = 47 := by decide

theorem whole_line_hello : sampleCall.header.length < 1000 ∧
    WholeLine sampleCall ⟨ascii ['h', 'e', 'l', 'l', 'o'], by decide⟩ oldBuffer ⟨oldBuffer, 0, false⟩ :=
  ⟨by decide, (whole_line_iff _ _ _ _ (by decide)).mpr (.inl (by decide))⟩

/-- A message of 1000 letters is cut off, and nothing ends its line. -/
theorem no_newline : ¬ ∀ (c : Call) (message : Str) (logText : Buffer maxLogLength) (msg : LogMessage),
    c.header.length < 1000 → WholeLine c message logText msg := by
  intro h
  have hletters : (0 : UInt8) ∉ List.replicate 1000 (97 : UInt8) := fun hmem =>
    absurd (List.eq_of_mem_replicate hmem) (by decide)
  have hfits := fits_of_wholeLine (by decide)
    (h sampleCall ⟨List.replicate 1000 97, hletters⟩ oldBuffer ⟨oldBuffer, 0, false⟩ (by decide))
  rw [List.length_append, List.length_replicate, length_header_sample] at hfits
  have hletter := hfits.resolve_left (by decide)
  rw [List.getElem?_append_right (by rw [length_header_sample]; decide),
    List.getElem?_replicate_of_lt (by rw [length_header_sample]; decide)] at hletter
  exact absurd hletter (by decide)

end JunCore.LogFormat
