/-
  Strings that end with a NUL, in arrays of a fixed size.

  A string is its bytes without the NUL (`Str`), an array is its bytes (`Buffer`).  A write that does not
  fit into the array fails, and so does a search for a NUL that is not there.  `Buffer.Holds` says that
  an array begins with a string: `snprintf` at its end makes it longer (`snprintf_holds`), as far as the
  size allows, and so does a put of a character and a new NUL (`push_holds`).
-/
import Mathlib.Data.List.TakeWhile
import Mathlib.Data.List.TakeDrop

set_option linter.unusedVariables false

namespace CString

abbrev Bytes := List UInt8

structure Str where
  bytes : Bytes
  noNul : (0 : UInt8) ∉ bytes
  deriving DecidableEq

structure Buffer (n : Nat) where
  bytes : Bytes
  size : bytes.length = n
  deriving DecidableEq

namespace Buffer

variable {n : Nat}

/-- `memcpy(b + i, s, ..)` -/
def put (b : Buffer n) (i : Nat) (s : Bytes) : Option (Buffer n) :=
  if h : i + s.length ≤ n then
    some ⟨b.bytes.take i ++ (s ++ b.bytes.drop (i + s.length)), by
      rw [List.length_append, List.length_append, List.length_take, List.length_drop, b.size]
      omega⟩
  else none

/-- `snprintf(b + i, size, ..)` of a text: what is in the array then, and what is returned. -/
def snprintf (b : Buffer n) (i size : Nat) (s : Bytes) : Option (Buffer n × Nat) :=
  if size = 0 then some (b, s.length)
  else (b.put i (s.take (size - 1) ++ [0])).map fun b' => (b', s.length)

/-- The string that begins the array. -/
def text (b : Buffer n) : Bytes := b.bytes.takeWhile (· ≠ 0)

def strlen (b : Buffer n) : Option Nat := if (0 : UInt8) ∈ b.bytes then some b.text.length else none

/-- The array begins with `s` and a NUL. -/
structure Holds (b : Buffer n) (s : Bytes) : Prop where
  noNul : (0 : UInt8) ∉ s
  ends : s ++ [0] <+: b.bytes

/-! ## Rules -/

theorem put_eq_some {b b' : Buffer n} {i : Nat} {s : Bytes} (h : b.put i s = some b') :
    b'.bytes = b.bytes.take i ++ (s ++ b.bytes.drop (i + s.length)) := by
  unfold put at h
  split at h
  · rw [← Option.some.inj h]
  · cases h

theorem put_of_le (b : Buffer n) {i : Nat} {s : Bytes} (h : i + s.length ≤ n) : ∃ b', b.put i s = some b' := by
  rw [put, dif_pos h]
  exact ⟨_, rfl⟩

namespace Holds

variable {b : Buffer n} {s : Bytes}

theorem text_eq (H : Holds b s) : b.text = s := by
  obtain ⟨rest, hrest⟩ := H.ends
  have hall : ∀ x ∈ s, decide (x ≠ (0 : UInt8)) = true := fun x hx =>
    decide_eq_true fun h0 => H.noNul (h0 ▸ hx)
  rw [text, ← hrest, List.append_assoc, List.takeWhile_append_of_pos hall, List.singleton_append,
    List.takeWhile_cons_of_neg (by decide), List.append_nil]

theorem terminated (H : Holds b s) : (0 : UInt8) ∈ b.bytes :=
  H.ends.subset (List.mem_append_right _ (List.mem_singleton.mpr rfl))

theorem strlen_eq (H : Holds b s) : b.strlen = some s.length := by
  rw [strlen, if_pos H.terminated, H.text_eq]

end Holds

/-- What is put at the place where the bytes `front` end. -/
theorem put_holds {b : Buffer n} {front t : Bytes} (hfront : front <+: b.bytes) (hno : (0 : UInt8) ∉ front)
    (ht : (0 : UInt8) ∉ t) (h : front.length + t.length + 1 ≤ n) :
    ∃ b', b.put front.length (t ++ [0]) = some b' ∧ Holds b' (front ++ t) := by
  obtain ⟨b', hb'⟩ := put_of_le b (i := front.length) (s := t ++ [0])
    (by rw [List.length_append, List.length_singleton]; omega)
  refine ⟨b', hb', ?_, ?_⟩
  · rw [List.mem_append]
    exact fun hmem => hmem.elim hno ht
  · rw [put_eq_some hb', ← List.prefix_iff_eq_take.mp hfront, ← List.append_assoc front,
      ← List.append_assoc front]
    exact List.prefix_append _ _

theorem snprintf_at {b : Buffer n} {front t : Bytes} {size : Nat} (hfront : front <+: b.bytes)
    (hno : (0 : UInt8) ∉ front) (ht : (0 : UInt8) ∉ t) (hsize : 0 < size) (h : front.length + size ≤ n) :
    ∃ b', b.snprintf front.length size t = some (b', t.length) ∧ Holds b' (front ++ t.take (size - 1)) := by
  obtain ⟨b', hb', H⟩ := put_holds hfront hno (fun hmem => ht (List.mem_of_mem_take hmem))
    (t := t.take (size - 1)) (by rw [List.length_take]; omega)
  refine ⟨b', ?_, H⟩
  rw [snprintf, if_neg (Nat.pos_iff_ne_zero.mp hsize), hb']
  rfl

/-- **A string is written** at the start of an array. -/
theorem snprintf_start (b : Buffer n) {t : Bytes} {size : Nat} (ht : (0 : UInt8) ∉ t) (hsize : 0 < size)
    (h : size ≤ n) :
    ∃ b', b.snprintf 0 size t = some (b', t.length) ∧ Holds b' (t.take (size - 1)) :=
  snprintf_at (List.nil_prefix) (by simp) ht hsize (by simpa using h)

/-- **A string is written** behind another one. -/
theorem snprintf_holds {b : Buffer n} {s t : Bytes} {size : Nat} (H : Holds b s) (ht : (0 : UInt8) ∉ t)
    (hsize : 0 < size) (h : s.length + size ≤ n) :
    ∃ b', b.snprintf s.length size t = some (b', t.length) ∧ Holds b' (s ++ t.take (size - 1)) :=
  snprintf_at ((List.prefix_append _ _).trans H.ends) H.noNul ht hsize h

/-- **A character** behind a string. -/
theorem push_holds {b : Buffer n} {s : Bytes} {c : UInt8} (H : Holds b s) (hc : c ≠ 0) (h : s.length + 2 ≤ n) :
    ∃ b', b.put s.length [c, 0] = some b' ∧ Holds b' (s ++ [c]) :=
  put_holds (t := [c]) ((List.prefix_append _ _).trans H.ends) H.noNul
    (by rw [List.mem_singleton]; exact fun h0 => hc h0.symm) h

end Buffer

end CString
