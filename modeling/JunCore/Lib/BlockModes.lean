/-
  Block ciphers: padding, and the modes CBC and ECB.

  A block cipher is two maps on blocks of `w` bytes for each key, the second one undoing the first.  A mode
  says how the block before goes into the next one; a chain of blocks is decrypted by going through it in
  the same order (`decrypt_encrypt`).  PKCS#7 fills up the last block, and a text that ends with a block
  gets one more block, which is nothing but padding (`length_pad`, `unpad_pad`).
-/
import Mathlib.Data.Nat.Notation
import Mathlib.Logic.Function.Basic

set_option linter.unusedVariables false

namespace BlockModes

abbrev Bytes := List UInt8

/-- A block cipher on blocks of `w` bytes. -/
structure BlockCipher (K : Type) (w : Nat) where
  enc : K → Bytes → Bytes
  dec : K → Bytes → Bytes
  length_enc : ∀ k b, b.length = w → (enc k b).length = w
  dec_enc : ∀ k b, b.length = w → dec k (enc k b) = b

inductive Mode
  | cbc
  | ecb
  deriving DecidableEq

def xor (a b : Bytes) : Bytes := List.zipWith (· ^^^ ·) a b

/-- What is mixed into a block; `previous` is the block before in the encrypted text. -/
def Mode.mask (m : Mode) (previous b : Bytes) : Bytes :=
  match m with
  | .cbc => xor previous b
  | .ecb => b

section

variable {K : Type} {w : Nat} (C : BlockCipher K w) (m : Mode) (k : K)

/-- The next `n` blocks of `text`. -/
def encryptBlocks (previous : Bytes) : Nat → Bytes → Bytes
  | 0, _ => []
  | n + 1, text =>
    let c := C.enc k (m.mask previous (text.take w))
    c ++ encryptBlocks c n (text.drop w)

def decryptBlocks (previous : Bytes) : Nat → Bytes → Bytes
  | 0, _ => []
  | n + 1, text =>
    let c := text.take w
    m.mask previous (C.dec k c) ++ decryptBlocks c n (text.drop w)

def encrypt (iv text : Bytes) : Bytes := encryptBlocks C m k iv (text.length / w) text

def decrypt (iv text : Bytes) : Bytes := decryptBlocks C m k iv (text.length / w) text

end

/-! ## PKCS#7 -/

def padding (w n : Nat) : Nat := w - n % w

def pad (w : Nat) (text : Bytes) : Bytes :=
  text ++ List.replicate (padding w text.length) (UInt8.ofNat (padding w text.length))

/-- `none` where the padding is bad. -/
def unpad (w : Nat) (text : Bytes) : Option Bytes :=
  match text.getLast? with
  | none => none
  | some v =>
    if 1 ≤ v.toNat ∧ v.toNat ≤ w ∧ v.toNat ≤ text.length ∧
        text.drop (text.length - v.toNat) = List.replicate v.toNat v then
      some (text.take (text.length - v.toNat))
    else none

theorem padding_bounds {w : Nat} (hw : 0 < w) (n : Nat) : 1 ≤ padding w n ∧ padding w n ≤ w := by
  have hlt := Nat.mod_lt n hw
  unfold padding
  omega

theorem length_pad {w : Nat} (hw : 0 < w) (text : Bytes) :
    (pad w text).length = w * (text.length / w + 1) := by
  have hlt := Nat.mod_lt text.length hw
  have hdiv := Nat.div_add_mod text.length w
  rw [pad, List.length_append, List.length_replicate, padding, Nat.mul_add, Nat.mul_one]
  omega

/-- **Padding comes off again.** -/
theorem unpad_pad {w : Nat} (hw : 0 < w) (hw' : w < 256) (text : Bytes) : unpad w (pad w text) = some text := by
  obtain ⟨hpos, hle⟩ := padding_bounds hw text.length
  generalize hp : padding w text.length = p at hpos hle
  have hpad : pad w text = text ++ List.replicate p (UInt8.ofNat p) := by rw [pad, hp]
  have hv : (UInt8.ofNat p).toNat = p := by
    rw [UInt8.toNat_ofNat']
    omega
  have hlast : (pad w text).getLast? = some (UInt8.ofNat p) := by
    obtain ⟨q, rfl⟩ := Nat.exists_eq_succ_of_ne_zero (Nat.pos_iff_ne_zero.mp hpos)
    rw [hpad, List.replicate_succ', ← List.append_assoc, List.getLast?_append]
    rfl
  have hlength : (pad w text).length - p = text.length := by
    rw [hpad, List.length_append, List.length_replicate, Nat.add_sub_cancel]
  unfold unpad
  rw [hlast]
  dsimp only
  rw [hv, hlength, if_pos]
  · rw [hpad, List.take_left]
  · refine ⟨hpos, hle, ?_, ?_⟩
    · rw [hpad, List.length_append, List.length_replicate]
      exact Nat.le_add_left _ _
    · rw [hpad, List.drop_left]

/-! ## The modes -/

theorem length_xor {a b : Bytes} (h : a.length = b.length) : (xor a b).length = b.length := by
  rw [xor, List.length_zipWith, h, Nat.min_self]

theorem xor_xor {a b : Bytes} (h : a.length = b.length) : xor a (xor a b) = b := by
  induction a generalizing b with
  | nil =>
    cases b with
    | nil => rfl
    | cons y b => cases h
  | cons x a ih =>
    cases b with
    | nil => cases h
    | cons y b =>
      show (x ^^^ (x ^^^ y)) :: xor a (xor a b) = y :: b
      rw [ih (Nat.succ.inj h), ← UInt8.xor_assoc, UInt8.xor_self, UInt8.zero_xor]

section

variable {K : Type} {w : Nat} {C : BlockCipher K w} {m : Mode} {k : K} {previous : Bytes}

theorem Mode.length_mask {b : Bytes} (h : previous.length = b.length) :
    (m.mask previous b).length = b.length := by
  cases m with
  | cbc => exact length_xor h
  | ecb => rfl

theorem Mode.mask_mask {b : Bytes} (h : previous.length = b.length) :
    m.mask previous (m.mask previous b) = b := by
  cases m with
  | cbc => exact xor_xor h
  | ecb => rfl

theorem length_encryptBlocks (h : previous.length = w) {n : Nat} {text : Bytes} (htext : text.length = w * n) :
    (encryptBlocks C m k previous n text).length = w * n := by
  induction n generalizing previous text with
  | zero => rfl
  | succ n ih =>
    rw [Nat.mul_succ] at htext
    have htake : (text.take w).length = w := by
      rw [List.length_take]
      omega
    have hc := C.length_enc k (m.mask previous (text.take w))
      (by rw [Mode.length_mask (by rw [h, htake]), htake])
    have hdrop : (text.drop w).length = w * n := by
      rw [List.length_drop]
      omega
    have hrest := ih hc hdrop
    simp only [encryptBlocks]
    rw [List.length_append, hc, hrest, Nat.mul_succ]
    omega

theorem decryptBlocks_encryptBlocks (h : previous.length = w) {n : Nat} {text : Bytes}
    (htext : text.length = w * n) :
    decryptBlocks C m k previous n (encryptBlocks C m k previous n text) = text := by
  induction n generalizing previous text with
  | zero => exact (List.eq_nil_of_length_eq_zero htext).symm
  | succ n ih =>
    rw [Nat.mul_succ] at htext
    have htake : (text.take w).length = w := by
      rw [List.length_take]
      omega
    have hmask : (m.mask previous (text.take w)).length = w := by
      rw [Mode.length_mask (by rw [h, htake]), htake]
    have hc := C.length_enc k (m.mask previous (text.take w)) hmask
    have hdrop : (text.drop w).length = w * n := by
      rw [List.length_drop]
      omega
    have hrest := ih hc hdrop
    simp only [encryptBlocks, decryptBlocks]
    rw [List.take_left' hc, List.drop_left' hc, C.dec_enc k _ hmask, hrest,
      Mode.mask_mask (by rw [h, htake]), List.take_append_drop]

/-- A text of whole blocks has as many when it is encrypted. -/
theorem length_encrypt {iv text : Bytes} (h : iv.length = w) (htext : w ∣ text.length) :
    (encrypt C m k iv text).length = text.length := by
  have hlength := Nat.mul_div_cancel' htext
  rw [encrypt, length_encryptBlocks h hlength.symm, hlength]

/-- **Round trip.** -/
theorem decrypt_encrypt {iv text : Bytes} (h : iv.length = w) (htext : w ∣ text.length) :
    decrypt C m k iv (encrypt C m k iv text) = text := by
  rw [decrypt, length_encrypt h htext, encrypt,
    decryptBlocks_encryptBlocks h (Nat.mul_div_cancel' htext).symm]

end

end BlockModes
