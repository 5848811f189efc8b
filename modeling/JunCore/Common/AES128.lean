/-
  `JunCommon/crypto/AES128.h` and `AES128.cpp`: AES-128 over the EVP interface of OpenSSL.

  The wrapper gives EVP a buffer of `GetEncryptedSize` bytes, and EVP writes into it what it likes.  The
  size is rounded up to whole blocks, but PKCS#7 adds a block to a text that ends with one.  So for a
  length that is a multiple of 16 the last block is written behind the buffer (`round_trip_iff`).

  EVP is a parameter (`Evp`): what each call returns and writes, by the context it is given.  What is
  relied on is that it implements some block cipher in the two modes (`Evp.Implements`), whatever the
  context was used for before.  A write is the bytes and the place in the buffer they go to; the place is
  where the wrapper points, so it may be behind the end.
-/
import JunCore.Lib.BlockModes

set_option linter.unusedVariables false

namespace JunCore.AES128

open BlockModes

/-! ## The interface of EVP -/

abbrev Key := Vector UInt8 16

abbrev Iv := Vector UInt8 16

/-- What a call returns, the bytes it writes at `out` (`outl` is their number), and its context. -/
structure EvpResult (Ctx : Type) where
  ret : Int
  out : Bytes := []
  ctx : Ctx

structure Evp (Ctx : Type) where
  /-- what `EVP_CIPHER_CTX_new` returns -/
  new : Ctx
  /-- `EVP_CIPHER_CTX_reset` -/
  reset : Ctx → EvpResult Ctx
  /-- `EVP_EncryptInit_ex` with the cipher of a mode -/
  encryptInit : Ctx → Mode → Key → Option Iv → EvpResult Ctx
  /-- `EVP_EncryptUpdate`, by `in` and `inl` -/
  encryptUpdate : Ctx → Bytes → Int → EvpResult Ctx
  /-- `EVP_EncryptFinal_ex` -/
  encryptFinal : Ctx → EvpResult Ctx
  decryptInit : Ctx → Mode → Key → Option Iv → EvpResult Ctx
  decryptUpdate : Ctx → Bytes → Int → EvpResult Ctx
  decryptFinal : Ctx → EvpResult Ctx

/-! ## The program -/

/-- Bytes that are written, and where in the buffer. -/
structure Write where
  offset : Nat
  bytes : Bytes
  deriving DecidableEq

structure Encrypted (Ctx : Type) where
  ok : Bool
  writes : List Write
  ctx : Ctx

structure Decrypted (Ctx : Type) where
  ok : Bool
  writes : List Write
  actualSize : Nat
  ctx : Ctx

def getEncryptedSize (plaintextSize : Nat) : Nat := (plaintextSize + 15) / 16 * 16

/-- `static_cast<int>(size)` -/
def asInt (size : Nat) : Int := (BitVec.ofNat 32 size).toInt

section

variable {Ctx : Type} (evp : Evp Ctx)

/-- `EncryptAES128` and its ECB variant, by the mode and the initialization vector. -/
def encryptContext (ctx : Ctx) (m : Mode) (plaintext : Bytes) (key : Key) (iv : Option Iv)
    (maxCiphertextSize : Nat) : Encrypted Ctx :=
  let expectedSize := (plaintext.length + 15) / 16 * 16
  if maxCiphertextSize ≠ expectedSize then ⟨false, [], ctx⟩
  else
    let r := evp.reset ctx
    if r.ret ≠ 1 then ⟨false, [], r.ctx⟩
    else
      let i := evp.encryptInit r.ctx m key iv
      if i.ret ≠ 1 then ⟨false, [], i.ctx⟩
      else
        let u := evp.encryptUpdate i.ctx plaintext (asInt plaintext.length)
        if u.ret ≠ 1 then ⟨false, [⟨0, u.out⟩], u.ctx⟩
        else
          let f := evp.encryptFinal u.ctx
          if f.ret ≠ 1 then ⟨false, [⟨0, u.out⟩, ⟨u.out.length, f.out⟩], f.ctx⟩
          else ⟨true, [⟨0, u.out⟩, ⟨u.out.length, f.out⟩], f.ctx⟩

def encryptAES128 (ctx : Ctx) (plaintext : Bytes) (key : Key) (iv : Iv) (maxCiphertextSize : Nat) :
    Encrypted Ctx := encryptContext evp ctx .cbc plaintext key (some iv) maxCiphertextSize

def encryptAES128ECB (ctx : Ctx) (plaintext : Bytes) (key : Key) (maxCiphertextSize : Nat) : Encrypted Ctx :=
  encryptContext evp ctx .ecb plaintext key none maxCiphertextSize

/-- `DecryptAES128` and its ECB variant. -/
def decryptContext (ctx : Ctx) (m : Mode) (ciphertext : Bytes) (key : Key) (iv : Option Iv)
    (maxPlaintextSize : Nat) : Decrypted Ctx :=
  if maxPlaintextSize < ciphertext.length then ⟨false, [], 0, ctx⟩
  else
    let r := evp.reset ctx
    if r.ret ≠ 1 then ⟨false, [], 0, r.ctx⟩
    else
      let i := evp.decryptInit r.ctx m key iv
      if i.ret ≠ 1 then ⟨false, [], 0, i.ctx⟩
      else
        let u := evp.decryptUpdate i.ctx ciphertext (asInt ciphertext.length)
        if u.ret ≠ 1 then ⟨false, [⟨0, u.out⟩], 0, u.ctx⟩
        else
          let f := evp.decryptFinal u.ctx
          if f.ret ≠ 1 then ⟨false, [⟨0, u.out⟩, ⟨u.out.length, f.out⟩], 0, f.ctx⟩
          else ⟨true, [⟨0, u.out⟩, ⟨u.out.length, f.out⟩], u.out.length + f.out.length, f.ctx⟩

def decryptAES128 (ctx : Ctx) (ciphertext : Bytes) (key : Key) (iv : Iv) (maxPlaintextSize : Nat) :
    Decrypted Ctx := decryptContext evp ctx .cbc ciphertext key (some iv) maxPlaintextSize

def decryptAES128ECB (ctx : Ctx) (ciphertext : Bytes) (key : Key) (maxPlaintextSize : Nat) : Decrypted Ctx :=
  decryptContext evp ctx .ecb ciphertext key none maxPlaintextSize

end

/-- `resize` -/
def resize (v : Bytes) (n : Nat) : Bytes := v.take n ++ List.replicate (n - v.length) 0

/-- What a write does to the bytes of the buffer; what goes behind its end does nothing to them. -/
def store (buffer : Bytes) (w : Write) : Bytes :=
  buffer.take w.offset ++ (w.bytes.take (buffer.length - w.offset) ++ buffer.drop (w.offset + w.bytes.length))

/-- What a function leaves in the vector it is given, and the writes it let EVP do into it. -/
structure VectorResult (Ctx : Type) where
  ok : Bool
  vector : Bytes
  writes : List Write
  ctx : Ctx

section

variable {Ctx : Type} (evp : Evp Ctx) (ctx : Ctx)

/-- The functions on vectors, by the function on pointers that they call with the size of the buffer. -/
def encryptInto (call : Nat → Encrypted Ctx) (plaintext ciphertext : Bytes) : VectorResult Ctx :=
  let buffer := resize ciphertext (getEncryptedSize plaintext.length)
  let r := call buffer.length
  ⟨r.ok, r.writes.foldl store buffer, r.writes, r.ctx⟩

def decryptInto (call : Nat → Decrypted Ctx) (ciphertext plaintext : Bytes) : VectorResult Ctx :=
  let buffer := resize plaintext ciphertext.length
  let r := call buffer.length
  let written := r.writes.foldl store buffer
  ⟨r.ok, if r.ok = true then resize written r.actualSize else written, r.writes, r.ctx⟩

def encrypt (plaintext : Bytes) (key : Key) (iv : Iv) (ciphertext : Bytes) : VectorResult Ctx :=
  encryptInto (encryptAES128 evp ctx plaintext key iv) plaintext ciphertext

def encryptECB (plaintext : Bytes) (key : Key) (ciphertext : Bytes) : VectorResult Ctx :=
  encryptInto (encryptAES128ECB evp ctx plaintext key) plaintext ciphertext

def decrypt (ciphertext : Bytes) (key : Key) (iv : Iv) (plaintext : Bytes) : VectorResult Ctx :=
  decryptInto (decryptAES128 evp ctx ciphertext key iv) ciphertext plaintext

def decryptECB (ciphertext : Bytes) (key : Key) (plaintext : Bytes) : VectorResult Ctx :=
  decryptInto (decryptAES128ECB evp ctx ciphertext key) ciphertext plaintext

end

/-! ## What EVP promises -/

/-- The block that CBC starts with; ECB has none, and does not look at it. -/
def firstBlock : Option Iv → Bytes
  | some iv => iv.toList
  | none => List.replicate 16 0

section

variable {Ctx : Type}

/-- A context that has been reset and initialized encrypts in one go: the input is padded, and the bytes
    written by `EVP_EncryptUpdate` and `EVP_EncryptFinal_ex` are its blocks, encrypted. -/
structure Evp.Implements (evp : Evp Ctx) (C : BlockCipher Key 16) : Prop where
  reset : ∀ ctx, (evp.reset ctx).ret = 1
  encrypts : ∀ ctx m key iv input, (m = .cbc → iv ≠ none) → input.length < 2147483648 →
    let i := evp.encryptInit (evp.reset ctx).ctx m key iv
    let u := evp.encryptUpdate i.ctx input input.length
    let f := evp.encryptFinal u.ctx
    i.ret = 1 ∧ u.ret = 1 ∧ f.ret = 1 ∧
      u.out ++ f.out = BlockModes.encrypt C m key (firstBlock iv) (pad 16 input)
  decrypts : ∀ ctx m key iv input, (m = .cbc → iv ≠ none) → input.length < 2147483648 →
    16 ∣ input.length →
    let i := evp.decryptInit (evp.reset ctx).ctx m key iv
    let u := evp.decryptUpdate i.ctx input input.length
    let f := evp.decryptFinal u.ctx
    i.ret = 1 ∧ u.ret = 1 ∧
      match unpad 16 (BlockModes.decrypt C m key (firstBlock iv) input) with
      | some text => f.ret = 1 ∧ u.out ++ f.out = text
      | none => f.ret ≠ 1

/-- **A round trip** through a pair of functions on vectors: encryption succeeds within the buffer, and
    decryption gives the text back, whatever was in the vectors and the contexts before. -/
structure RoundTrip (plaintext : Bytes) (encrypt decrypt : Ctx → Bytes → Bytes → VectorResult Ctx) : Prop where
  succeeds : ∀ ctx ciphertext, (encrypt ctx plaintext ciphertext).ok = true
  inside : ∀ ctx ciphertext, ∀ w ∈ (encrypt ctx plaintext ciphertext).writes,
    w.offset + w.bytes.length ≤ getEncryptedSize plaintext.length
  back : ∀ ctx ciphertext ctx' old,
    (decrypt ctx' (encrypt ctx plaintext ciphertext).vector old).ok = true ∧
    (decrypt ctx' (encrypt ctx plaintext ciphertext).vector old).vector = plaintext

end

/-! ## The buffer -/

theorem asInt_eq {n : Nat} (h : n < 2147483648) : asInt n = n := by
  rw [asInt, BitVec.toInt_eq_toNat_of_lt (by rw [BitVec.toNat_ofNat]; omega), BitVec.toNat_ofNat]
  omega

theorem length_resize (v : Bytes) (n : Nat) : (resize v n).length = n := by
  rw [resize, List.length_append, List.length_take, List.length_replicate]
  omega

theorem resize_of_prefix {v front : Bytes} (h : front <+: v) : resize v front.length = front := by
  have hle := h.length_le
  rw [resize, Nat.sub_eq_zero_of_le hle, List.replicate_zero, List.append_nil]
  exact (List.prefix_iff_eq_take.mp h).symm

/-- Two writes, one behind the other, that fit. -/
theorem stores {buffer a b : Bytes} (h : a.length + b.length ≤ buffer.length) :
    [Write.mk 0 a, Write.mk a.length b].foldl store buffer =
      a ++ b ++ buffer.drop (a.length + b.length) := by
  have hfirst : store buffer ⟨0, a⟩ = a ++ buffer.drop a.length := by
    simp [store, List.take_of_length_le (Nat.le_of_add_right_le h)]
  have hlength : (a ++ buffer.drop a.length).length = buffer.length := by
    rw [List.length_append, List.length_drop]
    omega
  show store (store buffer ⟨0, a⟩) ⟨a.length, b⟩ = _
  rw [hfirst, store, hlength, List.take_left, List.take_of_length_le (Nat.le_sub_of_add_le' h),
    List.drop_append, List.drop_of_length_le (Nat.le_add_right _ _), List.nil_append, List.drop_drop,
    List.append_assoc]
  dsimp only
  rw [Nat.add_sub_cancel_left]

/-- PKCS#7 needs the size that the wrapper computes, unless the text ends with a block. -/
theorem size_eq_iff (n : Nat) : 16 * (n / 16 + 1) = getEncryptedSize n ↔ n % 16 ≠ 0 := by
  unfold getEncryptedSize
  omega

theorem size_le_iff (n : Nat) : 16 * (n / 16 + 1) ≤ getEncryptedSize n ↔ n % 16 ≠ 0 := by
  unfold getEncryptedSize
  omega

theorem length_firstBlock (iv : Option Iv) : (firstBlock iv).length = 16 := by
  cases iv with
  | none => rfl
  | some iv => exact iv.length_toList

/-! ## Round trips -/

section

variable {Ctx : Type} {evp : Evp Ctx} {C : BlockCipher Key 16} (I : evp.Implements C) {m : Mode} (key : Key)
  (iv : Option Iv) (hiv : m = .cbc → iv ≠ none)
include I hiv

/-- What EVP writes when a buffer of the right size is given. -/
theorem encryptContext_spec {plaintext : Bytes} (h : plaintext.length + 16 < 2147483648) (ctx : Ctx) :
    ∃ a b ctx', a ++ b = BlockModes.encrypt C m key (firstBlock iv) (pad 16 plaintext) ∧
      encryptContext evp ctx m plaintext key iv (getEncryptedSize plaintext.length) =
        ⟨true, [⟨0, a⟩, ⟨a.length, b⟩], ctx'⟩ := by
  let i := evp.encryptInit (evp.reset ctx).ctx m key iv
  let u := evp.encryptUpdate i.ctx plaintext plaintext.length
  let f := evp.encryptFinal u.ctx
  obtain ⟨hi, hu, hf, hout⟩ := I.encrypts ctx m key iv plaintext hiv (by omega)
  refine ⟨u.out, f.out, f.ctx, hout, ?_⟩
  rw [encryptContext, if_neg (by simp [getEncryptedSize]), asInt_eq (by omega)]
  simp only [I.reset ctx, hi, hu, hf, ne_eq, not_true_eq_false, if_false]
  rfl

theorem decryptContext_spec {ciphertext text : Bytes} (h : ciphertext.length < 2147483648)
    (hblocks : 16 ∣ ciphertext.length)
    (htext : unpad 16 (BlockModes.decrypt C m key (firstBlock iv) ciphertext) = some text) (ctx : Ctx) :
    ∃ a b ctx', a ++ b = text ∧ decryptContext evp ctx m ciphertext key iv ciphertext.length =
      ⟨true, [⟨0, a⟩, ⟨a.length, b⟩], text.length, ctx'⟩ := by
  let i := evp.decryptInit (evp.reset ctx).ctx m key iv
  let u := evp.decryptUpdate i.ctx ciphertext ciphertext.length
  let f := evp.decryptFinal u.ctx
  obtain ⟨hi, hu, hf⟩ := I.decrypts ctx m key iv ciphertext hiv h hblocks
  rw [htext] at hf
  refine ⟨u.out, f.out, f.ctx, hf.2, ?_⟩
  rw [decryptContext, if_neg (Nat.lt_irrefl _), asInt_eq h]
  simp only [I.reset ctx, hi, hu, hf.1, ne_eq, not_true_eq_false, if_false]
  rw [← List.length_append, hf.2]

omit I hiv in
theorem length_encrypted (plaintext : Bytes) :
    (BlockModes.encrypt C m key (firstBlock iv) (pad 16 plaintext)).length =
      16 * (plaintext.length / 16 + 1) := by
  have hpad := length_pad (by decide : 0 < 16) plaintext
  rw [length_encrypt (length_firstBlock iv) (hpad ▸ Nat.dvd_mul_right _ _), hpad]

/-- The encrypted text is in the vector, if there is room for it. -/
theorem encryptInto_spec {plaintext : Bytes} (h : plaintext.length + 16 < 2147483648)
    (hsize : plaintext.length % 16 ≠ 0) (ctx : Ctx) (ciphertext : Bytes) :
    (encryptInto (encryptContext evp ctx m plaintext key iv) plaintext ciphertext).vector =
      BlockModes.encrypt C m key (firstBlock iv) (pad 16 plaintext) := by
  obtain ⟨a, b, ctx', hout, hcall⟩ := encryptContext_spec I key iv hiv h ctx
  have hlength := length_encrypted (C := C) (m := m) key iv plaintext
  rw [← hout, List.length_append, (size_eq_iff _).mpr hsize] at hlength
  simp only [encryptInto, length_resize, hcall]
  rw [stores (by rw [length_resize]; exact Nat.le_of_eq hlength), hlength,
    List.drop_of_length_le (Nat.le_of_eq (length_resize _ _)), List.append_nil, hout]

theorem decryptInto_spec {ciphertext text : Bytes} (h : ciphertext.length < 2147483648)
    (hblocks : 16 ∣ ciphertext.length) (hle : text.length ≤ ciphertext.length)
    (htext : unpad 16 (BlockModes.decrypt C m key (firstBlock iv) ciphertext) = some text) (ctx : Ctx)
    (old : Bytes) :
    (decryptInto (decryptContext evp ctx m ciphertext key iv) ciphertext old).ok = true ∧
    (decryptInto (decryptContext evp ctx m ciphertext key iv) ciphertext old).vector = text := by
  obtain ⟨a, b, ctx', hout, hcall⟩ := decryptContext_spec I key iv hiv h hblocks htext ctx
  have hfits : a.length + b.length ≤ (resize old ciphertext.length).length := by
    rw [length_resize, ← List.length_append, hout]
    exact hle
  simp only [decryptInto, length_resize, hcall, if_true, true_and]
  rw [stores hfits, hout]
  exact resize_of_prefix (List.prefix_append _ _)

/-- **In one mode.** -/
theorem round_trip {plaintext : Bytes} (h : plaintext.length + 16 < 2147483648) :
    RoundTrip plaintext (fun ctx p c => encryptInto (encryptContext evp ctx m p key iv) p c)
      (fun ctx c p => decryptInto (decryptContext evp ctx m c key iv) c p) ↔ plaintext.length % 16 ≠ 0 := by
  have hlength := length_encrypted (C := C) (m := m) key iv plaintext
  have hwrites : ∀ ctx ciphertext, ∃ a b, a.length + b.length = 16 * (plaintext.length / 16 + 1) ∧
      (encryptInto (encryptContext evp ctx m plaintext key iv) plaintext ciphertext).ok = true ∧
      (encryptInto (encryptContext evp ctx m plaintext key iv) plaintext ciphertext).writes =
        [⟨0, a⟩, ⟨a.length, b⟩] := by
    intro ctx ciphertext
    obtain ⟨a, b, ctx', hout, hcall⟩ := encryptContext_spec I key iv hiv h ctx
    refine ⟨a, b, ?_, ?_, ?_⟩
    · rw [← List.length_append, hout, hlength]
    · simp only [encryptInto, length_resize, hcall]
    · simp only [encryptInto, length_resize, hcall]
  constructor
  · intro R
    obtain ⟨a, b, hab, -, hw⟩ := hwrites evp.new []
    have hlast := R.inside evp.new [] ⟨a.length, b⟩ (by rw [hw]; simp)
    rw [← size_le_iff, ← hab]
    exact hlast
  · intro hsize
    have hfits := (size_le_iff _).mpr hsize
    refine ⟨fun ctx ciphertext => ?_, fun ctx ciphertext w hw => ?_, fun ctx ciphertext ctx' old => ?_⟩
    · obtain ⟨a, b, -, hok, -⟩ := hwrites ctx ciphertext
      exact hok
    · obtain ⟨a, b, hab, -, hlist⟩ := hwrites ctx ciphertext
      rw [hlist] at hw
      rcases List.mem_cons.mp hw with rfl | hw
      · dsimp only
        omega
      · rw [List.mem_singleton.mp hw]
        dsimp only
        omega
    · rw [encryptInto_spec I key iv hiv h hsize ctx ciphertext]
      refine decryptInto_spec I key iv hiv ?_ ?_ ?_ ?_ ctx' old
      · rw [hlength]
        omega
      · rw [hlength]
        exact Nat.dvd_mul_right _ _
      · rw [hlength]
        omega
      · have hpad := length_pad (by decide : 0 < 16) plaintext
        rw [decrypt_encrypt (length_firstBlock iv) (hpad ▸ Nat.dvd_mul_right _ _),
          unpad_pad (by decide) (by decide)]

end

/-- **The wrapper**, in both modes: a round trip exactly if the text does not end with a block. -/
theorem round_trip_iff {Ctx : Type} (evp : Evp Ctx) (C : BlockCipher Key 16) (I : evp.Implements C) (key : Key)
    (iv : Iv) (plaintext : Bytes) (h : plaintext.length < 2147483648 - 16) :
    (RoundTrip plaintext (fun ctx p c => encrypt evp ctx p key iv c) (fun ctx c p => decrypt evp ctx c key iv p) ↔
      plaintext.length % 16 ≠ 0) ∧
    (RoundTrip plaintext (fun ctx p c => encryptECB evp ctx p key c) (fun ctx c p => decryptECB evp ctx c key p) ↔
      plaintext.length % 16 ≠ 0) := by
  have hlt : plaintext.length + 16 < 2147483648 := by omega
  exact ⟨round_trip I (m := .cbc) key (some iv) (fun _ h => by cases h) hlt,
    round_trip I (m := .ecb) key none (fun h => by cases h) hlt⟩

/-! ## An implementation -/

/-- EVP over a block cipher, for contexts that are used as the wrapper does: the context keeps the input,
    and the last block is left to the last call. -/
def streaming (C : BlockCipher Key 16) : Evp (Option (Mode × Key × Option Iv) × Bytes) where
  new := (none, [])
  reset _ := { ret := 1, ctx := (none, []) }
  encryptInit _ m key iv := { ret := 1, ctx := (some (m, key, iv), []) }
  encryptUpdate ctx input inl :=
    match ctx.1 with
    | none => { ret := 0, ctx := ctx }
    | some (m, key, iv) =>
      let text := input.take inl.toNat
      { ret := 1
        out := (BlockModes.encrypt C m key (firstBlock iv) (pad 16 text)).take (text.length / 16 * 16)
        ctx := (ctx.1, text) }
  encryptFinal ctx :=
    match ctx.1 with
    | none => { ret := 0, ctx := ctx }
    | some (m, key, iv) =>
      { ret := 1
        out := (BlockModes.encrypt C m key (firstBlock iv) (pad 16 ctx.2)).drop (ctx.2.length / 16 * 16)
        ctx := ctx }
  decryptInit _ m key iv := { ret := 1, ctx := (some (m, key, iv), []) }
  decryptUpdate ctx input inl :=
    match ctx.1 with
    | none => { ret := 0, ctx := ctx }
    | some (m, key, iv) =>
      let text := input.take inl.toNat
      { ret := 1
        out := (BlockModes.decrypt C m key (firstBlock iv) text).take (text.length - 16)
        ctx := (ctx.1, text) }
  decryptFinal ctx :=
    match ctx.1 with
    | none => { ret := 0, ctx := ctx }
    | some (m, key, iv) =>
      match unpad 16 (BlockModes.decrypt C m key (firstBlock iv) ctx.2) with
      | some text => { ret := 1, out := text.drop (ctx.2.length - 16), ctx := ctx }
      | none => { ret := 0, ctx := ctx }

/-- No more than a block comes off. -/
theorem take_of_unpad {w : Nat} {text front : Bytes} (h : unpad w text = some front) :
    front.take (text.length - w) = text.take (text.length - w) := by
  unfold unpad at h
  split at h
  · cases h
  · split at h
    · rename_i v _ hv
      obtain rfl := Option.some.inj h
      rw [List.take_take, Nat.min_eq_left (by omega)]
    · cases h

theorem length_decryptBlocks {C : BlockCipher Key 16} {m : Mode} {key : Key} {previous : Bytes} {n : Nat}
    {text : Bytes} (hdec : ∀ k b, b.length = 16 → (C.dec k b).length = 16) (h : previous.length = 16)
    (htext : text.length = 16 * n) : (decryptBlocks C m key previous n text).length = 16 * n := by
  induction n generalizing previous text with
  | zero => rfl
  | succ n ih =>
    have htake : (text.take 16).length = 16 := by
      rw [List.length_take]
      omega
    have hdrop : (text.drop 16).length = 16 * n := by
      rw [List.length_drop]
      omega
    have hc := hdec key _ htake
    simp only [decryptBlocks]
    rw [List.length_append, Mode.length_mask (by rw [h, hc]), hc, ih htake hdrop]
    omega

theorem streaming_implements {C : BlockCipher Key 16}
    (hdec : ∀ k b, b.length = 16 → (C.dec k b).length = 16) : (streaming C).Implements C where
  reset _ := rfl
  encrypts ctx m key iv input _ _ := by
    have htake : input.take (input.length : Int).toNat = input := by simp
    refine ⟨rfl, rfl, rfl, ?_⟩
    simp only [streaming, htake]
    exact List.take_append_drop _ _
  decrypts ctx m key iv input _ _ hblocks := by
    have htake : input.take (input.length : Int).toNat = input := by simp
    have hlength : (BlockModes.decrypt C m key (firstBlock iv) input).length = input.length := by
      have hmul := Nat.mul_div_cancel' hblocks
      rw [BlockModes.decrypt, length_decryptBlocks hdec (length_firstBlock iv) hmul.symm, hmul]
    refine ⟨rfl, rfl, ?_⟩
    simp only [streaming, htake]
    cases hunpad : unpad 16 (BlockModes.decrypt C m key (firstBlock iv) input) with
    | none => exact fun h => by cases h
    | some text =>
      refine ⟨rfl, ?_⟩
      dsimp only
      rw [← hlength, ← take_of_unpad hunpad]
      exact List.take_append_drop _ _

/-- The block of bytes 00, 11, 22 and so on, and what AES-128 makes of it with the key of bytes 0 to 15. -/
def sampleBlock : Bytes := [0, 17, 34, 51, 68, 85, 102, 119, 136, 153, 170, 187, 204, 221, 238, 255]

def sampleCipher : Bytes := [105, 196, 224, 216, 106, 123, 4, 48, 216, 205, 183, 128, 112, 180, 197, 90]

def sampleKey : Key := #v[0, 1, 2, 3, 4, 5, 6, 7, 8, 9, 10, 11, 12, 13, 14, 15]

def swap (b : Bytes) : Bytes :=
  if b = sampleBlock then sampleCipher else if b = sampleCipher then sampleBlock else b

theorem length_swap {b : Bytes} (h : b.length = 16) : (swap b).length = 16 := by
  unfold swap
  split
  · rfl
  · split
    · rfl
    · exact h

theorem swap_swap (b : Bytes) : swap (swap b) = b := by
  by_cases h1 : b = sampleBlock
  · subst h1
    decide
  · by_cases h2 : b = sampleCipher
    · subst h2
      decide
    · have hsame : swap b = b := by rw [swap, if_neg h1, if_neg h2]
      rw [hsame, hsame]

/-- A cipher that agrees with AES-128 on this block. -/
def sampleCipherOf : BlockCipher Key 16 where
  enc _ := swap
  dec _ := swap
  length_enc _ _ := length_swap
  dec_enc _ b _ := swap_swap b

/-- The vector that makes this block of "hello". -/
def sampleIv : Iv := #v[104, 116, 78, 95, 43, 94, 109, 124, 131, 146, 161, 176, 199, 214, 229, 244]

theorem round_trip_hello :
    RoundTrip [104, 101, 108, 108, 111]
      (fun ctx p c => encrypt (streaming sampleCipherOf) ctx p sampleKey sampleIv c)
      (fun ctx c p => decrypt (streaming sampleCipherOf) ctx c sampleKey sampleIv p) ∧
    ((encrypt (streaming sampleCipherOf) (none, []) [104, 101, 108, 108, 111] sampleKey sampleIv []).vector =
      sampleCipher) :=
  ⟨(round_trip_iff (streaming sampleCipherOf) sampleCipherOf (streaming_implements fun _ _ => length_swap)
    sampleKey sampleIv [104, 101, 108, 108, 111] (by decide)).1.mpr (by decide), by decide⟩

/-- Sixteen bytes: the second block goes behind the buffer. -/
theorem written_behind :
    ¬ RoundTrip sampleBlock
      (fun ctx p c => encrypt (streaming sampleCipherOf) ctx p sampleKey sampleIv c)
      (fun ctx c p => decrypt (streaming sampleCipherOf) ctx c sampleKey sampleIv p) := by
  intro R
  have hfits : ∀ w ∈ (encrypt (streaming sampleCipherOf) (none, []) sampleBlock sampleKey sampleIv []).writes,
      w.offset + w.bytes.length ≤ 16 := fun w hw => R.inside (none, []) [] w hw
  revert hfits
  decide

end JunCore.AES128
