/-
  Decimal numbers as text.

  `decimal n` are the digits of `n`, as ASCII; `value` reads digits from the left.  Reading gives the
  number back (`value_decimal`), so different numbers have different texts.
-/
import Mathlib.Data.Nat.Notation

set_option linter.unusedVariables false

namespace Decimal

def IsDigit (c : UInt8) : Prop := 48 ≤ c.toNat ∧ c.toNat ≤ 57

instance (c : UInt8) : Decidable (IsDigit c) := inferInstanceAs (Decidable (_ ∧ _))

def digitValue (c : UInt8) : Nat := c.toNat - 48

def value (cs : List UInt8) : Nat := cs.foldl (fun n c => n * 10 + digitValue c) 0

/-- The last digits of `n`, as many as it has, or `k`. -/
def digits : Nat → Nat → List UInt8
  | 0, _ => []
  | k + 1, n => (if n < 10 then [] else digits k (n / 10)) ++ [UInt8.ofNat (48 + n % 10)]

def decimal (n : Nat) : List UInt8 := digits (n + 1) n

theorem toNat_digit (n : Nat) : (UInt8.ofNat (48 + n % 10)).toNat = 48 + n % 10 := by
  have hlt := Nat.mod_lt n (by decide : 0 < 10)
  rw [UInt8.toNat_ofNat']
  omega

theorem isDigit_of_mem_digits {k n : Nat} {c : UInt8} (h : c ∈ digits k n) : IsDigit c := by
  induction k generalizing n with
  | zero => cases h
  | succ k ih =>
    rw [digits, List.mem_append, List.mem_singleton] at h
    rcases h with h | rfl
    · split at h
      · cases h
      · exact ih h
    · have hlt := Nat.mod_lt n (by decide : 0 < 10)
      rw [IsDigit, toNat_digit]
      omega

theorem isDigit_of_mem {n : Nat} {c : UInt8} (h : c ∈ decimal n) : IsDigit c := isDigit_of_mem_digits h

theorem value_concat (cs : List UInt8) (c : UInt8) : value (cs ++ [c]) = value cs * 10 + digitValue c := by
  rw [value, List.foldl_append]
  rfl

theorem value_digits {k n : Nat} (h : n < k) : value (digits k n) = n := by
  induction k generalizing n with
  | zero => exact absurd h (Nat.not_lt_zero _)
  | succ k ih =>
    rw [digits, value_concat, digitValue, toNat_digit]
    split
    · show 0 * 10 + _ = n
      omega
    · rw [ih (by omega)]
      omega

theorem value_decimal (n : Nat) : value (decimal n) = n := value_digits (Nat.lt_succ_self n)

theorem decimal_injective {m n : Nat} (h : decimal m = decimal n) : m = n := by
  rw [← value_decimal m, h, value_decimal]

end Decimal
