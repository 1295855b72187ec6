import Mathlib.Data.Int.Basic
import Mathlib.Data.Nat.Log

/-!
Integers in decimal: a sign for the negative ones and a non-empty string of
digits. The canonical numeral has no leading zeros; its length is one more than
the integer part of the decimal logarithm, and one more for the sign.
-/
namespace Painless.Decimal

def sign (n : ℤ) : List Char := if n < 0 then ['-'] else []

/-- The digits of a numeral of `n`, in which leading zeros may stand. -/
structure IsNumeral (n : ℤ) (digits : List Char) : Prop where
  nonempty : digits ≠ []
  isDigit : ∀ d ∈ digits, d.isDigit = true
  value : Nat.ofDigitChars 10 digits 0 = n.natAbs

/-- The canonical numeral. -/
def decimal (n : ℤ) : List Char := sign n ++ Nat.toDigits 10 n.natAbs

/-- More digits do not make the number smaller. -/
theorem le_ofDigitChars (digits : List Char) (init : ℕ) :
    init ≤ Nat.ofDigitChars 10 digits init := by
  rw [Nat.ofDigitChars_eq_ofDigitChars_zero]
  have hpow : 0 < 10 ^ digits.length := Nat.pow_pos (by omega)
  exact (Nat.le_mul_of_pos_left init hpow).trans (Nat.le_add_right _ _)

theorem isNumeral_toDigits (n : ℤ) : IsNumeral n (Nat.toDigits 10 n.natAbs) :=
  ⟨Nat.toDigits_ne_nil, fun _ hd => Nat.isDigit_of_mem_toDigits (by omega) (by omega) hd,
    Nat.ofDigitChars_ten_toDigits⟩

/-- A numeral consists of digits and perhaps a sign. -/
theorem of_mem_decimal {n : ℤ} {c : Char} (h : c ∈ decimal n) : c = '-' ∨ c.isDigit = true := by
  unfold decimal sign at h
  rcases List.mem_append.mp h with hsign | hdigit
  · split_ifs at hsign
    · exact Or.inl (List.mem_singleton.mp hsign)
    · exact absurd hsign (by simp)
  · exact Or.inr ((isNumeral_toDigits n).isDigit c hdigit)

theorem length_toDigits (n : ℕ) : (Nat.toDigits 10 n).length = Nat.log 10 n + 1 := by
  have hle (k : ℕ) : (Nat.toDigits 10 n).length ≤ k + 1 ↔ Nat.log 10 n + 1 ≤ k + 1 := by
    rw [Nat.length_toDigits_le_iff (by omega) (by omega)]
    by_cases hn : n = 0
    · have hpow : 0 < 10 ^ (k + 1) := Nat.pow_pos (by omega)
      simp [hn, hpow]
    · rw [← Nat.log_lt_iff_lt_pow (by omega) hn]
      omega
  have hpos : 0 < (Nat.toDigits 10 n).length := Nat.length_toDigits_pos
  have hlog := (hle (Nat.log 10 n)).mpr (Nat.le_refl _)
  have hlength := (hle ((Nat.toDigits 10 n).length - 1)).mp (by omega)
  omega

theorem length_decimal (n : ℤ) :
    (decimal n).length = (if n < 0 then 1 else 0) + 1 + Nat.log 10 n.natAbs := by
  rw [decimal, List.length_append, length_toDigits, sign]
  split_ifs <;> simp <;> omega

/-- The integer that a string with an optional sign stands for. -/
def readInt : List Char → ℤ
  | '-' :: digits => -(Nat.ofDigitChars 10 digits 0 : ℤ)
  | digits => Nat.ofDigitChars 10 digits 0

theorem readInt_digits {digits : List Char} (h : ∀ d ∈ digits, d.isDigit = true) :
    readInt digits = Nat.ofDigitChars 10 digits 0 := by
  unfold readInt
  split
  · exact absurd (h '-' List.mem_cons_self) (by decide)
  · rfl

theorem readInt_decimal (n : ℤ) : readInt (decimal n) = n := by
  obtain ⟨-, hdigit, hvalue⟩ := isNumeral_toDigits n
  unfold decimal sign
  by_cases hn : n < 0
  · rw [if_pos hn]
    show -((Nat.ofDigitChars 10 (Nat.toDigits 10 n.natAbs) 0 : ℕ) : ℤ) = n
    omega
  · rw [if_neg hn, List.nil_append, readInt_digits hdigit, hvalue]
    omega

def isNumber : List Char → Bool
  | '-' :: digits => !digits.isEmpty && digits.all Char.isDigit
  | digits => !digits.isEmpty && digits.all Char.isDigit

theorem isNumber_decimal (n : ℤ) : isNumber (decimal n) = true := by
  obtain ⟨hne, hdigit, -⟩ := isNumeral_toDigits n
  have hall : (!(Nat.toDigits 10 n.natAbs).isEmpty &&
      (Nat.toDigits 10 n.natAbs).all Char.isDigit) = true := by
    rw [Bool.and_eq_true, List.all_eq_true, Bool.not_eq_true', List.isEmpty_eq_false_iff]
    exact ⟨hne, hdigit⟩
  unfold decimal sign
  split_ifs
  · exact hall
  · rw [List.nil_append]
    unfold isNumber
    split
    · rename_i digits heq
      rw [heq] at hdigit
      exact absurd (hdigit '-' List.mem_cons_self) (by decide)
    · exact hall

end Painless.Decimal
