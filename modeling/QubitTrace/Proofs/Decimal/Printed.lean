import Mathlib
import QubitTrace.Decimal.Places
import QubitTrace.Proofs.Decimal.Digits
import QubitTrace.Proofs.Scalar.Finite

/-! # Decimals with a set number of places read back

A decimal written with places is a literal for its digits over that power of ten
(`readUnsigned_placed`). A finite double written with four places is a sign and such a decimal, and
the decimal is finite again (`exists_fixed_four`).
-/

namespace QubitTrace.Decimal
set_option autoImplicit false

open Literal (readUnsigned)

/-! ## Places -/

section Places

variable {places n : Nat}

theorem isDigit_of_mem_padded : ∀ c ∈ padded places n, c.isDigit = true := by
  induction places generalizing n with
  | zero => intro c mem; cases mem
  | succ places ih =>
    intro c mem
    rcases List.mem_append.1 mem with front | last
    · exact ih c front
    · rw [List.mem_singleton.1 last]
      exact isDigit_digit n

theorem length_padded (places n : Nat) : (padded places n).length = places := by
  induction places generalizing n with
  | zero => rfl
  | succ places ih => rw [padded, List.length_append, ih, List.length_singleton]

/-- The digits before and after the point are those of the number. -/
theorem value_digits_append_padded (places n : Nat) :
    value (digits (n / powerOfTen places) ++ padded places n) = n := by
  induction places generalizing n with
  | zero => simp [padded, powerOfTen, value_digits]
  | succ places ih =>
    have shifted : n / powerOfTen (places + 1) = n / 10 / powerOfTen places := by
      change n / 10 ^ (places + 1) = n / 10 / 10 ^ places
      rw [pow_succ', Nat.div_div_eq_div_mul]
    rw [padded, ← List.append_assoc, value_concat, shifted, ih, toNat_digit]
    omega

theorem placed_of_pos (positive : 0 < places) (n : Nat) :
    placed places n = digits (n / powerOfTen places) ++ '.' :: padded places n := by
  rw [placed, if_neg positive.ne']

/-- A decimal with places is a literal for its digits. -/
theorem readUnsigned_placed (positive : 0 < places) (n : Nat) :
    readUnsigned (placed places n) = some (n, -(places : Int)) := by
  have whole : (placed places n).takeWhile Char.isDigit = digits (n / powerOfTen places) := by
    rw [placed_of_pos positive, List.takeWhile_append_of_pos isDigit_of_mem_digits]
    simp [Char.isDigit]
  have rest : (placed places n).dropWhile Char.isDigit = '.' :: padded places n := by
    rw [placed_of_pos positive, List.dropWhile_append_of_pos isDigit_of_mem_digits]
    simp [Char.isDigit]
  have fraction : (padded places n).takeWhile Char.isDigit = padded places n :=
    List.takeWhile_eq_self_iff.2 isDigit_of_mem_padded
  have tail : (padded places n).dropWhile Char.isDigit = [] :=
    List.dropWhile_eq_nil_iff.2 isDigit_of_mem_padded
  unfold readUnsigned
  rw [whole, rest]
  simp [fraction, tail, length_padded, value_digits_append_padded, digits_ne_nil,
    Literal.readExponent]

end Places

/-! ## Four places -/

/-- The ten thousandths of a finite double are few, or those of the double itself. -/
theorem tenThousandths {m : Nat} {q : Int} (small : m < 2 ^ 53) (high : q ≤ 971) :
    (roundDiv (ratio m q 4).1 (ratio m q 4).2).log2 ≤ 1000 ∨ ∃ c k, c < 2 ^ 53 ∧ k ≤ 971 ∧
      roundDiv (ratio m q 4).1 (ratio m q 4).2 = c * 2 ^ k * 10 ^ 4 := by
  -- a large double is a natural number and printed exactly; any other has few digits
  rcases Int.le_total 0 q with natural | fraction
  · refine Or.inr ⟨m, q.toNat, small, by omega, ?_⟩
    have one : (ratio m q 4).2 = 1 := by
      change 1 <<< (-q).toNat = 1
      rw [Int.toNat_of_nonpos (by omega)]
      rfl
    have whole := roundDiv_mul_self (ratio m q 4).1 Nat.one_pos
    rw [Nat.mul_one] at whole
    rw [one, whole, ratio, Nat.shiftLeft_eq]
    rfl
  · refine Or.inl ((Double.log2_le_of_le_two_pow (n := 67) ?_).trans (by decide))
    have scaled : (ratio m q 4).1 = m * 10 ^ 4 := by
      change m <<< q.toNat * 10 ^ 4 = _
      rw [Int.toNat_of_nonpos fraction]
      rfl
    calc roundDiv (ratio m q 4).1 (ratio m q 4).2
        ≤ (ratio m q 4).1 / (ratio m q 4).2 + 1 := (roundDiv_mem _ _).2
      _ ≤ (ratio m q 4).1 + 1 := Nat.succ_le_succ (Nat.div_le_self _ _)
      _ ≤ 2 ^ 67 := by rw [scaled]; omega

/-- A finite double is written as a sign and a decimal with four places, which is finite too. -/
theorem exists_fixed_four {a : Float} (finite : Scalar.isFinite a = true) :
    ∃ negative n, (fixed .minus 4 a).toList = SignStyle.minus.text negative ++ placed 4 n ∧
      Scalar.isFinite (Double.ofDecimal n (-4)) = true := by
  obtain ⟨negative, m, q, parts, small, high⟩ := Double.exists_finite_of_isFinite finite
  refine ⟨negative, roundDiv (ratio m q 4).1 (ratio m q 4).2, ?_,
    Double.isFinite_ofDecimal (tenThousandths small high)⟩
  rw [fixed, String.toList_ofList, layout, parts]
  rfl

end QubitTrace.Decimal
