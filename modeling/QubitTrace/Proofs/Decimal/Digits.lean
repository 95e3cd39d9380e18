import Mathlib
import QubitTrace.Decimal.Literal
import QubitTrace.Proofs.Text.Pieces

/-! # Printed numbers read back

The digits of a number are a literal for it.
-/

namespace QubitTrace.Decimal
set_option autoImplicit false

open Literal (readDigits readSize sizeLimit)

theorem isDigit_digit (n : Nat) : (digit n).isDigit = true := by
  have all : ∀ d < 10, (Char.ofNat (48 + d)).isDigit = true := by decide
  exact all _ (Nat.mod_lt n (by decide))

theorem isDigit_of_mem_digits {n : Nat} : ∀ c ∈ digits n, c.isDigit = true := by
  fun_induction digits n with
  | case1 n small => simpa using isDigit_digit n
  | case2 n large ih =>
    intro c mem
    rcases List.mem_append.1 mem with front | last
    · exact ih c front
    · rw [List.mem_singleton.1 last]
      exact isDigit_digit n

theorem digits_ne_nil (n : Nat) : digits n ≠ [] := by
  unfold digits
  split_ifs <;> simp

/-- The digits of a number are a literal for it. -/
theorem readDigits_digits (n : Nat) : readDigits (digits n) = some n := by
  have digital : (digits n).all Char.isDigit = true := List.all_eq_true.2 isDigit_of_mem_digits
  rw [readDigits, digital, value_digits]
  simp [digits_ne_nil]

theorem toNat_of_isDigit {c : Char} (digital : c.isDigit = true) : 48 ≤ c.toNat ∧ c.toNat ≤ 57 := by
  simpa [Char.isDigit, UInt32.le_iff_toNat_le] using digital

theorem isBlank_of_isDigit {c : Char} (digital : c.isDigit = true) : Text.isBlank c = false := by
  have := toNat_of_isDigit digital
  exact Text.isBlank_of_ascii (by omega) (by omega)

/-- The digits of a size are a literal for it. -/
theorem readSize_digits {n : Nat} (small : n < sizeLimit) :
    readSize (digits n) = some n := by
  have kept : (readDigits (digits n)).filter (· < sizeLimit) = some n := by
    rw [readDigits_digits]
    simpa using small
  unfold readSize
  split
  · next t shape =>
    have digital : ('+' : Char).isDigit = true :=
      isDigit_of_mem_digits (n := n) _ (by rw [shape]; exact List.mem_cons_self)
    exact absurd digital (by decide)
  · exact kept

end QubitTrace.Decimal
