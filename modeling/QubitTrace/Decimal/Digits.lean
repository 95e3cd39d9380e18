import QubitTrace.Text.Blank

/-! # Decimal digits

Natural numbers as texts of decimal digits, and back (`value_digits`).
-/

namespace QubitTrace.Decimal
set_option autoImplicit false

/-- The character of the last decimal digit of `n`. -/
def digit (n : Nat) : Char := Char.ofNat (48 + n % 10)

/-- The decimal digits of `n`, without leading zeros. -/
def digits (n : Nat) : Text :=
  if n < 10 then [digit n] else digits (n / 10) ++ [digit n]

/-- The last `places` decimal digits of `n`, with leading zeros. -/
def padded : (places n : Nat) → Text
  | 0, _ => []
  | places + 1, n => padded places (n / 10) ++ [digit n]

/-- The number a text of decimal digits stands for. -/
def value (s : Text) : Nat := s.foldl (fun n c => 10 * n + (c.toNat - 48)) 0

/-- The decimal digits of `n` as a string. -/
def natText (n : Nat) : String := String.ofList (digits n)

@[simp] theorem value_nil : value [] = 0 := rfl

theorem value_concat (s : Text) (c : Char) : value (s ++ [c]) = 10 * value s + (c.toNat - 48) := by
  simp [value]

theorem toNat_digit (n : Nat) : (digit n).toNat = 48 + n % 10 := by
  have all : ∀ d < 10, (Char.ofNat (48 + d)).toNat = 48 + d := by decide
  exact all _ (Nat.mod_lt n (by decide))

/-- Reading the digits of a number gives the number. -/
theorem value_digits (n : Nat) : value (digits n) = n := by
  fun_induction digits n with
  | case1 n small =>
    simp [value, toNat_digit]; omega
  | case2 n large ih =>
    rw [value_concat, ih, toNat_digit]; omega

end QubitTrace.Decimal
