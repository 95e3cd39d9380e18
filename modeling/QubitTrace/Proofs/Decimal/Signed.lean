import Mathlib
import QubitTrace.Proofs.Angle.Derivation

/-! # Signed decimals

The literals of finite numbers are spelled as a sign, perhaps, and an unsigned decimal (`Signed`).
Such a literal is worth what the decimal is worth, or the negative of that (`exists_read_iff`). Its
only letter is that of the exponent, which may be small or capital, so a text that spells a number
in capitals spells the same number as it is (`exists_of_map_toUpper`).
-/

namespace QubitTrace.Literal
set_option autoImplicit false

/-- A decimal, perhaps behind a sign. -/
structure Signed where
  sign : Sign
  number : Unsigned

namespace Signed

def text (x : Signed) : Text := x.sign.text ++ x.number.text

/-- What a signed decimal is worth: a minus sign turns the value of the decimal around, so that
`-0` is worth what `-` makes of zero. -/
def value {K : Type} [Scalar K] (x : Signed) : K :=
  let magnitude := Scalar.ofDecimal x.number.significand x.number.power
  if x.sign = .minus then -magnitude else magnitude

end Signed

/-! ## Reading -/

/-- A decimal begins with a digit or a point, so a sign in front of it is read off. -/
theorem readSign_signed (x : Signed) : (readSign x.text).rest = x.number.text ∧
    (readSign x.text).value = decide (x.sign = .minus) := by
  obtain ⟨c, t, shape, numeral⟩ := Angle.exists_mantissa_cons x.number
  have bare : c ≠ '+' ∧ c ≠ '-' := by
    constructor
    all_goals
      rintro rfl
      cases numeral
  have text : x.number.text = c :: (t ++ x.number.exponentText) := by
    rw [Unsigned.text, shape, List.cons_append]
  rw [Signed.text, text]
  exact readSign_text bare _ x.sign

theorem read_signed (x : Signed) : read x.text =
    some (.finite (decide (x.sign = .minus)) x.number.significand x.number.power) := by
  obtain ⟨rest, negative⟩ := readSign_signed x
  rw [read]
  dsimp only
  rw [rest, negative, x.number.readUnsigned_text]

/-- What is read for a finite number is spelled as one. -/
theorem exists_signed_of_read {s : Text} {negative : Bool} {m : Nat} {e : Int}
    (taken : read s = some (.finite negative m e)) : ∃ x : Signed, x.text = s ∧
      decide (x.sign = .minus) = negative ∧ x.number.significand = m ∧ x.number.power = e := by
  obtain ⟨sign, whole, minus⟩ := exists_readSign s
  rw [read] at taken
  dsimp only at taken
  cases number : readUnsigned (readSign s).rest with
  | none =>
    rw [number] at taken
    split_ifs at taken <;> cases taken
  | some parts =>
    rw [number] at taken
    cases taken
    obtain ⟨n, text, significand, power⟩ := readUnsigned_eq_some_iff.1 number
    exact ⟨⟨sign, n⟩, by rw [Signed.text, text, whole], minus.symm, significand, power⟩

/-- A literal is a finite number of a certain worth exactly if it is spelled as one. -/
theorem exists_read_iff {K : Type} [Scalar K] {s : Text} {θ : K} :
    (∃ literal, read s = some literal ∧ literal.scalar? = some θ) ↔
      ∃ x : Signed, x.text = s ∧ x.value = θ := by
  constructor
  · rintro ⟨literal, taken, worth⟩
    cases literal with
    | finite negative m e =>
      obtain ⟨x, text, rfl, rfl, rfl⟩ := exists_signed_of_read taken
      refine ⟨x, text, ?_⟩
      simpa [scalar?, Signed.value] using worth
    | infinite negative => cases worth
    | notANumber => cases worth
  · rintro ⟨x, rfl, rfl⟩
    exact ⟨_, read_signed x, by simp [scalar?, Signed.value]⟩

/-! ## Capitals -/

section Capitals

variable {s t : Text}

/-- Only letters have capitals. -/
theorem eq_of_toUpper {c d : Char} (upper : c.toUpper = d) (letterless : d.isAlpha = false) :
    c = d := by
  have small : ¬ c.isLower := by
    rw [← upper, Char.isAlpha_toUpper_eq_isAlpha, Char.isAlpha] at letterless
    simp_all
  rw [← upper, Char.toUpper_eq_of_not_isLower small]

theorem eq_of_map_toUpper (upper : s.map Char.toUpper = t)
    (letterless : ∀ c ∈ t, c.isAlpha = false) : s = t := by
  induction s generalizing t with
  | nil => exact upper
  | cons c s ih =>
    subst upper
    rw [List.map_cons, List.forall_mem_cons] at letterless
    rw [List.map_cons, ← eq_of_toUpper rfl letterless.1, ← ih rfl letterless.2]

/-- A capital is that of itself and of the small letter. -/
theorem eq_of_toUpper_letter {c d : Char} (upper : c.toUpper = d) : c = d.toLower ∨ c = d := by
  by_cases small : c.isLower
  · have same := Char.toLower_eq_of_not_isUpper (Char.not_isUpper_of_isLower small)
    rw [← upper, Char.toLower_toUpper_eq_toLower, same]
    exact Or.inl rfl
  · rw [← upper, Char.toUpper_eq_of_not_isLower small]
    exact Or.inr rfl

theorem isAlpha_of_isNumeral {c : Char} (numeral : Angle.isNumeral c = true) : c.isAlpha = false :=
  Bool.eq_false_iff.2 (Angle.not_isAlpha_of_isNumeral numeral)

theorem isAlpha_of_isDigit {c : Char} (digital : c.isDigit = true) : c.isAlpha = false :=
  isAlpha_of_isNumeral (by rw [Angle.isNumeral, digital, Bool.true_or])

theorem Sign.isAlpha_of_mem_text {sign : Sign} {c : Char} (mem : c ∈ sign.text) :
    c.isAlpha = false := by
  cases sign with
  | unsigned => cases mem
  | plus =>
    rw [List.mem_singleton.1 mem]
    rfl
  | minus =>
    rw [List.mem_singleton.1 mem]
    rfl

/-- A text that is an exponent in capitals is the same exponent. -/
theorem exists_exponent_of_map_toUpper {x : Exponent} (upper : s.map Char.toUpper = x.text) :
    ∃ y : Exponent, y.text = s ∧ y.value = x.value := by
  obtain ⟨c, t, rfl, letter, rest⟩ := List.map_eq_cons_iff.1 upper
  have rest : t = x.sign.text ++ x.digits := by
    refine eq_of_map_toUpper rest fun d mem => ?_
    rcases List.mem_append.1 mem with sign | digit
    · exact Sign.isAlpha_of_mem_text sign
    · exact isAlpha_of_isDigit (x.digital d digit)
  have either : c = 'e' ∨ c = 'E' := by
    rcases x.letter_eq with small | capital
    · -- a small letter is not the capital of anything
      have lower := Char.isLower_toUpper_eq_false c
      rw [letter, small] at lower
      cases lower
    · rw [capital] at letter
      exact eq_of_toUpper_letter letter
  refine ⟨{ x with capital := decide (c = 'E') }, ?_, rfl⟩
  rw [rest, Exponent.text, Exponent.letter]
  rcases either with rfl | rfl <;> rfl

/-- A text that spells a number in capitals spells the same number. -/
theorem exists_of_map_toUpper {x : Signed} (upper : s.map Char.toUpper = x.text) :
    ∃ y : Signed, y.text = s ∧ ∀ (K : Type) [Scalar K], (y.value : K) = x.value := by
  rw [Signed.text, Unsigned.text, ← List.append_assoc] at upper
  obtain ⟨front, back, rfl, front', back'⟩ := List.map_eq_append_iff.1 upper
  have front : front = x.sign.text ++ x.number.mantissa := by
    refine eq_of_map_toUpper front' fun c mem => ?_
    rcases List.mem_append.1 mem with sign | digit
    · exact Sign.isAlpha_of_mem_text sign
    · exact isAlpha_of_isNumeral (Angle.isNumeral_of_mem_mantissa _ digit)
  obtain ⟨exponent, spelled, worth⟩ : ∃ e : Option Exponent, e.elim [] Exponent.text = back ∧
      (e.map Exponent.value).getD 0 = (x.number.exponent.map Exponent.value).getD 0 := by
    unfold Unsigned.exponentText at back'
    cases given : x.number.exponent with
    | none =>
      rw [given] at back'
      exact ⟨none, (List.map_eq_nil_iff.1 back').symm, rfl⟩
    | some e =>
      rw [given] at back'
      obtain ⟨e', text, value⟩ := exists_exponent_of_map_toUpper back'
      exact ⟨some e', text, value⟩
  refine ⟨⟨x.sign, { x.number with exponent := exponent }⟩, ?_, fun K _ => ?_⟩
  · rw [front, ← spelled, List.append_assoc]
    rfl
  · rw [Signed.value, Signed.value, Unsigned.power, Unsigned.power, worth]
    rfl

end Capitals

end QubitTrace.Literal
