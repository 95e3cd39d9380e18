import Mathlib
import QubitTrace.Proofs.Angle.Derivation
import QubitTrace.Proofs.Decimal.Printed

/-! # Printed angles read back

An angle is printed as a sign and a decimal with four places. As an expression such a text is worth
what it is worth as a literal (`exists_reread`): the derivation is a number, behind a unary minus
when the angle is negative.
-/

namespace QubitTrace.Angle
set_option autoImplicit false

open Decimal (SignStyle fixed placed)
open Literal (readUnsigned)
open Text (Read Continued)

/-! ## Signed decimals -/

section Signed

variable {negative : Bool} {n : Nat}

/-- The characters of a printed angle. -/
theorem mem_signed_placed {places : Nat} {c : Char}
    (mem : c ∈ SignStyle.minus.text negative ++ placed places n) :
    c.isDigit = true ∨ c = '.' ∨ c = '-' := by
  rcases List.mem_append.1 mem with sign | magnitude
  · cases negative with
    | false => cases sign
    | true => exact Or.inr (Or.inr (List.mem_singleton.1 sign))
  · rcases List.mem_append.1 magnitude with whole | fraction
    · exact Or.inl (Decimal.isDigit_of_mem_digits c whole)
    · split_ifs at fraction
      · cases fraction
      · rcases List.mem_cons.1 fraction with point | digit
        · exact Or.inr (Or.inl point)
        · exact Or.inl (Decimal.isDigit_of_mem_padded c digit)

/-- A printed decimal starts with a digit. -/
theorem exists_placed_cons (n : Nat) : ∃ c s, placed 4 n = c :: s ∧ c.isDigit = true := by
  obtain ⟨c, t, shape⟩ :=
    List.exists_cons_of_ne_nil (Decimal.digits_ne_nil (n / Decimal.powerOfTen 4))
  refine ⟨c, t ++ '.' :: Decimal.padded 4 n, ?_, ?_⟩
  · rw [Decimal.placed_of_pos (by decide), shape, List.cons_append]
  · exact Decimal.isDigit_of_mem_digits c (by rw [shape]; exact List.mem_cons_self)

theorem readUnsigned_placed_four (n : Nat) : readUnsigned (placed 4 n) = some (n, -4) :=
  Decimal.readUnsigned_placed (by decide) n

theorem read_signed (negative : Bool) (n : Nat) :
    Literal.read (SignStyle.minus.text negative ++ placed 4 n) =
      some (.finite negative n (-4)) := by
  have literal := readUnsigned_placed_four n
  cases negative with
  | true =>
    have sign : Literal.readSign ('-' :: placed 4 n) =
        (Read.one true '-' (placed 4 n)).weaken := rfl
    change Literal.read ('-' :: placed 4 n) = _
    rw [Literal.read, sign]
    dsimp only [Read.weaken, Read.one, Continued.behind, Continued.nothing]
    rw [literal]
  | false =>
    obtain ⟨c, s, shape, digital⟩ := exists_placed_cons n
    change Literal.read (placed 4 n) = _
    rw [shape] at literal ⊢
    rw [Literal.read, Literal.readSign_of_isDigit digital]
    dsimp only [Continued.nothing]
    rw [literal]

/-- A printed angle is a number, or the number behind a minus sign. -/
theorem exists_derivation_signed {K : Type} [Scalar K] (negative : Bool) (n : Nat) :
    ∃ d : Expression, d.text = SignStyle.minus.text negative ++ placed 4 n ∧
      d.value = (if negative then -Scalar.ofDecimal n (-4) else Scalar.ofDecimal n (-4) : K) := by
  obtain ⟨m, text, significand, power⟩ :=
    Literal.readUnsigned_eq_some_iff.1 (readUnsigned_placed_four n)
  cases negative with
  | true =>
    refine ⟨.single (.signed .minus (.number m)), ?_, ?_⟩
    · rw [Expression.text_single, Factor.text, Factor.text, text]
      rfl
    · rw [Expression.value_single, Factor.value, Factor.value, significand, power]
      rfl
  | false =>
    refine ⟨.single (.number m), ?_, ?_⟩
    · rw [Expression.text_single, Factor.text, text]
      rfl
    · rw [Expression.value_single, Factor.value, significand, power]
      rfl

end Signed

/-- The value of the text that an angle is printed as. -/
def reread? (a : Float) : Option Float :=
  (Literal.read (fixed .minus 4 a).toList).bind Literal.scalar?

/-- A finite angle is printed as a literal, and the expression it makes has the literal's value. -/
theorem exists_reread {a : Float} (finite : Scalar.isFinite a = true) :
    ∃ v, reread? a = some v ∧ evaluate (fixed .minus 4 a).toList = .ok v := by
  obtain ⟨negative, n, text, bounded⟩ := Decimal.exists_fixed_four finite
  have visible : ∀ c ∈ SignStyle.minus.text negative ++ placed 4 n, Text.isBlank c = false := by
    intro c mem
    rcases mem_signed_placed mem with digital | rfl | rfl
    · exact Decimal.isBlank_of_isDigit digital
    · rfl
    · rfl
  have accepted : Scalar.isFinite (if negative then -Scalar.ofDecimal n (-4)
      else Scalar.ofDecimal n (-4) : Float) = true := by
    cases negative with
    | true => exact Double.isFinite_neg bounded
    | false => exact bounded
  have squeezed : Text.squeeze (SignStyle.minus.text negative ++ placed 4 n) =
      SignStyle.minus.text negative ++ placed 4 n :=
    List.filter_eq_self.2 fun c mem => by simp [visible c mem]
  obtain ⟨d, spelled, worth⟩ := exists_derivation_signed (K := Float) negative n
  rw [reread?, text, read_signed]
  exact ⟨_, rfl, evaluate_eq_ok_iff.2 ⟨d, spelled.trans squeezed.symm, worth, accepted⟩⟩

end QubitTrace.Angle
