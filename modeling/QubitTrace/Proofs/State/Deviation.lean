import Mathlib
import QubitTrace.Proofs.Basis.Bits
import QubitTrace.Proofs.Scalar.NotANumber
import QubitTrace.State

/-! # The check of a norm over doubles

A squared norm is a sum of squares, so it is a number exactly if both parts of every amplitude are
(`isNaN_normSq_iff`). The check turns a state away when its deviation is above the tolerance. Between
numbers this is the same as letting it in when the deviation is at most the tolerance; a squared norm
that is no number passes whatever the tolerance (`deviates_eq_false_iff`).
-/

namespace QubitTrace
set_option autoImplicit false

open Double (sign)

/-- Both parts are numbers. -/
def Complex.IsNumber (z : Complex Float) : Prop := z.re.isNaN = false ∧ z.im.isNaN = false

namespace Complex

variable {z : Complex Float}

theorem sign_normSq (number : z.IsNumber) : sign z.normSq = some .positive :=
  Double.sign_add_positive (Double.sign_mul_self (Double.isNaN_eq_false_iff.1 number.1))
    (Double.sign_mul_self (Double.isNaN_eq_false_iff.1 number.2))

theorem sign_normSq_eq_none (broken : ¬ z.IsNumber) : sign z.normSq = none := by
  rw [IsNumber, Double.isNaN_eq_false_iff, Double.isNaN_eq_false_iff] at broken
  refine Double.sign_add_eq_none ?_
  by_cases re : sign z.re = none
  · exact .inl (Double.sign_mul_eq_none (.inl re))
  · have im : sign z.im = none := by
      by_contra im
      exact broken ⟨re, im⟩
    exact .inr (Double.sign_mul_eq_none (.inl im))

/-- The squared moduli of numbers add up to a number. -/
theorem sign_foldl_normSq {zs : List (Complex Float)} (numbers : ∀ z ∈ zs, z.IsNumber)
    {total : Float} (start : sign total = some .positive) :
    sign (zs.foldl (fun total z => total + z.normSq) total) = some .positive := by
  induction zs generalizing total with
  | nil => exact start
  | cons z zs ih =>
    obtain ⟨first, rest⟩ := List.forall_mem_cons.1 numbers
    exact ih rest (Double.sign_add_positive start (sign_normSq first))

/-- A sum of squared moduli is no number once something in it is none. -/
theorem sign_foldl_normSq_eq_none {zs : List (Complex Float)} {total : Float}
    (broken : sign total = none ∨ ∃ z ∈ zs, ¬ z.IsNumber) :
    sign (zs.foldl (fun total z => total + z.normSq) total) = none := by
  induction zs generalizing total with
  | nil => exact broken.resolve_right fun listed => by simp at listed
  | cons z zs ih =>
    refine ih ?_
    rcases broken with before | ⟨w, listed, here⟩
    · exact .inl (Double.sign_add_eq_none (.inl before))
    · rcases List.mem_cons.1 listed with rfl | later
      · exact .inl (Double.sign_add_eq_none (.inr (sign_normSq_eq_none here)))
      · exact .inr ⟨w, later, here⟩

end Complex

namespace StateVector

/-- Every amplitude is made of numbers. -/
def OfNumbers (ψ : StateVector Float) : Prop := ∀ c ∈ ψ.amplitudes, c.IsNumber

variable {ψ : StateVector Float} {tolerance : Float}

/-- A squared norm is a number exactly if all amplitudes are. -/
theorem isNaN_normSq_iff : ψ.normSq.isNaN = true ↔ ¬ ψ.OfNumbers := by
  have listed : ψ.normSq =
      ψ.amplitudes.toList.foldl (fun total c => total + c.normSq) 0 := by
    rw [normSq, ← Vector.foldl_toList]
  rw [Double.isNaN_iff, listed]
  constructor
  · intro broken numbers
    rw [Complex.sign_foldl_normSq (fun c mem => numbers c (Vector.mem_toList_iff.1 mem)) rfl]
      at broken
    cases broken
  · intro broken
    obtain ⟨c, mem, here⟩ : ∃ c ∈ ψ.amplitudes, ¬ c.IsNumber := by
      simpa only [OfNumbers, not_forall, exists_prop] using broken
    exact Complex.sign_foldl_normSq_eq_none (.inr ⟨c, Vector.mem_toList_iff.2 mem, here⟩)

/-- The deviation is a number exactly if the squared norm is one. -/
theorem isNaN_deviation_iff :
    (Scalar.abs (ψ.normSq - 1)).isNaN = true ↔ ψ.normSq.isNaN = true := by
  rw [Double.isNaN_iff, Double.isNaN_iff, Double.sign_abs_eq_none_iff]
  exact Double.sign_sub_one_eq_none_iff

/-- A state passes the check of its norm exactly if its deviation is within the tolerance, or the
squared norm is no number. -/
theorem deviates_eq_false_iff (number : tolerance.isNaN = false) :
    ψ.deviates tolerance = false ↔
      ψ.normSq.isNaN = true ∨ Scalar.abs (ψ.normSq - 1) ≤ tolerance := by
  refine decide_eq_false_iff_not.trans ?_
  by_cases broken : ψ.normSq.isNaN = true
  · exact iff_of_true (Double.not_lt_of_isNaN (.inr (isNaN_deviation_iff.2 broken))) (.inl broken)
  · have deviation : (Scalar.abs (ψ.normSq - 1)).isNaN = false := by
      rwa [← Bool.not_eq_true, isNaN_deviation_iff]
    exact (Double.le_iff_not_lt deviation number).symm.trans
      ⟨.inr, fun within => within.resolve_left broken⟩

/-- Amplitudes make a state exactly if they are the amplitudes of one that does not deviate. -/
theorem ofAmplitudes_eq_ok_iff {K : Type} [Scalar K] {amplitudes : Array (Complex K)} {tolerance : K}
    {ψ : StateVector K} :
    ofAmplitudes amplitudes tolerance = .ok ψ ↔
      ψ.amplitudes.toArray = amplitudes ∧ ψ.deviates tolerance = false := by
  constructor
  · intro made
    unfold ofAmplitudes at made
    dsimp only at made
    split_ifs at made with sized deviant
    cases made
    exact ⟨rfl, by simpa using deviant⟩
  · rintro ⟨rfl, fine⟩
    obtain ⟨n, positive, ⟨amplitudes, length⟩⟩ := ψ
    have log : Nat.log2 amplitudes.size = n := by
      rw [length, Basis.dimension_eq, Nat.log2_two_pow]
    subst log
    have sized : 2 ≤ amplitudes.size ∧
        Basis.dimension (Nat.log2 amplitudes.size) = amplitudes.size := by
      refine ⟨?_, length.symm⟩
      rw [length, Basis.dimension_eq]
      exact Nat.le_self_pow positive.ne' 2
    unfold ofAmplitudes
    dsimp only
    rw [dif_pos sized, if_neg]
    rw [fine]
    exact Bool.false_ne_true

end StateVector

end QubitTrace
