import Mathlib
import QubitTrace.Proofs.Gate.Unitary

/-! # Inverses of gates

The catalogue holds the inverse of each of its gates (`Gate.inverse`). Its matrix is the adjoint of
that of the gate (`Gate.entry_inverse`): for the gates on one qubit because cosines are even and
sines odd, for a controlled gate because it is so for its base gate.
-/

namespace QubitTrace
set_option autoImplicit false

/-- The gate that undoes a gate. -/
def Gate.inverse {K : Type} [Scalar K] : Gate K → Gate K
  | s => sdg
  | sdg => s
  | t => tdg
  | tdg => t
  | sx => sxdg
  | sxdg => sx
  | rx θ => rx (-θ)
  | ry θ => ry (-θ)
  | rz θ => rz (-θ)
  | phase lam => phase (-lam)
  | u θ φ lam => u (-θ) (-lam) (-φ)
  | cphase lam => cphase (-lam)
  | crx θ => crx (-θ)
  | cry θ => cry (-θ)
  | crz θ => crz (-θ)
  | id => id
  | h => h
  | x => x
  | y => y
  | z => z
  | cx => cx
  | cy => cy
  | cz => cz
  | ch => ch
  | swap => swap

@[simp] theorem Gate.arity_inverse {K : Type} [Scalar K] (g : Gate K) :
    g.inverse.arity = g.arity := by
  cases g <;> rfl

theorem Gate.Fits.inverse {K : Type} [Scalar K] {g : Gate K} {n : Nat} {qubits : List Nat}
    (fits : g.Fits n qubits) : g.inverse.Fits n qubits :=
  ⟨fits.length.trans g.arity_inverse.symm, fits.distinct, fits.range⟩

theorem Scalar.half_neg (θ : ℝ) : half (-θ) = -half θ := neg_div 2 θ

namespace Complex

theorem star_polar (r θ : ℝ) : star (polar r θ) = polar r (-θ) := by
  apply Complex.ext
  · simp only [polar, re_star, Scalar.cos_real, Real.cos_neg]
  · simp only [polar, im_star, Scalar.sin_real, Real.sin_neg, mul_neg]

theorem polar_neg (r θ : ℝ) : polar (-r) θ = -polar r θ := by
  apply Complex.ext <;> simp [polar]

theorem star_real (x : ℝ) : star (⟨x, 0⟩ : Complex ℝ) = ⟨x, 0⟩ := by
  apply Complex.ext <;> simp

theorem star_imaginary (y : ℝ) : star (⟨0, y⟩ : Complex ℝ) = ⟨0, -y⟩ := by
  apply Complex.ext <;> simp

theorem star_i : star (i : Complex ℝ) = -i := by
  apply Complex.ext <;> simp [i]

end Complex

open QubitTrace.Complex

namespace SquareMatrix

/-- The second matrix has the conjugates of the entries of the first, mirrored at the diagonal. -/
def Adjoint {d : Nat} (m m' : SquareMatrix ℝ d) : Prop :=
  ∀ r c, m'.entry r c = star (m.entry c r)

theorem entry_of_le_row {d : Nat} (m : SquareMatrix ℝ d) {r : Nat} (le : d ≤ r) (c : Nat) :
    m.entry r c = 0 := by
  rw [entry, Vector.getElem?_eq_none le]
  rfl

theorem entry_of_le_column {d : Nat} (m : SquareMatrix ℝ d) (r : Nat) {c : Nat} (le : d ≤ c) :
    m.entry r c = 0 := by
  rw [entry]
  cases m[r]? with
  | none => rfl
  | some row => rw [Option.bind_some, Vector.getElem?_eq_none le, Option.getD_none]

/-- Outside a matrix there is nothing to compare. -/
theorem adjoint_of_lt {d : Nat} {m m' : SquareMatrix ℝ d}
    (within : ∀ r < d, ∀ c < d, m'.entry r c = star (m.entry c r)) : Adjoint m m' := by
  intro r c
  by_cases hr : r < d
  · by_cases hc : c < d
    · exact within r hr c hc
    · rw [entry_of_le_column m' r (by omega), entry_of_le_row m (by omega), star_zero]
  · rw [entry_of_le_row m' (by omega), entry_of_le_column m c (by omega), star_zero]

theorem adjoint_of_entries {a b c d a' b' c' d' : Complex ℝ} (ha : a' = star a) (hb : b' = star c)
    (hc : c' = star b) (hd : d' = star d) :
    Adjoint #v[#v[a, b], #v[c, d]] #v[#v[a', b'], #v[c', d']] := by
  refine adjoint_of_lt fun r hr s hs => ?_
  interval_cases r <;> interval_cases s
  exacts [ha, hb, hc, hd]

/-- A controlled matrix is the identity but in the rows and columns where the first bit is set. -/
theorem entry_controlled (m : SquareMatrix ℝ 2) (r c : Nat) :
    (Gate.controlled m).entry r c =
      if r < 2 ∨ c < 2 then (if r = c then 1 else 0) else m.entry (r - 2) (c - 2) := by
  by_cases hr : r < 4
  · by_cases hc : c < 4
    · interval_cases r <;> interval_cases c <;> rfl
    · rw [entry_of_le_column _ r (by omega), entry_of_le_column m (r - 2) (by omega)]
      split_ifs with clear diagonal
      · exact absurd diagonal (by omega)
      · rfl
      · rfl
  · rw [entry_of_le_row _ (by omega), entry_of_le_row m (by omega)]
    split_ifs with clear diagonal
    · exact absurd diagonal (by omega)
    · rfl
    · rfl

theorem Adjoint.controlled {m m' : SquareMatrix ℝ 2} (adjoint : m.Adjoint m') :
    Adjoint (Gate.controlled m) (Gate.controlled m') := by
  intro r c
  rw [entry_controlled, entry_controlled]
  by_cases clear : r < 2 ∨ c < 2
  · rw [if_pos clear, if_pos clear.symm]
    by_cases diagonal : r = c
    · rw [if_pos diagonal, if_pos diagonal.symm, star_one]
    · rw [if_neg diagonal, if_neg (Ne.symm diagonal), star_zero]
  · rw [if_neg clear, if_neg fun other => clear other.symm]
    exact adjoint (r - 2) (c - 2)

theorem adjoint_hadamard : Adjoint Gate.hadamard Gate.hadamard := by
  refine adjoint_of_entries (star_real _).symm (star_real _).symm (star_real _).symm ?_
  rw [star_neg]
  exact congrArg Neg.neg (star_real _).symm

theorem adjoint_pauliX : Adjoint Gate.pauliX Gate.pauliX :=
  adjoint_of_entries (by simp) (by simp) (by simp) (by simp)

theorem adjoint_pauliY : Adjoint Gate.pauliY Gate.pauliY :=
  adjoint_of_entries (star_zero _).symm star_i.symm (by rw [star_neg, star_i, neg_neg])
    (star_zero _).symm

theorem adjoint_pauliZ : Adjoint Gate.pauliZ Gate.pauliZ :=
  adjoint_of_entries (by simp) (by simp) (by simp) (by simp)

theorem adjoint_phase (lam : ℝ) : Adjoint (Gate.phaseMatrix lam) (Gate.phaseMatrix (-lam)) :=
  adjoint_of_entries (by simp) (by simp) (by simp) (star_polar 1 lam).symm

theorem adjoint_rootOfX (im : ℝ) : Adjoint (Gate.rootOfX im) (Gate.rootOfX (-im)) := by
  refine adjoint_of_entries ?_ ?_ ?_ ?_ <;> apply Complex.ext <;> simp

/-- The cosines of the half angles are even. -/
theorem cos_half_neg (θ : ℝ) : Scalar.cos (Scalar.half (-θ)) = Scalar.cos (Scalar.half θ) := by
  rw [Scalar.half_neg, Scalar.cos_real, Scalar.cos_real, Real.cos_neg]

/-- The sines of the half angles are odd. -/
theorem sin_half_neg (θ : ℝ) : Scalar.sin (Scalar.half (-θ)) = -Scalar.sin (Scalar.half θ) := by
  rw [Scalar.half_neg, Scalar.sin_real, Scalar.sin_real, Real.sin_neg]

theorem adjoint_rx (θ : ℝ) : Adjoint (Gate.rxMatrix θ) (Gate.rxMatrix (-θ)) := by
  unfold Gate.rxMatrix
  rw [cos_half_neg, sin_half_neg]
  exact adjoint_of_entries (star_real _).symm (star_imaginary _).symm (star_imaginary _).symm
    (star_real _).symm

theorem adjoint_ry (θ : ℝ) : Adjoint (Gate.ryMatrix θ) (Gate.ryMatrix (-θ)) := by
  unfold Gate.ryMatrix
  rw [cos_half_neg, sin_half_neg]
  refine adjoint_of_entries (star_real _).symm ?_ (star_real _).symm (star_real _).symm
  rw [neg_neg, star_real]

theorem adjoint_rz (θ : ℝ) : Adjoint (Gate.rzMatrix θ) (Gate.rzMatrix (-θ)) := by
  unfold Gate.rzMatrix
  rw [neg_neg]
  refine adjoint_of_entries ?_ (star_zero _).symm (star_zero _).symm ?_
  · rw [star_polar, Scalar.half_neg, neg_neg]
  · rw [star_polar, Scalar.half_neg]

/-- The phases of the columns and those of the rows change places. -/
theorem adjoint_u (θ φ lam : ℝ) :
    Adjoint (Gate.uMatrix θ φ lam) (Gate.uMatrix (-θ) (-lam) (-φ)) := by
  unfold Gate.uMatrix
  rw [cos_half_neg, sin_half_neg]
  refine adjoint_of_entries (star_real _).symm ?_ ?_ ?_
  · rw [polar_neg, neg_neg, star_polar]
  · rw [polar_neg, star_neg, star_polar]
  · rw [star_polar, neg_add_rev]

theorem adjoint_swap : Adjoint Gate.swapMatrix Gate.swapMatrix := by
  refine adjoint_of_lt fun r hr c hc => ?_
  interval_cases r <;> interval_cases c <;> simp [Gate.swapMatrix, entry]

end SquareMatrix

open SquareMatrix in
/-- The matrix of the inverse is the adjoint of the matrix. -/
theorem Gate.entry_inverse (g : Gate ℝ) (r c : Nat) :
    g.inverse.matrix.entry r c = star (g.matrix.entry c r) := by
  cases g with
  | id => exact adjoint_of_entries (by simp) (by simp) (by simp) (by simp) r c
  | h => exact adjoint_hadamard r c
  | x => exact adjoint_pauliX r c
  | y => exact adjoint_pauliY r c
  | z => exact adjoint_pauliZ r c
  | s | t => exact adjoint_phase _ r c
  | sdg =>
    have adjoint := adjoint_phase (-Scalar.half Scalar.pi) r c
    rwa [neg_neg] at adjoint
  | tdg =>
    have adjoint := adjoint_phase (-Scalar.half (Scalar.half Scalar.pi)) r c
    rwa [neg_neg] at adjoint
  | sx => exact adjoint_rootOfX _ r c
  | sxdg =>
    have adjoint := adjoint_rootOfX (-Scalar.ofDecimal 5 (-1)) r c
    rwa [neg_neg] at adjoint
  | rx θ => exact adjoint_rx θ r c
  | ry θ => exact adjoint_ry θ r c
  | rz θ => exact adjoint_rz θ r c
  | phase lam => exact adjoint_phase lam r c
  | u θ φ lam => exact adjoint_u θ φ lam r c
  | cx => exact adjoint_pauliX.controlled r c
  | cy => exact adjoint_pauliY.controlled r c
  | cz => exact adjoint_pauliZ.controlled r c
  | ch => exact adjoint_hadamard.controlled r c
  | cphase lam => exact (adjoint_phase lam).controlled r c
  | crx θ => exact (adjoint_rx θ).controlled r c
  | cry θ => exact (adjoint_ry θ).controlled r c
  | crz θ => exact (adjoint_rz θ).controlled r c
  | swap => exact adjoint_swap r c

end QubitTrace
