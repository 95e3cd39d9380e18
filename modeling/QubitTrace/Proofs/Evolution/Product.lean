import Mathlib
import QubitTrace.Proofs.Evolution.Relabel

/-! # Products of one-qubit states

A state is a product when each of its amplitudes is the product of one entry for every qubit, the
one that the bit of the index selects (`Factors`). A gate on one qubit changes the factor of that
qubit alone (`Factors.single`), and the exchange of two qubits renames them, so it exchanges their
factors (`Factors.relabel`). These are the gates that keep products.
-/

namespace QubitTrace
set_option autoImplicit false

open QubitTrace.Basis
open QubitTrace.Evolution (amplitude)
open scoped Matrix

/-- Every qubit has a state of its own, of length one, and the amplitudes are the products of the
entries that the bits of the index select. -/
structure StateVector.Factors (ψ : StateVector ℝ) (v : Nat → Nat → Complex ℝ) : Prop where
  unit : ∀ q < ψ.qubits, (v q 0).normSq + (v q 1).normSq = 1
  eq_prod : ∀ i < dimension ψ.qubits,
    amplitude ψ.amplitudes i = ∏ q ∈ Finset.range ψ.qubits, v q (bit i q)

/-- A tensor product of one-qubit states. -/
def StateVector.IsProduct (ψ : StateVector ℝ) : Prop := ∃ v, ψ.Factors v

theorem prod_split {n q i : Nat} (lt : q < n) (v : Nat → Nat → Complex ℝ) :
    ∏ p ∈ Finset.range n, v p (bit i p) =
      v q (bit i q) * ∏ p ∈ (Finset.range n).erase q, v p (bit i p) :=
  (Finset.mul_prod_erase _ _ (Finset.mem_range.2 lt)).symm

theorem prod_update_split {n q i : Nat} (lt : q < n) (v : Nat → Nat → Complex ℝ)
    (w : Nat → Complex ℝ) :
    ∏ p ∈ Finset.range n, Function.update v q w p (bit i p) =
      w (bit i q) * ∏ p ∈ (Finset.range n).erase q, v p (bit i p) := by
  rw [prod_split lt, Function.update_self]
  congr 1
  refine Finset.prod_congr rfl fun p listed => ?_
  rw [Function.update_of_ne (Finset.ne_of_mem_erase listed)]

/-- Replacing the bit of a qubit replaces one factor. -/
theorem prod_setBit {n q i b : Nat} (lt : q < n) (hb : b < 2) (v : Nat → Nat → Complex ℝ) :
    ∏ p ∈ Finset.range n, v p (bit (setBit i q b) p) =
      v q b * ∏ p ∈ (Finset.range n).erase q, v p (bit i p) := by
  rw [prod_split lt, bit_setBit hb, if_pos rfl]
  congr 1
  refine Finset.prod_congr rfl fun p listed => ?_
  rw [bit_setBit hb, if_neg (Finset.ne_of_mem_erase listed)]

namespace StateVector

/-- The state with all bits zero is a product. -/
theorem factors_zero {n : Nat} {ψ : StateVector ℝ} (zeroed : zero n = .ok ψ) :
    ψ.Factors fun _ b => if b = 0 then 1 else 0 := by
  obtain ⟨-, inside, positive, rfl⟩ := basis_eq_ok_iff.1 zeroed
  refine ⟨fun q _ => by simp [Complex.normSq], fun i lt => ?_⟩
  rw [Evolution.amplitude_ofFn _ lt, Finset.prod_ite_zero, Finset.prod_const_one]
  have clear : i = 0 ↔ ∀ q ∈ Finset.range n, bit i q = 0 := by
    constructor
    · rintro rfl q _
      rw [bit_eq_toNat, Nat.zero_testBit]
      rfl
    · intro none
      refine eq_of_testBit_lt lt inside fun q small => ?_
      have set := none q (Finset.mem_range.2 small)
      rw [bit_eq_toNat, Bool.toNat_eq_zero] at set
      rw [set, Nat.zero_testBit]
  simp only [clear]

variable {ψ φ : StateVector ℝ} {v : Nat → Nat → Complex ℝ}

/-! ## Gates on one qubit -/

theorem dotProduct_star_two (u : Fin 2 → Complex ℝ) :
    star u ⬝ᵥ u = Complex.ofRealHom ((u 0).normSq + (u 1).normSq) := by
  rw [dotProduct, Fin.sum_univ_two, map_add, ← Complex.star_mul_self, ← Complex.star_mul_self]
  rfl

/-- A gate on one qubit keeps the length of a column. -/
theorem normSq_row {g : Gate ℝ} (one : g.arity = 1) (w : Nat → Complex ℝ) :
    (g.matrix.row 0 w).normSq + (g.matrix.row 1 w).normSq = (w 0).normSq + (w 1).normSq := by
  obtain ⟨m, single⟩ := GateMatrix.exists_single (g.arity_matrix.trans one)
  have unitary : g.matrix.toMatrix 2 ∈ Matrix.unitaryGroup (Fin 2) (Complex ℝ) := by
    have unitary := g.unitary_matrix
    rw [one] at unitary
    exact unitary
  have product (r : Fin 2) :
      (g.matrix.toMatrix 2 *ᵥ fun l : Fin 2 => w l) r = g.matrix.row r w := by
    rw [single]
    exact Fin.sum_univ_two fun l : Fin 2 => m.entry r l * w l
  have kept := dotProduct_star_mulVec unitary fun l : Fin 2 => w l
  rw [dotProduct_star_two, dotProduct_star_two, product, product] at kept
  exact Complex.ofRealHom_injective kept

/-- A gate on one qubit changes the factor of that qubit alone. -/
theorem Factors.single (factors : ψ.Factors v) {g : Gate ℝ} (one : g.arity = 1) {q : Nat}
    (fits : g.Fits ψ.qubits [q]) (applied : Evolution.apply ψ g [q] = .ok φ) :
    φ.Factors (Function.update v q fun b => g.matrix.row b (v q)) := by
  obtain ⟨m, single⟩ := GateMatrix.exists_single (g.arity_matrix.trans one)
  have lt : q < ψ.qubits := fits.range q List.mem_cons_self
  rw [Evolution.apply_eq fits] at applied
  cases applied
  refine ⟨fun p small => ?_, fun i inside => ?_⟩
  · by_cases here : p = q
    · rw [here, Function.update_self, normSq_row one, factors.unit q lt]
    · rw [Function.update_of_ne here, factors.unit p small]
  · have entry (l : Nat) (hl : l < 2) : amplitude ψ.amplitudes (assign [q] l i) =
        v q l * ∏ p ∈ (Finset.range ψ.qubits).erase q, v p (bit i p) := by
      have digit : bit l 0 = l := Nat.mod_eq_of_lt hl
      have place : assign [q] l i = setBit i q l := congrArg (setBit i q) digit
      rw [place, factors.eq_prod _ (setBit_lt inside lt hl), prod_setBit lt hl]
    have row : localIndex [q] i = bit i q := Nat.zero_add _
    rw [Evolution.amplitude_ofFn _ inside, prod_update_split lt, row, single]
    simp only [GateMatrix.row]
    rw [entry 0 (by decide), entry 1 (by decide)]
    ring

/-! ## Exchanges -/

/-- Renaming the qubits of a product renames its factors. -/
theorem Factors.relabel (factors : ψ.Factors v) {π : Equiv.Perm Nat}
    (permutes : Permutes ψ.qubits π) : (ψ.relabel π).Factors fun p => v (π.symm p) := by
  refine ⟨fun p small => ?_, fun j inside => ?_⟩
  · obtain ⟨q, lt, rfl⟩ := permutes.exists_eq small
    simp only [Equiv.symm_apply_apply]
    exact factors.unit q lt
  · have lt : j < dimension ψ.qubits := inside
    rw [Evolution.amplitude_relabel lt, factors.eq_prod _ (Permutes.unmoved_lt _ _ _)]
    -- both sides are products over the qubits, the second one over their new names
    refine Finset.prod_nbij π (fun q listed => ?_) π.injective.injOn ?_ fun q listed => ?_
    · exact Finset.mem_range.2 (permutes.lt (Finset.mem_range.1 listed))
    · intro p listed
      obtain ⟨q, lt, same⟩ := permutes.exists_eq (Finset.mem_range.1 (Finset.mem_coe.1 listed))
      exact ⟨q, Finset.mem_coe.2 (Finset.mem_range.2 lt), same⟩
    · rw [Equiv.symm_apply_apply, Permutes.bit_unmoved (Finset.mem_range.1 listed)]

end StateVector

/-! ## Gates that keep products -/

/-- The matrix of the exchange reads the two bits of its index in the other order. -/
theorem Gate.row_swap {x y : Nat} (hx : x < 2) (hy : y < 2) (w : Nat → Complex ℝ) :
    (Gate.swap : Gate ℝ).matrix.row (2 * x + y) w = w (2 * y + x) := by
  obtain rfl | rfl : x = 0 ∨ x = 1 := by omega
  all_goals
    obtain rfl | rfl : y = 0 ∨ y = 1 := by omega
    all_goals
      simp [GateMatrix.row, Gate.matrix, Gate.swapMatrix, SquareMatrix.entry, Complex.sum_eq,
        List.range_succ]

/-- The exchange of two qubits renames them. -/
theorem Evolution.apply_swap {ψ : StateVector ℝ} {a b : Nat}
    (fits : (Gate.swap : Gate ℝ).Fits ψ.qubits [a, b]) :
    apply ψ .swap [a, b] = .ok (ψ.relabel (Equiv.swap a b)) := by
  have ha : a < ψ.qubits := fits.range a (by simp)
  have hb : b < ψ.qubits := fits.range b (by simp)
  rw [apply_eq fits, StateVector.relabel]
  congr 3
  funext j
  have row : localIndex [a, b] j = 2 * bit j a + bit j b := by simp [localIndex]
  rw [row, Gate.row_swap (bit_lt _ _) (bit_lt _ _), assign_exchanged ha hb j.isLt]

/-- Gates on one qubit and exchanges take products to products. -/
theorem StateVector.IsProduct.apply {ψ φ : StateVector ℝ} (product : ψ.IsProduct) {g : Gate ℝ}
    {qubits : List Nat} (plain : g.arity = 1 ∨ g = .swap) (fits : g.Fits ψ.qubits qubits)
    (applied : Evolution.apply ψ g qubits = .ok φ) : φ.IsProduct := by
  obtain ⟨v, factors⟩ := product
  obtain one | rfl := plain
  · obtain ⟨q, rfl⟩ := List.length_eq_one_iff.1 (fits.length.trans one)
    exact ⟨_, factors.single one fits applied⟩
  · obtain ⟨a, b, rfl⟩ := List.length_eq_two.1 fits.length
    have ha : a < ψ.qubits := fits.range a (by simp)
    have hb : b < ψ.qubits := fits.range b (by simp)
    cases applied.symm.trans (Evolution.apply_swap fits)
    exact ⟨_, factors.relabel (permutes_swap ha hb)⟩

/-- A circuit of such gates passes through products only. -/
theorem Evolution.product_of_trajectory {c : Circuit ℝ}
    (plain : ∀ g qubits, .gate g qubits ∈ c.operations → g.arity = 1 ∨ g = .swap) {tolerance : ℝ}
    {φs : List (StateVector ℝ)} (run : trajectory tolerance c none = .ok φs) :
    ∀ φ ∈ φs, φ.IsProduct := by
  obtain ⟨reachable, positive, small⟩ := reachable_of_trajectory run
  obtain ⟨φs', run', -, all⟩ := trajectory_invariant (P := StateVector.IsProduct) reachable
    positive small (fun ψ zeroed => ⟨_, StateVector.factors_zero zeroed⟩)
    (fun ψ φ g qubits listed sized fits applied product =>
      product.apply (plain g qubits listed) (sized ▸ fits) applied) tolerance
  cases run.symm.trans run'
  exact fun φ listed => (all φ listed).2

end QubitTrace
