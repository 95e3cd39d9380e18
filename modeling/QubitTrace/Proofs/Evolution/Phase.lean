import Mathlib
import QubitTrace.Proofs.Evolution.Norm

/-! # Runs up to a phase

Two gates are the same up to a phase when the matrix of one is that of the other times a number of
modulus one (`Gate.SamePhase`); a rotation about the third axis and the shift of the phase by the
same angle are. Such a factor comes out of every row of the matrix, whatever qubits the gate is
applied to (`apply_scale`). So one run is the other with each state multiplied by the product of
the factors met so far (`states_rephased`).
-/

namespace QubitTrace
set_option autoImplicit false

open QubitTrace.Basis

namespace Complex

theorem normSq_one : (1 : Complex ℝ).normSq = 1 := by simp [normSq]

theorem normSq_mul (u v : Complex ℝ) : (u * v).normSq = u.normSq * v.normSq := by
  simp only [normSq, re_mul, im_mul]
  ring

theorem polar_mul (r s θ φ : ℝ) : polar r θ * polar s φ = polar (r * s) (θ + φ) := by
  apply Complex.ext
  · simp only [polar, re_mul, Scalar.cos_real, Scalar.sin_real, Real.cos_add]
    ring
  · simp only [polar, im_mul, Scalar.cos_real, Scalar.sin_real, Real.sin_add]
    ring

theorem polar_zero (r : ℝ) : polar r 0 = ofReal r := by
  simp [polar, ofReal, Scalar.cos_real, Scalar.sin_real]

end Complex

/-- The state with all its amplitudes multiplied by a number. -/
def StateVector.scale {K : Type} [Scalar K] (u : Complex K) (ψ : StateVector K) : StateVector K :=
  { ψ with amplitudes := ψ.amplitudes.map (u * ·) }

/-- One state is the other times a number of modulus one. -/
def StateVector.SamePhase (ψ φ : StateVector ℝ) : Prop :=
  ∃ u : Complex ℝ, u.normSq = 1 ∧ φ = ψ.scale u

/-- The matrix of one gate is that of the other times a number of modulus one. -/
def Gate.SamePhase (g g' : Gate ℝ) : Prop :=
  g'.arity = g.arity ∧
    ∃ u : Complex ℝ, u.normSq = 1 ∧ ∀ r c, g'.matrix.entry r c = u * g.matrix.entry r c

/-- An operation, or the shift of the phase in place of a rotation about the third axis. -/
inductive Operation.Rephased {K : Type} : Operation K → Operation K → Prop
  | same (op : Operation K) : Rephased op op
  | shift (a : K) (qubits : List Nat) : Rephased (.gate (.rz a) qubits) (.gate (.phase a) qubits)

/-- Some rotations about the third axis have been replaced by shifts of the phase. -/
def Circuit.Rephased {K : Type} (c c' : Circuit K) : Prop :=
  c'.qubits = c.qubits ∧ List.Forall₂ Operation.Rephased c.operations c'.operations

/-! ## Gates -/

namespace Gate

theorem SamePhase.refl (g : Gate ℝ) : g.SamePhase g :=
  ⟨rfl, 1, Complex.normSq_one, fun r c => (one_mul (g.matrix.entry r c)).symm⟩

/-- The shift of a phase is the rotation times the phase of half the angle. -/
theorem samePhase_shift (a : ℝ) : (rz a).SamePhase (phase a) := by
  have unit : (Complex.polar 1 (a / 2)).normSq = 1 := by rw [Complex.normSq_polar, one_mul]
  have low : 1 = Complex.polar 1 (a / 2) * Complex.polar 1 (-a / 2) := by
    rw [Complex.polar_mul, one_mul, ← add_div, add_neg_cancel, zero_div, Complex.polar_zero]
    rfl
  have high : Complex.polar 1 a = Complex.polar 1 (a / 2) * Complex.polar 1 (a / 2) := by
    rw [Complex.polar_mul, one_mul, add_halves]
  refine ⟨rfl, Complex.polar 1 (a / 2), unit, fun r c => ?_⟩
  -- the diagonal holds the two products, and there is nothing next to it or outside
  rcases r with _ | _ | r <;> rcases c with _ | _ | c <;>
    simp [matrix, GateMatrix.entry, SquareMatrix.entry, phaseMatrix, rzMatrix, Scalar.half_real,
      ← low, ← high]

theorem SamePhase.fits {g g' : Gate ℝ} (same : g.SamePhase g') {n : Nat} {qubits : List Nat}
    (fits : g.Fits n qubits) : g'.Fits n qubits :=
  ⟨fits.length.trans same.1.symm, fits.distinct, fits.range⟩

end Gate

/-- A factor of all entries and a factor of all components are factors of every row. -/
theorem GateMatrix.row_scale {m m' : GateMatrix ℝ} {u w : Complex ℝ} (size : m'.arity = m.arity)
    (entries : ∀ r c, m'.entry r c = w * m.entry r c) (r : Nat) (v : Nat → Complex ℝ) :
    m'.row r (fun l => u * v l) = w * u * m.row r v := by
  rw [row_eq_sum, row_eq_sum, size, Finset.mul_sum]
  refine Finset.sum_congr rfl fun l _ => ?_
  rw [entries]
  ring

theorem Operation.Rephased.samePhase {g : Gate ℝ} {qubits : List Nat} {op : Operation ℝ}
    (rephased : Rephased (.gate g qubits) op) : ∃ g', op = .gate g' qubits ∧ g.SamePhase g' := by
  cases rephased with
  | same => exact ⟨g, rfl, .refl g⟩
  | shift a => exact ⟨.phase a, rfl, Gate.samePhase_shift a⟩

/-- A register takes the operation with the phase shifted if it takes the operation. -/
theorem Operation.Rephased.fault?_eq_none {K : Type} {n : Nat} {op op' : Operation K}
    (rephased : Rephased op op') (accepted : op.fault? n = none) : op'.fault? n = none := by
  cases rephased with
  | same => exact accepted
  | shift a qubits =>
    obtain ⟨length, distinct, range⟩ := Operation.fault?_gate_eq_none_iff.1 accepted
    exact Operation.fault?_gate_eq_none_iff.2 ⟨length, distinct, range⟩

theorem Operation.fault?_eq_none_of_rephased {K : Type} {n : Nat} {ops ops' : List (Operation K)}
    (rephased : List.Forall₂ Rephased ops ops') (accepted : ∀ op ∈ ops, op.fault? n = none) :
    ∀ op ∈ ops', op.fault? n = none := by
  induction rephased with
  | nil => exact accepted
  | cons first _ ih =>
    obtain ⟨fine, rest⟩ := List.forall_mem_cons.1 accepted
    exact List.forall_mem_cons.2 ⟨first.fault?_eq_none fine, ih rest⟩

/-! ## States and runs -/

namespace Evolution

variable {ψ φ : StateVector ℝ} {u : Complex ℝ}

theorem amplitude_map_mul {d : Nat} (v : Vector (Complex ℝ) d) (i : Nat) :
    amplitude (v.map (u * ·)) i = u * amplitude v i := by
  rw [amplitude, amplitude, Vector.getElem?_map]
  cases v[i]? with
  | none => exact (mul_zero u).symm
  | some a => rfl

/-- A gate of the same phase takes a multiple of a state to a multiple of what the gate makes of
the state. -/
theorem apply_scale {g g' : Gate ℝ} {qubits : List Nat} (same : g.SamePhase g')
    (unit : u.normSq = 1) (fits : g.Fits ψ.qubits qubits) (applied : apply ψ g qubits = .ok φ) :
    ∃ v : Complex ℝ, v.normSq = 1 ∧ apply (ψ.scale u) g' qubits = .ok (φ.scale v) := by
  have fits' : g'.Fits (ψ.scale u).qubits qubits := same.fits fits
  obtain ⟨size, w, modulus, entries⟩ := same
  have arity : g'.matrix.arity = g.matrix.arity := by rw [g'.arity_matrix, size, g.arity_matrix]
  refine ⟨w * u, by rw [Complex.normSq_mul, modulus, unit, one_mul], ?_⟩
  rw [apply_eq fits] at applied
  cases applied
  rw [apply_eq fits', StateVector.scale]
  congr 2
  refine Vector.ext fun i lt => ?_
  simp only [Vector.getElem_ofFn, Vector.getElem_map, amplitude_map_mul]
  exact GateMatrix.row_scale arity entries _ _

/-- Operations of the same phases take a multiple of a state through multiples of the states. -/
theorem states_rephased {n : Nat} {ops ops' : List (Operation ℝ)}
    (rephased : List.Forall₂ Operation.Rephased ops ops')
    (accepted : ∀ op ∈ ops, op.fault? n = none) (sized : ψ.qubits = n) (unit : u.normSq = 1)
    {φs : List (StateVector ℝ)} (run : states ψ ops = .ok φs) :
    ∃ φs', states (ψ.scale u) ops' = .ok φs' ∧ List.Forall₂ StateVector.SamePhase φs φs' := by
  induction rephased generalizing ψ u φs with
  | nil =>
    cases run
    exact ⟨[ψ.scale u], rfl, .cons ⟨u, unit, rfl⟩ .nil⟩
  | @cons op op' ops ops' first _ ih =>
    obtain ⟨fine, rest⟩ := List.forall_mem_cons.1 accepted
    cases op with
    | gate g qubits =>
      obtain ⟨g', rfl, same⟩ := first.samePhase
      have fits : g.Fits ψ.qubits qubits := sized ▸ Operation.fault?_gate_eq_none_iff.1 fine
      obtain ⟨next, applied, run⟩ := bind_eq_ok_iff.1 run
      obtain ⟨later, rests, run⟩ := bind_eq_ok_iff.1 run
      cases run
      rw [mapError_eq_ok_iff] at applied
      obtain ⟨next', applied', size⟩ := exists_apply fits
      cases applied.symm.trans applied'
      obtain ⟨v, unit', step⟩ := apply_scale same unit fits applied
      obtain ⟨φs', run', phases⟩ := ih rest (size.trans sized) unit' rests
      refine ⟨ψ.scale u :: φs', ?_, .cons ⟨u, unit, rfl⟩ phases⟩
      rw [states, step, mapError_ok, ok_bind, run']
      rfl
    | measure qubit clbit =>
      cases first
      exact ih rest sized unit run
    | barrier qubits =>
      cases first
      exact ih rest sized unit run

end Evolution

/-- Replacing rotations by shifts leaves a circuit one that is made by additions. -/
theorem Circuit.Rephased.reachable {K : Type} {c c' : Circuit K} (rephased : c.Rephased c')
    (reachable : c.Reachable) (positive : 0 < c.qubits) : c'.Reachable := by
  obtain ⟨size, ops⟩ := rephased
  refine reachable_of_accepted (size ▸ positive) ?_
  rw [size]
  exact Operation.fault?_eq_none_of_rephased ops reachable.fault?_eq_none

/-- The circuit with shifts in place of rotations passes through multiples of the states. -/
theorem Evolution.trajectory_rephased {c c' : Circuit ℝ} (rephased : c.Rephased c') {tolerance : ℝ}
    {φs : List (StateVector ℝ)} (run : trajectory tolerance c none = .ok φs) :
    ∃ φs', trajectory tolerance c' none = .ok φs' ∧ List.Forall₂ StateVector.SamePhase φs φs' := by
  obtain ⟨reachable, positive, small⟩ := reachable_of_trajectory run
  obtain ⟨ψ, zeroed⟩ := StateVector.exists_zero (K := ℝ) positive small
  have started : start tolerance c.qubits none = .ok ψ := start_of_zero zeroed
  rw [trajectory_eq_states reachable started] at run
  obtain ⟨φs', run', phases⟩ := states_rephased rephased.2 reachable.fault?_eq_none
    (start_eq_ok started).1 Complex.normSq_one run
  have whole : ψ.scale 1 = ψ := by simp [StateVector.scale]
  rw [whole] at run'
  refine ⟨φs', ?_, phases⟩
  rw [trajectory_eq_states (rephased.reachable reachable positive) (rephased.1.symm ▸ started)]
  exact run'

end QubitTrace
