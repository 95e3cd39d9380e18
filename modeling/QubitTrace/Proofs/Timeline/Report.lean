import Mathlib
import QubitTrace.Proofs.Density.Physical
import QubitTrace.Proofs.Except
import QubitTrace.Proofs.Evolution.Norm
import QubitTrace.Simulator

/-! # Reports never fail

Over exact numbers every check of a report holds of a normalized state: each asks of an operator
what the operator of a state has (`DensityOperator.Physical`). So there is a report of every
qubit, of every state and of every list of states.
-/

namespace QubitTrace
set_option autoImplicit false

open QubitTrace.Basis

namespace Scalar

theorem abs_zero_real : abs (0 : ℝ) = 0 := if_neg (lt_irrefl 0)

theorem ofDecimal_one_pos (e : Int) : (0 : ℝ) < ofDecimal 1 e := by
  rw [ofDecimal_real]
  positivity

end Scalar

/-! ## Checks -/

namespace Invariant

section Passed

variable {K : Type} [Scalar K] {ρ : DensityOperator K} {tolerance : K}

/-- What passes the comparison of the upper triangle. -/
theorem hermitian_eq_ok_iff : hermitian ρ tolerance = .ok () ↔
    ∀ r ∈ List.range ρ.dim, ∀ c ∈ List.range' r (ρ.dim - r), ¬ tolerance < asymmetry ρ r c := by
  have clean : hermitian ρ tolerance = .ok () ↔ ((List.range ρ.dim).findSome? fun r =>
      (List.range' r (ρ.dim - r)).findSome? fun c =>
        let deviation := asymmetry ρ r c
        if tolerance < deviation then some (InvariantFault.hermitian r c deviation) else none) =
      none := by
    unfold hermitian
    dsimp only
    split
    · next fault found => rw [found]; exact iff_of_false nofun nofun
    · next found => rw [found]; exact iff_of_true rfl rfl
  rw [clean]
  simp only [List.findSome?_eq_none_iff, ite_eq_right_iff, reduceCtorEq, imp_false]

theorem positive_eq_ok_iff [Spectral K] : positive ρ tolerance = .ok () ↔
    ∀ p ∈ Spectral.eigenvalues ρ.entries, ¬ p < -tolerance := by
  unfold positive
  split
  · next p found =>
    refine iff_of_false nofun fun none => ?_
    exact none p (List.mem_of_find?_eq_some found) (by simpa using List.find?_some found)
  · next found =>
    refine iff_of_true rfl fun p listed => ?_
    simpa using List.find?_eq_none.1 found p listed

end Passed

variable {ρ : DensityOperator ℝ} {tolerance : ℝ}

theorem normalized_eq_ok {ψ : StateVector ℝ} (unit : ψ.normSq = 1) (nonneg : 0 ≤ tolerance) :
    normalized ψ tolerance = .ok () := by
  have exact : ¬ tolerance < Scalar.abs (ψ.normSq - 1) := by
    rw [unit, sub_self, Scalar.abs_zero_real]
    exact not_lt.2 nonneg
  rw [normalized, StateVector.deviates, decide_eq_false exact]
  rfl

theorem asymmetry_eq_zero (physical : ρ.Physical) {r c : Nat} (hr : r < ρ.dim) (hc : c < ρ.dim) :
    asymmetry ρ r c = 0 := by
  have mirrored : (ρ.entry c r).conj = ρ.entry r c := physical.hermitian.apply ⟨r, hr⟩ ⟨c, hc⟩
  rw [asymmetry, mirrored, sub_self]
  exact (congrArg Real.sqrt (by simp)).trans Real.sqrt_zero

theorem hermitian_eq_ok (physical : ρ.Physical) (nonneg : 0 ≤ tolerance) :
    hermitian ρ tolerance = .ok () := by
  refine hermitian_eq_ok_iff.2 fun r row c col => ?_
  obtain ⟨i, lt, rfl⟩ := List.mem_range'.1 col
  have inside := List.mem_range.1 row
  rw [asymmetry_eq_zero physical inside (by omega)]
  exact not_lt.2 nonneg

theorem unitTrace_eq_ok (physical : ρ.Physical) (nonneg : 0 ≤ tolerance) :
    unitTrace ρ tolerance = .ok () := by
  refine if_neg ?_
  rw [physical.trace_eq_one, Complex.re_one, Complex.im_one, sub_self, Scalar.abs_zero_real,
    or_self]
  exact not_lt.2 nonneg

theorem density_eq_ok (physical : ρ.Physical) (nonneg : 0 ≤ tolerance) :
    density ρ tolerance = .ok () := by
  rw [density, hermitian_eq_ok physical nonneg, unitTrace_eq_ok physical nonneg]
  rfl

theorem positive_eq_ok [Spectral ℝ] (exact : Spectral.Exact) (physical : ρ.Physical)
    (nonneg : 0 ≤ tolerance) : positive ρ tolerance = .ok () := by
  refine positive_eq_ok_iff.2 fun p listed => not_lt.2 ?_
  have := physical.eigenvalue_nonneg exact listed
  linarith

theorem purityBounds_eq_ok {purity : ℝ} {dim : Nat} (lower : 1 / (dim : ℝ) ≤ purity)
    (upper : purity ≤ 1) : purityBounds purity dim tolerance = .ok () := by
  have slack : 0 ≤ Scalar.atLeast leastPurityTolerance tolerance := by
    have least : (0 : ℝ) < leastPurityTolerance := Scalar.ofDecimal_one_pos _
    unfold Scalar.atLeast
    split_ifs with above
    · exact (least.trans above).le
    · exact least.le
  refine if_neg (not_or.2 ⟨not_lt.2 ?_, not_lt.2 ?_⟩)
  · exact (sub_le_self _ slack).trans lower
  · exact upper.trans (le_add_of_nonneg_right slack)

end Invariant

/-! ## Observables -/

namespace Observable

variable {ρ : DensityOperator ℝ} {tolerance : ℝ}

/-- An operator on one qubit that is its own adjoint has a point of the Bloch ball. -/
theorem blochVector_eq_ok (hermitian : (ρ.toMatrix 2).IsHermitian) (one : ρ.qubits = 1)
    (nonneg : 0 ≤ tolerance) :
    blochVector ρ tolerance = .ok (.ofMatrix (ρ.toMatrix 2)) := by
  have real (axis : Axis) : realExpectation ρ tolerance axis =
      .ok ((BlochVector.ofMatrix (ρ.toMatrix 2)).along axis) := by
    simp only [realExpectation, expectation_eq hermitian axis, Complex.im_ofRealHom,
      Complex.re_ofRealHom, Scalar.abs_zero_real]
    exact if_neg (not_lt.2 nonneg)
  rw [blochVector, if_neg (not_not.2 one)]
  simp only [real]
  rfl

end Observable

/-- What is reported of a subsystem fails only where the partial trace does. -/
theorem SubsystemObservables.fault_of_afterTrace [Spectral ℝ] {ρ : DensityOperator ℝ}
    (physical : ρ.Physical) {traced : List Nat} {fault : ObservableFault ℝ}
    (failed : afterTrace ρ traced = .error fault) :
    ∃ reason, ρ.partialTrace traced = .error reason ∧ fault = .trace reason := by
  rcases bind_eq_error_iff.1 failed with refused | ⟨σ, reduced, failed⟩
  · obtain ⟨reason, cause, rfl⟩ := mapError_eq_error_iff.1 refused
    exact ⟨reason, cause, rfl⟩
  · have state := physical.partialTrace (mapError_eq_ok_iff.1 reduced)
    have nonneg : (0 : ℝ) ≤ Observable.defaultTolerance := (Scalar.ofDecimal_one_pos _).le
    by_cases one : σ.qubits = 1
    · have found := Observable.blochVector_eq_ok (state.qubit one).hermitian one nonneg
      simp only [if_pos one, found] at failed
      cases failed
    · simp only [if_neg one] at failed
      cases failed

/-! ## Reports -/

namespace Timeline

/-- What a configuration that keeps its bounds allows. -/
theorem bounds_of_validate {K : Type} [Scalar K] {config : Config K}
    (valid : config.validate = .ok ()) :
    0 < config.normTolerance ∧ 0 < config.hermitianTolerance ∧ 0 < config.maxQubits ∧
      config.maxQubits ≤ Config.ceiling := by
  unfold Config.validate Config.checkTolerance at valid
  split_ifs at valid with norm hermitian size
  · cases valid
  · obtain ⟨some, fits⟩ := not_or.1 size
    exact ⟨norm.2, hermitian.2, Nat.pos_of_ne_zero some, not_lt.1 fits⟩
  all_goals cases valid

variable {config : Config ℝ} [Spectral ℝ]

/-- There is a report of every qubit of a register in a physical state. -/
theorem exists_qubitReport (exact : Spectral.Exact) (valid : config.validate = .ok ())
    {ρ : DensityOperator ℝ} (physical : ρ.Physical) {q : Nat} (lt : q < ρ.qubits) :
    ∃ report, qubitReport config ρ q = .ok report := by
  obtain ⟨norm, hermitian, -⟩ := bounds_of_validate valid
  obtain ⟨σ, reduced, one, state⟩ := physical.exists_reduceToQubit lt
  obtain ⟨lower, upper⟩ := state.purity_mem one
  have two : ((σ.dim : Nat) : ℝ) = 2 := by
    rw [show σ.dim = 2 from congrArg dimension one]
    rfl
  have observed : ∃ o, QubitObservables.ofReduced q σ config.hermitianTolerance = .ok o ∧
      o.purity = Observable.purity σ := by
    unfold QubitObservables.ofReduced
    rw [Observable.blochVector_eq_ok (state.qubit one).hermitian one hermitian.le]
    exact ⟨_, rfl, rfl⟩
  obtain ⟨o, made, purity⟩ := observed
  have bounded : Invariant.purityBounds o.purity σ.dim config.normTolerance = .ok () :=
    Invariant.purityBounds_eq_ok (by rwa [two, purity]) (by rwa [purity])
  have positive := Invariant.positive_eq_ok exact state hermitian.le
  refine ⟨o, ?_⟩
  unfold qubitReport
  simp only [reduced, made, positive, bounded, mapError_ok, ok_bind, ite_self]
  rfl

/-- There is a report of every normalized state, and it reports every qubit. -/
theorem exists_report (exact : Spectral.Exact) (valid : config.validate = .ok ())
    {ψ : StateVector ℝ} (unit : ψ.normSq = 1) (number : Nat) :
    ∃ step, report config ψ.qubits number ψ = .ok step ∧ step.qubits ≠ [] := by
  obtain ⟨norm, hermitian, -⟩ := bounds_of_validate valid
  have physical := DensityOperator.physical_ofState unit
  obtain ⟨reports, made, length, -⟩ := exists_mapM (P := fun _ => True)
    fun q (mem : q ∈ List.range ψ.qubits) =>
      (exists_qubitReport exact valid physical (List.mem_range.1 mem)).imp
        fun _ reported => ⟨reported, trivial⟩
  have some : reports ≠ [] := by
    refine List.ne_nil_of_length_pos ?_
    rw [length, List.length_range]
    exact ψ.positive
  have normalized := Invariant.normalized_eq_ok unit norm.le
  have density := Invariant.density_eq_ok physical hermitian.le
  refine ⟨⟨number, reports, metrics (.ofState ψ) reports⟩, ?_, some⟩
  unfold report
  simp only [ne_eq, not_true, if_false, made, normalized, density, mapError_ok, ok_bind, ite_self]
  rfl

/-- There is a timeline of every list of normalized states, and it ends in the last of them. -/
theorem exists_assemble (exact : Spectral.Exact) (valid : config.validate = .ok ()) {n : Nat}
    {states : List (StateVector ℝ)} (some : states ≠ [])
    (normalized : ∀ ψ ∈ states, ψ.qubits = n ∧ ψ.normSq = 1) :
    ∃ t, assemble config n states = .ok t ∧ t.finalState = states.getLast? ∧ t.steps ≠ [] ∧
      ∀ step ∈ t.steps, step.qubits ≠ [] := by
  obtain ⟨steps, made, length, all⟩ := exists_mapM
    fun (p : StateVector ℝ × Nat) (mem : p ∈ states.zipIdx) => by
      obtain ⟨sized, unit⟩ := normalized p.1 (List.fst_mem_of_mem_zipIdx mem)
      exact sized ▸ exists_report exact valid unit p.2
  have reported : steps ≠ [] := by
    refine List.ne_nil_of_length_pos ?_
    rw [length, List.length_zipIdx]
    exact List.length_pos_iff.2 some
  have last := List.getLast?_eq_some_getLast some
  refine ⟨⟨n, steps, states.getLast?⟩, ?_, rfl, reported, all⟩
  unfold assemble
  rw [last]
  simp only [made]
  rfl

/-- There is a timeline of every run from all bits zero. -/
theorem exists_assemble_of_trajectory (exact : Spectral.Exact)
    (valid : config.validate = .ok ()) {c : Circuit ℝ} {tolerance : ℝ} {φs : List (StateVector ℝ)}
    (run : Evolution.trajectory tolerance c none = .ok φs) :
    ∃ t, assemble config c.qubits φs = .ok t := by
  obtain ⟨length, normalized⟩ := Evolution.normalized_of_trajectory run
  have some : φs ≠ [] := by
    rintro rfl
    cases length
  obtain ⟨t, assembled, -⟩ := exists_assemble exact valid some normalized
  exact ⟨t, assembled⟩

end Timeline

/-- The default configuration keeps its bounds if its tolerance is a positive number. -/
theorem validate_default_of {K : Type} [Scalar K]
    (tolerance : Scalar.isFinite (Scalar.ofDecimal 1 (-9) : K) ∧
      (0 : K) < Scalar.ofDecimal 1 (-9)) :
    (Config.default : Config K).validate = .ok () := by
  have passed (field : ToleranceField) :
      Config.checkTolerance field (Scalar.ofDecimal 1 (-9) : K) = .ok () := if_pos tolerance
  rw [Config.validate, Config.default, passed, passed]
  rfl

theorem validate_default : (Config.default : Config ℝ).validate = .ok () :=
  validate_default_of ⟨decide_eq_true (sub_self _), Scalar.ofDecimal_one_pos _⟩

/-- **Runs never fail.** A simulator of a valid configuration runs every circuit made by
additions on at most as many qubits as it allows: the timeline has a normalized final state, and
its last step reports some qubit. -/
theorem Simulator.exists_run [Spectral ℝ] (exact : Spectral.Exact) {s : Simulator ℝ}
    (valid : s.config.validate = .ok ()) {c : Circuit ℝ} (reachable : c.Reachable)
    (positive : 0 < c.qubits) (fits : c.qubits ≤ s.config.maxQubits) :
    ∃ t, s.run c = .ok t ∧ (∃ ψ, t.finalState = some ψ ∧ ψ.normSq = 1) ∧
      ∃ step q, t.finalStep = some step ∧ step.qubits.head? = some q := by
  obtain ⟨-, -, -, ceiling⟩ := Timeline.bounds_of_validate valid
  have size : c.qubits ≤ StateVector.maxQubits := by
    have : Config.ceiling ≤ StateVector.maxQubits := by decide
    omega
  obtain ⟨φs, evolution, length, normalized⟩ :=
    Evolution.exists_normalized_trajectory reachable positive size s.config.normTolerance
  have evolved : s.evolve c none = .ok φs := by
    rw [evolve, if_neg (not_lt.2 fits), evolution]
  have some : φs ≠ [] := by
    rintro rfl
    cases length
  obtain ⟨t, assembled, final, steps, reported⟩ :=
    Timeline.exists_assemble exact valid some normalized
  refine ⟨t, by rw [Simulator.run, evolved, ok_bind, assembled], ?_, ?_⟩
  · rw [final, List.getLast?_eq_some_getLast some]
    exact ⟨_, rfl, (normalized _ (List.getLast_mem some)).2⟩
  · have last := reported _ (List.getLast_mem steps)
    exact ⟨_, _, List.getLast?_eq_some_getLast steps, List.head?_eq_some_head last⟩

end QubitTrace
