import Mathlib
import QubitTrace.Proofs.Density.Marginal
import QubitTrace.Proofs.Evolution.Product
import QubitTrace.Proofs.Timeline.Ball

/-! # Reports of products

A sum over the basis of a product over the bits is a product of sums (`sum_prod_bit`). So the
operator of a qubit of a product is the projection onto the factor of that qubit
(`Factors.marginal_eq`): the qubit is pure, and nothing suggests entanglement.
-/

namespace QubitTrace
set_option autoImplicit false

open QubitTrace.Basis
open QubitTrace.Evolution (amplitude trajectory)
open scoped Matrix

/-- A sum over the basis of a product over the bits of the index is a product of sums. -/
theorem Basis.sum_prod_bit {R : Type} [CommSemiring R] (n : Nat) (f : Nat → Nat → R) :
    ∑ i : Fin (dimension n), ∏ q ∈ Finset.range n, f q (bit i q) =
      ∏ q ∈ Finset.range n, (f q 0 + f q 1) := by
  have counted (n : Nat) : ∑ i : Fin (dimension n), ∏ q ∈ Finset.range n, f q (bit i q) =
      ∑ i ∈ Finset.range (2 ^ n), ∏ q ∈ Finset.range n, f q (bit i q) := by
    rw [← dimension_eq]
    exact Fin.sum_univ_eq_sum_range (fun i => ∏ q ∈ Finset.range n, f q (bit i q)) _
  rw [counted]
  induction n with
  | zero => simp
  | succ n ih =>
    -- the indices without and with the highest bit
    rw [Nat.pow_succ', Nat.two_mul, Finset.sum_range_add, Finset.prod_range_succ, ← ih, mul_add,
      Finset.sum_mul, Finset.sum_mul]
    congr 1
    · refine Finset.sum_congr rfl fun i listed => ?_
      have clear : bit i n = 0 := by
        rw [bit_eq_toNat, Nat.testBit_lt_two_pow (Finset.mem_range.1 listed), Bool.toNat_false]
      rw [Finset.prod_range_succ, clear]
    · refine Finset.sum_congr rfl fun i listed => ?_
      have set : bit (2 ^ n + i) n = 1 := by
        rw [bit_eq_toNat, Nat.testBit_two_pow_add_eq,
          Nat.testBit_lt_two_pow (Finset.mem_range.1 listed)]
        rfl
      rw [Finset.prod_range_succ, set]
      congr 1
      refine Finset.prod_congr rfl fun q below => ?_
      have same : bit (2 ^ n + i) q = bit i q := by
        rw [bit_eq_bit_iff, Nat.testBit_two_pow_add_gt (Finset.mem_range.1 below)]
      rw [same]

namespace StateVector.Factors

variable {ψ : StateVector ℝ} {v : Nat → Nat → Complex ℝ}

/-- The operator of a qubit of a product is that of its factor. -/
theorem marginal_eq (factors : ψ.Factors v) {q : Nat} (lt : q < ψ.qubits) {r c : Nat} (hr : r < 2)
    (hc : c < 2) : ψ.marginal q r c = v q r * star (v q c) := by
  -- one column for each qubit: the squares of its factor, but for `q` the entry asked for
  let w : Nat → Nat → Complex ℝ := Function.update (fun p b => v p b * star (v p b)) q
    fun b => if b = r then v q r * star (v q c) else 0
  have term (i : Fin (dimension ψ.qubits)) :
      (if bit i q = r then
        amplitude ψ.amplitudes i * star (amplitude ψ.amplitudes (setBit i q c))
      else 0) = ∏ p ∈ Finset.range ψ.qubits, w p (bit i p) := by
    rw [prod_update_split lt]
    by_cases here : bit i q = r
    · rw [if_pos here, if_pos here, factors.eq_prod _ i.isLt,
        factors.eq_prod _ (setBit_lt i.isLt lt hc), prod_setBit lt hc, prod_split lt, here,
        star_mul', star_prod, Finset.prod_mul_distrib]
      ring
    · rw [if_neg here, if_neg here, zero_mul]
  have square (p : Nat) (lt : p < ψ.qubits) :
      v p 0 * star (v p 0) + v p 1 * star (v p 1) = 1 := by
    rw [mul_comm, Complex.star_mul_self, mul_comm, Complex.star_mul_self, ← map_add,
      factors.unit p lt, map_one]
  rw [marginal, Finset.sum_congr rfl fun i _ => term i, sum_prod_bit,
    ← Finset.mul_prod_erase _ _ (Finset.mem_range.2 lt), Finset.prod_eq_one, mul_one]
  · simp only [w, Function.update_self]
    obtain rfl | rfl : r = 0 ∨ r = 1 := by omega
    · simp
    · simp
  · intro p listed
    obtain ⟨other, small⟩ := Finset.mem_erase.1 listed
    simp only [w, Function.update_of_ne other]
    exact square p (Finset.mem_range.1 small)

/-- Every qubit of a product is pure. -/
theorem purity_reduceToQubit (factors : ψ.Factors v) {q : Nat} (lt : q < ψ.qubits)
    {σ : DensityOperator ℝ} (reduced : (DensityOperator.ofState ψ).reduceToQubit q = .ok σ) :
    Observable.purity σ = 1 := by
  obtain ⟨σ', reduced', one, entries⟩ := DensityOperator.exists_reduceToQubit_eq lt
  cases reduced.symm.trans reduced'
  let u : Fin 2 → Complex ℝ := fun b => v q b
  have pure : σ.toMatrix 2 = Matrix.vecMulVec u (star u) := by
    refine Matrix.ext fun r c => ?_
    exact (entries r r.isLt c c.isLt).trans (factors.marginal_eq lt r.isLt c.isLt)
  have unit : star u ⬝ᵥ u = 1 := by
    rw [dotProduct_star_two, ← map_one Complex.ofRealHom]
    exact congrArg _ (factors.unit q lt)
  exact Observable.purity_of_pure (show σ.dim = 2 from congrArg dimension one) pure unit

end StateVector.Factors

namespace Timeline

/-- A pure state does not suggest entanglement. -/
theorem showsEntanglement_one (entropy : ℝ) : showsEntanglement 1 entropy = false := by
  have high : ¬ (1 : ℝ) < Scalar.ofDecimal 6 (-1) := by
    rw [Scalar.ofDecimal_real]
    norm_num
  rw [showsEntanglement, decide_eq_false high, Bool.false_and]

variable [Spectral ℝ] {config : Config ℝ} {ψ : StateVector ℝ}

/-- What is said of a qubit of a product is said of a pure qubit. -/
theorem purity_of_qubitReport (product : ψ.IsProduct) {q : Nat} (lt : q < ψ.qubits)
    {o : QubitObservables ℝ} (reported : qubitReport config (.ofState ψ) q = .ok o) :
    o.purity = 1 := by
  obtain ⟨v, factors⟩ := product
  obtain ⟨σ, reduced, observed⟩ := qubitReport_eq_ok reported
  obtain ⟨-, -, purity, -⟩ := QubitObservables.ofReduced_eq_ok observed
  rw [purity, factors.purity_reduceToQubit lt reduced]

/-- Where the register and each of its qubits are pure, nothing suggests entanglement. -/
theorem isEntangled_metrics {ρ : DensityOperator ℝ} (pure : Observable.purity ρ = 1)
    {qubits : List (QubitObservables ℝ)} (each : ∀ o ∈ qubits, o.purity = 1) :
    (metrics ρ qubits).isEntangled = false := by
  have none : (qubits.any fun o => showsEntanglement o.purity o.entropy) = false := by
    refine List.any_eq_false.2 fun o listed => ?_
    rw [each o listed, showsEntanglement_one]
    exact Bool.false_ne_true
  unfold metrics
  dsimp only
  rw [pure, showsEntanglement_one, none, Bool.or_false, Bool.and_false]

/-- The report of a product says that its qubits are pure, and raises no alarm. -/
theorem report_of_product (product : ψ.IsProduct) (normalized : ψ.normSq = 1) {n number : Nat}
    {step : Step ℝ} (reported : report config n number ψ = .ok step) :
    step.metrics.isEntangled = false ∧ step.qubits.length = n ∧ ∀ q < n,
      ∃ o, step.qubits[q]? = some o ∧ o.qubit = q ∧ o.purity = 1 ∧ o.bloch.norm = 1 := by
  obtain ⟨sized, -, figures, -⟩ := report_eq_ok reported
  subst sized
  refine ⟨?_, length_qubits reported, fun q lt => ?_⟩
  · rw [figures]
    refine isEntangled_metrics (Observable.purity_ofState normalized) fun o listed => ?_
    obtain ⟨q, inside, here⟩ := List.getElem_of_mem listed
    obtain ⟨lt, made⟩ := (getElem?_qubits reported).1 (List.getElem?_eq_some_iff.2 ⟨inside, here⟩)
    exact purity_of_qubitReport product lt made
  · obtain ⟨o, here, number, made⟩ := exists_qubit_of_report reported lt
    have pure := purity_of_qubitReport product lt made
    obtain ⟨-, upper, distance⟩ := qubitReport_mem_ball normalized lt made
    exact ⟨o, here, number, pure, (BlochVector.norm_of_purity upper distance).2.2 pure⟩

end Timeline

/-- **No false alarm.** A circuit of one-qubit gates, exchanges, measurements and barriers runs from
all bits zero through tensor products of one-qubit states. Under any configuration every report of
them says that no step suggests entanglement and that each qubit has purity one and a point on the
unit sphere. The run exists, and so does its timeline under a valid configuration. -/
theorem Circuit.run_product {c : Circuit ℝ}
    (plain : ∀ g qubits, .gate g qubits ∈ c.operations → g.arity = 1 ∨ g = .swap) (tolerance : ℝ) :
    (c.Reachable → 0 < c.qubits → c.qubits ≤ StateVector.maxQubits →
      ∃ φs, trajectory tolerance c none = .ok φs) ∧
    ∀ φs, trajectory tolerance c none = .ok φs → φs.length = c.gateCount + 1 ∧
      (∀ φ ∈ φs, φ.qubits = c.qubits ∧ φ.IsProduct) ∧
      ∀ [Spectral ℝ] (config : Config ℝ),
        (Spectral.Exact → config.validate = .ok () →
          ∃ t, Timeline.assemble config c.qubits φs = .ok t) ∧
        ∀ t, Timeline.assemble config c.qubits φs = .ok t → t.steps.length = φs.length ∧
          ∀ step ∈ t.steps, step.metrics.isEntangled = false ∧ step.qubits.length = c.qubits ∧
            ∀ q < c.qubits, ∃ o, step.qubits[q]? = some o ∧ o.qubit = q ∧ o.purity = 1 ∧
              o.bloch.norm = 1 := by
  constructor
  · intro reachable positive small
    obtain ⟨φs, run, -⟩ :=
      Evolution.exists_normalized_trajectory reachable positive small tolerance
    exact ⟨φs, run⟩
  · intro φs run
    obtain ⟨length, normalized⟩ := Evolution.normalized_of_trajectory run
    have products := Evolution.product_of_trajectory plain run
    refine ⟨length, fun φ listed => ⟨(normalized φ listed).1, products φ listed⟩,
      fun config => ⟨?_, ?_⟩⟩
    · intro exact valid
      exact Timeline.exists_assemble_of_trajectory exact valid run
    · intro t assembled
      refine ⟨Timeline.length_steps assembled, fun step mem => ?_⟩
      obtain ⟨ψ, listed, k, reported⟩ := Timeline.exists_report_of_mem assembled mem
      exact Timeline.report_of_product (products ψ listed) (normalized ψ listed).2 reported

/-- Two rotated qubits that change places, and a measurement. -/
theorem Circuit.run_product_exchanged :
    let _ := Spectral.ofRoots
    let c : Circuit ℝ := ⟨3, [.gate .h [0], .gate (.u 1 2 3) [2], .gate .swap [2, 0], .measure 1 0]⟩
    ∃ φs t, trajectory 0 c none = .ok φs ∧ (∀ φ ∈ φs, φ.IsProduct) ∧
      Timeline.assemble .default 3 φs = .ok t ∧ t.steps.length = 4 ∧
      ∀ step ∈ t.steps, step.metrics.isEntangled = false := by
  intro _ c
  have built : Circuit.build 3
      [.gate .h [0], .gate (.u 1 2 3) [2], .gate .swap [2, 0], .measure 1 0] = .ok c := rfl
  have plain : ∀ g qubits, .gate g qubits ∈ c.operations → g.arity = 1 ∨ g = .swap := by
    intro g qubits listed
    simp only [c, List.mem_cons, Operation.gate.injEq, reduceCtorEq, List.not_mem_nil, or_false]
      at listed
    rcases listed with ⟨rfl, -⟩ | ⟨rfl, -⟩ | ⟨rfl, -⟩
    · exact .inl rfl
    · exact .inl rfl
    · exact .inr rfl
  obtain ⟨runs, products⟩ := run_product plain 0
  obtain ⟨φs, run⟩ := runs (Circuit.reachable_of_build built) (show 0 < 3 by decide)
    (show 3 ≤ 63 by decide)
  obtain ⟨length, factored, reports⟩ := products φs run
  obtain ⟨t, assembled⟩ := (reports .default).1 Spectral.exact_ofRoots validate_default
  obtain ⟨steps, calm⟩ := (reports .default).2 t assembled
  exact ⟨φs, t, run, fun φ listed => (factored φ listed).2, assembled, steps.trans length,
    fun step mem => (calm step mem).1⟩

end QubitTrace
