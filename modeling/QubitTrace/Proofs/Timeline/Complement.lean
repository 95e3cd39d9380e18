import Mathlib
import QubitTrace.Proofs.Timeline.Ball

/-! # Complementary reductions

Between two shares of the register a pure state is a matrix of amplitudes (`StateVector.across`),
and between the shares in the other order it is the transposed matrix. What a partial trace leaves
on a share is this matrix times its adjoint (`exists_partialTrace_across`). A trace stays the same
when the factors go around, so either share has the purity of the other.
-/

namespace QubitTrace
set_option autoImplicit false

open QubitTrace.Basis
open scoped Matrix

/-- The square of a matrix times its adjoint has the trace of that of the transposed matrix. -/
theorem trace_gram_transpose {m e R : Type} [Fintype m] [Fintype e] [CommRing R] [StarRing R]
    (A : Matrix m e R) :
    (Aᵀ * Aᵀᴴ * (Aᵀ * Aᵀᴴ)).trace = (A * Aᴴ * (A * Aᴴ)).trace := by
  have turned : Aᵀ * Aᵀᴴ = (Aᴴ * A)ᵀ := (Matrix.transpose_mul Aᴴ A).symm
  calc (Aᵀ * Aᵀᴴ * (Aᵀ * Aᵀᴴ)).trace
      = (Aᴴ * A * (Aᴴ * A))ᵀ.trace := by rw [turned, ← Matrix.transpose_mul]
    _ = (Aᴴ * (A * Aᴴ * A)).trace := by
      rw [Matrix.trace_transpose, Matrix.mul_assoc, Matrix.mul_assoc]
    _ = (A * Aᴴ * (A * Aᴴ)).trace := by rw [Matrix.trace_mul_comm, Matrix.mul_assoc (A * Aᴴ)]

/-- The amplitudes of a state by the index of the first share and that of the second. -/
def StateVector.across (ψ : StateVector ℝ) {P R : List Nat} (shares : Shares ψ.qubits P R) :
    Matrix (Fin (dimension P.length)) (Fin (dimension R.length)) (Complex ℝ) :=
  .of fun a b => ψ.column (shares.split.symm (a, b))

theorem StateVector.across_symm (ψ : StateVector ℝ) {P R : List Nat}
    (shares : Shares ψ.qubits P R) : ψ.across shares.symm = (ψ.across shares)ᵀ := by
  refine Matrix.ext fun b a => ?_
  have turn : shares.symm.split.symm (b, a) = shares.split.symm (a, b) := Fin.ext (join_comm R P b a)
  simp only [across, Matrix.transpose_apply, Matrix.of_apply, turn]

namespace DensityOperator

variable {ψ : StateVector ℝ} {gone rest P R : List Nat}

theorem traceRight_ofState (shares : Shares ψ.qubits P R) :
    traceRight (((ofState ψ).toMatrix (dimension ψ.qubits)).submatrix shares.split.symm
      shares.split.symm) = ψ.across shares * (ψ.across shares)ᴴ := by
  rw [toMatrix_ofState]
  rfl

/-- A partial trace leaves the amplitudes across the cut times their adjoint. -/
theorem exists_partialTrace_across (shares : Shares ψ.qubits P R)
    (traceable : Traceable ψ.qubits gone) (left : P = kept ψ.qubits gone)
    (right : R = traced ψ.qubits gone) :
    ∃ σ, (ofState ψ).partialTrace gone = .ok σ ∧ σ.qubits = P.length ∧
      σ.toMatrix (dimension P.length) = ψ.across shares * (ψ.across shares)ᴴ := by
  subst left right
  obtain ⟨σ, traced, sized, matrix⟩ := exists_partialTrace (ρ := ofState ψ) rfl traceable
  exact ⟨σ, traced, sized, matrix.trans (traceRight_ofState shares)⟩

/-- The purity of what remains on a share, by the amplitudes across the cut. -/
theorem purity_across (shares : Shares ψ.qubits P R) {σ : DensityOperator ℝ}
    (sized : σ.qubits = P.length)
    (matrix : σ.toMatrix (dimension P.length) = ψ.across shares * (ψ.across shares)ᴴ) :
    Observable.purity σ = (ψ.across shares * (ψ.across shares)ᴴ *
      (ψ.across shares * (ψ.across shares)ᴴ)).trace.re := by
  have dim : σ.dim = dimension P.length := congrArg dimension sized
  rw [Observable.purity_eq_trace, dim, matrix]

theorem traceable_of_shares {n : Nat} (shares : Shares n gone rest) (some : rest ≠ []) :
    Traceable n gone where
  distinct := shares.left_nodup
  range _ mem := shares.lt_of_mem mem
  remains := by
    have := shares.length_add
    have := List.length_pos_iff.2 some
    omega

/-- What one of two shares keeps is what the other gives away. -/
theorem kept_eq_traced {n : Nat} (shares : Shares n gone rest) : kept n gone = traced n rest := by
  refine List.filter_congr fun q mem => ?_
  have placed := shares.mem_iff.2 (List.mem_range.1 mem)
  by_cases left : q ∈ gone
  · simp [left, shares.disjoint left]
  · simp [left, placed.resolve_left left]

/-- Giving away either of two shares of a pure state leaves operators of the same purity. -/
theorem exists_partialTrace_complement (shares : Shares ψ.qubits gone rest) (some : gone ≠ [])
    (remains : rest ≠ []) :
    ∃ σ τ, (ofState ψ).partialTrace gone = .ok σ ∧ (ofState ψ).partialTrace rest = .ok τ ∧
      σ.qubits = rest.length ∧ τ.qubits = gone.length ∧
      Observable.purity σ = Observable.purity τ := by
  have cut := shares_kept ψ.qubits gone
  have taken : kept ψ.qubits gone = traced ψ.qubits rest := kept_eq_traced shares
  have left : traced ψ.qubits gone = kept ψ.qubits rest := (kept_eq_traced shares.symm).symm
  have traceable := traceable_of_shares shares remains
  have traceable' := traceable_of_shares shares.symm some
  obtain ⟨σ, before, sized, matrix⟩ := exists_partialTrace_across cut traceable rfl rfl
  obtain ⟨τ, after, sized', matrix'⟩ := exists_partialTrace_across cut.symm traceable' left taken
  refine ⟨σ, τ, before, after, ?_, ?_, ?_⟩
  · rw [sized, taken, length_traced traceable'.distinct traceable'.range]
  · rw [sized', length_traced traceable.distinct traceable.range]
  · rw [purity_across cut sized matrix, purity_across cut.symm sized' matrix',
      ψ.across_symm cut, trace_gram_transpose]

/-- Of two qubits each is what remains when the other is given away. -/
theorem exists_reduceToQubit_pair {ψ : StateVector ℝ} (two : ψ.qubits = 2) :
    ∃ σ τ, (ofState ψ).reduceToQubit 0 = .ok σ ∧ (ofState ψ).reduceToQubit 1 = .ok τ ∧
      Observable.purity σ = Observable.purity τ := by
  have shares : Shares ψ.qubits [1] [0] := by
    rw [two]
    exact List.Perm.swap 0 1 []
  obtain ⟨σ, τ, first, second, -, -, same⟩ := exists_partialTrace_complement shares nofun nofun
  have size : (ofState ψ).qubits = 2 := two
  have reduced {q : Nat} (lt : q < 2) : (ofState ψ).reduceToQubit q =
      (ofState ψ).partialTrace ((List.range 2).filter (· ≠ q)) := by
    rw [reduceToQubit_eq (lt.trans_eq size.symm), size]
  exact ⟨σ, τ, (reduced (show 0 < 2 by decide)).trans first,
    (reduced (show 1 < 2 by decide)).trans second, same⟩

end DensityOperator

/-- The report of two qubits says of both the same purity. -/
theorem Timeline.purity_pair_of_report [Spectral ℝ] {config : Config ℝ} {number : Nat}
    {ψ : StateVector ℝ} {step : Step ℝ} (reported : report config 2 number ψ = .ok step) :
    ∃ a b, step.qubits = [a, b] ∧ a.qubit = 0 ∧ b.qubit = 1 ∧ a.purity = b.purity := by
  have two : ψ.qubits = 2 := (report_eq_ok reported).1
  obtain ⟨σ, τ, first, second, same⟩ := DensityOperator.exists_reduceToQubit_pair two
  have figures {q : Nat} (lt : q < 2) {ρ : DensityOperator ℝ}
      (reduced : (DensityOperator.ofState ψ).reduceToQubit q = .ok ρ) :
      ∃ o, step.qubits[q]? = some o ∧ o.qubit = q ∧ o.purity = Observable.purity ρ := by
    obtain ⟨o, here, label, made⟩ := exists_qubit_of_report reported lt
    obtain ⟨ρ', reduced', observed⟩ := qubitReport_eq_ok made
    cases reduced.symm.trans reduced'
    exact ⟨o, here, label, (QubitObservables.ofReduced_eq_ok observed).2.2.1⟩
  obtain ⟨a, here, zero, purity⟩ := figures (show 0 < 2 by decide) first
  obtain ⟨b, here', one, purity'⟩ := figures (show 1 < 2 by decide) second
  have pair : step.qubits = [a, b] := by
    obtain ⟨a', b', whole⟩ := List.length_eq_two.1 (length_qubits reported)
    rw [whole] at here here' ⊢
    cases here
    cases here'
    rfl
  exact ⟨a, b, pair, zero, one, by rw [purity, purity', same]⟩

/-- **Complementary shares are equally pure.** When the qubits of a pure state, normalized or not,
are shared out in two lists, neither of them empty, then either list can be traced out in the order
in which it is given, and the operators that remain have the same purity. So in every step of a run
of two qubits both report the same purity; such runs exist. -/
theorem Observable.purity_complement :
    (∀ (ψ : StateVector ℝ) (gone rest : List Nat), Shares ψ.qubits gone rest → gone ≠ [] →
      rest ≠ [] → ∃ σ τ, (DensityOperator.ofState ψ).partialTrace gone = .ok σ ∧
        (DensityOperator.ofState ψ).partialTrace rest = .ok τ ∧ σ.qubits = rest.length ∧
        τ.qubits = gone.length ∧ purity σ = purity τ) ∧
    ∀ [Spectral ℝ] (s : Simulator ℝ) (c : Circuit ℝ), c.qubits = 2 →
      (Spectral.Exact → s.config.validate = .ok () → c.Reachable → 2 ≤ s.config.maxQubits →
        ∃ t, s.run c = .ok t) ∧
      ∀ t, s.run c = .ok t → t.steps.length = c.gateCount + 1 ∧ ∀ step ∈ t.steps,
        ∃ a b, step.qubits = [a, b] ∧ a.qubit = 0 ∧ b.qubit = 1 ∧ a.purity = b.purity := by
  constructor
  · intro ψ gone rest shares some remains
    exact DensityOperator.exists_partialTrace_complement shares some remains
  · intro _ s c two
    constructor
    · intro exact valid reachable fits
      have positive : 0 < c.qubits := two ▸ Nat.two_pos
      obtain ⟨t, ran, -⟩ :=
        Simulator.exists_run exact valid reachable positive (two.trans_le fits)
      exact ⟨t, ran⟩
    · intro t ran
      obtain ⟨φs, run, assembled⟩ := Simulator.run_eq_ok ran
      obtain ⟨length, -⟩ := Evolution.normalized_of_trajectory run
      refine ⟨(Timeline.length_steps assembled).trans length, fun step mem => ?_⟩
      obtain ⟨ψ, -, k, reported⟩ := Timeline.exists_report_of_mem assembled mem
      rw [two] at reported
      exact Timeline.purity_pair_of_report reported

/-- The middle qubit of three against the outer ones, listed in descending order, and a pair of
entangled qubits under the default configuration. -/
theorem Observable.purity_complement_entangled :
    let _ := Spectral.ofRoots
    let ψ : StateVector ℝ := ⟨3, by decide, .ofFn fun i => if i.val = 2 ∨ i.val = 5 then 1 else 0⟩
    let c : Circuit ℝ := ⟨2, [.gate (.ry 1) [1], .gate .cx [1, 0], .measure 0 0]⟩
    (∃ σ τ, (DensityOperator.ofState ψ).partialTrace [2, 0] = .ok σ ∧
      (DensityOperator.ofState ψ).partialTrace [1] = .ok τ ∧ σ.qubits = 1 ∧ τ.qubits = 2 ∧
      purity σ = purity τ) ∧
    ∃ t, (Simulator.default : Simulator ℝ).run c = .ok t ∧ t.steps.length = 3 ∧ ∀ step ∈ t.steps,
      ∃ a b, step.qubits = [a, b] ∧ a.purity = b.purity := by
  intro _ ψ c
  obtain ⟨complements, pairs⟩ := purity_complement
  constructor
  · have shares : Shares 3 [2, 0] [1] := show ([2, 0] ++ [1]).Perm (List.range 3) by decide
    exact complements ψ [2, 0] [1] shares nofun nofun
  · have built : Circuit.build 2 [.gate (.ry 1) [1], .gate .cx [1, 0], .measure 0 0] = .ok c := rfl
    obtain ⟨runs, reports⟩ := pairs .default c rfl
    obtain ⟨t, ran⟩ := runs Spectral.exact_ofRoots validate_default
      (Circuit.reachable_of_build built) (show 2 ≤ 10 by decide)
    obtain ⟨length, steps⟩ := reports t ran
    refine ⟨t, ran, length, fun step mem => ?_⟩
    obtain ⟨a, b, pair, -, -, same⟩ := steps step mem
    exact ⟨a, b, pair, same⟩

end QubitTrace
