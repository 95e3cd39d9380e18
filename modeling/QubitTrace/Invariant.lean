import QubitTrace.Observable

/-! # Physical invariants

Checks that a state is normalized and that an operator is the density operator of a state.
Each check reports a deviation beyond its tolerance and changes nothing.
-/

namespace QubitTrace
set_option autoImplicit false

/-- A physical invariant that does not hold. -/
inductive InvariantFault (K : Type) where
  /-- The squared norm of a state is not one. -/
  | norm (normSq tolerance : K)
  /-- An entry is not the conjugate of its mirror image. -/
  | hermitian (row col : Nat) (deviation : K)
  | trace (trace : Complex K) (tolerance : K)
  | negativeEigenvalue (eigenvalue : K)
  | purity (purity lower : K) (dim : Nat)

namespace Invariant

variable {K : Type} [Scalar K]

/-- The squared norm of a state is one. -/
def normalized (ψ : StateVector K) (tolerance : K) : Except (InvariantFault K) Unit :=
  if ψ.deviates tolerance then .error (.norm ψ.normSq tolerance) else .ok ()

/-- How far an entry is from the conjugate of its mirror image. -/
def asymmetry (ρ : DensityOperator K) (r c : Nat) : K :=
  (ρ.entry r c - (ρ.entry c r).conj).norm

/-- An operator is its own adjoint; the upper triangle is compared, row by row. -/
def hermitian (ρ : DensityOperator K) (tolerance : K) : Except (InvariantFault K) Unit :=
  let fault? := (List.range ρ.dim).findSome? fun r =>
    (List.range' r (ρ.dim - r)).findSome? fun c =>
      let deviation := asymmetry ρ r c
      if tolerance < deviation then some (InvariantFault.hermitian r c deviation) else none
  match fault? with
  | some fault => .error fault
  | none => .ok ()

/-- The trace of an operator is one. -/
def unitTrace (ρ : DensityOperator K) (tolerance : K) : Except (InvariantFault K) Unit :=
  let t := ρ.trace
  if tolerance < Scalar.abs (t.re - 1) ∨ tolerance < Scalar.abs t.im then
    .error (.trace t tolerance)
  else .ok ()

/-- An operator is its own adjoint and has trace one. -/
def density (ρ : DensityOperator K) (tolerance : K) : Except (InvariantFault K) Unit := do
  hermitian ρ tolerance
  unitTrace ρ tolerance

/-- No eigenvalue of an operator is negative. -/
def positive [Spectral K] (ρ : DensityOperator K) (tolerance : K) :
    Except (InvariantFault K) Unit :=
  match (Spectral.eigenvalues ρ.entries).find? (· < -tolerance) with
  | some eigenvalue => .error (.negativeEigenvalue eigenvalue)
  | none => .ok ()

/-- The least tolerance of a purity. -/
def leastPurityTolerance : K := Scalar.ofDecimal 1 (-12)

/-- A purity lies between the inverse of the dimension and one. -/
def purityBounds (purity : K) (dim : Nat) (tolerance : K) : Except (InvariantFault K) Unit :=
  let slack := Scalar.atLeast leastPurityTolerance tolerance
  let lower := 1 / (dim : K)
  if purity < lower - slack ∨ 1 + slack < purity then .error (.purity purity lower dim)
  else .ok ()

end Invariant

end QubitTrace
