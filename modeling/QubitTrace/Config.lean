import QubitTrace.Circuit.Words

/-! # Configuration

The settings of a simulator and the bounds they must keep.
-/

namespace QubitTrace
set_option autoImplicit false

/-- The settings of a simulator. -/
structure Config (K : Type) where
  /-- What becomes of unknown gate names. -/
  mode : ParseMode
  /-- How far a squared norm may be from one. -/
  normTolerance : K
  /-- How far an operator may be from its adjoint, and an expectation value from a real one. -/
  hermitianTolerance : K
  /-- The largest register to be simulated. -/
  maxQubits : Nat
  /-- Whether every state of a run is checked. -/
  validateSnapshots : Bool
  deriving Repr

/-- The tolerances of a configuration. -/
inductive ToleranceField where
  | norm
  | hermitian
  deriving DecidableEq, Repr

/-- The key of a tolerance in a configuration document. -/
def ToleranceField.key : ToleranceField → String
  | .norm => "norm_tolerance"
  | .hermitian => "hermitian_tolerance"

/-- Why a configuration is refused. -/
inductive ConfigFault (K : Type) where
  /-- The document is not well formed, or a setting has the wrong type. -/
  | document
  | notPositive (field : ToleranceField) (value : K)
  | maxQubits (value : Nat)

namespace Config

variable {K : Type} [Scalar K]

/-- The largest register any configuration may allow. -/
def ceiling : Nat := 12

/-- The settings where nothing else is said. -/
def default : Config K where
  mode := .permissive
  normTolerance := Scalar.ofDecimal 1 (-9)
  hermitianTolerance := Scalar.ofDecimal 1 (-9)
  maxQubits := 10
  validateSnapshots := true

/-- A tolerance is a positive number. -/
def checkTolerance (field : ToleranceField) (value : K) : Except (ConfigFault K) Unit :=
  if Scalar.isFinite value ∧ 0 < value then .ok () else .error (.notPositive field value)

/-- Tolerances are positive numbers, and registers have from one qubit to the ceiling. -/
def validate (c : Config K) : Except (ConfigFault K) Unit := do
  checkTolerance .norm c.normTolerance
  checkTolerance .hermitian c.hermitianTolerance
  if c.maxQubits = 0 ∨ ceiling < c.maxQubits then .error (.maxQubits c.maxQubits) else .ok ()

end Config

end QubitTrace
