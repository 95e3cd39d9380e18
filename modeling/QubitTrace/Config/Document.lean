import QubitTrace.Config
import QubitTrace.Toml.Reader

/-! # Configuration documents

A configuration may be written as a TOML document. Settings that are missing keep their
defaults, other keys are ignored, and the result must keep the bounds of a configuration.
-/

namespace QubitTrace.Config
set_option autoImplicit false

open Toml (Value)

/-- A mode: its name, or a table that holds nothing but an empty table or array under that name. -/
def modeOf? : Value → Option ParseMode
  | .string name => ParseMode.ofName? name
  | .table [(name, .table [])] | .table [(name, .array [])] => ParseMode.ofName? name
  | _ => none

/-- A float or an integer. -/
def toleranceOf? : Value → Option Float
  | .float x => some x
  | .integer n => some (Float.ofInt n)
  | _ => none

/-- An integer that is not negative. -/
def sizeOf? : Value → Option Nat
  | .integer n => if 0 ≤ n then some n.toNat else none
  | _ => none

def flagOf? : Value → Option Bool
  | .boolean b => some b
  | _ => none

/-- The setting under a key, or `absent` where the key is missing. -/
def setting {α : Type} (entries : List (String × Value)) (key : String) (absent : α)
    (read : Value → Option α) : Option α :=
  match entries.find? (·.1 == key) with
  | some (_, v) => read v
  | none => some absent

/-- The settings of a root table. -/
def ofEntries? (entries : List (String × Value)) : Option (Config Float) := do
  let start : Config Float := Config.default
  return {
    mode := ← setting entries "parse_mode" start.mode modeOf?
    normTolerance := ← setting entries ToleranceField.norm.key start.normTolerance toleranceOf?
    hermitianTolerance :=
      ← setting entries ToleranceField.hermitian.key start.hermitianTolerance toleranceOf?
    maxQubits := ← setting entries "max_qubits" start.maxQubits sizeOf?
    validateSnapshots := ← setting entries "validate_snapshots" start.validateSnapshots flagOf? }

/-- The configuration of a document, checked. -/
def ofDocument (source : String) : Except (ConfigFault Float) (Config Float) :=
  match (Toml.parse source.toList).bind ofEntries? with
  | none => .error .document
  | some config => do
    config.validate
    return config

end QubitTrace.Config
