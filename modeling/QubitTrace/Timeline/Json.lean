import QubitTrace.Json.Value
import QubitTrace.Timeline

/-! # Timelines as JSON

A timeline is an array of steps; the number of qubits and the final state stay behind. A
number that is not finite is written as null. What was written is read back from records
with named fields, or from arrays that list the fields in order.
-/

namespace QubitTrace
set_option autoImplicit false

open Json (Number Sizes Reals)

variable {K : Type} [Scalar K]

/-- A scalar, or null for one that is not finite. -/
def Json.real (x : K) : Json (Number K) := if Scalar.isFinite x then .number (.real x) else .null

namespace BlochVector

/-- The coordinates in a row. -/
def toJson (v : BlochVector K) : Json (Number K) := .array (v.toList.map Json.real)

def ofJson? {N : Type} [Reals N K] (j : Json N) : Option (BlochVector K) := do
  match ← j.array? with
  | [x, y, z] => return ⟨← x.real?, ← y.real?, ← z.real?⟩
  | _ => none

end BlochVector

namespace QubitObservables

def toJson (q : QubitObservables K) : Json (Number K) :=
  .object [("qubit", Json.size q.qubit), ("bloch_coordinates", q.bloch.toJson),
    ("entropy", Json.real q.entropy), ("purity", Json.real q.purity), ("is_pure", .bool q.isPure)]

/-- The fields of a qubit's report. -/
def keys : List String := ["qubit", "bloch_coordinates", "entropy", "purity", "is_pure"]

def ofJson? {N : Type} [Sizes N] [Reals N K] (j : Json N) : Option (QubitObservables K) := do
  match ← j.record? keys with
  | [qubit, bloch, entropy, purity, isPure] =>
    return ⟨← qubit.size?, ← BlochVector.ofJson? bloch, ← entropy.real?, ← purity.real?,
      ← isPure.bool?⟩
  | _ => none

end QubitObservables

namespace SubsystemObservables

/-- The coordinates are left out where there are none. -/
def toJson (o : SubsystemObservables K) : Json (Number K) :=
  .object <| [("remaining_qubits", .array (o.remaining.map Json.size)),
    ("purity", Json.real o.purity), ("entropy", Json.real o.entropy), ("is_pure", .bool o.isPure)]
    ++ match o.bloch with
      | some v => [("bloch_coordinates", v.toJson)]
      | none => []

end SubsystemObservables

namespace SystemMetrics

def toJson (m : SystemMetrics K) : Json (Number K) :=
  .object [("full_system_entropy", Json.real m.entropy),
    ("full_system_purity", Json.real m.purity), ("fidelity", Json.real m.fidelity),
    ("is_entangled", .bool m.isEntangled), ("max_qubit_entropy", Json.real m.maxQubitEntropy)]

/-- The fields of the figures of a register. -/
def keys : List String :=
  ["full_system_entropy", "full_system_purity", "fidelity", "is_entangled", "max_qubit_entropy"]

def ofJson? {N : Type} [Reals N K] (j : Json N) : Option (SystemMetrics K) := do
  match ← j.record? keys with
  | [entropy, purity, fidelity, isEntangled, maxQubitEntropy] =>
    return ⟨← entropy.real?, ← purity.real?, ← fidelity.real?, ← isEntangled.bool?,
      ← maxQubitEntropy.real?⟩
  | _ => none

end SystemMetrics

namespace Step

def toJson (s : Step K) : Json (Number K) :=
  .object [("step", Json.size s.number),
    ("bloch_spheres", .array (s.qubits.map QubitObservables.toJson)),
    ("metrics", s.metrics.toJson)]

/-- The fields of a step. -/
def keys : List String := ["step", "bloch_spheres", "metrics"]

def ofJson? {N : Type} [Sizes N] [Reals N K] (j : Json N) : Option (Step K) := do
  match ← j.record? keys with
  | [number, qubits, metrics] =>
    return ⟨← number.size?, ← (← qubits.array?).mapM QubitObservables.ofJson?,
      ← SystemMetrics.ofJson? metrics⟩
  | _ => none

end Step

namespace Timeline

def toJson (t : Timeline K) : Json (Number K) := .array (t.steps.map Step.toJson)

/-- A timeline of which the number of qubits and the final state are not known. -/
def ofJson? {N : Type} [Sizes N] [Reals N K] (j : Json N) : Option (Timeline K) := do
  return ⟨0, ← (← j.array?).mapM Step.ofJson?, none⟩

end Timeline

end QubitTrace
