import QubitTrace.Decimal.Places
import QubitTrace.Scalar

/-! # Bloch vectors

Points of the Bloch ball: the expectation values of the three Pauli operators on one qubit.
Pure states lie on the unit sphere and mixed ones inside it. `Bloch.path` joins two points
for an animation.
-/

namespace QubitTrace
set_option autoImplicit false

/-- A point of the Bloch ball. -/
structure BlochVector (K : Type) where
  x : K
  y : K
  z : K
  deriving BEq, Repr

namespace BlochVector

variable {K : Type}

def toList (v : BlochVector K) : List K := [v.x, v.y, v.z]

variable [Scalar K]

/-- The distance from the centre. -/
def norm (v : BlochVector K) : K := Scalar.sqrt (v.x * v.x + v.y * v.y + v.z * v.z)

/-- The distance between two points. -/
def distance (v w : BlochVector K) : K := norm ⟨v.x - w.x, v.y - w.y, v.z - w.z⟩

/-- The point of the unit sphere in the same direction; the centre stays where it is. -/
def normalized (v : BlochVector K) : BlochVector K :=
  if v.norm == 0 then v else ⟨v.x / v.norm, v.y / v.norm, v.z / v.norm⟩

/-- The point at the share `t` of the way from `v` to `w`. -/
def between (v w : BlochVector K) (t : K) : BlochVector K :=
  ⟨v.x + (w.x - v.x) * t, v.y + (w.y - v.y) * t, v.z + (w.z - v.z) * t⟩

/--
Evenly spaced points of the segment from `start` to `stop`, each moved out to the unit
sphere; a single point is the start.
-/
def path (start stop : BlochVector K) : (points : Nat) → List (BlochVector K)
  | 0 => []
  | 1 => [start.normalized]
  | last + 2 =>
    (List.range (last + 2)).map fun (i : Nat) =>
      (start.between stop ((i : K) / ((last + 1 : Nat) : K))).normalized

/-- The coordinates to four places. -/
def text (v : BlochVector Float) : String :=
  "(" ++ String.intercalate ", " (v.toList.map (Decimal.fixed .minus 4)) ++ ")"

end BlochVector

end QubitTrace
