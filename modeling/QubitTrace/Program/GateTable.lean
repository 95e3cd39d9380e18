import QubitTrace.Gate
import QubitTrace.Scalar

/-! # Gate names

The gates a program can name, with the number of angles each name takes. Some names are
synonyms, and `u2` stands for a generic rotation by a quarter turn.
-/

namespace QubitTrace.Program
set_option autoImplicit false

/-- A gate that still lacks its angles. -/
inductive Template (K : Type) where
  | fixed (gate : Gate K)
  | one (gate : K → Gate K)
  | two (gate : K → K → Gate K)
  | three (gate : K → K → K → Gate K)

namespace Template

variable {K : Type}

/-- The number of angles to supply. -/
def parameters : Template K → Nat
  | fixed _ => 0
  | one _ => 1
  | two _ => 2
  | three _ => 3

/-- The gate with the given angles, if their number is right. -/
def withAngles? : Template K → List K → Option (Gate K)
  | fixed gate, [] => some gate
  | one gate, [a] => some (gate a)
  | two gate, [a, b] => some (gate a b)
  | three gate, [a, b, c] => some (gate a b c)
  | _, _ => none

/-- The template of a gate name. -/
def ofName? [Scalar K] (name : String) : Option (Template K) :=
  match name with
  | "id" | "i" => some (fixed .id)
  | "h" => some (fixed .h)
  | "x" => some (fixed .x)
  | "y" => some (fixed .y)
  | "z" => some (fixed .z)
  | "s" => some (fixed .s)
  | "sdg" => some (fixed .sdg)
  | "t" => some (fixed .t)
  | "tdg" => some (fixed .tdg)
  | "sx" => some (fixed .sx)
  | "sxdg" => some (fixed .sxdg)
  | "rx" => some (one .rx)
  | "ry" => some (one .ry)
  | "rz" => some (one .rz)
  | "p" | "u1" => some (one .phase)
  | "u2" => some (two (.u (Scalar.half Scalar.pi)))
  | "u" | "u3" | "U" => some (three .u)
  | "cx" | "CX" | "cnot" => some (fixed .cx)
  | "cy" => some (fixed .cy)
  | "cz" => some (fixed .cz)
  | "ch" => some (fixed .ch)
  | "cp" | "cu1" => some (one .cphase)
  | "crx" => some (one .crx)
  | "cry" => some (one .cry)
  | "crz" => some (one .crz)
  | "swap" => some (fixed .swap)
  | _ => none

end Template

end QubitTrace.Program
