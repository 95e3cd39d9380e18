import QubitTrace.Scalar

/-! # Double-precision scalars

`Float` as the scalars of a running simulation. A double is taken apart into a
sign, a natural significand and a power of two (`Dyadic.ofFloat`), which is what
reading, printing and the length of a two-component vector compute on.
-/

namespace QubitTrace
set_option autoImplicit false

/-- A double taken apart. -/
inductive Dyadic where
  /-- The number `m * 2 ^ q`, or its negative. -/
  | finite (negative : Bool) (m : Nat) (q : Int)
  | infinite (negative : Bool)
  | notANumber
  deriving DecidableEq, Repr

namespace Dyadic

/-- Splits the bits of a double into sign (1), exponent (11) and fraction (52). -/
def ofBits (bits : Nat) : Dyadic :=
  let negative := bits >>> 63 % 2 == 1
  let exponent : Nat := bits >>> 52 % 1 <<< 11
  let fraction : Nat := bits % 1 <<< 52
  if exponent = 2047 then
    if fraction = 0 then .infinite negative else .notANumber
  else if exponent = 0 then .finite negative fraction (-1074)
  else .finite negative (1 <<< 52 + fraction) ((exponent : Int) - 1075)

def ofFloat (x : Float) : Dyadic := ofBits x.toBits.toNat

end Dyadic

namespace Double

def infinity : Float := 1 / 0

def notANumber : Float := 0 / 0

/--
The double nearest to `m * 10 ^ e`. The two guards answer directly where the value is
certainly above the largest double or below half the smallest one, so no power of ten
beyond the range of the format is ever formed.
-/
def ofDecimal (m : Nat) (e : Int) : Float :=
  if m = 0 ∨ (Nat.log2 m : Int) + 1 + 3 * e < -1100 then 0
  else if 400 < e then infinity
  else Float.ofScientific m (decide (e < 0)) e.natAbs

/-- The integer part of the square root, one binary digit at a time from the highest. -/
def squareRoot (n : Nat) : Nat :=
  (List.range (Nat.log2 n / 2 + 1)).foldr
    (fun _ (state : Nat × Nat) =>
      let candidate := state.1 + 1 <<< state.2
      (if candidate * candidate ≤ n then candidate else state.1, state.2 - 1))
    (0, Nat.log2 n / 2) |>.1

/--
The square root of `x * x + y * y`, rounded once: the sum of squares is formed exactly on
a common power of two, and a last bit marks an inexact integer root.
-/
def hypot (x y : Float) : Float :=
  match Dyadic.ofFloat x, Dyadic.ofFloat y with
  | .infinite _, _ => infinity
  | _, .infinite _ => infinity
  | .notANumber, _ => notANumber
  | _, .notANumber => notANumber
  | .finite _ m q, .finite _ n r =>
    if m = 0 then y.abs
    else if n = 0 then x.abs
    else
      let low := min q r
      let a := m <<< (q - low).toNat
      let b := n <<< (r - low).toNat
      let square := (a * a + b * b) <<< 128
      let root := squareRoot square
      let sticky := if root * root = square then 0 else 1
      (Float.ofNat (2 * root + sticky)).scaleB (low - 65)

end Double

instance : Scalar Float where
  zero := 0
  one := 1
  add := Float.add
  sub := Float.sub
  mul := Float.mul
  div := Float.div
  neg := Float.neg
  natCast := Float.ofNat
  lt x y := x < y
  le x y := x ≤ y
  beq := Float.beq
  decideLT := Float.decLt
  decideLE := Float.decLe
  ofDecimal := Double.ofDecimal
  pi := 3.141592653589793
  sqrt := Float.sqrt
  hypot := Double.hypot
  sin := Float.sin
  cos := Float.cos
  log2 := Float.log2

end QubitTrace
