import QubitTrace.Decimal.Places

/-! # The fewest digits that read back

A double is written with the fewest significant digits that still single it out among the
doubles, and of those nearest to its value. The numbers nearer to it than to its
neighbours form an interval around it; for each digit count the two grid points beside the
value are the only ones to try.
-/

namespace QubitTrace.Decimal
set_option autoImplicit false

/--
The decimals that round to a double: between `lower` and `upper` times `2 ^ scale`, the
ends included when `closed`.
-/
structure Interval where
  lower : Nat
  upper : Nat
  scale : Int
  closed : Bool

namespace Interval

/--
The interval of `m * 2 ^ q`. Below a power of two the neighbour is only half as far away,
except at the least exponent; a tie is read as the even significand.
-/
def around (m : Nat) (q : Int) : Interval where
  lower := if m = 1 <<< 52 ∧ -1074 < q then 4 * m - 1 else 4 * m - 2
  upper := 4 * m + 2
  scale := q - 2
  closed := m % 2 == 0

/-- Whether `n * 10 ^ k` lies in the interval. -/
def holds (i : Interval) (n : Nat) (k : Int) : Bool :=
  let (low, den) := ratio i.lower i.scale (-k)
  let (high, _) := ratio i.upper i.scale (-k)
  if i.closed then low ≤ n * den && n * den ≤ high else low < n * den && n * den < high

end Interval

/--
The best decimal for `m * 2 ^ q` on the grid of multiples of `10 ^ k`: the nearer of the
two grid points beside the value that read back, of two equally near ones the larger.
-/
def onGrid (m : Nat) (q k : Int) : Option Nat :=
  let interval := Interval.around m q
  let (num, den) := ratio m q (-k)
  let n := num / den
  let nearer := if 2 * (num % den) < den then n else n + 1
  let farther := if 2 * (num % den) < den then n + 1 else n
  if interval.holds nearer k then some nearer
  else if interval.holds farther k then some farther
  else none

/-- The digits and the power of ten of the shortest decimal that reads back. -/
def shortestDecimal (m : Nat) (q : Int) : Nat × Int :=
  let (num, den) := ratio m q 0
  let e := leadingExponent num den
  ((List.range 17).findSome? fun (count : Nat) =>
    let k := e - (count : Int)
    (onGrid m q k).map (·, k)).getD (m, q)

/-- `n * 10 ^ k` written out, without an exponent. -/
def positional (n : Nat) (k : Int) : Text :=
  if 0 ≤ k then digits n ++ List.replicate k.toNat '0'
  else placed k.natAbs n

/-- A double in the fewest digits that read back, never with an exponent. -/
def shortest (x : Float) : String :=
  String.ofList <| layout .minus (fun m q =>
    if m = 0 then ['0']
    else
      let (n, k) := shortestDecimal m q
      if n % 10 = 0 then positional (n / 10) (k + 1) else positional n k) x

end QubitTrace.Decimal
