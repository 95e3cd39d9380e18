import QubitTrace.Density.Spectrum
import QubitTrace.Scalar.Double

/-! # Eigenvalues over double-precision scalars

The solver for doubles. Householder reflections bring a Hermitian matrix to a real
tridiagonal one, and shifted QR sweeps then drive its off-diagonal entries to zero. The
eigenvalues of a diagonal matrix stay in the order of the diagonal.
-/

namespace QubitTrace
set_option autoImplicit false

/-- A real symmetric matrix with nothing beside the diagonal and its two neighbours. -/
structure Tridiagonal where
  diagonal : Array Float
  /-- Entry `i` stands between rows `i` and `i + 1`. -/
  beside : Array Float

namespace Tridiagonal

/-- A matrix as rows of complex doubles. -/
abbrev Rows := List (List (Complex Float))

/-- The rows of a matrix with its lower triangle carried over to the upper one. -/
def hermitianRows {d : Nat} (m : SquareMatrix Float d) : Rows :=
  (List.finRange d).map fun r => (List.finRange d).map fun c =>
    if c < r then m[r][c] else if r < c then m[c][r].conj else ⟨m[r][r].re, 0⟩

/-- The largest sum of the magnitudes of the two components of an entry. -/
def scale (rows : Rows) : Float :=
  rows.flatten.foldl (fun most z =>
    let size := z.re.abs + z.im.abs
    if most.isNaN || size.isNaN then Double.notANumber else if most < size then size else most) 0

def timesReal (x : Float) (z : Complex Float) : Complex Float := ⟨x * z.re, x * z.im⟩

def norm (v : List (Complex Float)) : Float :=
  Float.sqrt (v.foldl (fun total z => total + z.normSq) 0)

/--
The unit vector whose reflection takes a column to a multiple of its first axis, and the
length of the column; none for a column no longer than `least`.
-/
def reflection (least : Float) (column : List (Complex Float)) :
    Option (List (Complex Float) × Float) :=
  match column with
  | [] => none
  | first :: rest =>
    let length := norm column
    let modulus := first.norm
    let direction : Complex Float := if modulus == 0 then 1 else first.unscale modulus
    if length ≤ least then none
    else
      let axis := (first + timesReal length direction) :: rest
      let size := norm axis
      some (axis.map (·.unscale size), length)

/-- The sum of the products of entries, onto a sum so far. -/
def product (re im : Float) : (v w : List (Complex Float)) → Complex Float
  | a :: v, b :: w =>
    product (re + (a.re * b.re - a.im * b.im)) (im + (a.re * b.im + a.im * b.re)) v w
  | _, _ => ⟨re, im⟩

/-- A row less `x` times the conjugate of `v` and `y` times the conjugate of `w`. -/
def without (x y : Complex Float) : (row v w : List (Complex Float)) → List (Complex Float)
  | z :: row, a :: v, b :: w =>
    ⟨z.re - (x.re * a.re + x.im * a.im) - (y.re * b.re + y.im * b.im),
      z.im - (x.im * a.re - x.re * a.im) - (y.im * b.re - y.re * b.im)⟩ :: without x y row v w
  | _, _, _ => []

/--
`m` with the reflection at the hyperplane of the unit vector `v` on both sides. With `p`
twice the product of `m` and `v`, and `w` what is left of `p` without its part along `v`, that
is `m - w v* - v w*`.
-/
def reflect (v : List (Complex Float)) (m : Rows) : Rows :=
  let p := m.map fun row => timesReal 2 (product 0 0 row v)
  let k := product 0 0 (v.map Complex.conj) p
  let w := List.zipWith (fun a b => a - k * b) p v
  List.zipWith (fun row (x, y) => without x y row v w) m (List.zip w v)

/--
The tridiagonal form of a Hermitian matrix of `n` rows: its diagonal and what is beside it.
Columns no longer than `least` count as zeros.
-/
def reduce (least : Float) : (n : Nat) → Rows → List Float × List Float
  | 0, _ => ([], [])
  | n + 1, m =>
    let corner := ((m.head?.bind List.head?).getD 0).re
    let column := m.tail.map fun row => row.head?.getD 0
    let inner := m.tail.map List.tail
    let (inner, length) :=
      match reflection least column with
      | none => (inner, 0)
      | some (v, length) => (reflect v inner, length)
    let (diagonal, beside) := reduce least n inner
    (corner :: diagonal, if n = 0 then beside else length :: beside)

def diag (t : Tridiagonal) (i : Nat) : Float := t.diagonal.getD i 0

def off (t : Tridiagonal) (i : Nat) : Float := t.beside.getD i 0

/-- The unit of rounding. -/
def epsilon : Float := 2.220446049250313e-16

/-- Whether the entry beside `i` no longer counts against the diagonal. -/
def negligible (t : Tridiagonal) (i : Nat) : Bool :=
  !((t.off i).abs > epsilon * ((t.diag i).abs + (t.diag (i + 1)).abs))

/-- The last row at or below `stop` that still has a neighbour to be eliminated; 0 if none has. -/
def lastRow (t : Tridiagonal) : (stop : Nat) → Nat
  | 0 => 0
  | n + 1 => if t.negligible n then t.lastRow n else n + 1

/-- The first row of the block that ends above row `row`, and the matrix with the block cut off. -/
def firstRow (t : Tridiagonal) : (row : Nat) → Nat × Tridiagonal
  | 0 => (0, t)
  | n + 1 =>
    if t.negligible n then (n + 1, { t with beside := t.beside.setIfInBounds n 0 })
    else t.firstRow n

/-- The eigenvalue of the last two rows of a block that is nearer to its last entry. -/
def wilkinsonShift (before last beside : Float) : Float :=
  let square := beside * beside
  if square == 0 then last
  else
    let d := (before - last) * 0.5
    let sign : Float := if d < 0 || (d == 0 && 1 / d < 0) then -1 else 1
    last - square / (d + sign * Float.sqrt (d * d + square))

/-- A sweep under way: the matrix, and the pair whose second entry the next rotation clears. -/
structure Sweep where
  matrix : Tridiagonal
  x : Float
  y : Float
  finished : Bool

/-- Rotates rows `i` and `i + 1` of the block from `start` to `stop`. -/
def rotate (start stop : Nat) (s : Sweep) (i : Nat) : Sweep :=
  if s.finished || s.y == 0 then { s with finished := true }
  else
    let t := s.matrix
    let sign : Float := if s.x < 0 then -1 else 1
    let length := Float.sqrt (s.x * s.x + s.y * s.y)
    let cos := s.x.abs / length
    let sin := -(sign * s.y) / length
    let beside := if start < i then t.beside.setIfInBounds (i - 1) (sign * length) else t.beside
    let mii := t.diag i
    let mjj := t.diag (i + 1)
    let mij := t.off i
    let cc := cos * cos
    let ss := sin * sin
    let cs := cos * sin
    let b := cs * 2 * mij
    let diagonal := (t.diagonal.setIfInBounds i (cc * mii + ss * mjj - b)).setIfInBounds (i + 1)
      (ss * mii + cc * mjj + b)
    let next := cs * (mii - mjj) + mij * (cc - ss)
    let beside := beside.setIfInBounds i next
    if i + 1 = stop then { s with matrix := ⟨diagonal, beside⟩ }
    else
      let below := t.off (i + 1)
      { matrix := ⟨diagonal, beside.setIfInBounds (i + 1) (below * cos)⟩
        x := next
        y := -sin * below
        finished := false }

/-- A QR sweep over the block from `start` to `stop`. -/
def sweep (t : Tridiagonal) (start stop : Nat) : Tridiagonal :=
  let shift := wilkinsonShift (t.diag (stop - 1)) (t.diag stop) (t.off (stop - 1))
  ((List.range' start (stop - start)).foldl (rotate start stop)
    ⟨t, t.diag start - shift, t.off start, false⟩).matrix

/-- The two eigenvalues of the block of rows `i` and `i + 1`, the larger first. -/
def solvePair (t : Tridiagonal) (i : Nat) : Tridiagonal :=
  let half := (t.diag i - t.diag (i + 1)) * 0.5
  let root := Float.sqrt (t.off i * t.off i + half * half)
  let mean := (t.diag i + t.diag (i + 1)) * 0.5
  { t with
    diagonal := (t.diagonal.setIfInBounds i (mean + root)).setIfInBounds (i + 1) (mean - root) }

/-- Solves the blocks from the last one up, in at most `fuel` rounds. -/
def solve : (fuel : Nat) → (stop : Nat) → Tridiagonal → Tridiagonal
  | 0, _, t => t
  | fuel + 1, stop, t =>
    match t.lastRow stop with
    | 0 => t
    | last + 1 =>
      let (start, t) := t.firstRow last
      if start = last then solve fuel last (t.solvePair start)
      else
        let t := t.sweep start (last + 1)
        solve fuel (if t.negligible last then last else last + 1) t

/--
The eigenvalues of a Hermitian matrix. Columns that are nothing beside the whole matrix are
dropped on the way, so a matrix of rank one takes a single reflection.
-/
def eigenvalues {d : Nat} (m : SquareMatrix Float d) : List Float :=
  let rows := hermitianRows m
  let most := scale (m.toList.map Vector.toList)
  let unit := if most == 0 then rows else rows.map (·.map (·.unscale most))
  let (diagonal, beside) := reduce (epsilon * norm unit.flatten) d unit
  let solved := solve (64 * (d + 1)) (d - 1) ⟨diagonal.toArray, beside.toArray⟩
  solved.diagonal.toList.map (most * ·)

end Tridiagonal

instance : Spectral Float := ⟨Tridiagonal.eigenvalues⟩

end QubitTrace
