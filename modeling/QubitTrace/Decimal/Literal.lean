import QubitTrace.Decimal.Digits
import QubitTrace.Scalar
import QubitTrace.Text.Read

/-! # Number literals

The texts that denote real numbers and register sizes. A real literal is read into a
significand and a power of ten (`Literal.read`), and only `Literal.scalar?` turns it into
a scalar.
-/

namespace QubitTrace
set_option autoImplicit false

/-- What a real literal denotes. -/
inductive Literal where
  /-- The number `m * 10 ^ e`, or its negative. -/
  | finite (negative : Bool) (m : Nat) (e : Int)
  | infinite (negative : Bool)
  | notANumber
  deriving DecidableEq, Repr

namespace Literal

/-- A nonempty text of decimal digits. -/
def readDigits (s : Text) : Option Nat :=
  if !s.isEmpty && s.all Char.isDigit then some (Decimal.value s) else none

/-- An optional sign in front of a text: whether it is a minus sign. -/
def readSign (s : Text) : Text.Continued Bool s :=
  match s with
  | '-' :: t => (Text.Read.one true '-' t).weaken
  | '+' :: t => (Text.Read.one false '+' t).weaken
  | s => .nothing false s

/-- The exponent part of a literal: nothing, or `e`, an optional sign and digits. -/
def readExponent : Text → Option Int
  | [] => some 0
  | c :: s =>
    if c = 'e' ∨ c = 'E' then
      let sign := readSign s
      (readDigits sign.rest).map fun n => if sign.value then -(n : Int) else n
    else none

/--
An unsigned decimal: digits with at most one point among or around them and at least one
digit, then an exponent. The result is the significand and the power of ten.
-/
def readUnsigned (s : Text) : Option (Nat × Int) :=
  let whole := s.takeWhile Char.isDigit
  let rest := s.dropWhile Char.isDigit
  let (fraction, tail) :=
    match rest with
    | '.' :: t => (t.takeWhile Char.isDigit, t.dropWhile Char.isDigit)
    | _ => ([], rest)
  if whole.isEmpty && fraction.isEmpty then none
  else
    (readExponent tail).map fun e => (Decimal.value (whole ++ fraction), e - fraction.length)

/-- A real literal: an optional sign, then a decimal or the name of a special value in any case. -/
def read (s : Text) : Option Literal :=
  let sign := readSign s
  match readUnsigned sign.rest with
  | some (m, e) => some (.finite sign.value m e)
  | none =>
    let name := String.ofList (sign.rest.map Char.toLower)
    if name = "inf" ∨ name = "infinity" then some (.infinite sign.value)
    else if name = "nan" then some .notANumber
    else none

/-- The scalar a finite literal denotes. -/
def scalar? {K : Type} [Scalar K] : Literal → Option K
  | .finite negative m e =>
    let magnitude := Scalar.ofDecimal m e
    some (if negative then -magnitude else magnitude)
  | .infinite _ | .notANumber => none

/-- The least number above every size and index. -/
def sizeLimit : Nat := 1 <<< 64

/-- A size or index: digits, perhaps after a plus sign, for a number below `sizeLimit`. -/
def readSize (s : Text) : Option Nat :=
  let digits := match s with
    | '+' :: t => t
    | _ => s
  (readDigits digits).filter (· < sizeLimit)

end Literal

end QubitTrace
