import QubitTrace.Decimal.Digits
import QubitTrace.Decimal.Rounding
import QubitTrace.Scalar.Double

/-! # Doubles with a set number of digits

The exact value of a double, rounded once to a set number of places (`fixed`) or of
significant digits (`scientific`). A half goes to the even digit and the sign of zero is
kept.
-/

namespace QubitTrace.Decimal
set_option autoImplicit false

/-- How a sign is written. -/
inductive SignStyle where
  /-- Only a minus sign. -/
  | minus
  /-- A plus sign too. -/
  | always
  deriving DecidableEq, Repr

namespace SignStyle

def text : SignStyle → (negative : Bool) → Text
  | _, true => ['-']
  | .minus, false => []
  | .always, false => ['+']

end SignStyle

/-- `n / 10 ^ places` with that many digits after the point. -/
def placed (places n : Nat) : Text :=
  digits (n / powerOfTen places) ++ (if places = 0 then [] else '.' :: padded places n)

/-- A double in any style; `magnitude` writes `m * 2 ^ q`. -/
def layout (style : SignStyle) (magnitude : (m : Nat) → (q : Int) → Text) (x : Float) : Text :=
  match Dyadic.ofFloat x with
  | .finite negative m q => style.text negative ++ magnitude m q
  | .infinite negative => style.text negative ++ "inf".toList
  | .notANumber => "NaN".toList

/-- A double with `places` digits after the point. -/
def fixed (style : SignStyle) (places : Nat) (x : Float) : String :=
  String.ofList <| layout style
    (fun m q =>
      let (num, den) := ratio m q places
      placed places (roundDiv num den)) x

/-- The `e` with `10 ^ e ≤ num / den < 10 ^ (e + 1)`, for positive `num` and `den`. -/
def leadingExponent (num den : Nat) : Int :=
  if den ≤ num then (digits (num / den)).length - 1
  else -((digits ((den + num - 1) / num - 1)).length : Int)

/-- A double with one digit before the point, `places` after it, and a power of ten. -/
def scientific (places : Nat) (x : Float) : String :=
  String.ofList <| layout .minus (fun m q =>
    let (n, e) := significant m q
    placed places n ++ 'e' :: exponentText e) x
where
  significant (m : Nat) (q : Int) : Nat × Int :=
    if m = 0 then (0, 0)
    else
      let (num, den) := ratio m q 0
      let e := leadingExponent num den
      let (num, den) := ratio m q (places - e)
      let n := roundDiv num den
      if n = powerOfTen (places + 1) then (n / 10, e + 1) else (n, e)
  exponentText (e : Int) : Text := (SignStyle.minus.text (decide (e < 0))) ++ digits e.natAbs

end QubitTrace.Decimal
