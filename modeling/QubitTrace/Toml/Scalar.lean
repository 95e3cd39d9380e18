import QubitTrace.Decimal.Literal
import QubitTrace.Scalar.Double
import QubitTrace.Text.Cut
import QubitTrace.Toml.Value

/-! # TOML numbers, dates and times

The values that are written as one run of characters: numbers, truth values, dates and
times. A run is classified as a whole.
-/

namespace QubitTrace.Toml
set_option autoImplicit false

/-- Digits with single underscores between them, without the underscores. -/
def readDigits (isDigit : Char → Bool) (s : Text) : Option Text :=
  let parts := Text.splitWhere (· == '_') s
  if parts.all fun part => !part.isEmpty && part.all isDigit then some parts.flatten else none

/-- The digits of a decimal integer, which has no leading zero. -/
def readWhole (s : Text) : Option Text := do
  let digits ← readDigits Char.isDigit s
  if digits.head? = some '0' && digits.length != 1 then none else return digits

/-- The value of digits in a base. -/
def valueIn (base : Nat) (digits : Text) : Nat :=
  digits.foldl (fun n c =>
    base * n + (if c.isDigit then c.toNat - 48 else c.toLower.toNat - 87)) 0

def isHexDigit (c : Char) : Bool := c.isDigit || ('a' ≤ c && c ≤ 'f') || ('A' ≤ c && c ≤ 'F')

/-- An integer within 64 bits. -/
def integer? (n : Int) : Option Value :=
  let limit : Nat := 1 <<< 63
  if -(limit : Int) ≤ n && n < limit then some (.integer n) else none

/-- A decimal integer with an optional sign, or digits in another base after its mark. -/
def readInteger (s : Text) : Option Value :=
  let based (base : Nat) (isDigit : Char → Bool) (digits : Text) : Option Value := do
    integer? (valueIn base (← readDigits isDigit digits))
  match s with
  | '0' :: 'x' :: t => based 16 isHexDigit t
  | '0' :: 'o' :: t => based 8 (fun c => '0' ≤ c && c ≤ '7') t
  | '0' :: 'b' :: t => based 2 (fun c => c == '0' || c == '1') t
  | s => do
    let sign := Literal.readSign s
    let n : Int := Decimal.value (← readWhole sign.rest)
    integer? (if sign.value then -n else n)

/-- An exponent: digits, perhaps after a sign. -/
def readPower (s : Text) : Option Int := do
  let sign := Literal.readSign s
  let n : Int := Decimal.value (← readDigits Char.isDigit sign.rest)
  return if sign.value then -n else n

/-- A decimal with a fraction, an exponent or both; one beyond the doubles has no value. -/
def readFloat (s : Text) : Option Value := do
  let sign := Literal.readSign s
  let isMark (c : Char) : Bool := c == 'e' || c == 'E'
  let mantissa := sign.rest.takeWhile fun c => !isMark c
  let power := sign.rest.dropWhile fun c => !isMark c
  let (whole, fraction) := (mantissa.takeWhile (· != '.'), mantissa.dropWhile (· != '.'))
  if fraction.isEmpty && power.isEmpty then none
  else
    let whole ← readWhole whole
    let fraction ← if fraction.isEmpty then some [] else readDigits Char.isDigit fraction.tail
    let e ← if power.isEmpty then some 0 else readPower power.tail
    let x := Double.ofDecimal (Decimal.value (whole ++ fraction)) (e - fraction.length)
    if sign.value then return .float (-x)
    else if x == Double.infinity then none
    else return .float x

/-- The infinities and the value that is no number. -/
def readSpecial (s : Text) : Option Value :=
  let sign := Literal.readSign s
  if sign.rest = ['i', 'n', 'f'] then
    some (.float (if sign.value then -Double.infinity else Double.infinity))
  else if sign.rest = ['n', 'a', 'n'] then some (.float Double.notANumber)
  else none

/-- A number of exactly two digits, no larger than `max`. -/
def isTwoDigits (max : Nat) (s : Text) : Bool :=
  s.length == 2 && s.all Char.isDigit && Decimal.value s ≤ max

/-- The number of days of a month, from 1 on. -/
def daysOf (year month : Nat) : Nat :=
  let leap := year % 4 = 0 ∧ (year % 100 ≠ 0 ∨ year % 400 = 0)
  match month with
  | 4 | 6 | 9 | 11 => 30
  | 2 => if leap then 29 else 28
  | _ => 31

/-- A date `YYYY-MM-DD`. -/
def isDate (s : Text) : Bool :=
  match Text.splitWhere (· == '-') s with
  | [year, month, day] =>
    year.length == 4 && year.all Char.isDigit && isTwoDigits 12 month && isTwoDigits 31 day &&
      0 < Decimal.value month && 0 < Decimal.value day &&
      Decimal.value day ≤ daysOf (Decimal.value year) (Decimal.value month)
  | _ => false

/-- A time `HH:MM:SS`, perhaps with a fraction of the second. -/
def isTime (s : Text) : Bool :=
  match Text.splitWhere (· == ':') s with
  | [hour, minute, second] =>
    let whole := second.takeWhile (· != '.')
    let fraction := second.dropWhile (· != '.')
    isTwoDigits 23 hour && isTwoDigits 59 minute && isTwoDigits 60 whole &&
      (fraction.isEmpty || (!fraction.tail.isEmpty && fraction.tail.all Char.isDigit))
  | _ => false

/-- A distance from universal time `HH:MM`. -/
def isOffset (s : Text) : Bool :=
  match Text.splitWhere (· == ':') s with
  | [hour, minute] => isTwoDigits 23 hour && isTwoDigits 59 minute
  | _ => false

/-- A time that may say where it holds. -/
def isZonedTime (s : Text) : Bool :=
  let time := s.takeWhile fun c => c.isDigit || c == ':' || c == '.'
  isTime time &&
    match s.drop time.length with
    | [] | ['Z'] | ['z'] => true
    | '+' :: t | '-' :: t => isOffset t
    | _ => false

/-- A date, a time, or both with a `T` or a blank between them. -/
def isMoment (s : Text) : Bool :=
  isDate s || isTime s ||
    (isDate (s.take 10) &&
      match s.drop 10 with
      | c :: t => (c == 'T' || c == 't' || c == ' ') && isZonedTime t
      | [] => false)

/-- The value of a run of characters. -/
def scalar? (s : Text) : Option Value :=
  if s = "true".toList then some (.boolean true)
  else if s = "false".toList then some (.boolean false)
  else if isMoment s then some .moment
  else readSpecial s <|> readInteger s <|> readFloat s

end QubitTrace.Toml
