import QubitTrace.Decimal.Literal
import QubitTrace.Text.Read

/-! # Angle expressions

Gate angles are written with unsigned decimals, `pi`, the four operations, unary signs and
parentheses; white space means nothing. `Angle.evaluate` reads such a text by descent over
sums, products and factors. Each reader returns what is left of the text together with a
proof that it is shorter, so the descent ends by the length of the text.
-/

namespace QubitTrace
set_option autoImplicit false

/-- Why a text is not an angle. -/
inductive AngleFault where
  | malformed (source : Text)
  | unknownName (name : Text)
  | notFinite (source : Text)
  deriving DecidableEq, Repr

namespace AngleFault

def message : AngleFault → String
  | malformed source => s!"malformed angle expression '{String.ofList source}'"
  | unknownName name => s!"unknown identifier '{String.ofList name}' in angle"
  | notFinite source => s!"angle '{String.ofList source}' is not a finite number"

end AngleFault

namespace Angle
open Text (Read Continued)

variable {K : Type} [Scalar K]

/-- What stops a reader. -/
inductive Obstacle where
  | malformed
  | unknownName (name : Text)
  deriving DecidableEq, Repr

/-- The characters a decimal's digits and points are made of. -/
def isNumeral (c : Char) : Bool := c.isDigit || c == '.'

/-- The sign in front of a text, if there is one. -/
def signChar (s : Text) : Continued Text s :=
  match s with
  | '+' :: t => (Read.one ['+'] '+' t).weaken
  | '-' :: t => (Read.one ['-'] '-' t).weaken
  | s => .nothing [] s

/-- The front of a text that makes an exponent: the letter, an optional sign and digits. -/
def exponent (s : Text) : Continued Text s :=
  match s with
  | [] => .nothing [] []
  | c :: t =>
    if c = 'e' ∨ c = 'E' then
      let sign := signChar t
      let digits := Continued.span Char.isDigit sign.rest
      ((sign.andContinue (digits.map (c :: sign.value ++ ·))).behind c).weaken
    else .nothing [] (c :: t)

/-- A decimal, as far as its characters reach; it must then be a literal. -/
def numeral (c : Char) (s : Text) : Except Obstacle (Read K (c :: s)) :=
  let digits := Continued.span isNumeral s
  let power := exponent digits.rest
  match Literal.readUnsigned (c :: digits.value ++ power.value) with
  | none => .error .malformed
  | some (m, e) => .ok (((digits.andContinue power).map fun _ => Scalar.ofDecimal m e).behind c)

/-- A name, as far as its characters reach; only `pi` is known. -/
def name (c : Char) (s : Text) : Except Obstacle (Read K (c :: s)) :=
  let more := Continued.span Char.isAlphanum s
  let word := c :: more.value
  if word = ['p', 'i'] then .ok ((more.map fun _ => Scalar.pi).behind c)
  else .error (.unknownName word)

mutual

/-- A sum: terms joined by `+` and `-`, from the left. -/
def sum (s : Text) : Except Obstacle (Read K s) := do
  let first ← product s
  have := first.shorter
  let all ← moreTerms first.value first.rest
  return first.andContinue all
termination_by (s.length, 2)

/-- The terms that follow a sum's value so far. -/
def moreTerms (acc : K) (s : Text) : Except Obstacle (Continued K s) :=
  match s with
  | '+' :: t => do
    let term ← product t
    have := term.shorter
    let all ← moreTerms (acc + term.value) term.rest
    return ((term.andContinue all).behind '+').weaken
  | '-' :: t => do
    let term ← product t
    have := term.shorter
    let all ← moreTerms (acc - term.value) term.rest
    return ((term.andContinue all).behind '-').weaken
  | s => .ok (.nothing acc s)
termination_by (s.length, 2)

/-- A product: factors joined by `*` and `/`, from the left. -/
def product (s : Text) : Except Obstacle (Read K s) := do
  let first ← factor s
  have := first.shorter
  let all ← moreFactors first.value first.rest
  return first.andContinue all
termination_by (s.length, 1)

/-- The factors that follow a product's value so far. -/
def moreFactors (acc : K) (s : Text) : Except Obstacle (Continued K s) :=
  match s with
  | '*' :: t => do
    let next ← factor t
    have := next.shorter
    let all ← moreFactors (acc * next.value) next.rest
    return ((next.andContinue all).behind '*').weaken
  | '/' :: t => do
    let next ← factor t
    have := next.shorter
    let all ← moreFactors (acc / next.value) next.rest
    return ((next.andContinue all).behind '/').weaken
  | s => .ok (.nothing acc s)
termination_by (s.length, 1)

/-- A signed factor, a sum in parentheses, a name or a decimal. -/
def factor (s : Text) : Except Obstacle (Read K s) :=
  match s with
  | [] => .error .malformed
  | '-' :: t => do
    let inner ← factor t
    return (inner.map fun x => -x).behind '-'
  | '+' :: t => do
    let inner ← factor t
    return inner.behind '+'
  | '(' :: t => do
    let inner ← sum t
    match Read.char? ')' inner.rest with
    | some close => return (inner.andThen (close.map fun _ => inner.value)).behind '('
    | none => .error .malformed
  | c :: t =>
    if c.isAlpha then name c t
    else if isNumeral c then numeral c t
    else .error .malformed
termination_by (s.length, 0)

end

/--
The value of an angle expression. A text with anything left after a sum is malformed, and
a value that is not finite is refused.
-/
def evaluate (source : Text) : Except AngleFault K :=
  match sum (Text.squeeze source) with
  | .error .malformed => .error (.malformed (Text.trim source))
  | .error (.unknownName name) => .error (.unknownName name)
  | .ok read =>
    if !read.rest.isEmpty then .error (.malformed (Text.trim source))
    else if Scalar.isFinite read.value then .ok read.value
    else .error (.notFinite (Text.trim source))

end Angle

end QubitTrace
