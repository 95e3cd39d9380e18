import QubitTrace.Circuit
import QubitTrace.Decimal.Literal
import QubitTrace.Text.Cut

/-! # Gate words

A compact notation for circuits on one qubit: words such as `h`, `RZ(0.5)` or `X`,
separated by white space and read without regard to case. A word that opens a rotation
must carry a finite angle; any other unknown word is an error or is passed over, as the
`ParseMode` says.
-/

namespace QubitTrace
set_option autoImplicit false

/-- What becomes of a gate whose name is unknown. -/
inductive ParseMode where
  /-- It is an error. -/
  | strict
  /-- It is passed over. -/
  | permissive
  deriving DecidableEq, Repr

namespace ParseMode

def name : ParseMode → String
  | strict => "strict"
  | permissive => "permissive"

/-- The mode of a given name. -/
def ofName? (s : String) : Option ParseMode :=
  if s = "strict" then some strict else if s = "permissive" then some permissive else none

end ParseMode

/-- Why a list of words makes no circuit. -/
inductive WordFault where
  /-- A rotation without its closing parenthesis. -/
  | unclosed (word : Text)
  /-- A rotation whose angle is no number. -/
  | malformedAngle (angle word : Text)
  /-- A rotation whose angle is infinite or not a number. -/
  | notFinite (word : Text)
  | unknown (word : Text)
  deriving DecidableEq, Repr

namespace WordFault

def message : WordFault → String
  | unclosed word => s!"missing ')' in rotation token '{String.ofList word}'"
  | malformedAngle angle word =>
    s!"malformed angle '{String.ofList angle}' in token '{String.ofList word}'"
  | notFinite word => s!"angle in token '{String.ofList word}' is not a finite number"
  | unknown word => s!"unrecognized gate token '{String.ofList word}'"

end WordFault

namespace Words

variable {K : Type} [Scalar K]

/-- The angle of a rotation, from what follows its opening parenthesis. -/
def readAngle (word rest : Text) : Except WordFault K :=
  match Text.withoutLast? ')' rest with
  | none => .error (.unclosed word)
  | some angle =>
    match Literal.read angle with
    | none => .error (.malformedAngle angle word)
    | some literal =>
      match (literal.scalar? : Option K) with
      | none => .error (.notFinite word)
      | some θ => if Scalar.isFinite θ then .ok θ else .error (.notFinite word)

/-- The gate of a word; `none` for an unknown word. -/
def readWord (word : Text) : Except WordFault (Option (Gate K)) :=
  match word.map Char.toUpper with
  | ['H'] => .ok (some .h)
  | ['X'] => .ok (some .x)
  | ['Y'] => .ok (some .y)
  | ['Z'] => .ok (some .z)
  | ['S'] => .ok (some .s)
  | ['T'] => .ok (some .t)
  | 'R' :: 'X' :: '(' :: rest => (readAngle word rest).map fun θ => some (.rx θ)
  | 'R' :: 'Y' :: '(' :: rest => (readAngle word rest).map fun θ => some (.ry θ)
  | 'R' :: 'Z' :: '(' :: rest => (readAngle word rest).map fun θ => some (.rz θ)
  | _ => .ok none

/-- The gates of a list of words, up to the first error. -/
def readWords (mode : ParseMode) : List Text → Except WordFault (List (Gate K))
  | [] => .ok []
  | word :: words => do
    match ← readWord word with
    | some g => return g :: (← readWords mode words)
    | none =>
      match mode with
      | .strict => .error (.unknown word)
      | .permissive => readWords mode words

/-- The circuit on one qubit that a text of gate words describes. -/
def parse (mode : ParseMode) (source : Text) : Except WordFault (Circuit K) :=
  (readWords mode (Text.words source)).map fun gates => ⟨1, gates.map (.gate · [0])⟩

end Words

end QubitTrace
