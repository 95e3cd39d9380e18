import QubitTrace.Decimal.Literal
import QubitTrace.Json.Value
import QubitTrace.Text.Read

/-! # Reading JSON

`Json.read` reads one document from the front of a text, after RFC 8259. Numbers stay
literals; what a literal is worth is asked later (`Json.Literal.size?`,
`Json.Literal.real?`). A string with half of a pair of surrogates is read as well, but as
one that stands for no text.
-/

namespace QubitTrace.Json
set_option autoImplicit false
open Text (Read Continued)

/-- A number literal: its value, and whether it has neither fraction nor exponent. -/
structure Literal where
  /-- Whether a minus sign stands in front. -/
  negative : Bool
  /-- The value is `m * 10 ^ e`. -/
  m : Nat
  e : Int
  integral : Bool
  deriving DecidableEq, Repr

namespace Literal

/-- A size is written with digits only and lies below `QubitTrace.Literal.sizeLimit`. -/
def size? (n : Literal) : Option Nat :=
  if n.integral && !n.negative && n.m < QubitTrace.Literal.sizeLimit then some n.m else none

/-- The scalar of a literal, if it is finite. -/
def real? {K : Type} [Scalar K] (n : Literal) : Option K :=
  ((QubitTrace.Literal.finite n.negative n.m n.e).scalar?).filter Scalar.isFinite

instance : Sizes Literal := ⟨size?⟩

instance {K : Type} [Scalar K] : Reals Literal K := ⟨real?⟩

end Literal

/-- The white space at the front of a text. -/
def blanks (s : Text) : Continued Unit s :=
  (Continued.span (fun c => c == ' ' || c == '\n' || c == '\t' || c == '\r') s).map fun _ => ()

/-- Passes over the character `c`, after any white space. -/
def mark? (c : Char) (s : Text) : Option (Read Unit s) :=
  (Read.char? c (blanks s).rest).map (blanks s).andThen

/-- The value of a hexadecimal digit. -/
def hexDigit? (c : Char) : Option Nat :=
  if c.isDigit then some (c.toNat - 48)
  else if 'a' ≤ c ∧ c ≤ 'f' then some (c.toNat - 87)
  else if 'A' ≤ c ∧ c ≤ 'F' then some (c.toNat - 55)
  else none

/-- The number that hexadecimal digits denote. -/
def hex? (digits : Text) : Option Nat :=
  digits.foldlM (fun n c => (hexDigit? c).map (16 * n + ·)) 0

/-- The character of a one-letter escape. -/
def escape? : Char → Option Char
  | '"' => some '"'
  | '\\' => some '\\'
  | '/' => some '/'
  | 'b' => some '\x08'
  | 'f' => some '\x0c'
  | 'n' => some '\n'
  | 'r' => some '\r'
  | 't' => some '\t'
  | _ => none

def isHighSurrogate (n : Nat) : Bool := 0xD800 ≤ n && n < 0xDC00

def isLowSurrogate (n : Nat) : Bool := 0xDC00 ≤ n && n < 0xE000

/-- The character of two surrogates. -/
def joinSurrogates (high low : Nat) : Char :=
  Char.ofNat (0x10000 + (high - 0xD800) * 0x400 + (low - 0xDC00))

/-- The number in the next four hexadecimal digits. -/
def readUnit (s : Text) : Option (Continued Nat s) := do
  let digits ← Continued.take? 4 s
  let n ← hex? digits.value
  return digits.map fun _ => n

/-- The second of two surrogates, which is an escape of its own. -/
def readLow (s : Text) : Option (Continued Nat s) := do
  let mark ← Continued.after? ['\\', 'u'] s
  let second ← readUnit mark.rest
  if isLowSurrogate second.value then return mark.andContinue second else none

/--
The character of an escape by number, after its letter. Two surrogates make one character,
one alone makes none.
-/
def readNumbered (s : Text) : Option (Continued (Option Char) s) := do
  let first ← readUnit s
  if isHighSurrogate first.value then
    match readLow first.rest with
    | some low => return first.andContinue (low.map fun n => some (joinSurrogates first.value n))
    | none => return first.map fun _ => none
  else if isLowSurrogate first.value then return first.map fun _ => none
  else return first.map fun n => some (Char.ofNat n)

/-- The character of an escape, after its backslash. -/
def readEscape (s : Text) : Option (Read (Option Char) s) :=
  match s with
  | [] => none
  | 'u' :: t => (readNumbered t).map (·.behind 'u')
  | c :: t => (escape? c).map fun d => .one (some d) c t

/-- The rest of a string after its opening quote, and its text unless it is ill-formed. -/
def readString (s : Text) : Option (Read (Option Text) s) :=
  match s with
  | [] => none
  | '"' :: t => some (.one (some []) '"' t)
  | '\\' :: t => do
    let c ← readEscape t
    have := c.shorter
    let more ← readString c.rest
    return ((c.andThen more).map fun text => c.value.bind fun c => text.map (c :: ·)).behind '\\'
  | c :: t =>
    if c.toNat < 0x20 then none
    else do
      let more ← readString t
      return (more.map (·.map (c :: ·))).behind c
termination_by s.length

/-- The document of a string. -/
def ofText : Option Text → Json Literal
  | some text => .string (String.ofList text)
  | none => .illFormed

/-- The document of an object. -/
def ofMembers (members : List (Option Text × Json Literal)) : Json Literal :=
  match members.mapM fun (key, value) => key.map fun text => (String.ofList text, value) with
  | some members => .object members
  | none => .illFormed

/-- A whole number without a needless leading zero, as its digits. -/
def readWhole (s : Text) : Option (Read Text s) :=
  match s with
  | [] => none
  | c :: t =>
    let more := Continued.span Char.isDigit t
    if !c.isDigit || (c == '0' && !more.value.isEmpty) then none
    else some ((more.map (c :: ·)).behind c)

/-- The fraction in front of a text: the point and at least one digit, or nothing. -/
def readFraction (s : Text) : Option (Continued Text s) :=
  match s with
  | '.' :: t =>
    let digits := Continued.span Char.isDigit t
    if digits.value.isEmpty then none else some (digits.behind '.').weaken
  | s => some (.nothing [] s)

/-- The exponent in front of a text: the letter, a sign and at least one digit, or nothing. -/
def readExponent (s : Text) : Option (Continued (Option Int) s) :=
  match s with
  | [] => some (.nothing none [])
  | c :: t =>
    if c = 'e' ∨ c = 'E' then
      let sign := QubitTrace.Literal.readSign t
      let digits := Continued.span Char.isDigit sign.rest
      let n : Int := Decimal.value digits.value
      if digits.value.isEmpty then none
      else
        let power := digits.map fun _ => some (if sign.value then -n else n)
        some ((sign.andContinue power).behind c).weaken
    else some (.nothing none (c :: t))

/-- A number after its sign. -/
def readUnsigned (negative : Bool) (s : Text) : Option (Read Literal s) := do
  let whole ← readWhole s
  let fraction ← readFraction whole.rest
  let exponent ← readExponent fraction.rest
  return (whole.andContinue (fraction.andContinue exponent)).map fun power => {
    negative
    m := Decimal.value (whole.value ++ fraction.value)
    e := power.getD 0 - fraction.value.length
    integral := fraction.value.isEmpty && power.isNone }

/-- A number. -/
def readNumber (s : Text) : Option (Read Literal s) :=
  match s with
  | '-' :: t => (readUnsigned true t).map (·.behind '-')
  | s => readUnsigned false s

/-- The rest of a fixed word, with the document it stands for. -/
def readWord (word : Text) (document : Json Literal) (s : Text) :
    Option (Continued (Json Literal) s) :=
  (Continued.after? word s).map fun r => r.map fun _ => document

mutual

/-- A document, after any white space. -/
def read (s : Text) : Option (Read (Json Literal) s) :=
  have := (blanks s).noLonger
  (readHere (blanks s).rest).map (blanks s).andThen
termination_by 3 * s.length + 1

/-- A document whose first character is the next one. -/
def readHere (s : Text) : Option (Read (Json Literal) s) :=
  match s with
  | [] => none
  | '"' :: t => do
    let text ← readString t
    return (text.map ofText).behind '"'
  | '[' :: t =>
    match mark? ']' t with
    | some close => some ((close.map fun _ => .array []).behind '[')
    | none => (readItems t).map fun r => (r.map .array).behind '['
  | '\x7b' :: t =>
    match mark? '\x7d' t with
    | some close => some ((close.map fun _ => .object []).behind '\x7b')
    | none => (readMembers t).map fun r => (r.map ofMembers).behind '\x7b'
  | 'n' :: t => (readWord ['u', 'l', 'l'] .null t).map (·.behind 'n')
  | 't' :: t => (readWord ['r', 'u', 'e'] (.bool true) t).map (·.behind 't')
  | 'f' :: t => (readWord ['a', 'l', 's', 'e'] (.bool false) t).map (·.behind 'f')
  | s => (readNumber s).map (·.map .number)
termination_by 3 * s.length

/-- The items of an array, at least one, and its closing bracket. -/
def readItems (s : Text) : Option (Read (List (Json Literal)) s) := do
  let first ← read s
  have := first.shorter
  match mark? ']' first.rest with
  | some close => return (first.andThen close).map fun _ => [first.value]
  | none =>
    let comma ← mark? ',' first.rest
    have := comma.shorter
    let more ← readItems comma.rest
    return (first.andThen (comma.andThen more)).map (first.value :: ·)
termination_by 3 * s.length + 2

/-- The members of an object, at least one, and its closing brace. -/
def readMembers (s : Text) : Option (Read (List (Option Text × Json Literal)) s) := do
  let quote ← mark? '"' s
  have := quote.shorter
  let key ← readString quote.rest
  have := key.shorter
  let colon ← mark? ':' key.rest
  have := colon.shorter
  let first ← read colon.rest
  have := first.shorter
  let whole := quote.andThen (key.andThen (colon.andThen first))
  let member := (key.value, first.value)
  match mark? '\x7d' first.rest with
  | some close => return (whole.andThen close).map fun _ => [member]
  | none =>
    let comma ← mark? ',' first.rest
    have := comma.shorter
    let more ← readMembers comma.rest
    return (whole.andThen (comma.andThen more)).map (member :: ·)
termination_by 3 * s.length + 2

end

/-- A whole text as one document. -/
def parse (s : Text) : Option (Json Literal) := do
  let r ← read s
  if (blanks r.rest).rest.isEmpty then return r.value else none

end QubitTrace.Json
