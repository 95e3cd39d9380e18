import QubitTrace.Json.Reader

/-! # TOML strings

Strings in quotes or apostrophes, on one line or, between three of them, on several. Only
strings in quotes know escapes.
-/

namespace QubitTrace.Toml
set_option autoImplicit false
open Text (Read Continued)

def apostrophe : Char := Char.ofNat 39

/-- The blanks inside a line. -/
def isBlank (c : Char) : Bool := c == ' ' || c == '\t'

/-- The characters that may stand in strings and comments as they are. -/
def isPlain (c : Char) : Bool := c == '\t' || (0x20 ≤ c.toNat && c.toNat != 0x7F)

/-- Passes over a line ending. -/
def newline? (s : Text) : Option (Read Unit s) :=
  match s with
  | '\n' :: t => some (.one () '\n' t)
  | '\r' :: '\n' :: t => some ((Read.one () '\n' t).behind '\r')
  | _ => none

/-- The character that a code point in so many hexadecimal digits stands for. -/
def readCodePoint (width : Nat) (s : Text) : Option (Continued Char s) := do
  let digits ← Continued.take? width s
  let code ← Json.hex? digits.value
  if code.isValidChar then return digits.map fun _ => Char.ofNat code else none

/-- The character of a one-letter escape. -/
def escape? : Char → Option Char
  | 'b' => some '\x08'
  | 't' => some '\t'
  | 'n' => some '\n'
  | 'f' => some '\x0c'
  | 'r' => some '\r'
  | '"' => some '"'
  | '\\' => some '\\'
  | _ => none

/-- The character of an escape, after its backslash. -/
def readEscape (s : Text) : Option (Read Char s) :=
  match s with
  | [] => none
  | 'u' :: t => (readCodePoint 4 t).map (·.behind 'u')
  | 'U' :: t => (readCodePoint 8 t).map (·.behind 'U')
  | c :: t => (escape? c).map fun d => .one d c t

/-- The rest of a string on one line, after its opening quote. -/
def readSingle (quote : Char) (escapes : Bool) (s : Text) : Option (Read Text s) :=
  match s with
  | [] => none
  | c :: t => do
    if c = quote then return .one [] c t
    else if escapes && c = '\\' then
      let escaped ← readEscape t
      have := escaped.shorter
      let more ← readSingle quote escapes escaped.rest
      return ((escaped.andThen more).map (escaped.value :: ·)).behind c
    else if isPlain c then
      let more ← readSingle quote escapes t
      return (more.map (c :: ·)).behind c
    else none
termination_by s.length

/-- The blanks and line endings at the front of a text. -/
def skipBlankLines (s : Text) : Continued Unit s :=
  have := (Continued.span isBlank s).noLonger
  match newline? (Continued.span isBlank s).rest with
  | none => (Continued.span isBlank s).map fun _ => ()
  | some line =>
    have := line.shorter
    (Continued.span isBlank s).andContinue (line.andContinue (skipBlankLines line.rest)).weaken
termination_by s.length

/-- After a backslash: the end of the line, and all blanks and line endings that follow it. -/
def continuation? (s : Text) : Option (Read Unit s) := do
  let blanks := Continued.span isBlank s
  let line ← newline? blanks.rest
  return blanks.andThen (line.andContinue (skipBlankLines line.rest))

/-- Three quotes, which close a string, and up to two more, which are its last characters. -/
def readClosing (quote : Char) (s : Text) : Option (Read Text s) := do
  let first ← Read.char? quote s
  let second ← Read.char? quote first.rest
  let third ← Read.char? quote second.rest
  let two := first.andThen second
  match Read.char? quote third.rest with
  | none => return two.andThen (third.map fun _ => [])
  | some fourth =>
    match Read.char? quote fourth.rest with
    | none => return two.andThen (third.andThen (fourth.map fun _ => [quote]))
    | some fifth =>
      return two.andThen (third.andThen (fourth.andThen (fifth.map fun _ => [quote, quote])))

/-- The rest of a string on several lines, after its opening quotes and first line ending. -/
def readMulti (quote : Char) (escapes : Bool) (s : Text) : Option (Read Text s) :=
  match readClosing quote s with
  | some r => some r
  | none =>
    match s with
    | [] => none
    | c :: t => do
      if escapes && c = '\\' then
        match continuation? t with
        | some line =>
          have := line.shorter
          let more ← readMulti quote escapes line.rest
          return (line.andThen more).behind c
        | none =>
          let escaped ← readEscape t
          have := escaped.shorter
          let more ← readMulti quote escapes escaped.rest
          return ((escaped.andThen more).map (escaped.value :: ·)).behind c
      else
        match newline? (c :: t) with
        | some line =>
          have : line.rest.length < t.length + 1 := line.shorter
          let more ← readMulti quote escapes line.rest
          return (line.andThen more).map ('\n' :: ·)
        | none =>
          if isPlain c then
            let more ← readMulti quote escapes t
            return (more.map (c :: ·)).behind c
          else none
termination_by s.length

/-- An optional line ending. -/
def readNewline (s : Text) : Continued Unit s :=
  match newline? s with
  | some line => line.weaken
  | none => .nothing () s

/-- A string in quotes or apostrophes; `multi` allows the forms on several lines. -/
def readQuoted (multi : Bool) (s : Text) : Option (Read String s) :=
  match s with
  | [] => none
  | c :: t => do
    if c ≠ '"' ∧ c ≠ apostrophe then none
    else
      match Continued.after? [c, c] t with
      | some opened =>
        if multi then
          let line := readNewline opened.rest
          let body ← readMulti c (c == '"') line.rest
          return ((opened.andThen (line.andThen body)).map String.ofList).behind c
        else none
      | none =>
        let body ← readSingle c (c == '"') t
        return (body.map String.ofList).behind c

end QubitTrace.Toml
