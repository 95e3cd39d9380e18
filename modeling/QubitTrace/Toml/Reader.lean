import QubitTrace.Toml.Quoted
import QubitTrace.Toml.Scalar

/-! # Reading TOML

`Toml.parse` reads a TOML 1.0 document into the entries of its root table, or refuses it.
Keys and values may not be nested deeper than `Toml.maxNesting`.
-/

namespace QubitTrace.Toml
set_option autoImplicit false
open Text (Read Continued)

/-- The blanks at the front of a text. -/
def blanks (s : Text) : Continued Unit s := (Continued.span isBlank s).map fun _ => ()

/-- Passes over the character `c`, after any blanks. -/
def mark? (c : Char) (s : Text) : Option (Read Unit s) :=
  (Read.char? c (blanks s).rest).map (blanks s).andThen

/-- Passes over the character `c` and any blanks beside it. -/
def separator? (c : Char) (s : Text) : Option (Read Unit s) :=
  (mark? c s).map fun r => r.andContinue (blanks r.rest)

/-- Passes over a comment, if there is one; its line must end where it ends. -/
def readComment (s : Text) : Option (Continued Unit s) :=
  match s with
  | '#' :: t =>
    let comment := (Continued.span isPlain t).map fun _ => ()
    if comment.rest.isEmpty || (newline? comment.rest).isSome then
      some (comment.behind '#').weaken
    else none
  | s => some (.nothing () s)

/-- The blanks and the comment at the end of a line. -/
def readLineEnd (s : Text) : Option (Continued Unit s) :=
  (readComment (blanks s).rest).map (blanks s).andContinue

/-- Passes over blanks, comments and line endings. -/
def skipLines (s : Text) : Option (Continued Unit s) := do
  let line ← readLineEnd s
  have := line.noLonger
  match newline? line.rest with
  | none => return line
  | some newline =>
    have := newline.shorter
    let more ← skipLines newline.rest
    return line.andContinue (newline.andContinue more).weaken
termination_by s.length

/-- The characters of a key without quotes. -/
def isBare (c : Char) : Bool := c.isAlphanum || c == '_' || c == '-'

/-- A part of a key without quotes. -/
def readBare (s : Text) : Option (Read String s) :=
  match s with
  | [] => none
  | c :: t =>
    if isBare c then
      some (((Continued.span isBare t).map fun more => String.ofList (c :: more)).behind c)
    else none

/-- The most parts of a key, and the most arrays and inline tables inside each other. -/
def maxNesting : Nat := 79

/-- The parts of a key, joined by points. -/
def readParts (s : Text) : Option (Read (List String) s) := do
  let first ← readQuoted false s <|> readBare s
  have := first.shorter
  match separator? '.' first.rest with
  | none => return first.map ([·])
  | some point =>
    have := point.shorter
    let more ← readParts point.rest
    return (first.andThen (point.andThen more)).map (first.value :: ·)
termination_by s.length

/-- A key with no more parts than allowed. -/
def readKey (s : Text) : Option (Read (List String) s) :=
  (readParts s).filter fun key => key.value.length ≤ maxNesting

/-- The characters that end a value written as one run. -/
def isDelimiter (c : Char) : Bool :=
  isBlank c || c == '#' || c == '\n' || c == '\r' || c == ',' || c == ']' || c == '\x7d'

/-- The characters up to the next delimiter. -/
def readRun (s : Text) : Continued Text s := .span (fun c => !isDelimiter c) s

/-- A time joined to the date before it by a blank. -/
def readJoinedTime (date s : Text) : Continued Text s :=
  match s with
  | ' ' :: c :: t =>
    if isDate date && c.isDigit then
      ((((readRun t).map (' ' :: c :: ·)).behind c).behind ' ').weaken
    else .nothing [] (' ' :: c :: t)
  | s => .nothing [] s

/-- A value written as one run of characters. -/
def readScalar (s : Text) : Option (Read Value s) :=
  match s with
  | [] => none
  | c :: t => do
    if isDelimiter c then none
    else
      let run := ((readRun t).map (c :: ·)).behind c
      let time := readJoinedTime run.value run.rest
      let value ← scalar? (run.value ++ time.value)
      return run.andContinue (time.map fun _ => value)

mutual

/-- A value, in which at most `room` arrays and inline tables stand inside each other. -/
def readValue (room : Nat) (s : Text) : Option (Read Value s) :=
  match room, s with
  | 0, '[' :: _ | 0, '\x7b' :: _ => none
  | room + 1, '[' :: t => (readItems room t).map fun r => (r.map .array).behind '['
  | room + 1, '\x7b' :: t =>
    match mark? '\x7d' t with
    | some close => some ((close.map fun _ => .table []).behind '\x7b')
    | none => do
      let r ← readPairs room t
      let entries ← inlineEntries r.value
      return (r.map fun _ => .table (closeEntries entries)).behind '\x7b'
  | _, s => ((readQuoted true s).map (·.map .string)) <|> readScalar s
termination_by 3 * s.length

/-- The items of an array, up to its closing bracket; a comma may follow the last one. -/
def readItems (room : Nat) (s : Text) : Option (Read (List Value) s) := do
  let start ← skipLines s
  have := start.noLonger
  match Read.char? ']' start.rest with
  | some close => return (start.andThen close).map fun _ => []
  | none =>
    let first ← readValue room start.rest
    have := first.shorter
    let next ← skipLines first.rest
    have := next.noLonger
    let item := (start.andThen first).andContinue next
    match Read.char? ']' next.rest with
    | some close => return (item.andThen close).map fun _ => [first.value]
    | none =>
      let comma ← Read.char? ',' next.rest
      have := comma.shorter
      let more ← readItems room comma.rest
      return (item.andThen (comma.andThen more)).map (first.value :: ·)
termination_by 3 * s.length + 1

/-- The pairs of an inline table, up to its closing brace; there is at least one. -/
def readPairs (room : Nat) (s : Text) : Option (Read (List (List String × Value)) s) := do
  let first ← readPair room s
  have := first.shorter
  match mark? '\x7d' first.rest with
  | some close => return (first.andThen close).map fun _ => [first.value]
  | none =>
    let comma ← mark? ',' first.rest
    have := comma.shorter
    let more ← readPairs room comma.rest
    return (first.andThen (comma.andThen more)).map (first.value :: ·)
termination_by 3 * s.length + 2

/-- A key, an equals sign and a value on one line. -/
def readPair (room : Nat) (s : Text) : Option (Read (List String × Value) s) := do
  let start := blanks s
  have := start.noLonger
  let key ← readKey start.rest
  have := key.shorter
  let equals ← separator? '=' key.rest
  have := equals.shorter
  let value ← readValue room equals.rest
  return (start.andThen (key.andThen (equals.andThen value))).map (key.value, ·)
termination_by 3 * s.length + 1

end

/-- A document under construction: its entries, and the path of the last header. -/
structure Document where
  entries : Entries
  header : List String

/-- The path of a header, up to `close`. -/
def readHeader (close : Text) (s : Text) : Option (Read (List String) s) := do
  let start := blanks s
  let key ← readKey start.rest
  let gap := blanks key.rest
  let closed ← Continued.after? close gap.rest
  return start.andThen (key.andContinue (gap.andContinue (closed.map fun _ => key.value)))

/-- A line with something on it: a header, or a key with its value. -/
def readEntry (d : Document) (s : Text) : Option (Read Document s) :=
  match s with
  | '[' :: '[' :: t => do
    let header ← readHeader [']', ']'] t
    let entries ← openItem header.value d.entries
    return ((header.map (Document.mk entries)).behind '[').behind '['
  | '[' :: t => do
    let header ← readHeader [']'] t
    let entries ← openTable header.value d.entries
    return (header.map (Document.mk entries)).behind '['
  | s => do
    let pair ← readPair maxNesting s
    let entries ← putUnder d.header pair.value.1 pair.value.2 d.entries
    return pair.map fun _ => { d with entries }

/-- The lines of a document. -/
def readLines (d : Document) (s : Text) : Option Document := do
  let start ← skipLines s
  have := start.noLonger
  if start.rest.isEmpty then return d
  else
    let entry ← readEntry d start.rest
    have := entry.shorter
    let line ← readLineEnd entry.rest
    have := line.noLonger
    match newline? line.rest with
    | some newline =>
      have := newline.shorter
      readLines entry.value newline.rest
    | none => if line.rest.isEmpty then return entry.value else none
termination_by s.length

/-- The entries of a document's root table. A byte order mark in front is passed over. -/
def parse (source : Text) : Option (List (String × Value)) :=
  let text := if source.head? = some (Char.ofNat 0xFEFF) then source.tail else source
  (readLines ⟨[], []⟩ text).map fun d => closeEntries d.entries

end QubitTrace.Toml
