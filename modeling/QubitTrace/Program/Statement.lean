import QubitTrace.Text.Cut

/-! # Program statements

An OpenQASM program as a list of statements. Comments run from `//` to the end of their
line, statements end at semicolons, and a line break counts as a blank. Each statement
keeps the number of the line on which it starts.
-/

namespace QubitTrace.Program
set_option autoImplicit false

/-- A statement without its semicolon, and the line on which it starts. -/
structure Statement where
  line : Nat
  text : Text
  deriving DecidableEq, Repr

/-- The statements found so far, and the one being read with its last character first. -/
structure Splitter where
  found : List Statement
  line : Nat
  pending : Text

namespace Splitter

/-- Ends the pending statement; one that is blank is none. -/
def close (s : Splitter) : Splitter :=
  let text := Text.trim s.pending.reverse
  { s with
    found := if text.isEmpty then s.found else s.found ++ [⟨s.line, text⟩]
    pending := [] }

/-- Reads a character of line `line`. -/
def read (line : Nat) (s : Splitter) (c : Char) : Splitter :=
  if c = ';' then s.close
  else
    { s with
      line := if Text.isBlankText s.pending && !Text.isBlank c then line else s.line
      pending := c :: s.pending }

/-- Reads a line up to its comment, and its end as a blank. -/
def readLine (s : Splitter) (line : Text × Nat) : Splitter :=
  let s := (Text.before ['/', '/'] line.1).foldl (read line.2) s
  { s with pending := ' ' :: s.pending }

end Splitter

/-- The statements of a program; what follows the last semicolon counts if it is not blank. -/
def statements (source : Text) : List Statement :=
  (((Text.lines source).zipIdx 1).foldl Splitter.readLine ⟨[], 1, []⟩).close.found

end QubitTrace.Program
