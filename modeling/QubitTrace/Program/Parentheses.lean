import QubitTrace.Text.Blank

/-! # Parentheses

Finding the end of a parenthesized list, and splitting a list at the separators that
stand outside all parentheses.
-/

namespace QubitTrace.Program
set_option autoImplicit false

/--
The position of the parenthesis that closes one opened before the text, with `depth`
further ones open.
-/
def closingFrom : (depth : Nat) → Text → Option Nat
  | _, [] => none
  | depth, '(' :: s => (closingFrom (depth + 1) s).map (· + 1)
  | 0, ')' :: _ => some 0
  | depth + 1, ')' :: s => (closingFrom depth s).map (· + 1)
  | depth, _ :: s => (closingFrom depth s).map (· + 1)

/-- The position of the parenthesis that closes one opened right before the text. -/
def closing? (s : Text) : Option Nat := closingFrom 0 s

/-- Puts a character in front of the first piece. -/
def intoFirst (c : Char) : List Text → List Text
  | [] => [[c]]
  | piece :: pieces => (c :: piece) :: pieces

/--
Cuts at the separators outside parentheses, `depth` of which are open; a closing
parenthesis that closes nothing is an ordinary character.
-/
def cutAtDepth (sep : Char) : (depth : Nat) → Text → List Text
  | _, [] => [[]]
  | depth, c :: s =>
    if c = '(' then intoFirst c (cutAtDepth sep (depth + 1) s)
    else if c = ')' then intoFirst c (cutAtDepth sep (depth - 1) s)
    else if c = sep ∧ depth = 0 then [] :: cutAtDepth sep 0 s
    else intoFirst c (cutAtDepth sep depth s)

/-- The parts of a list; a blank text has none. -/
def splitTopLevel (sep : Char) (s : Text) : List Text :=
  if Text.isBlankText s then [] else cutAtDepth sep 0 s

end QubitTrace.Program
