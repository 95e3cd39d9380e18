import QubitTrace.Text.Blank

/-! # Cutting texts

Cutting at the first place where a pattern stands, and cutting into lines.
-/

namespace QubitTrace.Text
set_option autoImplicit false

/-- What follows `pattern` when the text begins with it. -/
def after? : (pattern s : Text) → Option Text
  | [], s => some s
  | _ :: _, [] => none
  | p :: pattern, c :: s => if p = c then after? pattern s else none

/-- The text before and after the first occurrence of `pattern`. -/
def cut? (pattern : Text) : Text → Option (Text × Text)
  | [] => (after? pattern []).map ([], ·)
  | c :: s =>
    match after? pattern (c :: s) with
    | some rest => some ([], rest)
    | none => (cut? pattern s).map fun (before, rest) => (c :: before, rest)

/-- The text before the first occurrence of `pattern`, or all of it. -/
def before (pattern s : Text) : Text := ((cut? pattern s).map Prod.fst).getD s

/-- The text without its last character, when that is `c`. -/
def withoutLast? (c : Char) (s : Text) : Option Text :=
  if s.getLast? = some c then some s.dropLast else none

/-- The text without the characters `c` at its two ends. -/
def strip (c : Char) (s : Text) : Text :=
  ((s.dropWhile (· == c)).reverse.dropWhile (· == c)).reverse

/--
The lines of a text. A line ends at a line feed, a carriage return right before that line
feed belongs to the ending, and no empty line follows the last line feed.
-/
def lines (s : Text) : List Text :=
  let pieces := splitWhere (· == '\n') s
  let ended := pieces.dropLast.map fun line => (withoutLast? '\r' line).getD line
  match pieces.getLast? with
  | none | some [] => ended
  | some line => ended ++ [line]

end QubitTrace.Text
