import QubitTrace.Json.Value

/-! # Writing JSON

`Json.render` writes a document without white space. Numbers are written by a function the
caller supplies.
-/

namespace QubitTrace.Json
set_option autoImplicit false

/-- The hexadecimal digit of a value below sixteen. -/
def hexDigit (n : Nat) : Char := Char.ofNat (if n < 10 then 48 + n else 87 + n)

/-- A character inside a string: quotes, backslashes and control characters are escaped. -/
def escape (c : Char) : List Char :=
  if c = '"' then ['\\', '"']
  else if c = '\\' then ['\\', '\\']
  else if c = '\n' then ['\\', 'n']
  else if c = '\r' then ['\\', 'r']
  else if c = '\t' then ['\\', 't']
  else if c = '\x08' then ['\\', 'b']
  else if c = '\x0c' then ['\\', 'f']
  else if c.toNat < 0x20 then
    ['\\', 'u', '0', '0', hexDigit (c.toNat / 16), hexDigit (c.toNat % 16)]
  else [c]

/-- A string in quotes. -/
def quoted (s : String) : String := String.ofList ('"' :: s.toList.flatMap escape ++ ['"'])

variable {N : Type}

mutual

/-- A document without white space; `number` writes its numbers. -/
def render (number : N → String) : Json N → String
  | .null => "null"
  | .bool true => "true"
  | .bool false => "false"
  | .number n => number n
  | .string s => quoted s
  | .array items => "[" ++ String.intercalate "," (renderItems number items) ++ "]"
  | .object members => "\x7b" ++ String.intercalate "," (renderMembers number members) ++ "\x7d"
  | .illFormed => "\"\\ud800\""

def renderItems (number : N → String) : List (Json N) → List String
  | [] => []
  | item :: items => render number item :: renderItems number items

def renderMembers (number : N → String) : List (String × Json N) → List String
  | [] => []
  | (key, value) :: members =>
    (quoted key ++ ":" ++ render number value) :: renderMembers number members

end

end QubitTrace.Json
