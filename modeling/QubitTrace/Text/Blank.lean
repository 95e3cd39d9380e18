/-! # White space

The characters with the Unicode property `White_Space`, and the operations that
look at nothing else: trimming, words and blank texts. Texts are lists of
characters throughout the readers of this library.
-/

namespace QubitTrace
set_option autoImplicit false

/-- A text under scrutiny, character by character. -/
abbrev Text := List Char

namespace Text

/-- The ranges of code points with the property `White_Space`, first and last included. -/
def blankRanges : List (Nat × Nat) :=
  [(0x09, 0x0D), (0x20, 0x20), (0x85, 0x85), (0xA0, 0xA0), (0x1680, 0x1680), (0x2000, 0x200A),
    (0x2028, 0x2029), (0x202F, 0x202F), (0x205F, 0x205F), (0x3000, 0x3000)]

/-- Whether a character is white space. -/
def isBlank (c : Char) : Bool := blankRanges.any fun r => r.1 ≤ c.toNat && c.toNat ≤ r.2

/-- Whether a text holds nothing but white space. -/
def isBlankText (s : Text) : Bool := s.all isBlank

/-- The text from its first visible character on. -/
def trimLeft (s : Text) : Text := s.dropWhile isBlank

/-- The text up to its last visible character. -/
def trimRight (s : Text) : Text := (s.reverse.dropWhile isBlank).reverse

/-- The text without white space at its two ends. -/
def trim (s : Text) : Text := trimRight (trimLeft s)

/-- The text without any white space. -/
def squeeze (s : Text) : Text := s.filter fun c => !isBlank c

/-- The stretches between the characters that satisfy `p`, empty ones included. -/
def splitWhere (p : Char → Bool) : Text → List Text
  | [] => [[]]
  | c :: s =>
    if p c then [] :: splitWhere p s
    else
      match splitWhere p s with
      | [] => [[c]]
      | piece :: pieces => (c :: piece) :: pieces

/-- The maximal runs of visible characters, in order. -/
def words (s : Text) : List Text := (splitWhere isBlank s).filter fun w => !w.isEmpty

end Text

end QubitTrace
