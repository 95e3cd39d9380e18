/-! # JSON documents

The tree of a JSON document, over a type of numbers. A document that was read carries
number literals, one that is to be written carries sizes and real numbers; a decoder asks
for either through `Json.Sizes` and `Json.Reals`.
-/

namespace QubitTrace
set_option autoImplicit false

/-- A JSON document. The members of an object keep their order and may repeat a key. -/
inductive Json (N : Type) where
  | null
  | bool (b : Bool)
  | number (n : N)
  | string (s : String)
  | array (items : List (Json N))
  | object (members : List (String × Json N))
  /-- A string that stands for no text, or an object with such a key. It can only be ignored. -/
  | illFormed
  deriving Repr

namespace Json

variable {N : Type}

mutual

/-- The number of arrays and objects that stand inside each other. -/
def depth : Json N → Nat
  | null | bool _ | number _ | string _ | illFormed => 0
  | array items => depthItems items + 1
  | object members => depthMembers members + 1

def depthItems : List (Json N) → Nat
  | [] => 0
  | item :: items => max item.depth (depthItems items)

def depthMembers : List (String × Json N) → Nat
  | [] => 0
  | (_, value) :: members => max value.depth (depthMembers members)

end

mutual

/-- Whether nothing in a document is ill-formed and all its numbers satisfy `p`. -/
def wellFormed (p : N → Bool) : Json N → Bool
  | null | bool _ | string _ => true
  | illFormed => false
  | number n => p n
  | array items => wellFormedItems p items
  | object members => wellFormedMembers p members

def wellFormedItems (p : N → Bool) : List (Json N) → Bool
  | [] => true
  | item :: items => item.wellFormed p && wellFormedItems p items

def wellFormedMembers (p : N → Bool) : List (String × Json N) → Bool
  | [] => true
  | (_, value) :: members => value.wellFormed p && wellFormedMembers p members

end

/-- Numbers that can be asked for a size or index. -/
class Sizes (N : Type) where
  size? : N → Option Nat

/-- Numbers that can be asked for a scalar. -/
class Reals (N K : Type) where
  real? : N → Option K

/-- A number to be written. -/
inductive Number (K : Type) where
  | size (n : Nat)
  | real (x : K)
  deriving Repr

/-- A size or an index. -/
def size {K : Type} (n : Nat) : Json (Number K) := number (.size n)

def bool? : Json N → Option Bool
  | bool b => some b
  | _ => none

def string? : Json N → Option String
  | string s => some s
  | _ => none

def array? : Json N → Option (List (Json N))
  | array items => some items
  | _ => none

/-- The size or index a number stands for. -/
def size? [Sizes N] : Json N → Option Nat
  | number n => Sizes.size? n
  | _ => none

/-- The scalar a number stands for. -/
def real? {K : Type} [Reals N K] : Json N → Option K
  | number n => Reals.real? n
  | _ => none

/-- The values under a key, in order. -/
def valuesOf (key : String) (members : List (String × Json N)) : List (Json N) :=
  members.filterMap fun m => if m.1 = key then some m.2 else none

/--
The values of a record with the given keys: the members of an object, each key exactly
once and others ignored, or the items of an array of that length.
-/
def record? (keys : List String) : Json N → Option (List (Json N))
  | object members =>
    keys.mapM fun key =>
      match valuesOf key members with
      | [value] => some value
      | _ => none
  | array items => if items.length = keys.length then some items else none
  | _ => none

end Json

end QubitTrace
