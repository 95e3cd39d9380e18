import QubitTrace.Fault
import QubitTrace.Json.Reader

/-! # Requests

A request asks for the run of a program or of a text of gate words. Its JSON form has no
tag: a document is read as a program request if it can be, and else as a request for gate
words, all of whose fields are optional.
-/

namespace QubitTrace
set_option autoImplicit false

/-- What a client asks for. -/
inductive Request where
  /-- The run of a program, with an expected number of qubits and a list to trace out. -/
  | program (source : String) (qubits : Option Nat) (traced : List Nat)
  /-- The run of gate words on one qubit. -/
  | words (source : String)
  deriving DecidableEq, Repr

namespace Request

open Json (Sizes)

/-- The JSON form of a request. -/
def toJson {K : Type} : Request → Json (Json.Number K)
  | program source qubits traced =>
    .object [("qasm_code", .string source),
      ("num_qubits", match qubits with
        | some n => Json.size n
        | none => .null),
      ("qubits_to_trace_out", .array (traced.map Json.size))]
  | words source => .object [("circuit", .string source)]

variable {N : Type} [Sizes N]

/--
An optional field of an object: `read` applied to its value, or `absent` without one. A key
that is repeated spoils the object.
-/
def optional {α : Type} (members : List (String × Json N)) (key : String) (absent : α)
    (read : Json N → Option α) : Option α :=
  match Json.valuesOf key members with
  | [] => some absent
  | [value] => read value
  | _ => none

/-- The value of an optional size. -/
def sizeOrNull : Json N → Option (Option Nat)
  | .null => some none
  | j => j.size?.map some

/-- An object as a program request. -/
def programOfMembers? (members : List (String × Json N)) : Option Request :=
  match Json.valuesOf "qasm_code" members with
  | [source] => do
    return program (← source.string?) (← optional members "num_qubits" none sizeOrNull)
      (← optional members "qubits_to_trace_out" [] fun j => do (← j.array?).mapM Json.size?)
  | _ => none

/-- An object as a request for gate words. -/
def wordsOfMembers? (members : List (String × Json N)) : Option Request :=
  (optional members "circuit" "" Json.string?).map words

/-- A document as a request. -/
def ofJson? : Json N → Option Request
  | .object members => programOfMembers? members <|> wordsOfMembers? members
  | _ => none

/-- The most arrays and objects that may stand inside each other in a body. -/
def maxDepth : Nat := 127

/-- Whether a document is well-formed, nested no deeper than allowed, and all its numbers finite. -/
def acceptable (j : Json Json.Literal) : Bool :=
  j.depth ≤ maxDepth && j.wellFormed fun n => (n.real? : Option Float).isSome

/-- The request of a body. What follows the document must be blank. -/
def decode (body : String) : Except RequestFault Request :=
  match Json.read body.toList with
  | none => .error .malformed
  | some document =>
    if acceptable document.value then
      match ofJson? document.value with
      | none => .error .unknownShape
      | some request =>
        if ((Json.blanks document.rest).rest).isEmpty then .ok request else .error .malformed
    else .error .malformed

end Request

end QubitTrace
