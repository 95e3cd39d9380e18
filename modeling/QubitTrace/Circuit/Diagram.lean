import QubitTrace.Circuit

/-! # Circuit diagrams

A circuit drawn with one row per qubit and one column, seven characters wide, per
operation. Each operation leaves marks on the wires it names; a gate on two qubits is
joined by a bar through the rows between its wires.
-/

namespace QubitTrace.Diagram
set_option autoImplicit false

variable {K : Type}

/-- The width of a column. -/
def columnWidth : Nat := 7

/-- A stretch of plain wire. -/
def wire (n : Nat) : Text := List.replicate n '─'

def blanks (n : Nat) : Text := List.replicate n ' '

/-- A symbol centred on the wire of a column, the odd place to its right. -/
def centred (symbol : Text) : Text :=
  if columnWidth ≤ symbol.length then symbol.take columnWidth
  else
    let free := columnWidth - symbol.length
    wire (free / 2) ++ symbol ++ wire (free - free / 2)

/-- The symbols an operation leaves, with the wires they stand on, in drawing order. -/
def marks : Operation K → List (Nat × String)
  | .gate g [q] => if g matches .id then [] else [(q, g.symbol)]
  | .gate g [a, b] => [(a, if g.isControlled then "@" else g.symbol), (b, g.symbol)]
  | .gate _ _ => []
  | .measure q _ => [(q, "M")]
  | .barrier qubits => qubits.map (·, "░")

/-- The cells of a column over `n` wires; a later mark covers an earlier one. -/
def column (n : Nat) (op : Operation K) : List Text :=
  (marks op).foldl (fun cells mark => cells.set mark.1 (centred mark.2.toList))
    (List.replicate n (wire columnWidth))

/-- Whether the bar of an operation passes below wire `r`. -/
def joins : Operation K → (r : Nat) → Bool
  | .gate _ [a, b], r => min a b ≤ r && r < max a b
  | _, _ => false

/-- The piece of a column between wire `r` and the next. -/
def connector (op : Operation K) (r : Nat) : Text :=
  blanks (columnWidth / 2) ++ [if joins op r then '│' else ' '] ++ blanks (columnWidth / 2)

/-- The name in front of a wire. -/
def label (q : Nat) : Text := 'q' :: Decimal.digits q ++ [':', ' ']

/-- The room that the labels of `n` wires take. -/
def labelWidth (n : Nat) : Nat := ((List.range n).map fun q => (label q).length).foldl max 0

/-- The row of wire `r`. -/
def wireRow (c : Circuit K) (r : Nat) : Text :=
  let name := label r
  name ++ blanks (labelWidth c.qubits - name.length)
    ++ c.operations.flatMap fun op => (column c.qubits op)[r]?.getD []

/-- The row between wire `r` and the next. -/
def connectorRow (c : Circuit K) (r : Nat) : Text :=
  blanks (labelWidth c.qubits) ++ c.operations.flatMap (connector · r)

/-- Wires and the rows between them, from the first wire down. -/
def rows (c : Circuit K) : List Text :=
  (List.range c.qubits).flatMap fun r =>
    if r + 1 < c.qubits then [wireRow c r, connectorRow c r] else [wireRow c r]

/-- The line above the wires. -/
def header (operations qubits : Nat) : Text :=
  "blochpath::Circuit[".toList ++ Decimal.digits operations ++ " operations on ".toList
    ++ Decimal.digits qubits ++ " qubits]".toList

/-- The lines of a diagram; an empty circuit or register has a header only. -/
def lines (c : Circuit K) : List Text :=
  if c.operations.isEmpty || c.qubits == 0 then [header 0 c.qubits]
  else header c.operations.length c.qubits :: rows c

end Diagram

namespace Circuit

/-- The diagram of a circuit, each line ended by a line feed. -/
def diagram {K : Type} (c : Circuit K) : String :=
  String.ofList ((Diagram.lines c).flatMap (· ++ ['\n']))

end QubitTrace.Circuit
