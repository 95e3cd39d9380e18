/-! # TOML values and tables

What a TOML 1.0 document holds. A value is closed once it is written; a table of the
document may still grow, and how it came about decides in which way.
-/

namespace QubitTrace.Toml
set_option autoImplicit false

/-- A value on the right of an equals sign. Dates and times are recognized and not kept. -/
inductive Value where
  | string (s : String)
  | integer (n : Int)
  | float (x : Float)
  | boolean (b : Bool)
  | moment
  | array (items : List Value)
  | table (entries : List (String × Value))

/-- How a table of the document came about. -/
inductive Origin where
  /-- By a header of its own. -/
  | header
  /-- On the way to a header further down. -/
  | implied
  /-- By a dotted key. -/
  | dotted
  deriving DecidableEq, Repr

/-- What stands under a key of a document under construction. -/
inductive Node where
  | value (v : Value)
  | table (origin : Origin) (entries : List (String × Node))
  /-- An array of tables, each started by a header in double brackets. -/
  | tables (items : List (List (String × Node)))

/-- The entries of a table. -/
abbrev Entries := List (String × Node)

/-- Changes what stands under a key, unless `f` refuses. -/
def alter (key : String) (f : Option Node → Option Node) : Entries → Option Entries
  | [] => (f none).map fun node => [(key, node)]
  | (k, node) :: entries =>
    if k = key then (f (some node)).map fun node => (k, node) :: entries
    else (alter key f entries).map ((k, node) :: ·)

/-- Changes the last table of an array of tables. -/
def alterLast (f : Entries → Option Entries) (items : List Entries) : Option (List Entries) :=
  match items.getLast? with
  | none => none
  | some last => (f last).map fun last => items.dropLast ++ [last]

/--
Sets a dotted key. The tables on its way must not have headers of their own, and the table
that takes the last part must be one that dotted keys made.
-/
def put (v : Value) : List String → Entries → Option Entries
  | [], _ => none
  | [key], entries =>
    alter key (fun
      | none => some (.value v)
      | some _ => none) entries
  | key :: path, entries =>
    let final := path.length == 1
    alter key (fun
      | none => (put v path []).map (.table .dotted)
      | some (.table origin inner) =>
        if origin = .header || (final && origin != .dotted) then none
        else (put v path inner).map (.table origin)
      | some (.tables items) =>
        if final then none else (alterLast (put v path) items).map .tables
      | some (.value _) => none) entries

/-- Changes the entries of the table that a path of keys leads to, making it if need be. -/
def descend (f : Option Node → Option Node) : List String → Entries → Option Entries
  | [], _ => none
  | [key], entries => alter key f entries
  | key :: path, entries =>
    alter key (fun
      | none => (descend f path []).map (.table .implied)
      | some (.table origin inner) => (descend f path inner).map (.table origin)
      | some (.tables items) => (alterLast (descend f path) items).map .tables
      | some (.value _) => none) entries

/-- Starts a table. It may have been implied before, but not otherwise made. -/
def openTable : List String → Entries → Option Entries :=
  descend fun
    | none => some (.table .header [])
    | some (.table .implied entries) => some (.table .header entries)
    | some _ => none

/-- Adds a table to an array of tables. -/
def openItem : List String → Entries → Option Entries :=
  descend fun
    | none => some (.tables [[]])
    | some (.tables items) => some (.tables (items ++ [[]]))
    | some _ => none

/-- Sets a dotted key inside the table of the header that stands last. -/
def putUnder (header : List String) (path : List String) (v : Value) (entries : Entries) :
    Option Entries :=
  if header.isEmpty then put v path entries
  else
    descend (fun
      | some (.table origin inner) => (put v path inner).map (.table origin)
      | some (.tables items) => (alterLast (put v path) items).map .tables
      | some (.value _) | none => none) header entries

/-- The entries of an inline table, whose dotted keys follow the same rules. -/
def inlineEntries (pairs : List (List String × Value)) : Option Entries :=
  pairs.foldlM (fun entries (path, v) => put v path entries) []

mutual

/-- A finished node as a value. -/
def Node.close : Node → Value
  | .value v => v
  | .table _ entries => .table (closeEntries entries)
  | .tables items => .array (closeItems items)

def closeEntries : List (String × Node) → List (String × Value)
  | [] => []
  | (key, node) :: entries => (key, node.close) :: closeEntries entries

def closeItems : List (List (String × Node)) → List Value
  | [] => []
  | entries :: items => .table (closeEntries entries) :: closeItems items

end

end QubitTrace.Toml
