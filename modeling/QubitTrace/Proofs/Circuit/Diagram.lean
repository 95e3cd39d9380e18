import Mathlib
import QubitTrace.Circuit.Diagram
import QubitTrace.Proofs.Circuit.Reachable
import QubitTrace.Proofs.Decimal.Digits
import QubitTrace.Proofs.Except

/-! # Diagrams show their circuits

What an operation shows on a wire is stated without drawing anything (`symbolOn`): the sign of a
control stands on the first qubit of the controlled gates only (`symbolOn_head_eq_iff`). So is
which of the rows between wires it crosses (`joins_iff`). The cells of a diagram show just this
(`getElem?_column`), and since all of them are equally wide, a column is found at the same place in
every row (`of_row`).

A diagram can also be drawn as pictures are, on two grids that are written to and read at indices
(`sketch?`). What an operation writes stays in its own column, by one step lemma for both grids
(`Canvas.exists_draw?`), so no index is out of range and the rows come out the same.
-/

namespace QubitTrace.Diagram
set_option autoImplicit false

variable {K : Type}

/-! ## Symbols -/

/-- The symbol that an operation shows on a wire: that of its gate on each of its qubits, but for
the control of a controlled gate, and none for the identity. -/
def symbolOn (op : Operation K) (q : Nat) : Option String :=
  if q ∈ op.qubits then
    match op with
    | .gate .id _ => none
    | .gate g qubits => some (if g.isControlled ∧ qubits.head? = some q then "@" else g.symbol)
    | .measure _ _ => some "M"
    | .barrier _ => some "░"
  else none

/-- What an operation looks like on a wire: a plain stretch of it, or its symbol in the middle. -/
def cell (op : Operation K) (q : Nat) : Text :=
  (symbolOn op q).elim (wire columnWidth) fun symbol => centred symbol.toList

/-- The text is the symbol with wire on both sides, as much to its left as to its right or one place
less. -/
def Centred (symbol text : Text) : Prop :=
  ∃ left right, text = wire left ++ symbol ++ wire right ∧
    left + symbol.length + right = columnWidth ∧ left ≤ right ∧ right ≤ left + 1

section Symbols

variable {op : Operation K} {n q : Nat}

/-- A symbol of one character stands between two stretches of the same length. -/
theorem Centred.eq_of_singleton {a : Char} {text : Text} (shown : Centred [a] text) :
    text = wire 3 ++ a :: wire 3 := by
  obtain ⟨left, right, spelled, total, low, high⟩ := shown
  rw [columnWidth, List.length_singleton] at total
  obtain rfl : left = 3 := by omega
  obtain rfl : right = 3 := by omega
  rw [spelled, List.append_assoc, List.singleton_append]

/-- The sign of a control stands on the first qubit of the controlled gates, and of no others. -/
theorem symbolOn_head_eq_iff {g : Gate K} {a : Nat} {qubits : List Nat} :
    symbolOn (.gate g (a :: qubits)) a = some "@" ↔ ∃ b, g.Controls b := by
  have listed : a ∈ (Operation.gate g (a :: qubits)).qubits := List.mem_cons_self
  unfold symbolOn
  rw [← Gate.isControlled_iff, if_pos listed]
  cases g <;> simp [Gate.isControlled, Gate.base?, Gate.symbol]

theorem centred_centred {symbol : Text} (short : symbol.length < columnWidth) :
    Centred symbol (centred symbol) := by
  rw [centred, if_neg (by omega)]
  exact ⟨_, _, rfl, by omega, by omega, by omega⟩

theorem length_centred (symbol : Text) : (centred symbol).length = columnWidth := by
  unfold centred
  split_ifs with long
  · rw [List.length_take]
    omega
  · simp only [List.length_append, wire, List.length_replicate]
    omega

/-- All symbols of diagrams. -/
def symbols : List String :=
  ["@", "M", "░", "I", "H", "X", "Y", "Z", "S", "S†", "T", "T†", "√X", "√X†", "RX", "RY", "RZ", "P",
    "U", "x"]

theorem symbol_mem (g : Gate K) : g.symbol ∈ symbols := by
  cases g <;> simp [Gate.symbol, symbols]

theorem mem_symbols_of_symbolOn {symbol : String} (shown : symbolOn op q = some symbol) :
    symbol ∈ symbols := by
  unfold symbolOn at shown
  split at shown
  · split at shown
    · cases shown
    · cases shown
      split
      · exact List.mem_cons_self
      · exact symbol_mem _
    · cases shown
      simp [symbols]
    · cases shown
      simp [symbols]
  · cases shown

/-- Every symbol leaves room for wire, and none breaks the line. -/
theorem of_mem_symbols {symbol : String} (listed : symbol ∈ symbols) :
    symbol.toList.length < columnWidth ∧ '\n' ∉ symbol.toList := by
  have all : ∀ symbol ∈ symbols, symbol.toList.length < columnWidth ∧ '\n' ∉ symbol.toList := by
    decide
  exact all symbol listed

theorem length_cell (op : Operation K) (q : Nat) : (cell op q).length = columnWidth := by
  unfold cell
  cases symbolOn op q with
  | none => exact List.length_replicate
  | some symbol => exact length_centred _

end Symbols

/-! ## Cells -/

section Cells

/-- What is left in a place after some writes, of which a later one covers an earlier one. -/
def overlay {α : Type} (writes : List (Nat × α)) (r : Nat) (a : α) : α :=
  writes.foldl (fun a write => if write.1 = r then write.2 else a) a

/-- Writes of the same leave it wherever one of them goes. -/
theorem overlay_same {α : Type} (places : List Nat) (r : Nat) (mark a : α) :
    overlay (places.map (·, mark)) r a = if r ∈ places then mark else a := by
  induction places generalizing a with
  | nil => rfl
  | cons place places ih =>
    change overlay (places.map (·, mark)) r (if place = r then mark else a) = _
    rw [ih]
    by_cases here : place = r
    · simp [here]
    · simp [here, Ne.symm here]

/-- What an operation writes into its column. -/
def writes (op : Operation K) : List (Nat × Text) :=
  (marks op).map fun mark => (mark.1, centred mark.2.toList)

theorem getElem?_foldl_set {α : Type} (writes : List (Nat × α)) (cells : List α) (r : Nat) :
    (writes.foldl (fun cells write => cells.set write.1 write.2) cells)[r]? =
      cells[r]?.map (overlay writes r) := by
  induction writes generalizing cells with
  | nil => exact Option.map_id'.symm
  | cons write writes ih =>
    rw [List.foldl_cons, ih, List.getElem?_set]
    by_cases here : write.1 = r
    · rw [if_pos here]
      by_cases inside : write.1 < cells.length
      · rw [if_pos inside, List.getElem?_eq_getElem (here ▸ inside)]
        simp [overlay, here]
      · rw [if_neg inside, List.getElem?_eq_none (by omega)]
        rfl
    · rw [if_neg here]
      congr 1
      funext a
      simp [overlay, here]

variable {op : Operation K} {n q : Nat}

/-- A gate that fits is on one qubit and not controlled, or on two different ones. -/
theorem shape_of_fits {g : Gate K} {qubits : List Nat} (fits : g.Fits n qubits) :
    (g.isControlled = false ∧ ∃ a, qubits = [a]) ∨
      g ≠ .id ∧ ∃ a b, a ≠ b ∧ qubits = [a, b] := by
  have length := fits.length
  have distinct := fits.distinct
  rcases qubits with _ | ⟨a, _ | ⟨b, _ | ⟨c, qubits⟩⟩⟩
  · cases g <;> cases length
  · refine Or.inl ⟨?_, a, rfl⟩
    cases g <;> first | rfl | cases length
  · refine Or.inr ⟨?_, a, b, by simpa using distinct, rfl⟩
    rintro rfl
    cases length
  · cases g <;> simp [Gate.arity] at length

theorem symbolOn_gate {g : Gate K} (other : g ≠ .id) (qubits : List Nat) (q : Nat) :
    symbolOn (.gate g qubits) q = if q ∈ qubits then
      some (if g.isControlled ∧ qubits.head? = some q then "@" else g.symbol) else none := by
  cases g <;> first | rfl | exact absurd rfl other

/-- What an operation leaves on a wire is what it shows there. -/
theorem overlay_writes (accepted : op.fault? n = none) (q : Nat) :
    overlay (writes op) q (wire columnWidth) = cell op q := by
  cases op with
  | gate g qubits =>
    rcases shape_of_fits (Operation.fault?_gate_eq_none_iff.1 accepted) with
      ⟨free, a, rfl⟩ | ⟨other, a, b, ne, rfl⟩
    · by_cases same : g = .id
      · subst same
        unfold cell symbolOn
        split <;> rfl
      · have marks : marks (Operation.gate g [a]) = [(a, g.symbol)] := by
          cases g <;> first | rfl | exact absurd rfl same
        rw [cell, symbolOn_gate same, writes, marks]
        by_cases here : q = a
        · simp [overlay, here, free]
        · simp [overlay, here, Ne.symm here]
    · -- the second mark is the one that stays where both stand, but they stand apart
      rw [cell, symbolOn_gate other, writes, marks]
      by_cases first : q = a
      · subst first
        by_cases controlled : g.isControlled = true <;> simp [overlay, controlled, ne.symm]
      · by_cases second : q = b
        · simp [overlay, second, ne]
        · simp [overlay, first, second, Ne.symm first, Ne.symm second]
  | measure a bit =>
    by_cases here : q = a
    · simp [overlay, writes, marks, cell, symbolOn, Operation.qubits, here]
    · simp [overlay, writes, marks, cell, symbolOn, Operation.qubits, here, Ne.symm here]
  | barrier qubits =>
    have same : writes (Operation.barrier qubits : Operation K) =
        qubits.map (·, centred "░".toList) := by
      rw [writes, marks, List.map_map]
      rfl
    rw [same, overlay_same]
    unfold cell symbolOn
    by_cases here : q ∈ qubits <;> simp [Operation.qubits, here]

/-- The cells of a column. -/
theorem getElem?_column (accepted : op.fault? n = none) (inside : q < n) :
    (column n op)[q]? = some (cell op q) := by
  have folded : column n op = (writes op).foldl (fun cells write => cells.set write.1 write.2)
      (List.replicate n (wire columnWidth)) := by
    rw [writes, List.foldl_map]
    rfl
  rw [folded, getElem?_foldl_set, List.getElem?_replicate, if_pos inside, Option.map_some,
    overlay_writes accepted]

/-- The operation is a gate on two qubits, and `r` is one of the wires between them or the upper one
of theirs. -/
def Joined (op : Operation K) (r : Nat) : Prop :=
  ∃ g a b, op = .gate g [a, b] ∧ min a b ≤ r ∧ r < max a b

theorem joins_iff {r : Nat} : joins op r = true ↔ Joined op r := by
  constructor
  · intro joined
    unfold joins at joined
    split at joined
    · next g a b =>
      obtain ⟨low, high⟩ := Bool.and_eq_true_iff.1 joined
      exact ⟨g, a, b, rfl, of_decide_eq_true low, of_decide_eq_true high⟩
    · cases joined
  · rintro ⟨g, a, b, rfl, low, high⟩
    exact Bool.and_eq_true_iff.2 ⟨decide_eq_true low, decide_eq_true high⟩

theorem length_connector (op : Operation K) (r : Nat) : (connector op r).length = columnWidth := by
  simp [connector, blanks, columnWidth]

end Cells

/-! ## Rows -/

section Columns

variable {α : Type} {f : α → Text} {w : Nat} {as : List α}

theorem length_flatMap_of_wide (wide : ∀ a ∈ as, (f a).length = w) :
    (as.flatMap f).length = w * as.length := by
  induction as with
  | nil => rfl
  | cons a as ih =>
    obtain ⟨first, rest⟩ := List.forall_mem_cons.1 wide
    rw [List.flatMap_cons, List.length_append, first, ih rest, List.length_cons, Nat.mul_succ]
    omega

/-- In a row of columns that are equally wide, each is found behind those before it. -/
theorem take_drop_flatMap (wide : ∀ a ∈ as, (f a).length = w) {t : Nat} {a : α}
    (entry : as[t]? = some a) : ((as.flatMap f).drop (w * t)).take w = f a := by
  induction as generalizing t with
  | nil => cases entry
  | cons a' as ih =>
    obtain ⟨first, rest⟩ := List.forall_mem_cons.1 wide
    rw [List.flatMap_cons]
    cases t with
    | zero =>
      cases entry
      rw [Nat.mul_zero, List.drop_zero, ← first, List.take_left]
    | succ t =>
      rw [Nat.mul_succ, Nat.add_comm, ← first, List.drop_length_add_append, first]
      exact ih rest entry

end Columns

section Labels

theorem labelWidth_succ (n : Nat) : labelWidth (n + 1) = max (labelWidth n) (label n).length := by
  rw [labelWidth, labelWidth, List.range_succ, List.map_append, List.foldl_append]
  rfl

theorem length_label_le {n q : Nat} (inside : q < n) : (label q).length ≤ labelWidth n := by
  induction n with
  | zero => cases inside
  | succ n ih =>
    rw [labelWidth_succ]
    rcases Nat.lt_succ_iff_lt_or_eq.1 inside with before | rfl
    · have := ih before
      omega
    · omega

/-- The labels take the room that the longest of them needs. -/
theorem exists_length_label {n : Nat} (positive : 0 < n) :
    ∃ q < n, (label q).length = labelWidth n := by
  induction n with
  | zero => cases positive
  | succ n ih =>
    rw [labelWidth_succ]
    rcases Nat.eq_zero_or_pos n with rfl | some
    · exact ⟨0, Nat.one_pos, (Nat.zero_max _).symm⟩
    · obtain ⟨q, inside, longest⟩ := ih some
      rcases Nat.le_total (labelWidth n) (label n).length with last | before
      · exact ⟨n, by omega, by omega⟩
      · exact ⟨q, by omega, by omega⟩

end Labels

section Rows

variable {c : Circuit K} {q r t : Nat} {op : Operation K}

/-- What stands in a row of a diagram in the column of operation `t`. -/
def inColumn (n t : Nat) (row : Text) : Text :=
  (row.drop (labelWidth n + columnWidth * t)).take columnWidth

/-- The label of a wire, with blanks behind it up to the room for labels. -/
def paddedLabel (n q : Nat) : Text := label q ++ blanks (labelWidth n - (label q).length)

theorem length_paddedLabel {n : Nat} (inside : q < n) :
    (paddedLabel n q).length = labelWidth n := by
  have := length_label_le inside
  simp only [paddedLabel, List.length_append, blanks, List.length_replicate]
  omega

/-- A row is what stands in front of its columns, and the columns. -/
theorem wireRow_eq (accepted : ∀ op ∈ c.operations, op.fault? c.qubits = none)
    (inside : q < c.qubits) :
    wireRow c q = paddedLabel c.qubits q ++ c.operations.flatMap (cell · q) := by
  have columns : (c.operations.flatMap fun op => (column c.qubits op)[q]?.getD []) =
      c.operations.flatMap (cell · q) := by
    refine List.flatMap_congr fun op mem => ?_
    rw [getElem?_column (accepted op mem) inside, Option.getD_some]
  rw [wireRow, columns]
  rfl

/-- The front and the columns of a row made of them. -/
theorem of_row {front : Text} {f : Operation K → Text} {n : Nat} (ops : List (Operation K))
    (room : front.length = labelWidth n) (wide : ∀ op, (f op).length = columnWidth) :
    (front ++ ops.flatMap f).length = labelWidth n + columnWidth * ops.length ∧
      (front ++ ops.flatMap f).take (labelWidth n) = front ∧
      ∀ t op, ops[t]? = some op → inColumn n t (front ++ ops.flatMap f) = f op := by
  refine ⟨?_, ?_, fun t op entry => ?_⟩
  · rw [List.length_append, room, length_flatMap_of_wide fun op _ => wide op]
  · rw [← room, List.take_left]
  · rw [inColumn, ← room, List.drop_length_add_append]
    exact take_drop_flatMap (fun op _ => wide op) entry

/-- The rows of a diagram are those of its wires with the rows between them. -/
theorem rows_eq {k : Nat} (count : c.qubits = k + 1) : rows c =
    (List.range k).flatMap (fun r => [wireRow c r, connectorRow c r]) ++ [wireRow c k] := by
  have before : ((List.range k).flatMap fun r =>
      if r + 1 < k + 1 then [wireRow c r, connectorRow c r] else [wireRow c r]) =
        (List.range k).flatMap fun r => [wireRow c r, connectorRow c r] := by
    refine List.flatMap_congr fun r mem => if_pos ?_
    have := List.mem_range.1 mem
    omega
  rw [rows, count, List.range_succ, List.flatMap_append, before, List.flatMap_singleton,
    if_neg (Nat.lt_irrefl _)]

theorem length_pairs (f g : Nat → Text) (k : Nat) :
    ((List.range k).flatMap fun r => [f r, g r]).length = 2 * k := by
  rw [List.length_flatMap]
  simp
  omega

/-- Pairs one behind the other, by their places. -/
theorem getElem?_pairs (f g : Nat → Text) {k : Nat} (inside : r < k) :
    ((List.range k).flatMap fun r => [f r, g r])[2 * r]? = some (f r) ∧
      ((List.range k).flatMap fun r => [f r, g r])[2 * r + 1]? = some (g r) := by
  induction k with
  | zero => cases inside
  | succ k ih =>
    have length := length_pairs f g k
    rw [List.range_succ, List.flatMap_append, List.flatMap_singleton]
    rcases Nat.lt_succ_iff_lt_or_eq.1 inside with before | rfl
    · rw [List.getElem?_append_left (by omega), List.getElem?_append_left (by omega)]
      exact ih before
    · rw [List.getElem?_append_right (by omega), List.getElem?_append_right (by omega), length]
      simp

theorem length_rows (positive : 0 < c.qubits) : (rows c).length = 2 * c.qubits - 1 := by
  obtain ⟨k, count⟩ := Nat.exists_eq_succ_of_ne_zero positive.ne'
  rw [rows_eq count, List.length_append, length_pairs, List.length_singleton]
  omega

theorem getElem?_rows_wire (inside : q < c.qubits) : (rows c)[2 * q]? = some (wireRow c q) := by
  obtain ⟨k, count⟩ := Nat.exists_eq_succ_of_ne_zero (Nat.ne_of_gt (Nat.zero_lt_of_lt inside))
  have length := length_pairs (wireRow c) (connectorRow c) k
  rw [rows_eq count]
  rcases Nat.lt_succ_iff_lt_or_eq.1 (by omega : q < k + 1) with before | rfl
  · rw [List.getElem?_append_left (by omega)]
    exact (getElem?_pairs _ _ before).1
  · rw [List.getElem?_append_right (by omega), length, Nat.sub_self]
    rfl

theorem getElem?_rows_connector (inside : r + 1 < c.qubits) :
    (rows c)[2 * r + 1]? = some (connectorRow c r) := by
  obtain ⟨k, count⟩ := Nat.exists_eq_succ_of_ne_zero (Nat.ne_of_gt (Nat.zero_lt_of_lt inside))
  have length := length_pairs (wireRow c) (connectorRow c) k
  rw [rows_eq count, List.getElem?_append_left (by omega)]
  exact (getElem?_pairs _ _ (by omega)).2

/-- Every row is that of a wire, or the one below a wire. -/
theorem mem_rows_iff {row : Text} : row ∈ rows c ↔ (∃ q < c.qubits, row = wireRow c q) ∨
    ∃ r, r + 1 < c.qubits ∧ row = connectorRow c r := by
  rw [rows, List.mem_flatMap]
  constructor
  · rintro ⟨r, inside, mem⟩
    have inside := List.mem_range.1 inside
    split_ifs at mem with below
    · rcases List.mem_pair.1 mem with same | same
      · exact Or.inl ⟨r, inside, same⟩
      · exact Or.inr ⟨r, below, same⟩
    · exact Or.inl ⟨r, inside, List.mem_singleton.1 mem⟩
  · rintro (⟨q, inside, rfl⟩ | ⟨r, below, rfl⟩)
    · refine ⟨q, List.mem_range.2 inside, ?_⟩
      split_ifs <;> simp
    · refine ⟨r, List.mem_range.2 (by omega), ?_⟩
      rw [if_pos below]
      simp

end Rows

/-! ## Drawing on grids -/

section Grids

variable {α : Type} {n m : Nat}

/-- Writes into row `r` and column `t` of a grid, if it has such a place. -/
def put? (grid : Vector (Vector α m) n) (r t : Nat) (a : α) : Option (Vector (Vector α m) n) :=
  if row : r < n then
    if column : t < m then some (grid.set r (grid[r].set t a)) else none
  else none

theorem exists_put? (grid : Vector (Vector α m) n) {r t : Nat} (row : r < n) (column : t < m)
    (a : α) : ∃ grid', put? grid r t a = some grid' ∧ ∀ i (hi : i < n) j (hj : j < m),
      grid'[i][j] = if j = t then if r = i then a else grid[i][j] else grid[i][j] := by
  refine ⟨grid.set r (grid[r].set t a), ?_, fun i hi j hj => ?_⟩
  · rw [put?, dif_pos row, dif_pos column]
  · by_cases here : r = i
    · subst here
      rw [Vector.getElem_set_self, Vector.getElem_set, if_pos rfl]
      simp only [eq_comm]
    · rw [Vector.getElem_set_ne _ _ here, if_neg here, ite_self]

/-- Writes into one column of a grid. -/
def puts? (grid : Vector (Vector α m) n) (t : Nat) (writes : List (Nat × α)) :
    Option (Vector (Vector α m) n) :=
  writes.foldlM (fun grid write => put? grid write.1 t write.2) grid

theorem exists_puts? (grid : Vector (Vector α m) n) {t : Nat} (column : t < m)
    {writes : List (Nat × α)} (inside : ∀ write ∈ writes, write.1 < n) :
    ∃ grid', puts? grid t writes = some grid' ∧ ∀ i (hi : i < n) j (hj : j < m),
      grid'[i][j] = if j = t then overlay writes i grid[i][j] else grid[i][j] := by
  induction writes generalizing grid with
  | nil => exact ⟨grid, rfl, fun i hi j hj => (ite_self _).symm⟩
  | cons write writes ih =>
    obtain ⟨first, rest⟩ := List.forall_mem_cons.1 inside
    obtain ⟨grid₁, put, here⟩ := exists_put? grid first column write.2
    obtain ⟨grid₂, puts, there⟩ := ih grid₁ rest
    refine ⟨grid₂, ?_, fun i hi j hj => ?_⟩
    · rw [puts?, List.foldlM_cons, put]
      exact puts
    · rw [there i hi j hj, here i hi j hj]
      by_cases same : j = t
      · rw [if_pos same, if_pos same, if_pos same]
        rfl
      · rw [if_neg same, if_neg same, if_neg same]

end Grids

/-- The grids of a diagram: what stands on the wires, and what passes below them. -/
structure Canvas (n m : Nat) where
  cells : Vector (Vector Text m) n
  bars : Vector (Vector Char m) n

section Canvas

variable {n m : Nat} {op : Operation K}

/-- Plain wires with nothing between them. -/
def Canvas.blank (n m : Nat) : Canvas n m :=
  ⟨.replicate n (.replicate m (wire columnWidth)), .replicate n (.replicate m ' ')⟩

/-- The bar of an operation: of all rows, those up to the lower of its wires, without those above
the upper one. -/
def barWrites (n : Nat) : Operation K → List (Nat × Char)
  | .gate _ [a, b] => (((List.range n).take (max a b)).drop (min a b)).map (·, '│')
  | _ => []

/-- Draws an operation into column `t`. -/
def Canvas.draw? (canvas : Canvas n m) (t : Nat) (op : Operation K) : Option (Canvas n m) := do
  let cells ← puts? canvas.cells t (writes op)
  let bars ← puts? canvas.bars t (barWrites n op)
  return ⟨cells, bars⟩

/-- The canvas shows some operations, and is blank behind them. -/
structure Canvas.Shows (canvas : Canvas n m) (ops : List (Operation K)) : Prop where
  cells : ∀ i (hi : i < n) j (hj : j < m),
    canvas.cells[i][j] = ops[j]?.elim (wire columnWidth) (cell · i)
  bars : ∀ i (hi : i < n) j (hj : j < m),
    canvas.bars[i][j] = ops[j]?.elim ' ' fun op => if joins op i then '│' else ' '

theorem Canvas.shows_blank (n m : Nat) : (blank n m).Shows ([] : List (Operation K)) :=
  ⟨fun i hi j hj => by simp [blank], fun i hi j hj => by simp [blank]⟩

/-- Marks stand on the wires that the operation names. -/
theorem mem_qubits_of_mark {mark : Nat × String} (listed : mark ∈ marks op) :
    mark.1 ∈ op.qubits := by
  unfold marks at listed
  split at listed
  · split at listed
    · cases listed
    · rw [List.mem_singleton.1 listed]
      exact List.mem_singleton_self _
  · rcases List.mem_pair.1 listed with rfl | rfl
    · exact List.mem_cons_self
    · exact List.mem_cons_of_mem _ (List.mem_singleton_self _)
  · cases listed
  · rw [List.mem_singleton.1 listed]
    exact List.mem_singleton_self _
  · obtain ⟨q, named, rfl⟩ := List.mem_map.1 listed
    exact named

theorem lt_of_mem_writes (accepted : op.fault? n = none) : ∀ write ∈ writes op, write.1 < n := by
  intro write listed
  obtain ⟨mark, marked, rfl⟩ := List.mem_map.1 listed
  exact Operation.lt_of_fault?_eq_none accepted _ (mem_qubits_of_mark marked)

theorem lt_of_mem_barWrites : ∀ write ∈ barWrites n op, write.1 < n := by
  intro write listed
  unfold barWrites at listed
  split at listed
  · obtain ⟨r, mem, rfl⟩ := List.mem_map.1 listed
    exact List.mem_range.1 (List.mem_of_mem_take (List.mem_of_mem_drop mem))
  · cases listed

/-- The bar is written into the rows that it passes. -/
theorem overlay_barWrites {r : Nat} (inside : r < n) :
    overlay (barWrites n op) r ' ' = if joins op r then '│' else ' ' := by
  unfold barWrites
  split
  · next a b =>
    have rows : ((List.range n).take (max a b)).drop (min a b) =
        List.range' (min a b) (min (max a b) n - min a b) := by
      rw [List.take_range, List.range_eq_range', List.drop_range', Nat.zero_add, Nat.mul_one]
    rw [overlay_same, rows]
    by_cases joined : min a b ≤ r ∧ r < max a b
    · rw [if_pos (List.mem_range'_1.2 (by omega))]
      simp [joins, joined]
    · rw [if_neg fun mem => joined (by have := List.mem_range'_1.1 mem; omega)]
      simp only [joins, Bool.and_eq_true, decide_eq_true_eq, if_neg joined]
  · next other =>
    have none : joins op r = false := by
      unfold joins
      split
      · next g a b => exact (other g a b rfl).elim
      · rfl
    rw [none]
    rfl

theorem elim_getElem?_concat {β : Type} (done : List (Operation K)) (op : Operation K) (b : β)
    (f : Operation K → β) (j : Nat) : (done ++ [op])[j]?.elim b f =
      if j = done.length then f op else done[j]?.elim b f := by
  rcases Nat.lt_trichotomy j done.length with before | rfl | behind
  · rw [List.getElem?_append_left before, if_neg before.ne]
  · rw [List.getElem?_concat_length, if_pos rfl]
    rfl
  · rw [List.getElem?_eq_none (by simp; omega), List.getElem?_eq_none (by omega),
      if_neg behind.ne']

/-- Drawing an operation adds it to what the canvas shows: every index is inside of the grids, and
what is written stays in one column. -/
theorem Canvas.exists_draw? {canvas : Canvas n m} {done : List (Operation K)}
    (shows : canvas.Shows done) (room : done.length < m) (accepted : op.fault? n = none) :
    ∃ canvas', canvas.draw? done.length op = some canvas' ∧ canvas'.Shows (done ++ [op]) := by
  obtain ⟨cells, drawn, cellsAt⟩ := exists_puts? canvas.cells room (lt_of_mem_writes accepted)
  obtain ⟨bars, barred, barsAt⟩ := exists_puts? canvas.bars room (@lt_of_mem_barWrites K n op)
  refine ⟨⟨cells, bars⟩, ?_, fun i hi j hj => ?_, fun i hi j hj => ?_⟩
  · rw [draw?, drawn, barred]
    rfl
  · rw [cellsAt i hi j hj, shows.cells i hi j hj, elim_getElem?_concat]
    by_cases here : j = done.length
    · rw [if_pos here, if_pos here, List.getElem?_eq_none here.ge]
      exact overlay_writes accepted i
    · rw [if_neg here, if_neg here]
  · rw [barsAt i hi j hj, shows.bars i hi j hj, elim_getElem?_concat]
    by_cases here : j = done.length
    · rw [if_pos here, if_pos here, List.getElem?_eq_none here.ge]
      exact overlay_barWrites hi
    · rw [if_neg here, if_neg here]

/-- Drawing operations one behind the other, by induction on those that are left. -/
theorem Canvas.exists_drawAll {canvas : Canvas n m} {done ops : List (Operation K)}
    (shows : canvas.Shows done) (room : done.length + ops.length ≤ m)
    (accepted : ∀ op ∈ ops, op.fault? n = none) :
    ∃ canvas', (ops.zipIdx done.length).foldlM (fun canvas entry => canvas.draw? entry.2 entry.1)
      canvas = some canvas' ∧ canvas'.Shows (done ++ ops) := by
  induction ops generalizing canvas done with
  | nil => exact ⟨canvas, rfl, by rwa [List.append_nil]⟩
  | cons op ops ih =>
    obtain ⟨first, rest⟩ := List.forall_mem_cons.1 accepted
    rw [List.length_cons] at room
    obtain ⟨next, drawn, shown⟩ := exists_draw? shows (by omega) first
    have length : (done ++ [op]).length = done.length + 1 := List.length_append
    obtain ⟨last, all, whole⟩ := ih shown (by omega) rest
    rw [length] at all
    refine ⟨last, ?_, ?_⟩
    · rw [List.zipIdx_cons, List.foldlM_cons, drawn]
      exact all
    · rwa [List.append_assoc, List.singleton_append] at whole

/-- The rows that are printed for row `r` of the grids, if there is one. -/
def Canvas.row? (canvas : Canvas n m) (r : Nat) : Option (List Text) := do
  let cells ← canvas.cells[r]?
  let wire := paddedLabel n r ++ cells.toList.flatten
  if r < n - 1 then
    let bars ← canvas.bars[r]?
    let marks ← (List.range m).mapM fun t => bars[t]?
    return [wire, blanks (labelWidth n) ++ marks.flatMap fun mark =>
      blanks (columnWidth / 2) ++ [mark] ++ blanks (columnWidth / 2)]
  else return [wire]

/-- The rows of a diagram that is drawn on grids and printed from them; there are none if an index
is out of range on the way. -/
def sketch? (c : Circuit K) : Option (List Text) := do
  let canvas ← c.operations.zipIdx.foldlM (fun canvas entry => canvas.draw? entry.2 entry.1)
    (Canvas.blank c.qubits c.operations.length)
  let rows ← (List.range c.qubits).mapM canvas.row?
  return rows.flatten

variable {c : Circuit K}

/-- The grids that show all operations are printed as the rows of the diagram. -/
theorem Canvas.row?_eq {canvas : Canvas c.qubits c.operations.length}
    (shows : canvas.Shows c.operations)
    (accepted : ∀ op ∈ c.operations, op.fault? c.qubits = none) {r : Nat} (inside : r < c.qubits) :
    canvas.row? r = some (if r + 1 < c.qubits then [wireRow c r, connectorRow c r]
      else [wireRow c r]) := by
  have cells : (canvas.cells[r]).toList = c.operations.map (cell · r) := by
    refine List.ext_getElem (by simp) fun j hj _ => ?_
    rw [Vector.length_toList] at hj
    rw [Vector.getElem_toList, shows.cells r inside j hj, List.getElem_map,
      List.getElem?_eq_getElem hj]
    rfl
  have bars : ((List.range c.operations.length).mapM fun t => (canvas.bars[r])[t]?) =
      some (c.operations.map fun op => if joins op r then '│' else ' ') := by
    have each : ∀ t ∈ List.range c.operations.length, (canvas.bars[r])[t]? =
        some (c.operations[t]?.elim ' ' fun op => if joins op r then '│' else ' ') := by
      intro t mem
      have lt := List.mem_range.1 mem
      rw [Vector.getElem?_eq_getElem lt, shows.bars r inside t lt]
    rw [mapM_eq_some each]
    refine congrArg some (List.ext_getElem (by simp) fun j _ hj => ?_)
    rw [List.length_map] at hj
    rw [List.getElem_map, List.getElem_map, List.getElem_range, List.getElem?_eq_getElem hj]
    rfl
  have wire : paddedLabel c.qubits r ++ (canvas.cells[r]).toList.flatten = wireRow c r := by
    rw [wireRow_eq accepted inside, cells]
    rfl
  have connector : (blanks (labelWidth c.qubits) ++
      (c.operations.map fun op => if joins op r then '│' else ' ').flatMap fun mark =>
        blanks (columnWidth / 2) ++ [mark] ++ blanks (columnWidth / 2)) = connectorRow c r := by
    rw [List.flatMap_map]
    rfl
  rw [row?, Vector.getElem?_eq_getElem inside, Vector.getElem?_eq_getElem inside]
  dsimp only [Option.bind_eq_bind, Option.bind_some]
  rw [wire, bars]
  dsimp only [Option.bind_some]
  rw [connector]
  have below : r < c.qubits - 1 ↔ r + 1 < c.qubits := by omega
  simp only [below]
  split_ifs <;> rfl

/-- Drawing on grids goes well, and gives the rows of the diagram. -/
theorem sketch?_eq (accepted : ∀ op ∈ c.operations, op.fault? c.qubits = none) :
    sketch? c = some (rows c) := by
  obtain ⟨canvas, drawn, shows⟩ := Canvas.exists_drawAll
    (Canvas.shows_blank c.qubits c.operations.length) (Nat.zero_add _).le accepted
  have printed := mapM_eq_some fun r mem =>
    canvas.row?_eq shows accepted (List.mem_range.1 mem)
  have rows : ((List.range c.qubits).map fun r => if r + 1 < c.qubits
      then [wireRow c r, connectorRow c r] else [wireRow c r]).flatten = rows c := rfl
  rw [List.length_nil] at drawn
  unfold sketch?
  rw [drawn]
  dsimp only [Option.bind_eq_bind, Option.bind_some]
  rw [printed, ← rows]
  rfl

end Canvas

/-! ## Lines -/

section Lines

variable {c : Circuit K} {op : Operation K}

theorem lineFeed_notMem_replicate {a : Char} (other : a ≠ '\n') (k : Nat) :
    '\n' ∉ List.replicate k a := fun mem => other (List.eq_of_mem_replicate mem).symm

theorem lineFeed_notMem_digits (k : Nat) : '\n' ∉ Decimal.digits k := fun mem =>
  absurd (Decimal.isDigit_of_mem_digits _ mem) (by decide)

theorem lineFeed_notMem_cell (op : Operation K) (q : Nat) : '\n' ∉ cell op q := by
  have wire (k : Nat) : '\n' ∉ wire k := lineFeed_notMem_replicate (by decide) k
  unfold cell
  cases shown : symbolOn op q with
  | none => exact wire columnWidth
  | some symbol =>
    obtain ⟨short, inside⟩ := of_mem_symbols (mem_symbols_of_symbolOn shown)
    obtain ⟨left, right, spelled, -⟩ := centred_centred short
    rw [Option.elim_some, spelled, List.append_assoc, List.mem_append, List.mem_append]
    exact fun mem => mem.elim (wire left) fun mem => mem.elim inside (wire right)

theorem lineFeed_notMem_connector (op : Operation K) (r : Nat) : '\n' ∉ connector op r := by
  have blank (k : Nat) : '\n' ∉ blanks k := lineFeed_notMem_replicate (by decide) k
  have bar : (if joins op r then '│' else ' ') ≠ '\n' := by
    cases joins op r <;> decide
  rw [connector, List.append_assoc, List.mem_append, List.mem_append, List.mem_singleton]
  exact fun mem => mem.elim (blank _) fun mem => mem.elim (bar ∘ Eq.symm) (blank _)

/-- The lines of a diagram are single lines. -/
theorem lineFeed_notMem_lines (accepted : ∀ op ∈ c.operations, op.fault? c.qubits = none) :
    ∀ line ∈ header c.operations.length c.qubits :: rows c, '\n' ∉ line := by
  have blank (k : Nat) : '\n' ∉ blanks k := lineFeed_notMem_replicate (by decide) k
  have digits := lineFeed_notMem_digits
  refine List.forall_mem_cons.2 ⟨?_, fun row listed => ?_⟩
  · unfold header
    simp only [List.mem_append, not_or]
    exact ⟨⟨⟨⟨by decide, digits _⟩, by decide⟩, digits _⟩, by decide⟩
  · rcases mem_rows_iff.1 listed with ⟨q, inside, rfl⟩ | ⟨r, inside, rfl⟩
    · rw [wireRow_eq accepted inside]
      simp [paddedLabel, label, digits, blank, lineFeed_notMem_cell]
    · rw [connectorRow]
      simp [blank, lineFeed_notMem_connector]

end Lines

/-! ## Main result -/

section Main

variable {c : Circuit K}

/-- The text is plain wire, or the symbol in the middle of a wire. -/
def Shown (symbol : Option String) (text : Text) : Prop :=
  symbol.elim (text = wire columnWidth) fun symbol => Centred symbol.toList text

theorem shown_cell (op : Operation K) (q : Nat) : Shown (symbolOn op q) (cell op q) := by
  unfold cell
  cases shown : symbolOn op q with
  | none => exact rfl
  | some symbol =>
    exact centred_centred (of_mem_symbols (mem_symbols_of_symbolOn shown)).1

theorem diagram_eq (nonempty : c.operations ≠ []) (positive : 0 < c.qubits) :
    c.diagram.toList =
      (header c.operations.length c.qubits :: rows c).flatMap (· ++ ['\n']) := by
  have drawn : (c.operations.isEmpty || c.qubits == 0) = false := by
    simp [nonempty, positive.ne']
  rw [Circuit.diagram, String.toList_ofList, lines, drawn, if_neg Bool.false_ne_true]

/-- **Diagrams show their circuits.** The diagram of a circuit with operations is a header and a row
for each wire, with rows between them. All rows are equally long: as long as the longest label, and
seven characters for each operation. In its column an operation shows its symbol on the wires that
it names, in the middle of the column, and plain wire on the others; the rows between wires show a
bar in the middle where a gate on two qubits passes, and nothing otherwise. The diagram is also what
drawing on two grids and printing them gives, where every index is in range. -/
theorem diagram_of_reachable (reachable : c.Reachable) (positive : 0 < c.qubits)
    (nonempty : c.operations ≠ []) :
    (c.diagram.toList = (header c.operations.length c.qubits :: rows c).flatMap (· ++ ['\n']) ∧
      ∀ line ∈ header c.operations.length c.qubits :: rows c, '\n' ∉ line) ∧
    (rows c).length = 2 * c.qubits - 1 ∧
    (∀ row ∈ rows c, row.length = labelWidth c.qubits + 7 * c.operations.length) ∧
    ((∀ q < c.qubits, (label q).length ≤ labelWidth c.qubits) ∧
      ∃ q < c.qubits, (label q).length = labelWidth c.qubits) ∧
    (∀ q < c.qubits, ∃ row, (rows c)[2 * q]? = some row ∧
      row.take (labelWidth c.qubits) =
        label q ++ blanks (labelWidth c.qubits - (label q).length) ∧
      ∀ t op, c.operations[t]? = some op →
        Shown (symbolOn op q) (inColumn c.qubits t row)) ∧
    (∀ r, r + 1 < c.qubits → ∃ row, (rows c)[2 * r + 1]? = some row ∧
      row.take (labelWidth c.qubits) = blanks (labelWidth c.qubits) ∧
      ∀ t op, c.operations[t]? = some op →
        (Joined op r → inColumn c.qubits t row = blanks 3 ++ '│' :: blanks 3) ∧
        (¬ Joined op r → inColumn c.qubits t row = blanks 7)) ∧
    sketch? c = some (rows c) := by
  have accepted := reachable.fault?_eq_none
  have wired {q : Nat} (inside : q < c.qubits) :=
    of_row c.operations (length_paddedLabel inside) fun op => length_cell op q
  have connected (r : Nat) :=
    of_row c.operations (List.length_replicate : (blanks (labelWidth c.qubits)).length = _)
      fun op => length_connector op r
  refine ⟨⟨diagram_eq nonempty positive, lineFeed_notMem_lines accepted⟩, length_rows positive,
    fun row listed => ?_, ⟨fun q => length_label_le, exists_length_label positive⟩,
    fun q inside => ⟨_, getElem?_rows_wire inside, ?_, fun t op entry => ?_⟩,
    fun r inside => ⟨_, getElem?_rows_connector inside, (connected r).2.1, fun t op entry => ?_⟩,
    sketch?_eq accepted⟩
  · rcases mem_rows_iff.1 listed with ⟨q, inside, rfl⟩ | ⟨r, inside, rfl⟩
    · rw [wireRow_eq accepted inside]
      exact (wired inside).1
    · exact (connected r).1
  · rw [wireRow_eq accepted inside]
    exact (wired inside).2.1
  · rw [wireRow_eq accepted inside, (wired inside).2.2 t op entry]
    exact shown_cell op q
  · have column : inColumn c.qubits t (connectorRow c r) = connector op r :=
      (connected r).2.2 t op entry
    rw [column, connector]
    constructor
    · intro joined
      rw [joins_iff.2 joined]
      rfl
    · intro apart
      rw [Bool.eq_false_iff.2 (joins_iff.not.2 apart)]
      rfl

/-- Eleven qubits, so that the labels differ in length, with a control below its target and a
barrier that names a qubit twice. -/
def eleven : Circuit Float :=
  ⟨11, [.gate .cx [2, 0], .gate .id [1], .barrier [1, 1], .measure 10 0]⟩

theorem diagram_of_reachable_eleven : (rows eleven).length = 21 ∧
    (∃ row, (rows eleven)[0]? = some row ∧ row.length = 33 ∧ row.take 5 = "q0:  ".toList ∧
      inColumn 11 0 row = "───X───".toList ∧ inColumn 11 2 row = "───────".toList) ∧
    (∃ row, (rows eleven)[4]? = some row ∧ inColumn 11 0 row = "───@───".toList) ∧
    (∃ row, (rows eleven)[3]? = some row ∧
      inColumn 11 0 row = "   │   ".toList ∧ inColumn 11 3 row = "       ".toList) ∧
    sketch? eleven = some (rows eleven) := by
  have reachable : eleven.Reachable :=
    Circuit.reachable_of_accepted (by decide)
      (by simp [Operation.fault?, Operation.qubits, Gate.arity])
  have width : labelWidth 11 = 5 := by decide +kernel
  obtain ⟨-, count, long, -, wires, connectors, sketched⟩ :=
    diagram_of_reachable reachable (by decide) (List.cons_ne_nil _ _)
  obtain ⟨row, first, named, shown⟩ := wires 0 (by decide)
  obtain ⟨row₂, fourth, -, shown₂⟩ := wires 2 (by decide)
  obtain ⟨row', third, -, crossed⟩ := connectors 1 (by decide)
  have apart : ¬ Joined (.measure 10 0 : Operation Float) 1 := by
    rintro ⟨_, _, _, other, -⟩
    cases other
  refine ⟨count, ⟨row, first, ?_, ?_, ?_, shown 2 _ rfl⟩, ⟨row₂, fourth, ?_⟩,
    ⟨row', third, (crossed 0 _ rfl).1 ⟨.cx, 2, 0, rfl, by decide, by decide⟩,
      (crossed 3 _ rfl).2 apart⟩, sketched⟩
  · have all := long row (List.mem_of_getElem? first)
    rwa [show labelWidth eleven.qubits = 5 from width] at all
  · rw [show labelWidth eleven.qubits = 5 from width] at named
    rw [named]
    decide +kernel
  · have target : Centred ['X'] (inColumn 11 0 row) := shown 0 _ rfl
    rw [target.eq_of_singleton]
    decide
  · have symbol : symbolOn (.gate .cx [2, 0] : Operation Float) 2 = some "@" :=
      symbolOn_head_eq_iff.2 ⟨.x, .x⟩
    have control : Shown (some "@") (inColumn 11 0 row₂) := symbol ▸ shown₂ 0 _ rfl
    rw [Centred.eq_of_singleton control]
    decide

end Main

end QubitTrace.Diagram
