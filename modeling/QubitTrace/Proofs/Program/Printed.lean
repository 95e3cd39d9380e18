import Mathlib
import QubitTrace.Operation
import QubitTrace.Proofs.Angle.Printed
import QubitTrace.Proofs.Program.Operand
import QubitTrace.Proofs.Program.Statements

/-! # Operations as statements

What a printed operation is made of: a keyword or a gate with its angles, a blank, and operands.
Apart from blanks all its characters are visible ones that end no statement and start no comment
(`Printing`).
-/

namespace QubitTrace.Program
set_option autoImplicit false

open Decimal (fixed natText)

/-! ## Characters -/

/-- A visible character that ends neither a statement nor a line and starts no comment. -/
def Printing (c : Char) : Prop := 40 ≤ c.toNat ∧ c.toNat ≤ 122 ∧ c.toNat ≠ 47 ∧ c.toNat ≠ 59
  deriving Decidable

theorem Printing.isBlank {c : Char} (printing : Printing c) : Text.isBlank c = false :=
  Text.isBlank_of_ascii (by have := printing.1; omega) (by have := printing.2.1; omega)

/-- A character that ends neither a statement nor a line and starts no comment. -/
def Plain (c : Char) : Prop := c ≠ ';' ∧ c ≠ '\n' ∧ c ≠ '/'
  deriving Decidable

theorem Printing.plain {c : Char} (printing : Printing c) : Plain c := by
  obtain ⟨low, -, slash, semicolon⟩ := printing
  refine ⟨?_, ?_, ?_⟩ <;> rintro rfl
  · exact semicolon rfl
  · exact absurd low (by decide)
  · exact slash rfl

theorem printing_of_isNameChar {c : Char} (letter : isNameChar c = true) : Printing c := by
  rcases Bool.or_eq_true_iff.1 letter with alphanumeric | underscore
  · have := toNat_of_isAlphanum alphanumeric
    exact ⟨by omega, by omega, by omega, by omega⟩
  · rw [eq_of_beq underscore]
    decide

theorem element_ne_nil (name : Text) (i : Nat) : element name i ≠ [] := by
  simp [element]

/-- The characters of an element of a register. -/
theorem toNat_of_mem_element {name : Text} (identifier : isName name = true) {i : Nat} {c : Char}
    (mem : c ∈ element name i) : 48 ≤ c.toNat ∧ c.toNat ≤ 122 ∧ c.toNat ≠ 59 := by
  rcases List.mem_append.1 mem with word | index
  · rcases toNat_of_mem_name identifier word with rfl | range
    · decide
    · omega
  · rcases List.mem_cons.1 index with rfl | tail
    · decide
    · rcases List.mem_append.1 tail with digit | last
      · have := Decimal.toNat_of_isDigit (Decimal.isDigit_of_mem_digits c digit)
        omega
      · rw [List.mem_singleton.1 last]
        decide

theorem printing_of_mem_element {name : Text} (identifier : isName name = true) {i : Nat} {c : Char}
    (mem : c ∈ element name i) : Printing c := by
  have := toNat_of_mem_element identifier mem
  exact ⟨by omega, by omega, by omega, by omega⟩

theorem separate_of_le {c : Char} (le : 45 ≤ c.toNat) : c ≠ '(' ∧ c ≠ ')' ∧ c ≠ ',' := by
  refine ⟨?_, ?_, ?_⟩ <;> rintro rfl <;> exact absurd le (by decide)

theorem isBlankText_of_visible {s : Text} (nonempty : s ≠ [])
    (visible : ∀ c ∈ s, Text.isBlank c = false) : Text.isBlankText s = false := by
  cases s with
  | nil => exact absurd rfl nonempty
  | cons c s => rw [Text.isBlankText, List.all_cons, visible c List.mem_cons_self, Bool.false_and]

/-- The keywords of statements that apply no gate. -/
def reserved : List String :=
  ["OPENQASM", "include", "qreg", "creg", "measure", "barrier", "gate", "opaque", "if", "reset"]

theorem printing_of_reserved {keyword : String} (word : keyword ∈ reserved) {c : Char}
    (mem : c ∈ keyword.toList) : Printing c := by
  have all : ∀ s ∈ reserved, ∀ c ∈ s.toList, Printing c := by
    simp [reserved]
    decide
  exact all keyword word c mem

theorem visible_of_reserved {keyword : String} (word : keyword ∈ reserved) :
    ∀ c ∈ keyword.toList, Text.isBlank c = false := fun _ mem =>
  (printing_of_reserved word mem).isBlank

/-! ## Operands -/

/-- Operands of the register `q`, as they are written. -/
def operandList (qubits : List Nat) : Text := List.intercalate [','] (qubits.map (element ['q']))

theorem toList_operands (qubits : List Nat) :
    (Operation.operands qubits).toList = operandList qubits := by
  rw [Operation.operands, String.toList_intercalate, List.map_map, operandList]
  congr 1
  apply List.map_congr_left
  intro q _
  simp [element, natText, toString]

theorem printing_of_mem_operandList {qubits : List Nat} {c : Char}
    (mem : c ∈ operandList qubits) : Printing c := by
  rcases mem_intercalate mem with rfl | ⟨piece, listed, inside⟩
  · decide
  · obtain ⟨q, -, rfl⟩ := List.mem_map.1 listed
    exact printing_of_mem_element rfl inside

theorem exists_operandList_cons (q : Nat) (qubits : List Nat) :
    ∃ s, operandList (q :: qubits) = 'q' :: s := by
  cases qubits with
  | nil => exact ⟨_, rfl⟩
  | cons q' qubits => exact ⟨_, List.intercalate_cons_cons⟩

theorem first_of_operandList {qubits : List Nat} :
    ∀ c ∈ (operandList qubits).head?, Text.isBlank c = false ∧ c ≠ '(' := by
  intro c mem
  cases qubits with
  | nil => cases mem
  | cons q qubits =>
    obtain ⟨s, shape⟩ := exists_operandList_cons q qubits
    rw [shape] at mem
    cases mem
    decide

/-! ## Gates -/

section Gates

variable {g : Gate Float} {a : Float} {c : Char}

theorem toNat_of_mem_angle (finite : Scalar.isFinite a = true)
    (mem : c ∈ (fixed .minus 4 a).toList) : 45 ≤ c.toNat ∧ c.toNat ≤ 57 ∧ c.toNat ≠ 47 := by
  obtain ⟨negative, n, text, -⟩ := Decimal.exists_fixed_four finite
  rw [text] at mem
  rcases Angle.mem_signed_placed mem with digital | rfl | rfl
  · have := Decimal.toNat_of_isDigit digital
    omega
  · decide
  · decide

theorem fixed_ne_nil (finite : Scalar.isFinite a = true) : (fixed .minus 4 a).toList ≠ [] := by
  obtain ⟨negative, n, text, -⟩ := Decimal.exists_fixed_four finite
  obtain ⟨d, s, shape, -⟩ := Angle.exists_placed_cons n
  rw [text, shape]
  simp

theorem isNameChar_of_mem_name (g : Gate Float) : ∀ c ∈ g.name.toList, isNameChar c = true := by
  cases g <;> simp [Gate.name] <;> decide

theorem printing_of_mem_name (mem : c ∈ g.name.toList) : Printing c :=
  printing_of_isNameChar (isNameChar_of_mem_name g c mem)

theorem name_ne_nil (g : Gate Float) : g.name.toList ≠ [] := by
  cases g <;> simp [Gate.name]

theorem text_of_params_eq_nil (none : g.params = []) : g.text.toList = g.name.toList := by
  rw [Gate.text, none]

theorem text_of_params_ne_nil (some : g.params ≠ []) :
    g.text.toList = g.name.toList ++ '(' ::
      (List.intercalate [','] (g.params.map fun a => (fixed .minus 4 a).toList) ++ [')']) := by
  cases angles : g.params with
  | nil => exact absurd angles some
  | cons a rest =>
    rw [Gate.text, angles]
    simp [String.toList_append, String.toList_intercalate, Function.comp_def]

theorem text_ne_nil (g : Gate Float) : g.text.toList ≠ [] := by
  by_cases none : g.params = []
  · rw [text_of_params_eq_nil none]
    exact name_ne_nil g
  · rw [text_of_params_ne_nil none]
    simp

theorem printing_of_mem_gateText (finite : ∀ a ∈ g.params, Scalar.isFinite a = true)
    (mem : c ∈ g.text.toList) : Printing c := by
  by_cases none : g.params = []
  · rw [text_of_params_eq_nil none] at mem
    exact printing_of_mem_name mem
  · rw [text_of_params_ne_nil none] at mem
    rcases List.mem_append.1 mem with name | tail
    · exact printing_of_mem_name name
    · rcases List.mem_cons.1 tail with rfl | tail
      · decide
      · rcases List.mem_append.1 tail with list | last
        · rcases mem_intercalate list with rfl | ⟨piece, listed, inside⟩
          · decide
          · obtain ⟨a, given, rfl⟩ := List.mem_map.1 listed
            have := toNat_of_mem_angle (finite a given) inside
            exact ⟨by omega, by omega, by omega, by omega⟩
        · rw [List.mem_singleton.1 last]
          decide

end Gates

/-! ## Statements -/

theorem text_gate (g : Gate Float) (qubits : List Nat) :
    (Operation.gate g qubits).text.toList = g.text.toList ++ ' ' :: operandList qubits := by
  rw [← toList_operands]
  simp [Operation.text, toString]

/-- The measurement of one operand into another. -/
def measurement (source target : Text) : Text :=
  "measure".toList ++ ' ' :: (source ++ " -> ".toList ++ target)

theorem text_measure (qubit clbit : Nat) : (Operation.measure qubit clbit).text.toList =
    measurement (element ['q'] qubit) (element ['c'] clbit) := by
  have spelled : (Operation.measure qubit clbit).text.toList = "measure".toList ++
      ' ' :: (element ['q'] qubit ++ " -> ".toList ++ element ['c'] clbit) := by
    simp [Operation.text, element, natText, toString]
  exact spelled

theorem text_barrier (qubits : List Nat) :
    (Operation.barrier qubits).text.toList = "barrier".toList ++ ' ' :: operandList qubits := by
  rw [← toList_operands]
  simp [Operation.text, toString]

theorem plain_of_mem_measurement {source target : Text} {c : Char}
    (qubits : ∀ c ∈ source, Plain c) (bits : ∀ c ∈ target, Plain c)
    (mem : c ∈ measurement source target) : Plain c := by
  have arrow : ∀ c ∈ " -> ".toList, Plain c := by
    simp
    decide
  unfold measurement at mem
  rcases List.mem_append.1 mem with front | back
  · exact (printing_of_reserved (by decide) front).plain
  · rcases List.mem_cons.1 back with rfl | operands
    · decide
    · rcases List.mem_append.1 operands with front | back
      · rcases List.mem_append.1 front with inside | between
        · exact qubits c inside
        · exact arrow c between
      · exact bits c back

theorem plain_of_mem_text {op : Operation Float} {c : Char}
    (finite : ∀ g qubits, op = .gate g qubits → ∀ a ∈ g.params, Scalar.isFinite a = true)
    (mem : c ∈ op.text.toList) : Plain c := by
  have blank : Plain ' ' := by decide
  cases op with
  | gate g qubits =>
    rw [text_gate] at mem
    rcases List.mem_append.1 mem with front | back
    · exact (printing_of_mem_gateText (finite g qubits rfl) front).plain
    · rcases List.mem_cons.1 back with rfl | list
      · exact blank
      · exact (printing_of_mem_operandList list).plain
  | measure q b =>
    rw [text_measure] at mem
    exact plain_of_mem_measurement (fun _ inside => (printing_of_mem_element rfl inside).plain)
      (fun _ inside => (printing_of_mem_element rfl inside).plain) mem
  | barrier qubits =>
    rw [text_barrier] at mem
    rcases List.mem_append.1 mem with front | back
    · exact (printing_of_reserved (by decide) front).plain
    · rcases List.mem_cons.1 back with rfl | list
      · exact blank
      · exact (printing_of_mem_operandList list).plain

/-- No printed operation is blank. -/
theorem trim_text_ne_nil (op : Operation Float) : Text.trim op.text.toList ≠ [] := by
  cases op with
  | gate g qubits =>
    cases name : g.name.toList with
    | nil => exact absurd name (name_ne_nil g)
    | cons c s =>
      have visible : Text.isBlank c = false :=
        (printing_of_mem_name (name ▸ List.mem_cons_self : c ∈ g.name.toList)).isBlank
      by_cases none : g.params = []
      · rw [text_gate, text_of_params_eq_nil none, name]
        exact Text.trim_ne_nil visible _
      · rw [text_gate, text_of_params_ne_nil none, name]
        exact Text.trim_ne_nil visible _
  | measure q b =>
    rw [text_measure]
    exact Text.trim_ne_nil (c := 'm') rfl _
  | barrier qubits =>
    rw [text_barrier]
    exact Text.trim_ne_nil (c := 'b') rfl _

end QubitTrace.Program
