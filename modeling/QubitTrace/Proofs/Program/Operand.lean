import Mathlib
import QubitTrace.Program.Register
import QubitTrace.Proofs.Decimal.Digits
import QubitTrace.Proofs.Except

/-! # Operands read back

A name is read as itself, and the element `name[i]` as that name and that index. Whatever else an
operand looks like, the name in it is an identifier.
-/

namespace QubitTrace.Program
set_option autoImplicit false

/-- The operand `name[i]`. -/
def element (name : Text) (i : Nat) : Text := name ++ '[' :: (Decimal.digits i ++ [']'])

/-! ## Identifiers -/

theorem toNat_of_isAlphanum {c : Char} (letter : c.isAlphanum = true) :
    48 ≤ c.toNat ∧ c.toNat ≤ 57 ∨ 65 ≤ c.toNat ∧ c.toNat ≤ 90 ∨ 97 ≤ c.toNat ∧ c.toNat ≤ 122 := by
  simp only [Char.isAlphanum, Char.isAlpha, Char.isUpper, Char.isLower, Char.isDigit,
    Bool.or_eq_true, Bool.and_eq_true, decide_eq_true_eq, UInt32.le_iff_toNat_le, ge_iff_le]
    at letter
  change (65 ≤ c.toNat ∧ c.toNat ≤ 90 ∨ 97 ≤ c.toNat ∧ c.toNat ≤ 122) ∨
    48 ≤ c.toNat ∧ c.toNat ≤ 57 at letter
  omega

/-- The characters of identifiers are letters, digits and underscores. -/
theorem toNat_of_mem_name {name : Text} (identifier : isName name = true) {c : Char}
    (mem : c ∈ name) : c = '_' ∨ 48 ≤ c.toNat ∧ c.toNat ≤ 57 ∨ 65 ≤ c.toNat ∧ c.toNat ≤ 90 ∨
      97 ≤ c.toNat ∧ c.toNat ≤ 122 := by
  cases name with
  | nil => cases mem
  | cons d s =>
    obtain ⟨first, rest⟩ := Bool.and_eq_true_iff.1 identifier
    rcases List.mem_cons.1 mem with rfl | later
    · exact Or.inr (toNat_of_isAlphanum (by simp [Char.isAlphanum, first]))
    · rcases Bool.or_eq_true_iff.1 (List.all_eq_true.1 rest c later) with letter | underscore
      · exact Or.inr (toNat_of_isAlphanum letter)
      · exact Or.inl (by simpa using underscore)

theorem isBlank_of_mem_name {name : Text} (identifier : isName name = true) :
    ∀ c ∈ name, Text.isBlank c = false := by
  intro c mem
  rcases toNat_of_mem_name identifier mem with rfl | range
  · rfl
  · exact Text.isBlank_of_ascii (by omega) (by omega)

theorem bracket_notMem_name {name : Text} (identifier : isName name = true) : '[' ∉ name := by
  intro mem
  have := toNat_of_mem_name identifier mem
  simp at this

theorem trim_name {name : Text} (identifier : isName name = true) : Text.trim name = name :=
  Text.trim_of_visible (isBlank_of_mem_name identifier)

theorem named_eq_ok_iff {name word : Text} {index index' : Option Nat} :
    named name index = .ok (word, index') ↔ isName name = true ∧ name = word ∧ index = index' := by
  unfold named
  split_ifs with identifier <;> simp [identifier]

/-! ## Reading operands -/

/-- The operands that name something, or one index of it: `name` or `name[index]`, with white space
around the name and around the index. -/
inductive Written : (operand name : Text) → Option Nat → Prop where
  | whole {operand name : Text} : Text.trim operand = name → isName name = true →
      Written operand name none
  | indexed {front name index : Text} {i : Nat} : '[' ∉ front → Text.trim front = name →
      isName name = true → Literal.readSize (Text.trim index) = some i →
      Written (front ++ '[' :: (index ++ [']'])) name (some i)

/-- The operands that are read are those. -/
theorem readOperand_eq_ok_iff {operand name : Text} {index : Option Nat} :
    readOperand operand = .ok (name, index) ↔ Written operand name index := by
  constructor
  · intro read
    unfold readOperand at read
    split at read
    · obtain ⟨identifier, rfl, rfl⟩ := named_eq_ok_iff.1 read
      exact .whole rfl identifier
    · next cut =>
      obtain ⟨free, rfl⟩ := Text.cut?_singleton_eq_some_iff.1 cut
      split at read
      · cases read
      · next closed =>
        split at read
        · cases read
        · next size =>
          rw [Text.withoutLast?_eq_some_iff.1 closed]
          obtain ⟨identifier, rfl, rfl⟩ := named_eq_ok_iff.1 read
          exact .indexed free rfl identifier size
  · intro written
    cases written with
    | whole trimmed identifier =>
      have free : '[' ∉ operand := fun mem =>
        bracket_notMem_name identifier (trimmed ▸ Text.mem_trim mem (by decide))
      rw [readOperand, Text.cut?_eq_none free, trimmed]
      exact named_eq_ok_iff.2 ⟨identifier, rfl, rfl⟩
    | indexed free trimmed identifier size =>
      rw [readOperand, Text.cut?_singleton free]
      simp only [Text.withoutLast?_concat, size, trimmed]
      exact named_eq_ok_iff.2 ⟨identifier, rfl, rfl⟩

/-- A name is an operand without an index. -/
theorem readOperand_name {name : Text} (identifier : isName name = true) :
    readOperand name = .ok (name, none) :=
  readOperand_eq_ok_iff.2 (.whole (trim_name identifier) identifier)

/-- An element is read as its name and its index. -/
theorem readOperand_element {name : Text} (identifier : isName name = true) {i : Nat}
    (small : i < Literal.sizeLimit) : readOperand (element name i) = .ok (name, some i) := by
  have digits : Text.trim (Decimal.digits i) = Decimal.digits i :=
    Text.trim_of_visible fun c mem =>
      Decimal.isBlank_of_isDigit (Decimal.isDigit_of_mem_digits c mem)
  refine readOperand_eq_ok_iff.2 (.indexed (bracket_notMem_name identifier) (trim_name identifier)
    identifier ?_)
  rw [digits, Decimal.readSize_digits small]

/-- The name in an operand is an identifier. -/
theorem isName_of_readOperand {operand name : Text} {index : Option Nat}
    (read : readOperand operand = .ok (name, index)) : isName name = true := by
  cases readOperand_eq_ok_iff.1 read with
  | whole _ identifier => exact identifier
  | indexed _ _ identifier _ => exact identifier

end QubitTrace.Program
