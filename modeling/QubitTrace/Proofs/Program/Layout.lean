import Mathlib
import QubitTrace.Proofs.Program.Operand

/-! # Registers lie one after another

Each register starts where the one before ends (`Laid`), so the registers share out a range of
flat indices: every index belongs to exactly one element of one register (`Layout.of_laid`).
-/

namespace QubitTrace.Program
set_option autoImplicit false

open Register (total resolve declare)

/-- Registers that lie one after another from index zero on, none of them empty. -/
inductive Laid : List Register → Prop where
  | nil : Laid []
  | snoc {registers : List Register} {r : Register} :
      Laid registers → isName r.name = true → r.offset = total registers → 0 < r.size →
        r.stop < Literal.sizeLimit → Laid (registers ++ [r])

@[simp] theorem total_nil : total [] = 0 := rfl

@[simp] theorem total_concat (registers : List Register) (r : Register) :
    total (registers ++ [r]) = r.stop := by
  simp [total]

/-- The name and the size a register is declared with. -/
def Register.declaration (r : Register) : Text × Nat := (r.name, r.size)

/-- The number of flat indices that registers of the declared sizes take. -/
def flatSize (declared : List (Text × Nat)) : Nat := (declared.map Prod.snd).sum

theorem flatSize_concat (declared : List (Text × Nat)) (d : Text × Nat) :
    flatSize (declared ++ [d]) = flatSize declared + d.2 := by
  simp [flatSize]

namespace Laid

variable {registers : List Register}

theorem total_eq (laid : Laid registers) :
    total registers = flatSize (registers.map Register.declaration) := by
  induction laid with
  | nil => rfl
  | snoc _ _ offset _ _ ih =>
    rw [total_concat, List.map_append, List.map_singleton, flatSize_concat, ← ih, ← offset]
    rfl

theorem stop_le (laid : Laid registers) : ∀ r ∈ registers, r.stop ≤ total registers := by
  induction laid with
  | nil => intro r mem; cases mem
  | @snoc registers last _ _ offset _ _ ih =>
    intro r mem
    rw [total_concat]
    rcases List.mem_append.1 mem with front | back
    · exact (ih r front).trans (offset ▸ Nat.le_add_right last.offset last.size)
    · rw [List.mem_singleton.1 back]

theorem spec_of_mem (laid : Laid registers) :
    ∀ r ∈ registers, isName r.name = true ∧ 0 < r.size ∧ r.stop < Literal.sizeLimit := by
  induction laid with
  | nil => intro r mem; cases mem
  | snoc _ identifier _ positive small ih =>
    intro r mem
    rcases List.mem_append.1 mem with front | back
    · exact ih r front
    · rw [List.mem_singleton.1 back]
      exact ⟨identifier, positive, small⟩

/-- A register starts where those before it end. -/
theorem offset_eq (laid : Laid registers) {pre post : List Register} {r : Register}
    (split : registers = pre ++ r :: post) :
    r.offset = flatSize (pre.map Register.declaration) := by
  induction laid generalizing post with
  | nil => simp at split
  | @snoc registers last before _ offset _ _ ih =>
    rcases List.eq_nil_or_concat post with rfl | ⟨post, other, rfl⟩
    · obtain ⟨rfl, same⟩ := List.append_inj' split rfl
      cases same
      rw [offset, before.total_eq]
    · have shifted : registers ++ [last] = (pre ++ r :: post) ++ [other] := by
        simpa using split
      exact ih (List.append_inj' shifted rfl).1

theorem exists_of_declared (laid : Laid registers) {pre post : List (Text × Nat)} {name : Text}
    {size : Nat} (split : registers.map Register.declaration = pre ++ (name, size) :: post) :
    ∃ r ∈ registers, r.name = name ∧ r.size = size ∧ r.offset = flatSize pre := by
  obtain ⟨front, back, shape, rfl, rest⟩ := List.map_eq_append_iff.1 split
  obtain ⟨r, tail, rfl, declared, -⟩ := List.map_eq_cons_iff.1 rest
  cases declared
  exact ⟨r, by simp [shape], rfl, rfl, laid.offset_eq shape⟩

/-- Every flat index lies in a register. -/
theorem exists_mem (laid : Laid registers) {k : Nat} (lt : k < total registers) :
    ∃ r ∈ registers, r.offset ≤ k ∧ k < r.stop := by
  induction laid with
  | nil => cases lt
  | @snoc registers last _ _ offset _ _ ih =>
    rw [total_concat] at lt
    by_cases inside : k < total registers
    · obtain ⟨r, mem, found⟩ := ih inside
      exact ⟨r, List.mem_append_left _ mem, found⟩
    · exact ⟨last, by simp, by omega, lt⟩

/-- No flat index lies in two registers. -/
theorem eq_of_mem (laid : Laid registers) {r s : Register} (hr : r ∈ registers)
    (hs : s ∈ registers) {k : Nat} (inr : r.offset ≤ k ∧ k < r.stop)
    (ins : s.offset ≤ k ∧ k < s.stop) : r = s := by
  induction laid with
  | nil => cases hr
  | @snoc registers last before _ offset _ _ ih =>
    rcases List.mem_append.1 hr with oldr | newr <;> rcases List.mem_append.1 hs with olds | news
    · exact ih oldr olds
    · have := before.stop_le r oldr
      rw [List.mem_singleton.1 news] at ins
      omega
    · have := before.stop_le s olds
      rw [List.mem_singleton.1 newr] at inr
      omega
    · rw [List.mem_singleton.1 newr, List.mem_singleton.1 news]

end Laid

/-! ## Declaring registers -/

theorem declare_eq_ok_iff {known : List Register} {offset : Nat} {operand : Text} {r : Register} :
    declare known offset operand = .ok r ↔
      readOperand operand = .ok (r.name, some r.size) ∧ r.offset = offset ∧ 0 < r.size ∧
        (∀ k ∈ known, k.name ≠ r.name) ∧ r.stop < Literal.sizeLimit := by
  constructor
  · intro declared
    unfold declare at declared
    obtain ⟨⟨name, index⟩, read, declared⟩ := bind_eq_ok_iff.1 declared
    cases index with
    | none => cases declared
    | some size =>
      dsimp only at declared
      split_ifs at declared with empty known fits
      cases declared
      refine ⟨read, rfl, Nat.pos_of_ne_zero empty, fun k mem same => known ?_, fits⟩
      exact List.any_eq_true.2 ⟨k, mem, by simpa using same⟩
  · rintro ⟨read, rfl, positive, new, fits⟩
    have unknown : ¬ known.any (·.name == r.name) = true := by simpa using new
    have small : r.offset + r.size < Literal.sizeLimit := fits
    rw [declare, read, ok_bind]
    dsimp only
    rw [if_neg positive.ne', if_neg unknown, if_pos small]

/-! ## Resolving operands -/

theorem find?_name {registers : List Register} (distinct : (registers.map Register.name).Nodup)
    {r : Register} (mem : r ∈ registers) : registers.find? (·.name == r.name) = some r := by
  cases found : registers.find? (·.name == r.name) with
  | none => simpa using List.find?_eq_none.1 found r mem
  | some s =>
    have same : s.name = r.name := by simpa using List.find?_some found
    rw [List.inj_on_of_nodup_map distinct (List.mem_of_find?_eq_some found) mem same]

/-- What an operand stands for: all indices of the register it names, or the one it asks for. -/
inductive Resolves (registers : List Register) (operand : Text) : Span → Prop where
  | whole {r : Register} : readOperand operand = .ok (r.name, none) →
      registers.find? (·.name == r.name) = some r → Resolves registers operand ⟨r.offset, r.size⟩
  | element {r : Register} {i : Nat} : readOperand operand = .ok (r.name, some i) →
      registers.find? (·.name == r.name) = some r → i < r.size →
      Resolves registers operand ⟨r.offset + i, 1⟩

theorem resolve_eq_ok_iff {kind : RegisterKind} {registers : List Register} {operand : Text}
    {s : Span} : resolve kind registers operand = .ok s ↔ Resolves registers operand s := by
  constructor
  · intro resolved
    unfold resolve at resolved
    obtain ⟨⟨name, index⟩, read, resolved⟩ := bind_eq_ok_iff.1 resolved
    dsimp only at resolved
    split at resolved
    · cases resolved
    · next r found =>
      have same : r.name = name := by simpa using List.find?_some found
      subst same
      cases index with
      | none =>
        cases resolved
        exact .whole read found
      | some i =>
        dsimp only at resolved
        split_ifs at resolved with inside
        cases resolved
        exact .element read found inside
  · intro resolves
    cases resolves with
    | whole read found =>
      rw [resolve, read, ok_bind]
      simp only [found]
    | element read found inside =>
      rw [resolve, read, ok_bind]
      simp only [found, if_pos inside]

/-- What an operand resolves to ends within its registers. -/
theorem stop_le_of_resolve {kind : RegisterKind} {registers : List Register}
    (laid : Laid registers) {operand : Text} {s : Span}
    (resolved : resolve kind registers operand = .ok s) : s.start + s.length ≤ total registers := by
  cases resolve_eq_ok_iff.1 resolved with
  | whole _ found => exact laid.stop_le _ (List.mem_of_find?_eq_some found)
  | @element r i _ found lt =>
    have inside : r.offset + r.size ≤ total registers :=
      laid.stop_le r (List.mem_of_find?_eq_some found)
    change r.offset + i + 1 ≤ _
    omega

/--
How the registers of one kind share out the flat indices: each takes as many as its size, right
after those of the registers declared before it, and each index is that of one element.
-/
structure Layout (kind : RegisterKind) (registers : List Register) (declared : List (Text × Nat)) :
    Prop where
  whole : ∀ pre name size post, declared = pre ++ (name, size) :: post →
    resolve kind registers name = .ok ⟨flatSize pre, size⟩
  element : ∀ pre name size post, declared = pre ++ (name, size) :: post → ∀ i < size,
    resolve kind registers (element name i) = .ok ⟨flatSize pre + i, 1⟩
  cover : ∀ k < flatSize declared, ∃! p : Text × Nat,
    (∃ size, (p.1, size) ∈ declared ∧ p.2 < size) ∧
      resolve kind registers (Program.element p.1 p.2) = .ok ⟨k, 1⟩

section Resolve

variable {kind : RegisterKind} {registers : List Register} {r : Register}

theorem resolve_name (laid : Laid registers) (distinct : (registers.map Register.name).Nodup)
    (mem : r ∈ registers) : resolve kind registers r.name = .ok ⟨r.offset, r.size⟩ := by
  obtain ⟨identifier, -⟩ := laid.spec_of_mem r mem
  exact resolve_eq_ok_iff.2 (.whole (readOperand_name identifier) (find?_name distinct mem))

theorem resolve_element (laid : Laid registers) (distinct : (registers.map Register.name).Nodup)
    (mem : r ∈ registers) {i : Nat} (lt : i < r.size) :
    resolve kind registers (element r.name i) = .ok ⟨r.offset + i, 1⟩ := by
  obtain ⟨identifier, -, small⟩ := laid.spec_of_mem r mem
  have fits : i < Literal.sizeLimit := by
    rw [Register.stop] at small
    omega
  exact resolve_eq_ok_iff.2
    (.element (readOperand_element identifier fits) (find?_name distinct mem) lt)

/-- Registers that lie one after another share out the flat indices. -/
theorem Layout.of_laid (laid : Laid registers) (distinct : (registers.map Register.name).Nodup) :
    Layout kind registers (registers.map Register.declaration) where
  whole := by
    intro pre name size post split
    obtain ⟨r, mem, rfl, rfl, offset⟩ := laid.exists_of_declared split
    rw [resolve_name laid distinct mem, offset]
  element := by
    intro pre name size post split i lt
    obtain ⟨r, mem, rfl, rfl, offset⟩ := laid.exists_of_declared split
    rw [resolve_element laid distinct mem lt, offset]
  cover := by
    intro k lt
    rw [← laid.total_eq] at lt
    obtain ⟨r, mem, low, high⟩ := laid.exists_mem lt
    refine ⟨(r.name, k - r.offset), ⟨⟨r.size, List.mem_map_of_mem mem, ?_⟩, ?_⟩, ?_⟩
    · change k - r.offset < r.size
      rw [Register.stop] at high
      omega
    · rw [Register.stop] at high
      rw [resolve_element laid distinct mem (by omega), Nat.add_sub_cancel' low]
    · rintro ⟨name, i⟩ ⟨⟨size, listed, inside⟩, resolved⟩
      obtain ⟨s, mem', declared⟩ := List.mem_map.1 listed
      cases declared
      rw [resolve_element laid distinct mem' inside] at resolved
      have place : s.offset + i = k := by injection resolved with span; injection span
      have same := laid.eq_of_mem mem mem' ⟨low, high⟩
        ⟨by omega, by rw [Register.stop]; omega⟩
      rw [same]
      congr 1
      omega

end Resolve

end QubitTrace.Program
