import Mathlib
import QubitTrace.Proofs.Program.Broadcast

/-! # Sums of sizes fit the machine

Flat indices are sums of offsets, sizes and positions (`Forms`), and only the declaration of a
register checks such a sum. The registers of a program that has run lie below the limit of sizes,
so all other sums stay below it as well (`Sound.lt_sizeLimit`), up to the end of a register that
reaches the limit exactly. The gates that a statement appends act on such sums
(`exists_appended_iff`). What a declaration refuses is spelled out by `Refused`.
-/

namespace QubitTrace.Program
set_option autoImplicit false

open Register (resolve total declare)

variable {K : Type}

/-- The registers of a kind. -/
def registers (p : Program K) : RegisterKind → List Register
  | .quantum => p.quantum
  | .classical => p.classical

/-- The sums that a statement, whatever it is, can form on a program. -/
inductive Forms (p : Program K) : Nat → Prop where
  /-- The number of indices that a kind of registers takes. -/
  | total (kind : RegisterKind) : p.Forms (total (p.registers kind))
  /-- The end of a declared register. -/
  | stop {kind : RegisterKind} {r : Register} : r ∈ p.registers kind → p.Forms r.stop
  /-- The end of a register that is being declared, also if it then brings too many qubits. -/
  | declared {kind : RegisterKind} {operand : Text} {r : Register} :
      declare (p.quantum ++ p.classical) (Register.total (p.registers kind)) operand = .ok r →
      p.Forms r.stop
  /-- The first index that an operand stands for. -/
  | start {kind : RegisterKind} {operand : Text} {s : Span} :
      resolve kind (p.registers kind) operand = .ok s → p.Forms s.start
  /-- The index behind those that an operand stands for. -/
  | behind {kind : RegisterKind} {operand : Text} {s : Span} :
      resolve kind (p.registers kind) operand = .ok s → p.Forms (s.start + s.length)
  /-- The index that an operand contributes to the gate number `i` of a gate statement. -/
  | spread {p' : Program K} {statement name operands : Text} {g : Gate K} {spans : List Span}
      {s : Span} {i : Nat} :
      p.applyGate statement name g operands = .ok p' → p.qubitOperands operands = .ok spans →
      s ∈ spans → i < width spans → p.Forms (s.spread i)

/-- Why a register is not declared under a name, beside the registers `known` and from the index
`offset` on, when its size is the one given, if any. -/
inductive Refused (known : List Register) (offset : Nat) (name : Text) :
    Option Nat → StatementFault → Prop where
  | missingSize : Refused known offset name none (.missingSize name)
  | emptyRegister : Refused known offset name (some 0) (.emptyRegister name)
  | declaredTwice {size : Nat} : 0 < size → (∃ r ∈ known, r.name = name) →
      Refused known offset name (some size) (.declaredTwice name)
  | sizeOverflow {size : Nat} : 0 < size → (∀ r ∈ known, r.name ≠ name) →
      Literal.sizeLimit ≤ offset + size →
      Refused known offset name (some size) (.sizeOverflow name size)

/-! ## Sums -/

theorem Laid.total_lt {registers : List Register} (laid : Laid registers) :
    total registers < Literal.sizeLimit := by
  cases laid with
  | nil => decide
  | snoc _ _ _ _ small =>
    rw [total_concat]
    exact small

/-- An index that an operand contributes to a gate lies in what the operand stands for. -/
theorem spread_lt {s : Span} {i : Nat} (fits : s.length = 1 ∨ i < s.length) :
    s.spread i < s.start + s.length := by
  unfold Span.spread
  split_ifs with one
  · omega
  · exact Nat.add_lt_add_left (fits.resolve_left one) s.start

theorem exists_operand {p : Program K} {operands : Text} {spans : List Span} {s : Span}
    (resolved : p.qubitOperands operands = .ok spans) (mem : s ∈ spans) :
    ∃ operand, resolve .quantum (p.registers .quantum) operand = .ok s := by
  obtain ⟨k, here⟩ := List.getElem?_of_mem mem
  obtain ⟨operand, -, found⟩ := (getElem?_of_mapM resolved).1 here
  exact ⟨Text.trim operand, found⟩

/-- The gates that a gate statement appends act on the indices that its operands are spread to, and
on no others. -/
theorem exists_appended_iff {p p' : Program K} {statement name operands : Text} {g : Gate K}
    (applied : p.applyGate statement name g operands = .ok p') :
    ∃ spans added, p.qubitOperands operands = .ok spans ∧
      p'.operations = p.operations ++ added ∧
      ∀ q, (∃ op ∈ added, q ∈ op.qubits) ↔ ∃ s ∈ spans, ∃ i < width spans, s.spread i = q := by
  obtain ⟨spans, resolved, -, -, rfl⟩ := applyGate_eq_ok applied
  refine ⟨spans, spread g spans, resolved, rfl, fun q => ?_⟩
  unfold spread
  constructor
  · rintro ⟨op, listed, acts⟩
    obtain ⟨i, inside, rfl⟩ := List.mem_map.1 listed
    obtain ⟨s, mem, place⟩ := List.mem_map.1 acts
    exact ⟨s, mem, i, List.mem_range.1 inside, place⟩
  · rintro ⟨s, mem, i, inside, place⟩
    refine ⟨_, List.mem_map_of_mem (List.mem_range.2 inside), ?_⟩
    exact List.mem_map.2 ⟨s, mem, place⟩

/-- So each of those indices is a sum that the statement forms. -/
theorem forms_of_appended {p p' : Program K} {statement name operands : Text} {g : Gate K}
    (applied : p.applyGate statement name g operands = .ok p') :
    ∃ added, p'.operations = p.operations ++ added ∧ ∀ op ∈ added, ∀ q ∈ op.qubits, p.Forms q := by
  obtain ⟨spans, added, resolved, appended, places⟩ := exists_appended_iff applied
  refine ⟨added, appended, fun op listed q acts => ?_⟩
  obtain ⟨s, mem, i, inside, rfl⟩ := (places q).1 ⟨op, listed, acts⟩
  exact .spread applied resolved mem inside

section Sums

variable {rules : Rules} {p : Program K} (sound : Sound rules p)
include sound

theorem Sound.laid (kind : RegisterKind) : Laid (p.registers kind) := by
  cases kind with
  | quantum => exact sound.quantum
  | classical => exact sound.classical

/-- The sums on a sound program stay below the limit. -/
theorem Sound.lt_sizeLimit {n : Nat} (formed : p.Forms n) : n < Literal.sizeLimit := by
  have behind {kind : RegisterKind} {operand : Text} {s : Span}
      (resolved : resolve kind (p.registers kind) operand = .ok s) :
      s.start + s.length < Literal.sizeLimit :=
    (stop_le_of_resolve (sound.laid kind) resolved).trans_lt (sound.laid kind).total_lt
  cases formed with
  | total kind => exact (sound.laid kind).total_lt
  | @stop kind r mem =>
    obtain ⟨-, -, small⟩ := (sound.laid kind).spec_of_mem r mem
    exact small
  | declared declared =>
    -- the one sum that is checked when it is formed: nothing on the registers before bounds it
    obtain ⟨-, -, -, -, small⟩ := declare_eq_ok_iff.1 declared
    exact small
  | start resolved => exact (Nat.le_add_right _ _).trans_lt (behind resolved)
  | behind resolved => exact behind resolved
  | spread applied resolved mem lt =>
    obtain ⟨_, same, -, matched, -⟩ := applyGate_eq_ok applied
    rw [resolved] at same
    cases same
    obtain ⟨operand, found⟩ := exists_operand resolved mem
    have inside := spread_lt (fits_of_matched matched lt _ mem)
    exact inside.trans (behind found)

end Sums

/-! ## Declarations -/

section Declarations

variable {known : List Register} {offset : Nat} {operand name : Text} {index : Option Nat}
  (written : Written operand name index)
include written

/-- A declaration of a well-formed operand fails as `Refused` says. -/
theorem declare_eq_error_iff {fault : StatementFault} :
    declare known offset operand = .error fault ↔ Refused known offset name index fault := by
  rw [declare, readOperand_eq_ok_iff.2 written, ok_bind]
  constructor
  · intro refused
    cases index with
    | none =>
      cases refused
      exact .missingSize
    | some size =>
      dsimp only at refused
      split_ifs at refused with empty twice
      · cases refused
        rw [empty]
        exact .emptyRegister
      · cases refused
        exact .declaredTwice (Nat.pos_of_ne_zero empty) (by simpa using twice)
      · cases refused
        exact .sizeOverflow (Nat.pos_of_ne_zero empty) (by simpa using twice) (by omega)
  · intro refused
    cases refused with
    | missingSize => rfl
    | emptyRegister => rfl
    | declaredTwice positive twice =>
      have known : known.any (·.name == name) = true := by simpa using twice
      simp only [if_neg positive.ne', if_pos known]
    | sizeOverflow positive new beyond =>
      have unknown : ¬ known.any (·.name == name) = true := by simpa using new
      simp only [if_neg positive.ne', if_neg unknown, if_neg beyond.not_gt]

/-- What is not refused is declared, right behind the registers before it. -/
theorem declare_of_not_refused (accepted : ∀ fault, ¬ Refused known offset name index fault) :
    ∃ size, index = some size ∧ declare known offset operand = .ok ⟨name, offset, size⟩ := by
  cases declared : declare known offset operand with
  | error fault => exact absurd ((declare_eq_error_iff written).1 declared) (accepted fault)
  | ok r =>
    obtain ⟨read, rfl, -⟩ := declare_eq_ok_iff.1 declared
    rw [readOperand_eq_ok_iff.2 written] at read
    cases read
    exact ⟨r.size, rfl, rfl⟩

end Declarations

/-! ## Main result -/

/-- **Sums of sizes fit the machine.** However a program starts, no statement behind that start
forms a sum that reaches the limit of sizes, whatever the statement is and whatever the limit on
qubits; the qubits of the gates that a statement appends are among these sums. A declaration of a
well-formed register is refused for want of a size, for a size of zero, for a name declared before
or for an end beyond that limit, and for nothing else. -/
theorem sums_fit [Scalar K] (rules : Rules) (source : Text) :
    (∀ front (p : Program K), front <+: statements source → run rules empty front = .ok p →
      (∀ n, p.Forms n → n < Literal.sizeLimit) ∧
      ∀ statement name g operands p', p.applyGate statement name g operands = .ok p' →
        ∃ added, p'.operations = p.operations ++ added ∧
          ∀ op ∈ added, ∀ q ∈ op.qubits, p.Forms q) ∧
    ∀ known offset operand name index, Written operand name index →
      (∀ fault, declare known offset operand = .error fault ↔
        Refused known offset name index fault) ∧
      ((∀ fault, ¬ Refused known offset name index fault) → ∃ size, index = some size ∧
        declare known offset operand = .ok ⟨name, offset, size⟩) := by
  constructor
  · intro front p _ ran
    obtain ⟨sound, -⟩ := sound_of_run (sound_empty rules) ran
    refine ⟨fun n formed => sound.lt_sizeLimit formed, ?_⟩
    intro statement name g operands p' applied
    exact forms_of_appended applied
  · intro known offset operand name index written
    exact ⟨fun fault => declare_eq_error_iff written, declare_of_not_refused written⟩

/-- A program whose registers take all the indices there are. -/
def exhausting : Text :=
  "qreg q[18446744073709551615]; creg c[18446744073709551615]; x q[18446744073709551614];".toList

/-- That program when its registers are declared. -/
def exhausted : Program Float :=
  ⟨[⟨"q".toList, 0, 18446744073709551615⟩], [⟨"c".toList, 0, 18446744073709551615⟩], []⟩

theorem sums_fit_exhausting :
    run ⟨.strict, none⟩ empty ((statements exhausting).take 2) = .ok exhausted ∧
      exhausted.Forms (18446744073709551614 + 1) ∧
      18446744073709551614 + 1 < Literal.sizeLimit ∧
      Written "r[ 1 ]".toList "r".toList (some 1) ∧
      declare (exhausted.quantum ++ exhausted.classical) (total exhausted.quantum)
        "r[ 1 ]".toList = .error (.sizeOverflow "r".toList 1) := by
  have ran : run ⟨.strict, none⟩ empty ((statements exhausting).take 2) = .ok exhausted := by
    cbv
  have last : resolve .quantum (exhausted.registers .quantum) "q[18446744073709551614]".toList =
      .ok ⟨18446744073709551614, 1⟩ := by
    decide +kernel
  have formed : exhausted.Forms (18446744073709551614 + 1) := .behind last
  have written : Written "r[ 1 ]".toList "r".toList (some 1) :=
    readOperand_eq_ok_iff.1 (by decide +kernel)
  obtain ⟨fits, declares⟩ := sums_fit (K := Float) ⟨.strict, none⟩ exhausting
  obtain ⟨refuses, -⟩ := declares _ (total exhausted.quantum) _ _ _ written
  refine ⟨ran, formed, (fits _ _ (List.take_prefix 2 _) ran).1 _ formed, written, (refuses _).2 ?_⟩
  exact .sizeOverflow Nat.one_pos (by decide +kernel) (by decide +kernel)

end QubitTrace.Program
