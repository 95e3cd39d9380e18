import Mathlib
import QubitTrace.Program.Interpreter
import QubitTrace.Proofs.Circuit.Reachable
import QubitTrace.Proofs.Program.Layout

/-! # What a program declares

A statement adds a register, adds operations, or changes nothing (`Effect`). Whatever the order
of the statements, the registers of a program that has run lie one after another under different
names (`Sound`), and its circuit has exactly their qubits.
-/

namespace QubitTrace.Program
set_option autoImplicit false

open Register (total resolve declare)

/-- The name and the size that a statement declares in a kind of registers, if it declares any. -/
def declaration? (kind : RegisterKind) (statement : Text) : Option (Text × Nat) :=
  let (keyword, rest) := splitKeyword statement
  if String.ofList keyword = kind.keyword then
    match readOperand (Text.trim rest) with
    | .ok (name, some size) => some (name, size)
    | _ => none
  else none

/-- The declarations of a kind in a program, in order. -/
def declarations (kind : RegisterKind) (source : Text) : List (Text × Nat) :=
  (statements source).filterMap fun s => declaration? kind s.text

variable {K : Type}

/-- What a statement that is not refused does to a program. -/
inductive Effect (rules : Rules) (p : Program K) (statement : Text) : Program K → Prop where
  /-- It declares a quantum register. -/
  | quantum {r : Register} {operand : Text} :
      declaration? .quantum statement = some r.declaration →
      declaration? .classical statement = none →
      declare (p.quantum ++ p.classical) (total p.quantum) operand = .ok r →
      (∀ max, rules.maxQubits = some max → r.stop ≤ max) →
      Effect rules p statement { p with quantum := p.quantum ++ [r] }
  /-- It declares a classical register. -/
  | classical {r : Register} {operand : Text} :
      declaration? .quantum statement = none →
      declaration? .classical statement = some r.declaration →
      declare (p.quantum ++ p.classical) (total p.classical) operand = .ok r →
      Effect rules p statement { p with classical := p.classical ++ [r] }
  /-- It adds operations, if any, that measure into declared bits. -/
  | operations {ops : List (Operation K)} :
      declaration? .quantum statement = none →
      declaration? .classical statement = none →
      (∀ q b, .measure q b ∈ ops → b < total p.classical) →
      Effect rules p statement (p.append ops)

theorem append_nil (p : Program K) : p.append [] = p := by
  rw [append, List.append_nil]

theorem append_append (p : Program K) (ops more : List (Operation K)) :
    (p.append ops).append more = p.append (ops ++ more) := by
  rw [append, append, append, List.append_assoc]

theorem declaration?_of_keyword {kind : RegisterKind} {statement keyword rest name : Text}
    {size : Nat} (split : splitKeyword statement = (keyword, rest))
    (here : String.ofList keyword = kind.keyword)
    (read : readOperand (Text.trim rest) = .ok (name, some size)) :
    declaration? kind statement = some (name, size) := by
  simp only [declaration?, split, if_pos here, read]

theorem declaration?_eq_none {kind : RegisterKind} {statement keyword rest : Text}
    (split : splitKeyword statement = (keyword, rest))
    (other : String.ofList keyword ≠ kind.keyword) : declaration? kind statement = none := by
  simp only [declaration?, split, if_neg other]

/-- A measurement takes as many bits as qubits, one for each. -/
theorem measure_eq_ok {p p' : Program K} {operands : Text}
    (measured : p.measure operands = .ok p') :
    ∃ source target, Text.cut? ['-', '>'] operands = some (source, target) ∧
      ∃ qubits bits, resolve .quantum p.quantum (Text.trim source) = .ok qubits ∧
        resolve .classical p.classical (Text.trim target) = .ok bits ∧
        qubits.length = bits.length ∧
        p' = p.append (List.zipWith .measure qubits.toList bits.toList) := by
  unfold measure at measured
  split at measured
  · cases measured
  · next source target cut =>
    obtain ⟨qubits, resolved, measured⟩ := bind_eq_ok_iff.1 measured
    obtain ⟨bits, written, measured⟩ := bind_eq_ok_iff.1 measured
    split_ifs at measured with widths
    cases measured
    exact ⟨source, target, cut, qubits, bits, resolved, written, not_not.1 widths, rfl⟩

/-- The bits of a measurement are those its target resolves to. -/
theorem bits_of_measure {p p' : Program K} {operands : Text} (laid : Laid p.classical)
    (measured : p.measure operands = .ok p') :
    ∃ ops, p' = p.append ops ∧ ∀ q b, .measure q b ∈ ops → b < total p.classical := by
  obtain ⟨_, _, _, _, _, _, written, _, rfl⟩ := measure_eq_ok measured
  refine ⟨_, rfl, fun q b mem => ?_⟩
  have inside := stop_le_of_resolve laid written
  obtain ⟨i, lt, same⟩ := List.getElem_of_mem mem
  rw [List.getElem_zipWith] at same
  cases same
  obtain ⟨j, below, place⟩ :=
    List.mem_range'.1 (List.getElem_mem (List.lt_length_right_of_zipWith lt))
  omega

/-- A gate statement adds no measurement. -/
theorem gates_of_application [Scalar K] {rules : Rules} {p p' : Program K} {statement : Text}
    (applied : p.application rules statement = .ok p') :
    ∃ ops, p' = p.append ops ∧ ∀ q b, .measure q b ∉ ops := by
  unfold application at applied
  obtain ⟨⟨name, angles, operands⟩, -, applied⟩ := bind_eq_ok_iff.1 applied
  obtain ⟨values, -, applied⟩ := bind_eq_ok_iff.1 applied
  obtain ⟨gate?, -, applied⟩ := bind_eq_ok_iff.1 applied
  cases gate? with
  | none =>
    dsimp only at applied
    cases mode : rules.mode with
    | strict =>
      rw [mode] at applied
      cases applied
    | permissive =>
      rw [mode] at applied
      cases applied
      exact ⟨[], p.append_nil.symm, by simp⟩
  | some g =>
    unfold applyGate at applied
    obtain ⟨spans, -, applied⟩ := bind_eq_ok_iff.1 applied
    split_ifs at applied
    cases applied
    exact ⟨_, rfl, by simp [spread]⟩

theorem Effect.of_append {rules : Rules} {p : Program K} {statement keyword rest : Text}
    {ops : List (Operation K)} (split : splitKeyword statement = (keyword, rest))
    (undeclared : ∀ kind : RegisterKind, String.ofList keyword ≠ kind.keyword)
    (bits : ∀ q b, .measure q b ∈ ops → b < total p.classical) :
    Effect rules p statement (p.append ops) :=
  .operations (declaration?_eq_none split (undeclared .quantum))
    (declaration?_eq_none split (undeclared .classical)) bits

theorem Effect.nothing {rules : Rules} {p : Program K} {statement keyword rest : Text}
    (split : splitKeyword statement = (keyword, rest))
    (undeclared : ∀ kind : RegisterKind, String.ofList keyword ≠ kind.keyword) :
    Effect rules p statement p := by
  have appended : Effect rules p statement (p.append []) :=
    Effect.of_append split undeclared fun q b mem => absurd mem List.not_mem_nil
  rwa [append_nil] at appended

/-- What a statement that is not refused does. -/
theorem effect_of_step [Scalar K] {rules : Rules} {p p' : Program K} {statement : Text}
    (laid : Laid p.classical) (stepped : p.step rules statement = .ok p') :
    Effect rules p statement p' := by
  cases split : splitKeyword statement with
  | mk keyword rest =>
    unfold step at stepped
    rw [split] at stepped
    dsimp only at stepped
    have undeclared {word : String} (here : String.ofList keyword = word)
        (other : word ≠ "qreg" ∧ word ≠ "creg") (kind : RegisterKind) :
        String.ofList keyword ≠ kind.keyword := by
      rw [here]
      cases kind with
      | quantum => exact other.1
      | classical => exact other.2
    split at stepped
    case h_1 here =>
      split_ifs at stepped
      cases stepped
      exact .nothing split (undeclared here (by decide))
    case h_2 here =>
      split_ifs at stepped
      cases stepped
      exact .nothing split (undeclared here (by decide))
    case h_3 here =>
      obtain ⟨r, declared, bounded⟩ := bind_eq_ok_iff.1 stepped
      obtain ⟨read, -⟩ := declare_eq_ok_iff.1 declared
      have first : declaration? .quantum statement = some r.declaration :=
        declaration?_of_keyword split here read
      have second : declaration? .classical statement = none :=
        declaration?_eq_none split (by rw [here]; decide)
      cases limit : rules.maxQubits with
      | none =>
        rw [limit] at bounded
        cases bounded
        exact .quantum first second declared (by simp [limit])
      | some max =>
        rw [limit] at bounded
        dsimp only at bounded
        split_ifs at bounded with beyond
        cases bounded
        refine .quantum first second declared fun max' same => ?_
        rw [limit] at same
        cases same
        exact not_lt.1 beyond
    case h_4 here =>
      obtain ⟨r, declared, added⟩ := bind_eq_ok_iff.1 stepped
      obtain ⟨read, -⟩ := declare_eq_ok_iff.1 declared
      cases added
      exact .classical (declaration?_eq_none split (by rw [here]; decide))
        (declaration?_of_keyword split here read) declared
    case h_5 here =>
      obtain ⟨ops, rfl, bits⟩ := bits_of_measure laid stepped
      exact .of_append split (undeclared here (by decide)) bits
    case h_6 here =>
      obtain ⟨spans, -, added⟩ := bind_eq_ok_iff.1 stepped
      cases added
      exact .of_append split (undeclared here (by decide)) (by simp)
    case h_11 noq noc _ _ _ _ _ _ =>
      obtain ⟨ops, rfl, gates⟩ := gates_of_application stepped
      refine .of_append split (fun kind => ?_) fun q b mem => absurd mem (gates q b)
      cases kind with
      | quantum => exact noq
      | classical => exact noc
    all_goals cases stepped

/-- Registers that lie one after another under different names, with all bits that are measured
into among them, and as many qubits at most as the rules allow. -/
structure Sound (rules : Rules) (p : Program K) : Prop where
  quantum : Laid p.quantum
  classical : Laid p.classical
  distinct : ((p.quantum ++ p.classical).map Register.name).Nodup
  bounded : ∀ max, rules.maxQubits = some max → total p.quantum ≤ max
  bits : ∀ q b, .measure q b ∈ p.operations → b < total p.classical

theorem sound_empty (rules : Rules) : Sound rules (empty : Program K) where
  quantum := .nil
  classical := .nil
  distinct := List.nodup_nil
  bounded := fun max _ => Nat.zero_le max
  bits := fun _ _ mem => absurd mem List.not_mem_nil

theorem Sound.distinct_quantum {rules : Rules} {p : Program K} (sound : Sound rules p) :
    (p.quantum.map Register.name).Nodup := by
  have parts := sound.distinct
  rw [List.map_append] at parts
  exact parts.of_append_left

theorem Sound.distinct_classical {rules : Rules} {p : Program K} (sound : Sound rules p) :
    (p.classical.map Register.name).Nodup := by
  have parts := sound.distinct
  rw [List.map_append] at parts
  exact parts.of_append_right

theorem Laid.concat {known registers : List Register} (laid : Laid registers) {operand : Text}
    {r : Register} (declared : declare known (total registers) operand = .ok r) :
    Laid (registers ++ [r]) := by
  obtain ⟨read, offset, positive, -, small⟩ := declare_eq_ok_iff.1 declared
  exact laid.snoc (isName_of_readOperand read) offset positive small

theorem nodup_of_declare {known registers : List Register} {offset : Nat} {operand : Text}
    {r : Register} (distinct : (known.map Register.name).Nodup)
    (declared : declare known offset operand = .ok r) (all : registers.Perm (r :: known)) :
    (registers.map Register.name).Nodup := by
  obtain ⟨-, -, -, new, -⟩ := declare_eq_ok_iff.1 declared
  refine (all.map Register.name).nodup_iff.2 (List.nodup_cons.2 ⟨fun mem => ?_, distinct⟩)
  obtain ⟨k, listed, same⟩ := List.mem_map.1 mem
  exact new k listed same

/-- A statement keeps a program sound. -/
theorem Sound.of_effect {rules : Rules} {p p' : Program K} {statement : Text}
    (sound : Sound rules p) (effect : Effect rules p statement p') : Sound rules p' := by
  cases effect with
  | @quantum r operand _ _ declared fits =>
    refine ⟨sound.quantum.concat declared, sound.classical, ?_, ?_, sound.bits⟩
    · refine nodup_of_declare sound.distinct declared ?_
      simp
    · intro max limit
      rw [total_concat]
      exact fits max limit
  | @classical r operand _ _ declared =>
    refine ⟨sound.quantum, sound.classical.concat declared, ?_, sound.bounded, ?_⟩
    · refine nodup_of_declare sound.distinct declared ?_
      rw [← List.append_assoc]
      exact List.perm_append_singleton r _
    · intro q b mem
      obtain ⟨-, offset, positive, -⟩ := declare_eq_ok_iff.1 declared
      have before := sound.bits q b mem
      rw [total_concat, Register.stop]
      omega
  | operations _ _ new =>
    refine ⟨sound.quantum, sound.classical, sound.distinct, sound.bounded, fun q b mem => ?_⟩
    rcases List.mem_append.1 mem with old | added
    · exact sound.bits q b old
    · exact new q b added

/-- **Runs keep programs sound.** The registers of a program that has run are those declared by its
statements, in their order. -/
theorem sound_of_run [Scalar K] {rules : Rules} {ss : List Statement} {p p' : Program K}
    (sound : Sound rules p) (ran : run rules p ss = .ok p') :
    Sound rules p' ∧
      p'.quantum.map Register.declaration = p.quantum.map Register.declaration ++
        ss.filterMap (fun s => declaration? .quantum s.text) ∧
      p'.classical.map Register.declaration = p.classical.map Register.declaration ++
        ss.filterMap (fun s => declaration? .classical s.text) := by
  induction ss generalizing p with
  | nil =>
    cases ran
    simpa using sound
  | cons s ss ih =>
    unfold run at ran
    split at ran
    · next next stepped =>
      have effect := effect_of_step sound.classical stepped
      obtain ⟨sound', quantum, classical⟩ := ih (sound.of_effect effect) ran
      refine ⟨sound', quantum.trans ?_, classical.trans ?_⟩
      · cases effect with
        | quantum first => simp [first]
        | classical first => simp [first]
        | operations first => simp [first, append]
      · cases effect with
        | quantum _ second => simp [second]
        | classical _ second => simp [second]
        | operations _ second => simp [second, append]
    · cases ran

theorem finish_eq_ok {p : Program K} {expected : Option Nat} {c : Circuit K}
    (finished : p.finish expected = .ok c) :
    0 < total p.quantum ∧ (∀ n, expected = some n → n = total p.quantum) ∧
      (∀ op ∈ p.operations, op.fault? (total p.quantum) = none) ∧
      c = ⟨total p.quantum, p.operations⟩ := by
  unfold finish at finished
  dsimp only at finished
  split_ifs at finished with empty
  cases given : expected.filter (· ≠ total p.quantum) with
  | some requested =>
    rw [given] at finished
    cases finished
  | none =>
    rw [given] at finished
    obtain ⟨accepted, rfl⟩ := Circuit.addAll_eq_ok_iff.1 (mapError_eq_ok_iff.1 finished)
    refine ⟨Nat.pos_of_ne_zero empty, fun n same => ?_, accepted, rfl⟩
    by_contra other
    rw [same, Option.filter_some, if_pos (by simpa using other)] at given
    cases given

/-! ## Main result -/

/-- **The layout of a program.** The registers of a program that makes a circuit share out the flat
indices in the order of their declarations, and no name is declared twice. The circuit has as many
qubits as are declared: some, as many as were asked for, and no more than the rules allow. Its
operations stay within them, its gates act on as many different qubits as they take, and its
measurements write declared bits. -/
theorem layout_of_parse [Scalar K] {rules : Rules} {expected : Option Nat} {source : Text}
    {c : Circuit K} (parsed : parse rules expected source = .ok c) :
    ∃ p : Program K, run rules empty (statements source) = .ok p ∧
      Layout .quantum p.quantum (declarations .quantum source) ∧
      Layout .classical p.classical (declarations .classical source) ∧
      ((declarations .quantum source ++ declarations .classical source).map Prod.fst).Nodup ∧
      c.qubits = flatSize (declarations .quantum source) ∧ 1 ≤ c.qubits ∧
      (∀ n, expected = some n → c.qubits = n) ∧
      (∀ max, rules.maxQubits = some max → c.qubits ≤ max) ∧
      (∀ op ∈ c.operations, ∀ q ∈ op.qubits, q < c.qubits) ∧
      (∀ g qubits, .gate g qubits ∈ c.operations → qubits.length = g.arity ∧ qubits.Nodup) ∧
      (∀ q b, .measure q b ∈ c.operations → b < flatSize (declarations .classical source)) ∧
      c.validate = .ok () := by
  obtain ⟨p, ran, finished⟩ := bind_eq_ok_iff.1 parsed
  obtain ⟨sound, quantum, classical⟩ := sound_of_run (sound_empty rules) ran
  obtain ⟨positive, requested, accepted, rfl⟩ := finish_eq_ok finished
  rw [empty, List.map_nil, List.nil_append, ← declarations] at quantum classical
  have named : (declarations .quantum source ++ declarations .classical source).map Prod.fst =
      (p.quantum ++ p.classical).map Register.name := by
    rw [← quantum, ← classical, ← List.map_append, List.map_map]
    rfl
  have parts := sound.distinct
  rw [List.map_append] at parts
  refine ⟨p, ran, quantum ▸ .of_laid sound.quantum parts.of_append_left,
    classical ▸ .of_laid sound.classical parts.of_append_right, named ▸ sound.distinct,
    quantum ▸ sound.quantum.total_eq, positive, fun n same => (requested n same).symm,
    sound.bounded, fun op mem => Operation.lt_of_fault?_eq_none (accepted op mem), ?_, ?_, ?_⟩
  · intro g qubits mem
    have fits := Operation.fault?_gate_eq_none_iff.1 (accepted _ mem)
    exact ⟨fits.length, fits.distinct⟩
  · intro q b mem
    rw [← classical, ← sound.classical.total_eq]
    exact sound.bits q b mem
  · rw [Circuit.validate, if_neg positive.ne', List.findSome?_eq_none_iff.2 accepted]

/-- A program that declares registers of both kinds between its operations. -/
def interleaved : Text :=
  "qreg a[2]; creg m[1]; h a; qreg b[1]; creg k[2]; cx a, b; measure a -> k;".toList

theorem layout_of_parse_interleaved :
    ∃ (c : Circuit Float) (p : Program Float),
      parse ⟨.strict, some 4⟩ (some 3) interleaved = .ok c ∧ c.operations.length = 6 ∧
      run ⟨.strict, some 4⟩ empty (statements interleaved) = .ok p ∧
      Layout .quantum p.quantum [("a".toList, 2), ("b".toList, 1)] ∧
      Layout .classical p.classical [("m".toList, 1), ("k".toList, 2)] ∧
      c.validate = .ok () := by
  have parsed : parse ⟨.strict, some 4⟩ (some 3) interleaved =
      .ok (⟨3, [.gate .h [0], .gate .h [1], .gate .cx [0, 2], .gate .cx [1, 2], .measure 0 1,
        .measure 1 2]⟩ : Circuit Float) := by
    cbv
  have quantum : declarations .quantum interleaved = [("a".toList, 2), ("b".toList, 1)] := by
    decide +kernel
  have classical : declarations .classical interleaved = [("m".toList, 1), ("k".toList, 2)] := by
    decide +kernel
  obtain ⟨p, ran, layout, layout', -, -, -, -, -, -, -, -, valid⟩ := layout_of_parse parsed
  rw [quantum] at layout
  rw [classical] at layout'
  exact ⟨_, p, parsed, rfl, ran, layout, layout', valid⟩

end QubitTrace.Program
