import Mathlib
import QubitTrace.Proofs.Circuit.Angles
import QubitTrace.Proofs.Program.Keyword
import QubitTrace.Proofs.Program.Layout

/-! # Printed circuits read back

A circuit is printed as two declarations and a statement for each operation (`Circuit.listing`).
Each statement does to the program read so far what the operation does to the circuit
(`step_operation`), so the listing is read back as the circuit, with its angles rounded to the
four places they are printed with.
-/

namespace QubitTrace
set_option autoImplicit false

open Decimal (fixed natText)

/-- The program that declares the circuit's qubits and some bits and lists its operations. -/
def Circuit.listing (c : Circuit Float) (bits : Nat) : String :=
  s!"qreg q[{natText c.qubits}]; creg c[{natText bits}];" ++
    String.join (c.operations.map fun op => op.text ++ ";")

namespace Program

/-! ## Measurements -/

section Measurement

variable {K : Type} {p : Program K} {a b : Text} {i j : Nat}

theorem trim_element {name : Text} (identifier : isName name = true) (i : Nat) :
    Text.trim (element name i) = element name i :=
  Text.trim_of_visible fun _ mem => (printing_of_mem_element identifier mem).isBlank

theorem trim_measurement {source : Text} (target : isName b = true) :
    Text.trim (measurement source (element b j)) = measurement source (element b j) := by
  have visible : ∀ c ∈ "measure".toList, Text.isBlank c = false :=
    visible_of_reserved (by decide)
  refine trim_statement visible (by simp) (by simp) fun c mem => ?_
  rw [List.getLast?_append_of_ne_nil _ (element_ne_nil _ _)] at mem
  exact (printing_of_mem_element target (List.mem_of_getLast? mem)).isBlank

/-- The measurement of an element into an element adds one operation. -/
theorem step_measurement [Scalar K] {rules : Rules} {qubit bit : Nat} (source : isName a = true)
    (target : isName b = true)
    (measured : Register.resolve .quantum p.quantum (element a i) = .ok ⟨qubit, 1⟩)
    (written : Register.resolve .classical p.classical (element b j) = .ok ⟨bit, 1⟩) :
    p.step rules (measurement (element a i) (element b j)) =
      .ok (p.append [.measure qubit bit]) := by
  have front : Text.trim (' ' :: (element a i ++ [' '])) = element a i := by
    have first : ∀ c ∈ (element a i).head?, Text.isBlank c = false := fun c mem =>
      (printing_of_mem_element source (List.mem_of_mem_head? mem)).isBlank
    rw [Text.trim_cons_of_blank rfl,
      Text.trim_concat_of_blank (c := ' ') rfl (element_ne_nil _ _) first, trim_element source]
  have back : Text.trim (' ' :: element b j) = element b j := by
    rw [Text.trim_cons_of_blank rfl, trim_element target]
  -- the arrow stands where the first minus sign does, since elements hold none
  have free : '-' ∉ ' ' :: (element a i ++ [' ']) := by
    intro mem
    have inside : '-' ∈ element a i := by simpa using mem
    exact absurd (toNat_of_mem_element source inside).1 (by decide)
  have cut : Text.cut? ['-', '>'] (' ' :: (element a i ++ " -> ".toList ++ element b j)) =
      some (' ' :: (element a i ++ [' ']), ' ' :: element b j) := by
    rw [← Text.cut?_append free ['>'] (' ' :: element b j)]
    simp
  change step rules p ("measure".toList ++ ' ' :: (element a i ++ " -> ".toList ++ element b j)) = _
  rw [step_measure, measure, cut]
  dsimp only
  rw [front, back, measured, ok_bind, written, ok_bind]
  rfl

end Measurement

/-! ## Gates -/

section Gates

variable {g : Gate Float} {f : Float → Float} {qubits : List Nat}

/-- The name of a gate is found, and takes as many angles as the gate has. -/
theorem findGate_name (f : Float → Float) (g : Gate Float) :
    findGate g.name.toList (g.params.map f) = .ok (some (g.mapAngles f)) := by
  rw [findGate, String.ofList_toList]
  cases g <;> rfl

/-- A printed gate falls into its name, its angles and its operands. -/
theorem splitApplication_gate (finite : ∀ a ∈ g.params, Scalar.isFinite a = true) :
    splitApplication (g.text.toList ++ ' ' :: operandList qubits) =
      .ok (g.name.toList, g.params.map fun a => (fixed .minus 4 a).toList, operandList qubits) := by
  by_cases none : g.params = []
  · rw [text_of_params_eq_nil none, none]
    exact splitApplication_plain (isNameChar_of_mem_name g) (name_ne_nil g) first_of_operandList
  · rw [text_of_params_ne_nil none]
    simp only [List.append_assoc, List.cons_append, List.nil_append]
    refine splitApplication_angles (isNameChar_of_mem_name g) (name_ne_nil g) ?_ ?_
      fun c mem => (first_of_operandList c mem).1
    · intro piece mem c inside
      obtain ⟨a, given, rfl⟩ := List.mem_map.1 mem
      exact separate_of_le (toNat_of_mem_angle (finite a given) inside).1
    · intro piece mem
      obtain ⟨a, given, rfl⟩ := List.mem_map.1 mem
      refine isBlankText_of_visible (fixed_ne_nil (finite a given)) fun c inside => ?_
      have := toNat_of_mem_angle (finite a given) inside
      exact Text.isBlank_of_ascii (by omega) (by omega)

end Gates

/-! ## Operands -/

section Listed

variable {rules : Rules} {n m : Nat} {done : List (Operation Float)} {qubits : List Nat}

/-- The program of a listing after its declarations and some operations. -/
def listed (n m : Nat) (done : List (Operation Float)) : Program Float :=
  ⟨[⟨['q'], 0, n⟩], [⟨['c'], 0, m⟩], done⟩

theorem resolve_only (kind : RegisterKind) {name : Text} (identifier : isName name = true)
    {size i : Nat} (small : size < Literal.sizeLimit) (lt : i < size) :
    Register.resolve kind [⟨name, 0, size⟩] (element name i) = .ok ⟨i, 1⟩ := by
  have laid : Laid [⟨name, 0, size⟩] :=
    Laid.snoc .nil identifier rfl (Nat.zero_lt_of_lt lt) (by simpa [Register.stop] using small)
  rw [resolve_element laid (List.nodup_singleton _) List.mem_cons_self lt, Nat.zero_add]

/-- Printed operands are those that were printed. -/
theorem qubitOperands_list {K : Type} {p : Program K} (register : p.quantum = [⟨['q'], 0, n⟩])
    (small : n < Literal.sizeLimit) (range : ∀ q ∈ qubits, q < n) :
    p.qubitOperands (operandList qubits) = .ok (qubits.map fun q => ⟨q, 1⟩) := by
  rw [qubitOperands, operandList, register, splitTopLevel_intercalate (by decide)]
  · apply mapM_map_eq_ok
    intro q mem
    rw [trim_element rfl]
    exact resolve_only .quantum rfl small (range q mem)
  · intro piece mem c inside
    obtain ⟨q, -, rfl⟩ := List.mem_map.1 mem
    have := toNat_of_mem_element rfl inside
    exact separate_of_le (by omega)
  · intro piece mem
    obtain ⟨q, -, rfl⟩ := List.mem_map.1 mem
    exact isBlankText_of_visible (List.cons_ne_nil _ _) fun c inside =>
      (printing_of_mem_element rfl inside).isBlank

/-- A blank in front of operands means nothing. -/
theorem qubitOperands_cons_blank {K : Type} (p : Program K) (list : Text) :
    p.qubitOperands (' ' :: list) = p.qubitOperands list := by
  have blank : Text.isBlankText (' ' :: list) = Text.isBlankText list := by
    rw [Text.isBlankText, List.all_cons]
    rfl
  rw [qubitOperands, qubitOperands, splitTopLevel, splitTopLevel, blank]
  split_ifs
  · rfl
  · rw [cutAtDepth, if_neg (by decide), if_neg (by decide), if_neg (by decide)]
    cases pieces : cutAtDepth ',' 0 list with
    | nil => exact absurd pieces (cutAtDepth_ne_nil _ _ _)
    | cons piece rest =>
      rw [intoFirst, List.mapM_cons, List.mapM_cons, Text.trim_cons_of_blank rfl]

theorem toList_singles (qubits : List Nat) :
    (qubits.map fun q => (⟨q, 1⟩ : Span)).flatMap Span.toList = qubits := by
  induction qubits with
  | nil => rfl
  | cons q qubits ih =>
    rw [List.map_cons, List.flatMap_cons, ih]
    rfl

/-- A gate on single qubits is applied once. -/
theorem spread_single {K : Type} (g : Gate K) (qubits : List Nat) :
    spread g (qubits.map fun q => ⟨q, 1⟩) = [.gate g qubits] := by
  have one : width (qubits.map fun q => (⟨q, 1⟩ : Span)) = 1 := by
    rw [width, List.map_map]
    change ((qubits.map fun _ => 1).max?).getD 1 = 1
    rw [List.map_const', List.max?_replicate]
    split_ifs <;> rfl
  rw [spread, one]
  change [Operation.gate g ((qubits.map fun q => (⟨q, 1⟩ : Span)).map (·.spread 0))] = _
  rw [List.map_map]
  change [Operation.gate g (qubits.map id)] = _
  rw [List.map_id]

theorem arity_pos {K : Type} (g : Gate K) : 0 < g.arity := by
  cases g <;> exact Nat.succ_pos _

/-- A gate on single qubits, as many as it takes, adds one operation. -/
theorem applyGate_single {K : Type} {p : Program K} {statement name operands : Text}
    {g : Gate K} (resolved : p.qubitOperands operands = .ok (qubits.map fun q => ⟨q, 1⟩))
    (count : qubits.length = g.arity) :
    p.applyGate statement name g operands = .ok (p.append [.gate g qubits]) := by
  have equal : ¬ ((qubits.map fun q => (⟨q, 1⟩ : Span)).any fun s => s.length != 1 &&
      s.length != width (qubits.map fun q => ⟨q, 1⟩)) = true := by
    simp
  rw [applyGate, resolved, ok_bind, if_neg (by simpa using count), if_neg equal, spread_single]

/-- A gate on printed operands is applied to those that were printed. -/
theorem applyGate_list {g : Gate Float} {statement name : Text} (small : n < Literal.sizeLimit)
    (fits : g.Fits n qubits) :
    (listed n m done).applyGate statement name g (operandList qubits) =
      .ok (listed n m (done ++ [.gate g qubits])) :=
  applyGate_single (qubitOperands_list rfl small fits.range) fits.length

/-- A printed gate adds the gate, with the angles its texts stand for. -/
theorem application_gate {g : Gate Float} {f : Float → Float} (small : n < Literal.sizeLimit)
    (fits : g.Fits n qubits) (angles : ∀ a ∈ g.params, Scalar.isFinite a = true ∧
      Angle.evaluate (fixed .minus 4 a).toList = .ok (f a)) :
    application rules (listed n m done) (g.text.toList ++ ' ' :: operandList qubits) =
      .ok (listed n m (done ++ [.gate (g.mapAngles f) qubits])) := by
  have read : (g.params.map fun a => (fixed .minus 4 a).toList).mapM (fun a =>
      (Angle.evaluate a : Except AngleFault Float).mapError StatementFault.angle) =
        .ok (g.params.map f) :=
    mapM_map_eq_ok fun a mem => by rw [(angles a mem).2, mapError_ok]
  have fits : (g.mapAngles f).Fits n qubits := ⟨by simpa using fits.length, fits.distinct, fits.range⟩
  rw [application, splitApplication_gate fun a mem => (angles a mem).1, ok_bind]
  dsimp only
  rw [read, ok_bind, findGate_name, ok_bind]
  exact applyGate_list small fits

/-! ## Operations -/

/-- No printed gate starts with the keyword of another statement. -/
theorem not_reserved (g : Gate Float) : String.ofList g.text.toList ∉ reserved := by
  rw [String.ofList_toList]
  by_cases none : g.params = []
  · rw [Gate.text, none]
    cases g <;> simp [Gate.name, reserved]
  · have opened : '(' ∈ g.text.toList := by
      rw [text_of_params_ne_nil none]
      simp
    have words : ∀ s ∈ reserved, '(' ∉ s.toList := by simp [reserved]
    exact fun mem => words _ mem opened

theorem step_gate_text {g : Gate Float} {f : Float → Float} (small : n < Literal.sizeLimit)
    (fits : g.Fits n qubits) (angles : ∀ a ∈ g.params, Scalar.isFinite a = true ∧
      Angle.evaluate (fixed .minus 4 a).toList = .ok (f a)) :
    step rules (listed n m done) (Text.trim (Operation.gate g qubits).text.toList) =
      .ok (listed n m (done ++ [.gate (g.mapAngles f) qubits])) := by
  have visible : ∀ c ∈ g.text.toList, Text.isBlank c = false := fun c mem =>
    (printing_of_mem_gateText (fun a given => (angles a given).1) mem).isBlank
  have some : operandList qubits ≠ [] := by
    cases qubits with
    | nil => exact absurd fits.length (arity_pos g).ne
    | cons q qubits =>
      obtain ⟨s, shape⟩ := exists_operandList_cons q qubits
      simp [shape]
  rw [text_gate, trim_statement visible (text_ne_nil g) some,
    step_eq_application visible (not_reserved g), application_gate small fits angles]
  exact fun c mem => (printing_of_mem_operandList (List.mem_of_getLast? mem)).isBlank

/-- A printed measurement adds the measurement. -/
theorem step_measure_text {q b : Nat} (qubit : q < n) (small : n < Literal.sizeLimit) (bit : b < m)
    (narrow : m < Literal.sizeLimit) :
    step rules (listed n m done) (Text.trim (Operation.measure q b).text.toList) =
      .ok (listed n m (done ++ [.measure q b])) := by
  rw [text_measure, trim_measurement rfl, step_measurement rfl rfl
    (resolve_only .quantum rfl small qubit) (resolve_only .classical rfl narrow bit)]
  rfl

/-- A printed barrier adds the barrier, also one that names no qubit or one qubit twice. -/
theorem step_barrier_text (small : n < Literal.sizeLimit) (range : ∀ q ∈ qubits, q < n) :
    step rules (listed n m done) (Text.trim (Operation.barrier qubits).text.toList) =
      .ok (listed n m (done ++ [.barrier qubits])) := by
  rw [text_barrier]
  cases qubits with
  | nil =>
    -- the blank behind the keyword is trimmed, so the statement is the keyword alone
    have alone : Text.trim ("barrier".toList ++ [' ']) = "barrier".toList := by
      simp
      decide
    change step rules _ (Text.trim ("barrier".toList ++ [' '])) = _
    rw [alone, step_barrier_nil]
    rfl
  | cons q qubits =>
    obtain ⟨s, shape⟩ := exists_operandList_cons q qubits
    rw [trim_statement (visible_of_reserved (by decide)) (by simp) (by simp [shape]),
      step_barrier, barrier, qubitOperands_cons_blank, qubitOperands_list rfl small range, ok_bind,
      toList_singles]
    · rfl
    · exact fun c mem => (printing_of_mem_operandList (List.mem_of_getLast? mem)).isBlank

end Listed

/-! ## Listings -/

section Listing

variable {rules : Rules} {n m : Nat} {f : Float → Float}

/-- What an operation must satisfy to be read back from its statement in a listing over `n` qubits
and `m` bits, where the texts of its angles stand for their values under `f`. -/
structure Readable (n m : Nat) (f : Float → Float) (op : Operation Float) : Prop where
  accepted : op.fault? n = none
  bits : ∀ q b, op = .measure q b → b < m
  angles : ∀ g qubits, op = .gate g qubits → ∀ a ∈ g.params, Scalar.isFinite a = true ∧
    Angle.evaluate (fixed .minus 4 a).toList = .ok (f a)

/-- A statement of a listing does to the program read so far what its operation does to the
circuit. -/
theorem step_operation {op : Operation Float} {done : List (Operation Float)}
    (readable : Readable n m f op) (small : n < Literal.sizeLimit) (narrow : m < Literal.sizeLimit) :
    step rules (listed n m done) (Text.trim op.text.toList) =
      .ok (listed n m (done ++ [op.mapAngles f])) := by
  have inside := Operation.lt_of_fault?_eq_none readable.accepted
  cases op with
  | gate g qubits =>
    exact step_gate_text small (Operation.fault?_gate_eq_none_iff.1 readable.accepted)
      (readable.angles g qubits rfl)
  | measure q b =>
    exact step_measure_text (inside q List.mem_cons_self) small (readable.bits q b rfl) narrow
  | barrier qubits => exact step_barrier_text small inside

/-- The statements of operations are read back as the operations, in their order. -/
theorem run_operations {ops done : List (Operation Float)}
    (readable : ∀ op ∈ ops, Readable n m f op) (small : n < Literal.sizeLimit)
    (narrow : m < Literal.sizeLimit) :
    run rules (listed n m done) (ops.map fun op => ⟨1, Text.trim op.text.toList⟩) =
      .ok (listed n m (done ++ ops.map (Operation.mapAngles f))) := by
  induction ops generalizing done with
  | nil => rw [List.map_nil, List.map_nil, List.append_nil, run]
  | cons op ops ih =>
    obtain ⟨first, rest⟩ := List.forall_mem_cons.1 readable
    rw [List.map_cons, run, step_operation first small narrow]
    dsimp only
    rw [ih rest, List.map_cons, List.append_assoc, List.singleton_append]

theorem declare_element {known : List Register} {name : Text} {size : Nat}
    (identifier : isName name = true) (positive : 0 < size) (small : size < Literal.sizeLimit)
    (fresh : (known.any (·.name == name)) = false) :
    Register.declare known 0 (element name size) = .ok ⟨name, 0, size⟩ :=
  declare_eq_ok_iff.2 ⟨readOperand_element identifier small, rfl, positive, by simpa using fresh,
    by simpa [Register.stop] using small⟩

/-- The declaration of the first register, within the limit of the rules. -/
theorem step_declaration {K : Type} [Scalar K] (positive : 0 < n) (small : n < Literal.sizeLimit)
    (allowed : ∀ max, rules.maxQubits = some max → n ≤ max) :
    step rules (empty : Program K) ("qreg".toList ++ ' ' :: element ['q'] n) =
      .ok ⟨[⟨['q'], 0, n⟩], [], []⟩ := by
  rw [step, splitKeyword_append (visible_of_reserved (by decide))]
  change declareQuantum rules empty (Text.trim (' ' :: element ['q'] n)) = _
  rw [Text.trim_cons_of_blank rfl, trim_element rfl, declareQuantum]
  change (Register.declare [] 0 _ >>= _) = _
  rw [declare_element rfl positive small rfl, ok_bind]
  cases limit : rules.maxQubits with
  | none => rfl
  | some max =>
    have within : ¬ max < 0 + n := by
      have := allowed max limit
      omega
    exact if_neg within

/-- The declarations at the front of a listing. -/
theorem run_declarations (positive : 0 < n) (small : n < Literal.sizeLimit)
    (allowed : ∀ max, rules.maxQubits = some max → n ≤ max) (declared : 0 < m)
    (narrow : m < Literal.sizeLimit) (rest : List Statement) :
    run rules (empty : Program Float) (⟨1, "qreg".toList ++ ' ' :: element ['q'] n⟩ ::
      ⟨1, "creg".toList ++ ' ' :: element ['c'] m⟩ :: rest) = run rules (listed n m []) rest := by
  have classical : step rules (⟨[⟨['q'], 0, n⟩], [], []⟩ : Program Float)
      ("creg".toList ++ ' ' :: element ['c'] m) = .ok (listed n m []) := by
    rw [step, splitKeyword_append (visible_of_reserved (by decide))]
    change declareClassical _ (Text.trim (' ' :: element ['c'] m)) = _
    rw [Text.trim_cons_of_blank rfl, trim_element rfl, declareClassical]
    change (Register.declare _ 0 _ >>= _) = _
    rw [declare_element rfl declared narrow rfl, ok_bind]
    rfl
  rw [run, step_declaration positive small allowed]
  dsimp only
  rw [run, classical]

/-- The texts between the semicolons of a listing. -/
def pieces (c : Circuit Float) (bits : Nat) : List Text :=
  ("qreg".toList ++ ' ' :: element ['q'] c.qubits) ::
    (' ' :: ("creg".toList ++ ' ' :: element ['c'] bits)) ::
      c.operations.map fun op => op.text.toList

theorem toList_listing (c : Circuit Float) (bits : Nat) :
    (c.listing bits).toList = (pieces c bits).flatMap (· ++ [';']) := by
  simp [Circuit.listing, pieces, element, natText, toString, String.toList_append,
    String.toList_join, List.flatMap_map]

theorem plain_of_mem_declaration {keyword : String} {name : Text} {size : Nat} {c : Char}
    (word : keyword ∈ reserved) (identifier : isName name = true)
    (mem : c ∈ keyword.toList ++ ' ' :: element name size) : Plain c := by
  rcases List.mem_append.1 mem with front | back
  · exact (printing_of_reserved word front).plain
  · rcases List.mem_cons.1 back with rfl | operand
    · decide
    · exact (printing_of_mem_element identifier operand).plain

/-- The statements of a listing are its declarations and its operations. -/
theorem statements_listing {c : Circuit Float}
    (finite : ∀ g qubits, .gate g qubits ∈ c.operations → ∀ a ∈ g.params,
      Scalar.isFinite a = true) (bits : Nat) :
    statements (c.listing bits).toList =
      ⟨1, "qreg".toList ++ ' ' :: element ['q'] c.qubits⟩ ::
        ⟨1, "creg".toList ++ ' ' :: element ['c'] bits⟩ ::
          c.operations.map fun op => ⟨1, Text.trim op.text.toList⟩ := by
  have ends (name : Text) (i : Nat) (identifier : isName name = true) :
      ∀ c ∈ (element name i).getLast?, Text.isBlank c = false := fun c mem =>
    (printing_of_mem_element identifier (List.mem_of_getLast? mem)).isBlank
  have quantum := @trim_statement "qreg".toList _ (visible_of_reserved (by decide)) (by simp)
    (element_ne_nil ['q'] c.qubits) (ends _ _ rfl)
  have classical := @trim_statement "creg".toList _ (visible_of_reserved (by decide)) (by simp)
    (element_ne_nil ['c'] bits) (ends _ _ rfl)
  have plain : ∀ p ∈ pieces c bits, ∀ d ∈ p, Plain d := by
    refine List.forall_mem_cons.2 ⟨?_, List.forall_mem_cons.2 ⟨?_, fun p mem d inside => ?_⟩⟩
    · exact fun d inside => plain_of_mem_declaration (by decide) rfl inside
    · refine List.forall_mem_cons.2 ⟨by decide, fun d inside => ?_⟩
      exact plain_of_mem_declaration (by decide) rfl inside
    · obtain ⟨op, listed, rfl⟩ := List.mem_map.1 mem
      exact plain_of_mem_text (fun g qubits same => finite g qubits (same ▸ listed)) inside
  rw [toList_listing, statements_pieces]
  · rw [pieces, List.map_cons, List.map_cons, List.map_map, quantum,
      Text.trim_cons_of_blank rfl, classical]
    rfl
  · exact fun p mem d inside => ⟨(plain p mem d inside).1, (plain p mem d inside).2.1⟩
  · exact fun p mem => uncommented_of_free fun inside => (plain p mem '/' inside).2.2 rfl
  · refine List.forall_mem_cons.2 ⟨?_, List.forall_mem_cons.2 ⟨?_, fun p mem => ?_⟩⟩
    · exact Text.trim_ne_nil (c := 'q') rfl _
    · rw [Text.trim_cons_of_blank rfl]
      exact Text.trim_ne_nil (c := 'c') rfl _
    · obtain ⟨op, -, rfl⟩ := List.mem_map.1 mem
      exact trim_text_ne_nil op

/-- A program over as many qubits as were asked for makes a circuit of operations that fit. -/
theorem finish_of_accepted {K : Type} {p : Program K} (total : Register.total p.quantum = n)
    (positive : 0 < n) (accepted : ∀ op ∈ p.operations, op.fault? n = none)
    {expected : Option Nat} (asked : ∀ k, expected = some k → k = n) :
    p.finish expected = .ok ⟨n, p.operations⟩ := by
  have requested : expected.filter (· ≠ n) = none := by
    cases expected with
    | none => rfl
    | some k => simp [asked k rfl]
  have added : (Circuit.empty n).addAll p.operations = .ok ⟨n, p.operations⟩ :=
    Circuit.addAll_eq_ok_iff.2 ⟨accepted, rfl⟩
  unfold finish
  dsimp only
  rw [total, if_neg positive.ne', requested]
  dsimp only
  rw [added]
  rfl

end Listing

/-! ## Main result -/

/-- **Printing, then parsing.** A circuit over some qubits, with finite angles, is printed as a
program that parses to a circuit over the same qubits with the same operations in the same order,
when the program declares all bits that are measured into and no more qubits than the rules allow.
Each angle is then worth what the text with four places is worth that it was printed as. -/
theorem parse_listing {rules : Rules} {c : Circuit Float} {m : Nat} (reachable : c.Reachable)
    (positive : 0 < c.qubits) (small : c.qubits < Literal.sizeLimit)
    (allowed : ∀ max, rules.maxQubits = some max → c.qubits ≤ max)
    (finite : ∀ g qubits, .gate g qubits ∈ c.operations → ∀ a ∈ g.params,
      Scalar.isFinite a = true)
    (declared : 0 < m) (narrow : m < Literal.sizeLimit)
    (bits : ∀ q b, .measure q b ∈ c.operations → b < m) :
    ∃ f : Float → Float,
      (∀ g qubits, .gate g qubits ∈ c.operations → ∀ a ∈ g.params,
        Angle.reread? a = some (f a)) ∧
      parse rules (some c.qubits) (c.listing m).toList =
        .ok ⟨c.qubits, c.operations.map (Operation.mapAngles f)⟩ := by
  -- a text is worth the same wherever it stands, so one function serves all angles
  obtain ⟨f, value⟩ : ∃ f : Float → Float, ∀ a, Scalar.isFinite a = true →
      Angle.reread? a = some (f a) ∧ Angle.evaluate (fixed .minus 4 a).toList = .ok (f a) := by
    refine ⟨fun a => (Angle.reread? a).getD 0, fun a finite => ?_⟩
    obtain ⟨v, reread, evaluated⟩ := Angle.exists_reread finite
    dsimp only
    rw [reread, evaluated]
    exact ⟨rfl, rfl⟩
  refine ⟨f, fun g qubits mem a given => (value a (finite g qubits mem a given)).1, ?_⟩
  have accepted := reachable.fault?_eq_none
  have readable : ∀ op ∈ c.operations, Readable c.qubits m f op := fun op mem =>
    ⟨accepted op mem, fun q b same => bits q b (same ▸ mem), fun g qubits same a given =>
      have bounded := finite g qubits (same ▸ mem) a given
      ⟨bounded, (value a bounded).2⟩⟩
  have ran : run rules empty (statements (c.listing m).toList) =
      .ok (listed c.qubits m (c.operations.map (Operation.mapAngles f))) := by
    rw [statements_listing finite, run_declarations positive small allowed declared narrow,
      run_operations readable small narrow, List.nil_append]
  have kept : ∀ op ∈ c.operations.map (Operation.mapAngles f), op.fault? c.qubits = none := by
    intro op mem
    obtain ⟨old, listed, rfl⟩ := List.mem_map.1 mem
    exact Operation.fault?_mapAngles (accepted old listed)
  rw [parse, ran, ok_bind]
  exact finish_of_accepted (Nat.zero_add _) positive kept fun k same => (Option.some.inj same).symm

/-- A circuit with an angle that four places do not hold, and with a barrier that names no qubit and
one that names a qubit twice. -/
def rounded : Circuit Float :=
  ⟨2, [.gate (.rx (-0.12504)) [1], .gate .cx [1, 0], .barrier [], .barrier [0, 0], .measure 0 4]⟩

theorem parse_listing_rounded :
    Angle.reread? (-0.12504) = some (-0.125) ∧
      parse ⟨.strict, some 2⟩ (some 2) (rounded.listing 5).toList =
        .ok ⟨2, [.gate (.rx (-0.125)) [1], .gate .cx [1, 0], .barrier [], .barrier [0, 0],
          .measure 0 4]⟩ := by
  have reread : Angle.reread? (-0.12504) = some (-0.125) := by
    rw [Angle.reread?, fixed, String.toList_ofList]
    decide +kernel
  have reachable : rounded.Reachable :=
    Circuit.reachable_of_accepted (by decide)
      (by simp [Operation.fault?, Operation.qubits, Gate.arity])
  have finite : ∀ g qubits, .gate g qubits ∈ rounded.operations → ∀ a ∈ g.params,
      Scalar.isFinite a = true := by
    have angle : Scalar.isFinite (-0.12504 : Float) = true := by decide +kernel
    intro g qubits mem a given
    obtain ⟨rfl, -⟩ | ⟨rfl, -⟩ : g = .rx (-0.12504) ∧ qubits = [1] ∨ g = .cx ∧ qubits = [1, 0] := by
      simpa [rounded] using mem
    · rwa [List.mem_singleton.1 given]
    · cases given
  obtain ⟨f, angles, parsed⟩ := @parse_listing ⟨.strict, some 2⟩ rounded 5 reachable (by decide)
    (by decide) (by simp [rounded]) finite (by decide) (by decide) (by simp [rounded])
  have value : f (-0.12504) = -0.125 := by
    have same := angles (.rx (-0.12504)) [1] List.mem_cons_self _ List.mem_cons_self
    rw [reread] at same
    exact (Option.some.inj same).symm
  refine ⟨reread, ?_⟩
  rw [← value]
  exact parsed

end Program

end QubitTrace
