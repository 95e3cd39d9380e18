import Mathlib
import QubitTrace.Proofs.Program.Application
import QubitTrace.Proofs.Program.Run

/-! # Statements on whole registers

A gate on whole registers stands for one gate on single qubits after another. The statements that
spell this out (`Program.explicit`, `Program.bitwise`) replace each operand by one element of it
(`pick`). Such an element resolves to the index that the operand contributes (`resolve_pick`), so
the statements add one by one the operations that the statement on registers adds at once
(`runTexts_ops`).
-/

namespace QubitTrace.Program
set_option autoImplicit false

open Register (resolve total)

/-! ## Spelling out -/

/-- The element that an operand contributes to the gate number `i`: the one it names, the element
`i` of a register it names, or the only element of a register of size one. -/
def pick (registers : List Register) (operand : Text) (i : Nat) : Text :=
  match readOperand operand with
  | .ok (name, some k) => element name k
  | .ok (name, none) =>
    match registers.find? (·.name == name) with
    | some r => element name (if r.size = 1 then 0 else i)
    | none => operand
  | .error _ => operand

/-- The elements that a list of operands contributes to the gate number `i`, as a list. -/
def pickAll (registers : List Register) (operands : Text) (i : Nat) : Text :=
  List.intercalate [','] ((splitTopLevel ',' operands).map fun operand =>
    pick registers (Text.trim operand) i)

variable {K : Type}

/-- The gate statements on single qubits that a gate statement on registers stands for. -/
def explicit (p : Program K) (statement : Text) : List Text :=
  match splitApplication statement with
  | .error _ => []
  | .ok (_, _, operands) =>
    match p.qubitOperands operands with
    | .error _ => []
    | .ok spans => (List.range (width spans)).map fun i =>
      heading statement ++ ' ' :: pickAll p.quantum operands i

/-- The measurements of single qubits that a measurement of registers stands for. -/
def bitwise (p : Program K) (statement : Text) : List Text :=
  match Text.cut? ['-', '>'] (splitKeyword statement).2 with
  | none => []
  | some (source, target) =>
    match resolve .quantum p.quantum (Text.trim source) with
    | .error _ => []
    | .ok qubits => (List.range qubits.length).map fun i =>
      measurement (pick p.quantum (Text.trim source) i) (pick p.classical (Text.trim target) i)

/-! ## Elements of operands -/

section Pick

variable {kind : RegisterKind} {registers : List Register} {operand : Text} {s : Span} {i : Nat}

/-- What an operand contributes is an element of a register, at the index the operand is spread
to. -/
theorem exists_pick (resolved : resolve kind registers operand = .ok s)
    (fits : s.length = 1 ∨ i < s.length) :
    ∃ r ∈ registers, ∃ k < r.size, pick registers operand i = element r.name k ∧
      s.spread i = r.offset + k := by
  unfold pick
  cases resolve_eq_ok_iff.1 resolved with
  | @whole r read found =>
    have mem := List.mem_of_find?_eq_some found
    simp only [read, found]
    by_cases one : r.size = 1
    · exact ⟨r, mem, 0, by omega, by rw [if_pos one], if_pos one⟩
    · exact ⟨r, mem, i, fits.resolve_left one, by rw [if_neg one], if_neg one⟩
  | @element r k read found inside =>
    rw [read]
    exact ⟨r, List.mem_of_find?_eq_some found, k, inside, rfl, if_pos rfl⟩

/-- That element is an operand which resolves to the one index. -/
theorem resolve_pick (laid : Laid registers) (distinct : (registers.map Register.name).Nodup)
    (resolved : resolve kind registers operand = .ok s) (fits : s.length = 1 ∨ i < s.length) :
    ∃ name k, isName name = true ∧ pick registers operand i = element name k ∧
      resolve kind registers (element name k) = .ok ⟨s.spread i, 1⟩ := by
  obtain ⟨r, mem, k, inside, picked, place⟩ := exists_pick resolved fits
  refine ⟨r.name, k, (laid.spec_of_mem r mem).1, picked, ?_⟩
  rw [place, resolve_element laid distinct mem inside]

end Pick

section PickAll

variable {p : Program K} {operands : Text} {spans : List Span} {i : Nat} (laid : Laid p.quantum)
  (distinct : (p.quantum.map Register.name).Nodup) (resolved : p.qubitOperands operands = .ok spans)
  (fits : ∀ s ∈ spans, s.length = 1 ∨ i < s.length)
include laid distinct resolved fits

theorem element_of_mem_picks {piece : Text} (mem : piece ∈ (splitTopLevel ',' operands).map
    fun operand => pick p.quantum (Text.trim operand) i) :
    ∃ name k, isName name = true ∧ piece = element name k := by
  obtain ⟨operand, listed, rfl⟩ := List.mem_map.1 mem
  obtain ⟨s, inside, here⟩ := exists_of_mem_mapM resolved listed
  obtain ⟨name, k, identifier, picked, -⟩ := resolve_pick laid distinct here (fits s inside)
  exact ⟨name, k, identifier, picked⟩

theorem printing_of_mem_pickAll {c : Char} (mem : c ∈ pickAll p.quantum operands i) :
    Printing c ∧ c ≠ '(' := by
  rcases mem_intercalate mem with rfl | ⟨piece, listed, inside⟩
  · decide
  · obtain ⟨name, k, identifier, rfl⟩ := element_of_mem_picks laid distinct resolved fits listed
    have := toNat_of_mem_element identifier inside
    exact ⟨printing_of_mem_element identifier inside, (separate_of_le (by omega)).1⟩

/-- The elements that operands contribute to a gate are its operands. -/
theorem qubitOperands_pickAll : p.qubitOperands (pickAll p.quantum operands i) =
    .ok ((spans.map (·.spread i)).map fun q => ⟨q, 1⟩) := by
  have parts : splitTopLevel ',' (pickAll p.quantum operands i) =
      (splitTopLevel ',' operands).map fun operand => pick p.quantum (Text.trim operand) i := by
    refine splitTopLevel_intercalate (by decide) (fun piece mem c inside => ?_) fun piece mem => ?_
    · obtain ⟨name, k, identifier, rfl⟩ := element_of_mem_picks laid distinct resolved fits mem
      have := toNat_of_mem_element identifier inside
      exact separate_of_le (by omega)
    · obtain ⟨name, k, identifier, rfl⟩ := element_of_mem_picks laid distinct resolved fits mem
      exact isBlankText_of_visible (element_ne_nil name k) fun c inside =>
        (printing_of_mem_element identifier inside).isBlank
  rw [qubitOperands, parts, List.map_map]
  refine mapM_map_of_mapM resolved fun operand s mem here => ?_
  obtain ⟨name, k, identifier, picked, found⟩ := resolve_pick laid distinct here (fits s mem)
  rw [picked, trim_element identifier, found]
  rfl

end PickAll

/-! ## Widths -/

section Widths

variable {p p' : Program K} {statement name operands : Text} {g : Gate K} {spans : List Span}

/-- Some operand is neither one wide nor as wide as the widest. -/
def Mismatched (spans : List Span) : Prop := ∃ s ∈ spans, s.length ≠ 1 ∧ s.length ≠ width spans

theorem any_iff_mismatched :
    (spans.any fun s => s.length != 1 && s.length != width spans) = true ↔ Mismatched spans := by
  simp [Mismatched]

theorem fits_of_matched (matched : ¬ Mismatched spans) {i : Nat} (lt : i < width spans) :
    ∀ s ∈ spans, s.length = 1 ∨ i < s.length := by
  intro s mem
  by_contra outside
  obtain ⟨wide, short⟩ := not_or.1 outside
  exact matched ⟨s, mem, wide, fun same => short (same ▸ lt)⟩

theorem resolve_ne_widths {kind : RegisterKind} {registers : List Register} {operand : Text} :
    resolve kind registers operand ≠ .error (.widths statement) := by
  intro failed
  unfold resolve at failed
  rcases bind_eq_error_iff.1 failed with unread | ⟨⟨name, index⟩, -, failed⟩
  · unfold readOperand named at unread
    split at unread
    · split_ifs at unread
      cases unread
    · split at unread
      · cases unread
      · split at unread
        · cases unread
        · split_ifs at unread
          cases unread
  · dsimp only at failed
    split at failed
    · cases failed
    · split at failed
      · cases failed
      · split_ifs at failed
        cases failed

theorem applyGate_eq_ok (applied : p.applyGate statement name g operands = .ok p') :
    ∃ spans, p.qubitOperands operands = .ok spans ∧ spans.length = g.arity ∧ ¬ Mismatched spans ∧
      p' = p.append (spread g spans) := by
  unfold applyGate at applied
  obtain ⟨spans, resolved, applied⟩ := bind_eq_ok_iff.1 applied
  split_ifs at applied with count sizes
  cases applied
  exact ⟨spans, resolved, not_not.1 count, any_iff_mismatched.not.1 sizes, rfl⟩

/-- Sizes are found not to match when the operands are as many as the gate takes, and some operand
has a width that is neither one nor the largest. -/
theorem applyGate_eq_widths_iff :
    p.applyGate statement name g operands = .error (.widths statement) ↔
      ∃ spans, p.qubitOperands operands = .ok spans ∧ spans.length = g.arity ∧
        Mismatched spans := by
  unfold applyGate
  constructor
  · intro failed
    rcases bind_eq_error_iff.1 failed with unresolved | ⟨spans, resolved, failed⟩
    · obtain ⟨operand, -, here⟩ := exists_of_mapM_eq_error unresolved
      exact absurd here resolve_ne_widths
    · split_ifs at failed with count sizes
      · cases failed
      · exact ⟨spans, resolved, not_not.1 count, any_iff_mismatched.1 sizes⟩
  · rintro ⟨spans, resolved, count, sizes⟩
    rw [resolved, ok_bind, if_neg (not_not.2 count), if_pos (any_iff_mismatched.2 sizes)]

end Widths

/-! ## Runs on texts -/

section Texts

variable [Scalar K] {rules : Rules}

/-- Runs the texts of statements. What is lost of `run` is which fault stops it and on which
line. -/
def runTexts (rules : Rules) (p : Program K) (texts : List Text) : Option (Program K) :=
  texts.foldlM (fun p t => (p.step rules t).toOption) p

theorem runTexts_append (p : Program K) (texts more : List Text) :
    runTexts rules p (texts ++ more) =
      runTexts rules p texts >>= fun p => runTexts rules p more :=
  List.foldlM_append

theorem runTexts_cons (p : Program K) (text : Text) (texts : List Text) :
    runTexts rules p (text :: texts) =
      (p.step rules text).toOption >>= fun p => runTexts rules p texts :=
  List.foldlM_cons

theorem toOption_run (ss : List Statement) (p : Program K) :
    (run rules p ss).toOption = runTexts rules p (ss.map Statement.text) := by
  induction ss generalizing p with
  | nil => rfl
  | cons s ss ih =>
    rw [run, List.map_cons, runTexts_cons]
    cases stepped : p.step rules s.text with
    | error fault => rfl
    | ok next => exact ih next

theorem toOption_parse (expected : Option Nat) (source : Text) :
    (parse (K := K) rules expected source).toOption =
      runTexts rules empty ((statements source).map Statement.text) >>=
        fun p => (p.finish expected).toOption := by
  rw [parse, toOption_bind, toOption_run]

/-- Statements that each add an operation add all of them. -/
theorem runTexts_ops {p : Program K} {α : Type} {text : α → Text} {op : α → Operation K}
    {indices : List α} (each : ∀ i ∈ indices, ∀ ops,
      (p.append ops).step rules (text i) = .ok (p.append (ops ++ [op i])))
    (ops : List (Operation K)) :
    runTexts rules (p.append ops) (indices.map text) = some (p.append (ops ++ indices.map op)) := by
  induction indices generalizing ops with
  | nil =>
    rw [List.map_nil, List.map_nil, List.append_nil]
    rfl
  | cons i indices ih =>
    obtain ⟨first, rest⟩ := List.forall_mem_cons.1 each
    rw [List.map_cons, runTexts_cons, first, Except.toOption, Option.bind_eq_bind,
      Option.bind_some, ih rest, List.map_cons, List.append_assoc, List.singleton_append]

end Texts

/-! ## Statements on registers -/

section Gates

variable [Scalar K] {rules : Rules} {p : Program K} {statement name operands : Text} {g : Gate K}
  {spans : List Span}

theorem explicit_eq (applies : Applies statement name g operands)
    (resolved : p.qubitOperands operands = .ok spans) :
    p.explicit statement = (List.range (width spans)).map fun i =>
      heading statement ++ ' ' :: pickAll p.quantum operands i := by
  obtain ⟨angles, values, parts, -⟩ := applies
  simp only [explicit, parts, resolved]

/-- The `i`-th of the statements applies the gate to the `i`-th qubit of each operand. -/
theorem Applies.explicit (sound : Sound rules p) (applies : Applies statement name g operands)
    (resolved : p.qubitOperands operands = .ok spans) (matched : ¬ Mismatched spans) {i : Nat}
    (lt : i < width spans) :
    Applies (Program.heading statement ++ ' ' :: pickAll p.quantum operands i) name g
        (pickAll p.quantum operands i) ∧
      p.qubitOperands (pickAll p.quantum operands i) =
        .ok ((spans.map (·.spread i)).map fun q => ⟨q, 1⟩) := by
  have fits := fits_of_matched matched lt
  refine ⟨applies.heading fun c mem => ?_,
    qubitOperands_pickAll sound.quantum sound.distinct_quantum resolved fits⟩
  obtain ⟨printing, other⟩ := printing_of_mem_pickAll sound.quantum sound.distinct_quantum resolved
    fits (List.mem_of_mem_head? mem)
  exact ⟨printing.isBlank, other⟩

theorem standing_explicit (sound : Sound rules p) (applies : Applies statement name g operands)
    (resolved : p.qubitOperands operands = .ok spans) (count : spans.length = g.arity)
    (matched : ¬ Mismatched spans) (standing : Standing statement) :
    ∀ t ∈ p.explicit statement, Standing t := by
  intro t mem
  rw [explicit_eq applies resolved] at mem
  obtain ⟨i, listed, rfl⟩ := List.mem_map.1 mem
  have lt := List.mem_range.1 listed
  refine standing.heading applies.named (fun empty => ?_) fun c inside =>
    (printing_of_mem_pickAll sound.quantum sound.distinct_quantum resolved
      (fits_of_matched matched lt) inside).1
  -- a gate takes an operand at least, so the list is not empty
  obtain ⟨-, single⟩ := applies.explicit sound resolved matched lt
  have positive := arity_pos g
  rw [empty] at single
  injection single with none
  have none : spans = [] := by simpa using none.symm
  rw [← count, none] at positive
  exact absurd positive (Nat.lt_irrefl 0)

/-- The statements on single qubits do together what the gate statement on registers does. -/
theorem runTexts_explicit (sound : Sound rules p) (applies : Applies statement name g operands)
    (resolved : p.qubitOperands operands = .ok spans) (count : spans.length = g.arity)
    (matched : ¬ Mismatched spans) :
    runTexts rules p (p.explicit statement) = some (p.append (spread g spans)) := by
  have each : ∀ i ∈ List.range (width spans), ∀ ops, (p.append ops).step rules
      (heading statement ++ ' ' :: pickAll p.quantum operands i) =
        .ok (p.append (ops ++ [.gate g (spans.map (·.spread i))])) := by
    intro i mem ops
    obtain ⟨applied, single⟩ := applies.explicit sound resolved matched (List.mem_range.1 mem)
    have single : (p.append ops).qubitOperands (pickAll p.quantum operands i) =
        .ok ((spans.map (·.spread i)).map fun q => ⟨q, 1⟩) := single
    rw [applied.step_eq, applyGate_single single (by rw [List.length_map, count]), append_append]
  have all := runTexts_ops each []
  rwa [append_nil, List.nil_append, ← explicit_eq applies resolved] at all

end Gates

section Measurements

variable [Scalar K] {rules : Rules} {p : Program K} {statement source target : Text}
  {qubits bits : Span}

theorem toList_eq_map_spread (s : Span) : s.toList = (List.range s.length).map s.spread := by
  rw [Span.toList, List.range'_eq_map_range]
  refine List.map_congr_left fun i mem => ?_
  have lt := List.mem_range.1 mem
  unfold Span.spread
  split_ifs with one
  · omega
  · rfl

theorem standing_measurement {a b : Text} (qubit : isName a = true) (bit : isName b = true)
    (j k : Nat) : Standing (measurement (element a j) (element b k)) := by
  have plain : ∀ c ∈ measurement (element a j) (element b k), Plain c := fun c mem =>
    plain_of_mem_measurement (fun _ inside => (printing_of_mem_element qubit inside).plain)
      (fun _ inside => (printing_of_mem_element bit inside).plain) mem
  exact ⟨List.cons_ne_nil _ _, trim_measurement bit,
    fun c mem => ⟨(plain c mem).1, (plain c mem).2.1⟩,
    uncommented_of_free fun mem => (plain _ mem).2.2 rfl⟩

omit [Scalar K] in
theorem bitwise_eq (cut : Text.cut? ['-', '>'] (splitKeyword statement).2 = some (source, target))
    (resolved : resolve .quantum p.quantum (Text.trim source) = .ok qubits) :
    p.bitwise statement = (List.range qubits.length).map fun i =>
      measurement (pick p.quantum (Text.trim source) i) (pick p.classical (Text.trim target) i) := by
  simp only [bitwise, cut, resolved]

variable (sound : Sound rules p)
  (resolved : resolve .quantum p.quantum (Text.trim source) = .ok qubits)
  (written : resolve .classical p.classical (Text.trim target) = .ok bits)
  (same : qubits.length = bits.length)
include sound resolved written same

/-- The `i`-th of the statements measures the `i`-th qubit into the `i`-th bit. -/
theorem step_picks {i : Nat} (lt : i < qubits.length) :
    let text := measurement (pick p.quantum (Text.trim source) i)
      (pick p.classical (Text.trim target) i)
    Standing text ∧ ∀ ops, (p.append ops).step rules text =
      .ok (p.append (ops ++ [.measure (qubits.spread i) (bits.spread i)])) := by
  intro text
  obtain ⟨a, j, word, picked, measured⟩ :=
    resolve_pick sound.quantum sound.distinct_quantum resolved (.inr lt)
  obtain ⟨b, k, word', picked', found⟩ :=
    resolve_pick sound.classical sound.distinct_classical written (.inr (same ▸ lt))
  have spelled : text = measurement (element a j) (element b k) := by rw [← picked, ← picked']
  refine ⟨spelled ▸ standing_measurement word word' j k, fun ops => ?_⟩
  rw [spelled, step_measurement word word' (p := p.append ops) measured found, append_append]

variable (cut : Text.cut? ['-', '>'] (splitKeyword statement).2 = some (source, target))
include cut

theorem standing_bitwise : ∀ t ∈ p.bitwise statement, Standing t := by
  intro t mem
  rw [bitwise_eq cut resolved] at mem
  obtain ⟨i, listed, rfl⟩ := List.mem_map.1 mem
  exact (step_picks sound resolved written same (List.mem_range.1 listed)).1

/-- The measurements of single qubits do together what the measurement of registers does. -/
theorem runTexts_bitwise : runTexts rules p (p.bitwise statement) =
    some (p.append (List.zipWith .measure qubits.toList bits.toList)) := by
  have all := runTexts_ops (fun i mem =>
    (step_picks sound resolved written same (List.mem_range.1 mem)).2) []
  rw [append_nil, List.nil_append, ← bitwise_eq cut resolved] at all
  rw [all, toList_eq_map_spread, toList_eq_map_spread, ← same, List.zipWith_map, List.zipWith_self]

end Measurements

/-! ## Main result -/

section Replaced

variable [Scalar K] {rules : Rules} {source : Text} {pre post : List Statement} {s : Statement}
  {p p' : Program K} {texts : List Text}

/-- The statements of a program are those of `pre`, the texts and those of `post`. -/
def Between (pre post : List Statement) (texts : List Text) (program : Text) : Prop :=
  (statements program).map Statement.text =
    pre.map Statement.text ++ (texts ++ post.map Statement.text)

/-- The texts can stand for what is between `pre` and `post` in the source: programs in which they
do exist, and are read as the source is, as the same circuit or as none. -/
structure Replaceable (K : Type) [Scalar K] (rules : Rules) (source : Text)
    (pre post : List Statement) (texts : List Text) : Prop where
  program : ∃ other, Between pre post texts other
  parse : ∀ other, Between pre post texts other → ∀ expected,
    (Program.parse (K := K) rules expected other).toOption =
      (Program.parse rules expected source).toOption

/-- Texts that do together what a statement does can stand for it. -/
theorem replaceable_of_runTexts (split : statements source = pre ++ s :: post)
    (ran : run rules empty pre = .ok p) (accepted : p.step rules s.text = .ok p')
    (same : runTexts rules p texts = some p') (standing : ∀ t ∈ texts, Standing t) :
    Replaceable K rules source pre post texts := by
  have front : runTexts rules (empty : Program K) (pre.map Statement.text) = some p := by
    rw [← toOption_run, ran]
    rfl
  have all : ∀ t ∈ pre.map Statement.text ++ (texts ++ post.map Statement.text), Standing t := by
    have kept {u : Statement} (mem : u ∈ pre ++ s :: post) : Standing u.text := by
      rw [← split] at mem
      exact standing_of_mem_statements mem
    intro t mem
    rcases List.mem_append.1 mem with before | mem
    · obtain ⟨u, listed, rfl⟩ := List.mem_map.1 before
      exact kept (List.mem_append_left _ listed)
    · rcases List.mem_append.1 mem with new | after
      · exact standing t new
      · obtain ⟨u, listed, rfl⟩ := List.mem_map.1 after
        exact kept (List.mem_append_right _ (List.mem_cons_of_mem _ listed))
  have here : (p.step rules s.text).toOption = some p' := by
    rw [accepted]
    rfl
  have runs : runTexts rules (empty : Program K)
      (pre.map Statement.text ++ (texts ++ post.map Statement.text)) =
        runTexts rules empty ((statements source).map Statement.text) := by
    rw [split, List.map_append, List.map_cons, runTexts_append, runTexts_append, front]
    change runTexts rules p (texts ++ _) = runTexts rules p (s.text :: _)
    rw [runTexts_append, same, runTexts_cons, here]
  have made := congrArg (List.map Statement.text) (statements_join all)
  rw [List.map_map] at made
  refine ⟨⟨_, made.trans (List.map_id _)⟩, fun other between expected => ?_⟩
  rw [toOption_parse, toOption_parse, between, runs]

/-- **Statements on registers are shorthand.** Take a statement of a program that is reached. If it
applies a gate of the catalogue and is accepted, then as many statements as its widest operand is
wide, each of which applies the gate to single qubits, the `i`-th of each register and the same one
of each operand of size one, can stand for it: the program is read as the same circuit, or still as
none. It is refused for the sizes of its operands exactly when they are as many as the gate takes
and one of them has a width that is neither one nor the largest. An accepted measurement of
registers can be replaced by those of their elements. -/
theorem parse_replaced (split : statements source = pre ++ s :: post)
    (ran : run rules empty pre = .ok p) :
    (∀ name (g : Gate K) operands, Applies s.text name g operands →
      (∀ p', p.step rules s.text = .ok p' → ∃ spans, p.qubitOperands operands = .ok spans ∧
        (p.explicit s.text).length = width spans ∧
        (∀ i t, (p.explicit s.text)[i]? = some t → ∃ others, Applies t name g others ∧
          p.qubitOperands others = .ok ((spans.map (·.spread i)).map fun q => ⟨q, 1⟩)) ∧
        Replaceable K rules source pre post (p.explicit s.text)) ∧
      (p.step rules s.text = .error (.widths s.text) ↔
        ∃ spans, p.qubitOperands operands = .ok spans ∧ spans.length = g.arity ∧
          Mismatched spans)) ∧
    (String.ofList (splitKeyword s.text).1 = "measure" → ∀ p', p.step rules s.text = .ok p' →
      Replaceable K rules source pre post (p.bitwise s.text)) := by
  obtain ⟨sound, -⟩ := sound_of_run (sound_empty rules) ran
  have mem : s ∈ statements source := by simp [split]
  have standing : Standing s.text := standing_of_mem_statements mem
  refine ⟨fun name g operands applies => ⟨fun p' accepted => ?_, ?_⟩,
    fun keyword p' accepted => ?_⟩
  · rw [applies.step_eq] at accepted
    obtain ⟨spans, resolved, count, matched, rfl⟩ := applyGate_eq_ok accepted
    have listed := explicit_eq applies resolved
    refine ⟨spans, resolved, by rw [listed, List.length_map, List.length_range],
      fun i t here => ?_, ?_⟩
    · rw [listed, List.getElem?_map] at here
      obtain ⟨j, inside, rfl⟩ := Option.map_eq_some_iff.1 here
      obtain ⟨lt, same⟩ := List.getElem?_eq_some_iff.1 inside
      rw [List.length_range] at lt
      rw [List.getElem_range] at same
      subst same
      exact ⟨_, applies.explicit sound resolved matched lt⟩
    · exact replaceable_of_runTexts split ran ((applies.step_eq rules p).trans accepted)
        (runTexts_explicit sound applies resolved count matched)
        (standing_explicit sound applies resolved count matched standing)
  · rw [applies.step_eq, applyGate_eq_widths_iff]
  · have measured := accepted
    rw [step_of_measure keyword] at measured
    obtain ⟨source, target, cut, qubits, bits, resolved, written, same, rfl⟩ :=
      measure_eq_ok measured
    exact replaceable_of_runTexts split ran accepted
      (runTexts_bitwise sound resolved written same cut)
      (standing_bitwise sound resolved written same cut)

end Replaced

/-- A program that applies a gate to registers of different sizes and measures a whole register. -/
def spreading : Text := "qreg a[2]; qreg b[1]; creg c[2]; cx a, b; measure a -> c;".toList

/-- The gate is spelled out in one program, the measurement in the other. -/
theorem parse_replaced_spreading :
    (parse ⟨.strict, none⟩ none
      "qreg a[2]; qreg b[1]; creg c[2]; cx a[0],b[0]; cx a[1],b[0]; measure a -> c;".toList).toOption =
        (parse (K := Float) ⟨.strict, none⟩ none spreading).toOption ∧
    (parse ⟨.strict, none⟩ none
      ("qreg a[2]; qreg b[1]; creg c[2]; cx a, b;" ++
        "measure a[0] -> c[0]; measure a[1] -> c[1];").toList).toOption =
        (parse (K := Float) ⟨.strict, none⟩ none spreading).toOption := by
  let rules : Rules := ⟨.strict, none⟩
  let declared : List Statement :=
    [⟨1, "qreg a[2]".toList⟩, ⟨1, "qreg b[1]".toList⟩, ⟨1, "creg c[2]".toList⟩]
  let gate : Statement := ⟨1, "cx a, b".toList⟩
  let measured : Statement := ⟨1, "measure a -> c".toList⟩
  let p : Program Float := ⟨[⟨['a'], 0, 2⟩, ⟨['b'], 2, 1⟩], [⟨['c'], 0, 2⟩], []⟩
  let p' : Program Float := p.append [.gate .cx [0, 2], .gate .cx [1, 2]]
  constructor
  · have split : statements spreading = declared ++ gate :: [measured] := by decide +kernel
    have ran : run rules empty declared = .ok p := by cbv
    have applies : Applies gate.text "cx".toList (.cx : Gate Float) "a, b".toList :=
      ⟨[], [], by decide +kernel, rfl, rfl⟩
    have accepted : p.step rules gate.text = .ok p' := by cbv
    obtain ⟨gates, -⟩ := parse_replaced split ran
    obtain ⟨spans, -, -, -, replaceable⟩ := (gates _ _ _ applies).1 p' accepted
    exact replaceable.parse _ (by unfold Between; decide +kernel) none
  · have split : statements spreading = (declared ++ [gate]) ++ measured :: [] := by decide +kernel
    have ran : run rules empty (declared ++ [gate]) = .ok p' := by cbv
    obtain ⟨-, measurements⟩ := parse_replaced split ran
    have replaceable := measurements (by decide +kernel)
      (p'.append [.measure 0 0, .measure 1 1]) (by cbv)
    exact replaceable.parse _ (by unfold Between; decide +kernel) none

/-- A gate on one qubit with two registers as its operands is refused for their number, although
neither width is one and they differ. -/
theorem not_forall_widths :
    ¬ ∀ (rules : Rules) (source : Text) (pre post : List Statement) (s : Statement)
      (p : Program Float) (name : Text) (g : Gate Float) (operands : Text) (spans : List Span),
      statements source = pre ++ s :: post → run rules empty pre = .ok p →
      Applies s.text name g operands → p.qubitOperands operands = .ok spans →
      (p.step rules s.text = .error (.widths s.text) ↔ Mismatched spans) := by
  intro all
  have refused := (all ⟨.strict, none⟩ "qreg a[2]; qreg b[3]; h a,b;".toList
    [⟨1, "qreg a[2]".toList⟩, ⟨1, "qreg b[3]".toList⟩] [] ⟨1, "h a,b".toList⟩
    ⟨[⟨['a'], 0, 2⟩, ⟨['b'], 2, 3⟩], [], []⟩ ['h'] .h "a,b".toList [⟨0, 2⟩, ⟨2, 3⟩]
    (by decide +kernel) (by cbv) ⟨[], [], by decide +kernel, rfl, rfl⟩ (by decide +kernel)).2
    ⟨⟨0, 2⟩, List.mem_cons_self, by decide, by decide⟩
  have counted : step ⟨.strict, none⟩
      (⟨[⟨['a'], 0, 2⟩, ⟨['b'], 2, 3⟩], [], []⟩ : Program Float) "h a,b".toList =
        .error (.operandCount ['h'] 1 2) := by
    cbv
  cases counted.symm.trans refused

end QubitTrace.Program
