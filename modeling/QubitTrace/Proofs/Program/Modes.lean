import Mathlib
import QubitTrace.Program.Interpreter
import QubitTrace.Proofs.Except
import QubitTrace.Proofs.Program.Keyword

/-! # Unknown gates

The mode of the rules is asked for in one place: at a gate statement that is in order up to its
name, which no gate has (`unknownGate?`). There strict rules refuse the program and permissive
ones go on with it as it was (`step_of_unknown`, `step_of_known`). So a permissive run is the
strict run of the statements that are known (`run_permissive`), and a strict run of them all either
is the same or stops at the first that is not (`run_strict_of_unknown`). What this means for the
circuit of a program is settled case by case in `strict_cases`.
-/

namespace QubitTrace.Program
set_option autoImplicit false

variable {K : Type} [Scalar K]

/-! ## Statements that apply an unknown gate -/

/-- The name that a gate statement applies to its operands, when its angles all have values and no
gate has the name. -/
def unknownName? (K : Type) [Scalar K] (statement : Text) : Option Text :=
  match splitApplication statement with
  | .error _ => none
  | .ok (name, angles, _) =>
    let evaluates (a : Text) : Bool := (Angle.evaluate a : Except AngleFault K).isOk
    if angles.all evaluates ∧ (Template.ofName? (K := K) (String.ofList name)).isNone then some name
    else none

/-- The unknown gate that a statement applies, if it applies one. -/
def unknownGate? (K : Type) [Scalar K] (statement : Text) : Option Text :=
  if String.ofList (splitKeyword statement).1 ∈ reserved then none else unknownName? K statement

/-- What becomes of a program when a statement applies an unknown gate. -/
def unknown (mode : ParseMode) (p : Program K) (name : Text) : Except StatementFault (Program K) :=
  match mode with
  | .strict => .error (.unknownGate name)
  | .permissive => .ok p

theorem all_isOk_iff {angles : List Text} :
    (angles.all fun a => (Angle.evaluate a : Except AngleFault K).isOk) = true ↔
      ∃ values : List K, (angles.mapM fun a =>
        (Angle.evaluate a : Except AngleFault K).mapError StatementFault.angle) = .ok values := by
  rw [List.all_eq_true]
  constructor
  · intro each
    have evaluated : ∀ a ∈ angles, ∃ v : K,
        (Angle.evaluate a : Except AngleFault K).mapError StatementFault.angle = .ok v ∧ True := by
      intro a mem
      have fine := each a mem
      cases value : (Angle.evaluate a : Except AngleFault K) with
      | error fault =>
        rw [value] at fine
        cases fine
      | ok v => exact ⟨v, rfl, trivial⟩
    obtain ⟨values, made, -⟩ := exists_mapM evaluated
    exact ⟨values, made⟩
  · rintro ⟨values, made⟩ a mem
    obtain ⟨v, -, value⟩ := exists_of_mem_mapM made mem
    rw [mapError_eq_ok_iff.1 value]
    rfl

theorem findGate_eq_ok_none_iff {name : Text} {values : List K} :
    findGate name values = .ok none ↔ Template.ofName? (K := K) (String.ofList name) = none := by
  unfold findGate
  cases Template.ofName? (K := K) (String.ofList name) with
  | none => simp
  | some template => cases given : template.withAngles? values <;> simp [given]

theorem unknownName?_eq_some_iff {statement name : Text} :
    unknownName? K statement = some name ↔
      ∃ angles operands values, splitApplication statement = .ok (name, angles, operands) ∧
        (angles.mapM fun a =>
          (Angle.evaluate a : Except AngleFault K).mapError StatementFault.angle) = .ok values ∧
        findGate name values = .ok none := by
  unfold unknownName?
  cases parts : splitApplication statement with
  | error fault => simp
  | ok split =>
    obtain ⟨word, angles, operands⟩ := split
    simp only [Option.isNone_iff_eq_none, findGate_eq_ok_none_iff]
    constructor
    · intro found
      split_ifs at found with fine
      obtain ⟨values, evaluated⟩ := all_isOk_iff.1 fine.1
      cases found
      exact ⟨angles, operands, values, rfl, evaluated, fine.2⟩
    · rintro ⟨_, _, values, same, evaluated, free⟩
      cases same
      exact if_pos ⟨all_isOk_iff.2 ⟨values, evaluated⟩, free⟩

theorem application_of_unknown {rules : Rules} {p : Program K} {statement name : Text}
    (here : unknownName? K statement = some name) :
    p.application rules statement = unknown rules.mode p name := by
  obtain ⟨angles, operands, values, parts, evaluated, free⟩ := unknownName?_eq_some_iff.1 here
  simp only [application, parts, evaluated, free, ok_bind]
  rfl

theorem application_of_known {rules : Rules} {p : Program K} {statement : Text}
    (known : unknownName? K statement = none) :
    p.application rules statement = p.application { rules with mode := .strict } statement := by
  unfold application
  cases parts : splitApplication statement with
  | error fault => rfl
  | ok split =>
    obtain ⟨name, angles, operands⟩ := split
    simp only [ok_bind]
    cases evaluated : angles.mapM fun a =>
        (Angle.evaluate a : Except AngleFault K).mapError StatementFault.angle with
    | error fault => rfl
    | ok values =>
      simp only [ok_bind]
      cases found : findGate name values with
      | error fault => rfl
      | ok gate? =>
        cases gate? with
        | some g => rfl
        | none =>
          have here : unknownName? K statement = some name :=
            unknownName?_eq_some_iff.2 ⟨angles, operands, values, parts, evaluated, found⟩
          rw [known] at here
          cases here

/-! ## Steps -/

variable {rules : Rules} {p : Program K} {statement name : Text}

/-- A statement that applies an unknown gate is left to the mode of the rules. -/
theorem step_of_unknown (here : unknownGate? K statement = some name) :
    p.step rules statement = unknown rules.mode p name := by
  unfold unknownGate? at here
  split_ifs at here with keyword
  rw [step_of_free keyword, application_of_unknown here]

/-- Every other statement is treated the same in both modes. -/
theorem step_of_known (known : unknownGate? K statement = none) :
    p.step rules statement = p.step { rules with mode := .strict } statement := by
  unfold unknownGate? at known
  split_ifs at known with keyword
  · exact step_of_reserved keyword
  · rw [step_of_free keyword, step_of_free keyword, application_of_known known]

/-- The statements that apply no unknown gate are those that the mode makes no difference to. -/
theorem unknownGate?_eq_none_iff (max : Option Nat) (p : Program K) :
    unknownGate? K statement = none ↔
      p.step ⟨.permissive, max⟩ statement = p.step ⟨.strict, max⟩ statement := by
  cases here : unknownGate? K statement with
  | none => exact iff_of_true rfl (step_of_known here)
  | some name =>
    rw [step_of_unknown here, step_of_unknown here]
    exact iff_of_false nofun nofun

/-! ## Runs -/

/-- Whether a statement applies no unknown gate. -/
def known (K : Type) [Scalar K] (s : Statement) : Bool := (unknownGate? K s.text).isNone

theorem known_iff {s : Statement} : known K s = true ↔ unknownGate? K s.text = none := by
  rw [known, Option.isNone_iff_eq_none]

/-- A permissive run is the strict run of the statements that apply no unknown gate. -/
theorem run_permissive (max : Option Nat) (ss : List Statement) (p : Program K) :
    run ⟨.permissive, max⟩ p ss = run ⟨.strict, max⟩ p (ss.filter (known K)) := by
  induction ss generalizing p with
  | nil => rfl
  | cons s ss ih =>
    cases here : unknownGate? K s.text with
    | some name =>
      rw [List.filter_cons_of_neg (by simp [known, here]), run, step_of_unknown here]
      exact ih p
    | none =>
      rw [List.filter_cons_of_pos (known_iff.2 here), run, run, step_of_known here]
      dsimp only
      cases stepped : step ⟨.strict, max⟩ p s.text with
      | error fault => rfl
      | ok next => exact ih next

theorem run_append (rules : Rules) (p : Program K) (ss rest : List Statement) :
    run rules p (ss ++ rest) = run rules p ss >>= fun p => run rules p rest := by
  induction ss generalizing p with
  | nil => rfl
  | cons s ss ih =>
    rw [List.cons_append, run, run]
    cases stepped : step rules p s.text with
    | error fault => rfl
    | ok next => exact ih next

variable {max : Option Nat} {pre post : List Statement} {s : Statement}

/-- Before an unknown gate the mode of a run does not matter. -/
theorem run_strict_of_known (all : ∀ s ∈ pre, known K s) (p : Program K) :
    run ⟨.strict, max⟩ p pre = run ⟨.permissive, max⟩ p pre := by
  rw [run_permissive, List.filter_eq_self.2 all]

/-- A strict run that gets as far as an unknown gate stops there. -/
theorem run_strict_of_unknown (all : ∀ s ∈ pre, known K s)
    (here : unknownGate? K s.text = some name) (p : Program K) :
    run ⟨.strict, max⟩ p (pre ++ s :: post) =
      run ⟨.permissive, max⟩ p pre >>= fun _ => .error (.statement s.line (.unknownGate name)) := by
  rw [run_append, run_strict_of_known all]
  congr 1
  funext next
  rw [run, step_of_unknown here]
  rfl

/-! ## Main result -/

/-- The circuit that a list of statements describes; `parse` applies this to those of a text. -/
def ofStatements (rules : Rules) (expected : Option Nat) (ss : List Statement) :
    Except (ProgramFault K) (Circuit K) := do
  let p ← run rules empty ss
  p.finish expected

theorem ofStatements_permissive (expected : Option Nat) (ss : List Statement) :
    ofStatements (K := K) ⟨.permissive, max⟩ expected ss =
      ofStatements ⟨.strict, max⟩ expected (ss.filter (known K)) := by
  rw [ofStatements, run_permissive, ofStatements]

/-- Statements either are all known or have a first one that is not. -/
theorem known_or_first_unknown (ss : List Statement) :
    (∀ s ∈ ss, known K s) ∨ ∃ pre s post name, ss = pre ++ s :: post ∧ (∀ s ∈ pre, known K s) ∧
      unknownGate? K s.text = some name := by
  cases first : ss.find? fun s => !known K s with
  | none => exact .inl fun s mem => by simpa using List.find?_eq_none.1 first s mem
  | some s =>
    obtain ⟨here, pre, post, split, before⟩ := List.find?_eq_some_iff_append.1 first
    cases name? : unknownGate? K s.text with
    | none => simp [known, name?] at here
    | some name => exact .inr ⟨pre, s, post, name, split, by simpa using before, name?⟩

/-- A strict reading is the permissive one, or stops at the first unknown gate, unless both stop
before it. -/
theorem strict_cases (max expected : Option Nat) (ss : List Statement) :
    (∀ s ∈ ss, known K s) ∧
      ofStatements (K := K) ⟨.strict, max⟩ expected ss =
        ofStatements ⟨.permissive, max⟩ expected ss ∨
    ∃ pre s post name, ss = pre ++ s :: post ∧ (∀ s ∈ pre, known K s) ∧
      unknownGate? K s.text = some name ∧
      (ofStatements (K := K) ⟨.strict, max⟩ expected ss =
          .error (.statement s.line (.unknownGate name)) ∨
        ∃ fault, ofStatements (K := K) ⟨.strict, max⟩ expected ss = .error fault ∧
          ofStatements (K := K) ⟨.permissive, max⟩ expected ss = .error fault) := by
  rcases known_or_first_unknown (K := K) ss with all | ⟨pre, s, post, name, rfl, before, here⟩
  · refine .inl ⟨all, ?_⟩
    rw [ofStatements_permissive, List.filter_eq_self.2 all]
  · refine .inr ⟨pre, s, post, name, rfl, before, here, ?_⟩
    rw [ofStatements, ofStatements, run_strict_of_unknown before here, run_append]
    cases run ⟨.permissive, max⟩ (empty : Program K) pre with
    | ok p => exact .inl rfl
    | error fault => exact .inr ⟨fault, rfl, rfl⟩

/-- **Permissive reading is strict reading without unknown gates.** What strict rules read as a
circuit permissive ones read as the same. What permissive rules read strict ones read as the same
or refuse at the first statement that applies an unknown gate. What permissive rules refuse strict
ones refuse. And the permissive reading is the strict reading of the statements that apply no
unknown gate, where the others are exactly those that the mode makes a difference to. -/
theorem parse_permissive (max expected : Option Nat) (source : Text) :
    let strict : Except (ProgramFault K) (Circuit K) := parse ⟨.strict, max⟩ expected source
    let permissive : Except (ProgramFault K) (Circuit K) := parse ⟨.permissive, max⟩ expected source
    (∀ c, strict = .ok c → permissive = .ok c) ∧
    (∀ c, permissive = .ok c →
      strict = .ok c ∧ (∀ s ∈ statements source, known K s) ∨
      ∃ pre s post name, statements source = pre ++ s :: post ∧ (∀ s ∈ pre, known K s) ∧
        unknownGate? K s.text = some name ∧
        strict = .error (.statement s.line (.unknownGate name))) ∧
    (∀ fault, permissive = .error fault → ∃ reason, strict = .error reason) ∧
    permissive = ofStatements ⟨.strict, max⟩ expected ((statements source).filter (known K)) ∧
    ∀ (p : Program K) (s : Statement),
      (known K s ↔ p.step ⟨.permissive, max⟩ s.text = p.step ⟨.strict, max⟩ s.text) ∧
      ∀ name, unknownGate? K s.text = some name →
        p.step ⟨.permissive, max⟩ s.text = .ok p ∧
        p.step ⟨.strict, max⟩ s.text = .error (.unknownGate name) := by
  intro strict permissive
  refine ⟨fun c read => ?_, fun c read => ?_, fun fault failed => ?_,
    ofStatements_permissive expected (statements source), fun p s => ⟨?_, fun name here => ?_⟩⟩
  · obtain ⟨-, same⟩ | ⟨-, s, -, name, -, -, -, refused | ⟨fault, refused, -⟩⟩ :=
      strict_cases (K := K) max expected (statements source)
    · exact same.symm.trans read
    · cases read.symm.trans refused
    · cases read.symm.trans refused
  · obtain ⟨all, same⟩ | ⟨pre, s, post, name, split, before, here, refused | ⟨fault, -, failed⟩⟩ :=
      strict_cases (K := K) max expected (statements source)
    · exact .inl ⟨same.trans read, all⟩
    · exact .inr ⟨pre, s, post, name, split, before, here, refused⟩
    · cases read.symm.trans failed
  · obtain ⟨-, same⟩ | ⟨-, s, -, name, -, -, -, refused | ⟨reason, refused, -⟩⟩ :=
      strict_cases (K := K) max expected (statements source)
    · exact ⟨fault, same.trans failed⟩
    · exact ⟨_, refused⟩
    · exact ⟨_, refused⟩
  · rw [known_iff]
    exact unknownGate?_eq_none_iff max p
  · exact ⟨step_of_unknown here, step_of_unknown here⟩

/-- A program that applies a gate on three qubits, which the catalogue lacks. -/
def threeQubitGate : Text := "qreg q[3]; h q[1];\nccx q[0],q[1],q[2]; x q[0];".toList

/-- Strict rules stop at the gate on the second line, permissive ones go on behind it. -/
theorem parse_permissive_ccx :
    parse ⟨.permissive, none⟩ none threeQubitGate =
        .ok (⟨3, [.gate .h [1], .gate .x [0]]⟩ : Circuit Float) ∧
      parse (K := Float) ⟨.strict, none⟩ none threeQubitGate =
        .error (.statement 2 (.unknownGate "ccx".toList)) := by
  have parsed : parse ⟨.permissive, none⟩ none threeQubitGate =
      .ok (⟨3, [.gate .h [1], .gate .x [0]]⟩ : Circuit Float) := by
    cbv
  have only : ∀ s ∈ statements threeQubitGate, unknownGate? Float s.text = none ∨
      s.line = 2 ∧ unknownGate? Float s.text = some "ccx".toList := by
    decide +kernel
  have some : ¬ ∀ s ∈ statements threeQubitGate, known Float s := by
    decide +kernel
  obtain ⟨-, read, -⟩ := parse_permissive (K := Float) none none threeQubitGate
  rcases read _ parsed with ⟨-, all⟩ | ⟨pre, s, post, name, split, -, here, refused⟩
  · exact absurd all some
  · have listed : s ∈ statements threeQubitGate := by rw [split]; simp
    rcases only s listed with fine | ⟨line, word⟩
    · rw [fine] at here
      cases here
    · rw [word] at here
      cases here
      rw [line] at refused
      exact ⟨parsed, refused⟩

end QubitTrace.Program
