import Mathlib
import QubitTrace.Proofs.Circuit.Words
import QubitTrace.Proofs.Program.Application

/-! # Gate words as programs

Gate words can be written as a program on one qubit, a statement for each word. The statement is
the word itself, its gate in small letters and its angle as it stands, and an operand behind a
blank. The two notations read an angle in different ways, the one as a literal with its sign, the
other as an expression in which the sign is an operator; both take the number behind the sign for
the same decimal (`evaluate_signed`). So each statement applies the gate of its word
(`step_statement`), and the program makes the circuit that the words make.
-/

namespace QubitTrace
set_option autoImplicit false

open Literal (Signed)

/-! ## Angles -/

section Angles

/-- A signed decimal as an expression: the sign is an operator in front of the number. -/
def Literal.Signed.factor (x : Signed) : Angle.Factor :=
  match x.sign with
  | .unsigned => .number x.number
  | .plus => .signed .plus (.number x.number)
  | .minus => .signed .minus (.number x.number)

theorem Literal.Signed.text_factor (x : Signed) : x.factor.text = x.text := by
  unfold factor text
  cases x.sign <;> rfl

theorem Literal.Signed.value_factor {K : Type} [Scalar K] (x : Signed) :
    (x.factor.value : K) = x.value := by
  unfold factor value
  cases x.sign <;> rfl

/-- The characters of signed decimals. -/
theorem Literal.Signed.mem_text {x : Signed} {c : Char} (mem : c ∈ x.text) :
    c.isDigit = true ∨ c ∈ ['+', '-', '.', 'e', 'E'] := by
  have sign {sign : Literal.Sign} (mem : c ∈ sign.text) : c ∈ ['+', '-', '.', 'e', 'E'] := by
    cases sign with
    | unsigned => cases mem
    | plus => simp [List.mem_singleton.1 mem]
    | minus => simp [List.mem_singleton.1 mem]
  rcases List.mem_append.1 mem with front | number
  · exact Or.inr (sign front)
  · rcases List.mem_append.1 number with mantissa | exponent
    · have numeral := Angle.isNumeral_of_mem_mantissa _ mantissa
      rcases Bool.or_eq_true_iff.1 numeral with digital | point
      · exact Or.inl digital
      · exact Or.inr (by simp [eq_of_beq point])
    · unfold Literal.Unsigned.exponentText at exponent
      cases given : x.number.exponent with
      | none =>
        rw [given] at exponent
        cases exponent
      | some e =>
        rw [given] at exponent
        rcases List.mem_cons.1 exponent with rfl | behind
        · rcases e.letter_eq with letter | letter <;> simp [letter]
        · rcases List.mem_append.1 behind with front | digit
          · exact Or.inr (sign front)
          · exact Or.inl (e.digital c digit)

/-- Signed decimals are made of visible characters between the parentheses and the letters. -/
theorem Literal.Signed.toNat_of_mem_text {x : Signed} {c : Char} (mem : c ∈ x.text) :
    43 ≤ c.toNat ∧ c.toNat ≤ 101 ∧ c.toNat ≠ 47 ∧ c.toNat ≠ 59 ∧ c.toNat ≠ 44 := by
  rcases x.mem_text mem with digital | other
  · have := Decimal.toNat_of_isDigit digital
    omega
  · simp only [List.mem_cons, List.not_mem_nil, or_false] at other
    rcases other with rfl | rfl | rfl | rfl | rfl <;> decide

theorem Literal.Signed.isBlank_of_mem_text {x : Signed} {c : Char} (mem : c ∈ x.text) :
    Text.isBlank c = false := by
  have := x.toNat_of_mem_text mem
  exact Text.isBlank_of_ascii (by omega) (by omega)

theorem Literal.Signed.text_ne_nil (x : Signed) : x.text ≠ [] := by
  obtain ⟨c, t, shape, -⟩ := Angle.exists_mantissa_cons x.number
  simp [text, Literal.Unsigned.text, shape]

/-- An expression that is a signed decimal is worth what the decimal is worth as a literal. -/
theorem Angle.evaluate_signed {K : Type} [Scalar K] {x : Signed}
    (finite : Scalar.isFinite (x.value : K) = true) : evaluate x.text = .ok (x.value : K) := by
  have visible : Text.squeeze x.text = x.text := by
    refine List.filter_eq_self.2 fun c mem => ?_
    rw [x.isBlank_of_mem_text mem]
    rfl
  refine evaluate_eq_ok_iff.2 ⟨.single x.factor, ?_, ?_, finite⟩
  · rw [Expression.text_single, x.text_factor, visible]
  · rw [Expression.value_single, x.value_factor]

end Angles

namespace Words

open Program (Printing Applies operandList)

/-! ## Statements of words -/

/-- A word as a program writes its gate: in small letters, up to an angle, which stands as it is. -/
def call (word : Text) : Text :=
  (word.takeWhile (· ≠ '(')).map Char.toLower ++ word.dropWhile (· ≠ '(')

/-- The statement that applies the gate of a word. -/
def statement (word : Text) : Text := call word ++ " q[0]".toList

/-- The program of a text of gate words. -/
def transcript (source : Text) : Text :=
  "qreg q[1];".toList ++ (Text.words source).flatMap fun word => statement word ++ [';']

section Statement

variable {K : Type} [Scalar K] {word : Text} {g : Gate K}

theorem statement_eq (word : Text) : statement word = call word ++ ' ' :: operandList [0] := by
  have operand : " q[0]".toList = ' ' :: operandList [0] := by
    rw [operandList, List.map_singleton, List.intercalate_singleton, Program.element,
      Decimal.digits]
    decide
  rw [statement, operand]

/-- A letter is called by the small letter, and a rotation with its angle in parentheses. -/
inductive Called : Text → Gate K → Prop where
  | letter {c : Char} {g : Gate K} (listed : (c, g) ∈ letters) : Called [c.toLower] g
  | rotation {c : Char} {turn : K → Gate K} {angle : Signed} (listed : (c, turn) ∈ rotations)
      (finite : Scalar.isFinite (angle.value : K) = true) :
      Called ('r' :: c.toLower :: '(' :: (angle.text ++ [')'])) (turn angle.value)

omit [Scalar K] in
theorem isAlpha_of_letter {c : Char} (listed : (c, g) ∈ letters) : c.isAlpha = true := by
  rcases mem_letters.1 listed with
    ⟨rfl, -⟩ | ⟨rfl, -⟩ | ⟨rfl, -⟩ | ⟨rfl, -⟩ | ⟨rfl, -⟩ | ⟨rfl, -⟩ <;> rfl

omit [Scalar K] in
theorem isAlpha_of_axis {c : Char} {turn : K → Gate K} (listed : (c, turn) ∈ rotations) :
    c.isAlpha = true := by
  rcases mem_rotations.1 listed with ⟨rfl, -⟩ | ⟨rfl, -⟩ | ⟨rfl, -⟩ <;> rfl

/-- What has a letter for its capital is no parenthesis. -/
theorem ne_parenthesis {c d : Char} (upper : d.toUpper = c) (letter : c.isAlpha = true) :
    d ≠ '(' := by
  rintro rfl
  rw [← upper] at letter
  cases letter

theorem toLower_of_toUpper {c d : Char} (upper : d.toUpper = c) : d.toLower = c.toLower := by
  rw [← upper, Char.toLower_toUpper_eq_toLower]

/-- The call of a word that is a gate. -/
theorem called_of_gate (spelled : OfKind word (.gate g)) : Called (call word) g := by
  cases spelled with
  | @letter c g listed spelled =>
    obtain ⟨d, rfl, upper⟩ := List.map_eq_singleton_iff.1 spelled
    have call : call [d] = [c.toLower] := by
      simp [call, ne_parenthesis upper (isAlpha_of_letter listed), toLower_of_toUpper upper]
    rw [call]
    exact .letter listed
  | @rotation c turn x listed spelled finite =>
    obtain ⟨r, t, rfl, first, spelled⟩ := List.map_eq_cons_iff.1 spelled
    obtain ⟨d, t, rfl, axis, spelled⟩ := List.map_eq_cons_iff.1 spelled
    obtain ⟨p, t, rfl, opening, spelled⟩ := List.map_eq_cons_iff.1 spelled
    obtain ⟨a, b, rfl, angle, closing⟩ := List.map_eq_append_iff.1 spelled
    obtain rfl : p = '(' := Literal.eq_of_toUpper opening rfl
    obtain rfl : b = [')'] := Literal.eq_of_map_toUpper closing (List.forall_mem_singleton.2 rfl)
    obtain ⟨y, rfl, same⟩ := Literal.exists_of_map_toUpper angle
    have call : call (r :: d :: '(' :: (y.text ++ [')'])) =
        'r' :: c.toLower :: '(' :: (y.text ++ [')']) := by
      simp [call, ne_parenthesis first rfl, ne_parenthesis axis (isAlpha_of_axis listed),
        toLower_of_toUpper first, toLower_of_toUpper axis]
    rw [call, ← same K]
    exact .rotation listed (by rwa [same K])

theorem isNameChar_toLower {c : Char} (letter : c.isAlpha = true) :
    Program.isNameChar c.toLower = true := by
  have alpha : c.toLower.isAlpha = true := by rw [Char.isAlpha_toLower_eq_isAlpha, letter]
  simp [Program.isNameChar, Char.isAlphanum, alpha]

/-- A call ends no statement and starts no comment. -/
theorem Called.printing {text : Text} (called : Called text g) : ∀ c ∈ text, Printing c := by
  intro c mem
  cases called with
  | letter listed =>
    rw [List.mem_singleton.1 mem]
    exact Program.printing_of_isNameChar (isNameChar_toLower (isAlpha_of_letter listed))
  | @rotation axis turn angle listed finite =>
    rcases List.mem_cons.1 mem with rfl | mem
    · decide
    rcases List.mem_cons.1 mem with rfl | mem
    · exact Program.printing_of_isNameChar (isNameChar_toLower (isAlpha_of_axis listed))
    rcases List.mem_cons.1 mem with rfl | mem
    · decide
    rcases List.mem_append.1 mem with inside | last
    · have := angle.toNat_of_mem_text inside
      exact ⟨by omega, by omega, by omega, by omega⟩
    · rw [List.mem_singleton.1 last]
      decide

theorem Called.ne_nil {text : Text} (called : Called text g) : text ≠ [] := by
  cases called <;> exact List.cons_ne_nil _ _

/-! ## What a statement does -/

theorem findGate_of_letter {c : Char} (listed : (c, g) ∈ letters) :
    Program.findGate [c.toLower] [] = .ok (some g) := by
  rcases mem_letters.1 listed with
    ⟨rfl, rfl⟩ | ⟨rfl, rfl⟩ | ⟨rfl, rfl⟩ | ⟨rfl, rfl⟩ | ⟨rfl, rfl⟩ | ⟨rfl, rfl⟩ <;>
    rfl

theorem findGate_of_axis {c : Char} {turn : K → Gate K} (listed : (c, turn) ∈ rotations) (θ : K) :
    Program.findGate ['r', c.toLower] [θ] = .ok (some (turn θ)) := by
  rcases mem_rotations.1 listed with ⟨rfl, rfl⟩ | ⟨rfl, rfl⟩ | ⟨rfl, rfl⟩ <;> rfl

/-- The statement of a call applies the gate that is called. -/
theorem Called.applies {text : Text} (called : Called text g) :
    ∃ name, Applies (text ++ ' ' :: operandList [0]) name g (operandList [0]) := by
  cases called with
  | @letter c g listed =>
    have letter := isNameChar_toLower (isAlpha_of_letter listed)
    refine ⟨[c.toLower], [], [], ?_, rfl, findGate_of_letter listed⟩
    exact Program.splitApplication_plain (List.forall_mem_singleton.2 letter)
      (List.cons_ne_nil _ _) Program.first_of_operandList
  | @rotation c turn angle listed finite =>
    have letter := isNameChar_toLower (isAlpha_of_axis listed)
    refine ⟨['r', c.toLower], [angle.text], [angle.value], ?_, ?_, findGate_of_axis listed _⟩
    · have split := @Program.splitApplication_angles ['r', c.toLower] (operandList [0]) [angle.text]
        (List.forall_mem_cons.2 ⟨rfl, List.forall_mem_singleton.2 letter⟩) (List.cons_ne_nil _ _)
        (List.forall_mem_singleton.2 fun d mem => ?_) (List.forall_mem_singleton.2 ?_)
        fun d mem => (Program.first_of_operandList d mem).1
      · rw [List.intercalate_singleton] at split
        simpa using split
      · have := angle.toNat_of_mem_text mem
        refine ⟨?_, ?_, ?_⟩ <;> rintro rfl
        all_goals
          revert this
          decide
      · exact Program.isBlankText_of_visible angle.text_ne_nil fun d mem =>
          angle.isBlank_of_mem_text mem
    · rw [List.mapM_cons, Angle.evaluate_signed finite]
      rfl

theorem trim_call {text : Text} (called : Called text g) :
    Text.trim (text ++ ' ' :: operandList [0]) = text ++ ' ' :: operandList [0] := by
  obtain ⟨rest, shape⟩ := Program.exists_operandList_cons 0 []
  refine Program.trim_statement (fun c mem => (called.printing c mem).isBlank) called.ne_nil
    (by simp [shape]) fun c mem => ?_
  exact (Program.printing_of_mem_operandList (List.mem_of_getLast? mem)).isBlank

/-- The program over one qubit that has applied some operations. -/
def applied (done : List (Operation K)) : Program K := ⟨[⟨['q'], 0, 1⟩], [], done⟩

/-- The statement of a word adds the gate of the word. -/
theorem step_statement {rules : Program.Rules} (spelled : OfKind word (.gate g))
    (done : List (Operation K)) : (applied done).step rules (Text.trim (statement word)) =
      .ok (applied (done ++ [.gate g [0]])) := by
  have called := called_of_gate spelled
  obtain ⟨name, applies⟩ := called.applies
  have operands : (applied done).qubitOperands (operandList [0]) = .ok ([0].map fun q => ⟨q, 1⟩) :=
    Program.qubitOperands_list rfl (by decide) (List.forall_mem_singleton.2 Nat.one_pos)
  rw [statement_eq, trim_call called, applies.step_eq,
    Program.applyGate_single operands (arity_of_gate spelled).symm]
  rfl

/-- The statements of words make what the words make, in their order. -/
theorem run_statements {rules : Program.Rules} {words : List Text}
    (gates : ∀ w ∈ words, ∃ g : Gate K, OfKind w (.gate g)) (done : List (Operation K)) :
    Program.run rules (applied done) (words.map fun w => ⟨1, Text.trim (statement w)⟩) =
      .ok (applied (done ++ (circuitOf words).operations)) := by
  induction words generalizing done with
  | nil =>
    change _ = Except.ok (applied (done ++ []))
    rw [List.append_nil]
    rfl
  | cons word words ih =>
    obtain ⟨⟨g, spelled⟩, rest⟩ := List.forall_mem_cons.1 gates
    have gate := gate?_eq_some_iff.2 spelled
    have operations : (circuitOf (word :: words) : Circuit K).operations =
        .gate g [0] :: (circuitOf words).operations := by
      simp [circuitOf, gate]
    rw [List.map_cons, Program.run, step_statement spelled]
    dsimp only
    rw [ih rest, operations, List.append_assoc, List.singleton_append]

end Statement

/-! ## Programs of words -/

section Transcript

variable {K : Type} [Scalar K] {source : Text}

/-- The texts between the semicolons of a transcript. -/
def pieces (source : Text) : List Text :=
  ("qreg".toList ++ ' ' :: Program.element ['q'] 1) :: (Text.words source).map statement

theorem declaration_eq :
    "qreg q[1];".toList = "qreg".toList ++ ' ' :: Program.element ['q'] 1 ++ [';'] := by
  simp [Program.element, Decimal.digits]
  decide

theorem transcript_eq (source : Text) :
    transcript source = (pieces source).flatMap (· ++ [';']) := by
  unfold transcript pieces
  rw [List.flatMap_cons, List.flatMap_map, declaration_eq]

/-- The pieces of the transcript of gates hold no semicolon, line feed or stroke. -/
theorem plain_of_mem_pieces (gates : ∀ w ∈ Text.words source, ∃ g : Gate K, OfKind w (.gate g))
    {piece : Text} (mem : piece ∈ pieces source) : ∀ c ∈ piece, Program.Plain c := by
  rcases List.mem_cons.1 mem with rfl | listed
  · exact fun c inside => Program.plain_of_mem_declaration (by decide) rfl inside
  · obtain ⟨word, known, rfl⟩ := List.mem_map.1 listed
    obtain ⟨g, spelled⟩ := gates word known
    intro c inside
    rw [statement_eq] at inside
    rcases List.mem_append.1 inside with front | back
    · exact ((called_of_gate spelled).printing c front).plain
    · rcases List.mem_cons.1 back with rfl | operand
      · decide
      · exact (Program.printing_of_mem_operandList operand).plain

theorem trim_ne_nil_of_mem_pieces
    (gates : ∀ w ∈ Text.words source, ∃ g : Gate K, OfKind w (.gate g)) {piece : Text}
    (mem : piece ∈ pieces source) : Text.trim piece ≠ [] := by
  rcases List.mem_cons.1 mem with rfl | listed
  · exact Text.trim_ne_nil (c := 'q') rfl _
  · obtain ⟨word, known, rfl⟩ := List.mem_map.1 listed
    obtain ⟨g, spelled⟩ := gates word known
    rw [statement_eq, trim_call (called_of_gate spelled)]
    simp

/-- The statements of a transcript are the declaration of the qubit and those of the words. -/
theorem statements_transcript
    (gates : ∀ w ∈ Text.words source, ∃ g : Gate K, OfKind w (.gate g)) :
    Program.statements (transcript source) = ⟨1, "qreg".toList ++ ' ' :: Program.element ['q'] 1⟩ ::
      (Text.words source).map fun w => ⟨1, Text.trim (statement w)⟩ := by
  have declaration : Text.trim ("qreg".toList ++ ' ' :: Program.element ['q'] 1) =
      "qreg".toList ++ ' ' :: Program.element ['q'] 1 := by
    refine Program.trim_statement (Program.visible_of_reserved (by decide)) (by simp)
      (Program.element_ne_nil _ _) fun c mem => ?_
    exact (Program.printing_of_mem_element rfl (List.mem_of_getLast? mem)).isBlank
  rw [transcript_eq, Program.statements_pieces]
  · rw [pieces, List.map_cons, List.map_map, declaration]
    rfl
  · intro piece mem c inside
    exact ⟨(plain_of_mem_pieces gates mem c inside).1, (plain_of_mem_pieces gates mem c inside).2.1⟩
  · intro piece mem
    exact Program.uncommented_of_free fun inside => (plain_of_mem_pieces gates mem _ inside).2.2 rfl
  · exact fun piece mem => trim_ne_nil_of_mem_pieces gates mem

/-- Strict reading accepts gates only. -/
theorem gates_of_parse {c : Circuit K} (accepted : parse .strict source = .ok c) :
    (∀ w ∈ Text.words source, ∃ g : Gate K, OfKind w (.gate g)) ∧
      c = circuitOf (Text.words source) := by
  obtain ⟨passed, made⟩ := parse_eq_ok_iff.1 accepted
  exact ⟨fun w mem => exists_gate_of_refusal? (passed w mem), made⟩

/-- **The two notations agree.** Whatever gate words are accepted in strict mode, the program that
declares one qubit and applies to it the gate of each word, with the angle as it stands in the word,
is accepted in every mode and makes the same circuit. The angles are the same numbers, and zeros
keep their signs. -/
theorem parse_transcript {K : Type} [Scalar K] {source : Text} {c : Circuit K}
    (accepted : parse .strict source = .ok c) {rules : Program.Rules}
    (allowed : ∀ max, rules.maxQubits = some max → 1 ≤ max) {expected : Option Nat}
    (asked : ∀ n, expected = some n → n = 1) :
    Program.parse rules expected (transcript source) = .ok c := by
  obtain ⟨gates, rfl⟩ := gates_of_parse accepted
  have ran : Program.run rules Program.empty (Program.statements (transcript source)) =
      .ok (applied (circuitOf (Text.words source) : Circuit K).operations) := by
    rw [statements_transcript gates, Program.run,
      Program.step_declaration Nat.one_pos (by decide) allowed]
    dsimp only
    exact run_statements gates []
  have fits := (Circuit.addAll_eq_ok_iff.1 (addAll_circuitOf (K := K) (Text.words source))).1
  rw [Program.parse, ran, ok_bind]
  exact Program.finish_of_accepted (n := 1) rfl Nat.one_pos fits asked

/-- Angles with either sign, with an exponent and with nothing on one side of the point. -/
def signedWords : Text := "h Rx(-.0E+1)\trZ(+2.)".toList

/-- The angle of the first rotation is the zero that is not the sum of zeros. -/
theorem parse_transcript_signed :
    (parse .strict signedWords : Except WordFault (Circuit Float)) =
      .ok ⟨1, [.gate .h [0], .gate (.rx (-0.0)) [0], .gate (.rz 2) [0]]⟩ ∧
    (-0.0 : Float) ≠ 0.0 ∧
    transcript signedWords = "qreg q[1];h q[0];rx(-.0E+1) q[0];rz(+2.) q[0];".toList ∧
    Program.parse ⟨.strict, some 1⟩ (some 1) (transcript signedWords) =
      .ok (⟨1, [.gate .h [0], .gate (.rx (-0.0)) [0], .gate (.rz 2) [0]]⟩ : Circuit Float) := by
  have accepted : (parse .strict signedWords : Except WordFault (Circuit Float)) =
      .ok ⟨1, [.gate .h [0], .gate (.rx (-0.0)) [0], .gate (.rz 2) [0]]⟩ := by
    have read : readWords .strict (Text.words signedWords) =
        .ok [.h, .rx (-0.0 : Float), .rz 2] := by
      decide +kernel
    rw [parse, read]
    rfl
  refine ⟨accepted, by decide +kernel, by decide +kernel, ?_⟩
  exact parse_transcript accepted (by simp) (by simp)

end Transcript

end Words

end QubitTrace
