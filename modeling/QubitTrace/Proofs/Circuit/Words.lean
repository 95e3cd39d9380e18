import Mathlib
import QubitTrace.Circuit.Words
import QubitTrace.Proofs.Circuit.Reachable
import QubitTrace.Proofs.Decimal.Signed
import QubitTrace.Proofs.Except
import QubitTrace.Proofs.Text.Words

/-! # Gate words, one by one

A word is a gate, a malformed rotation or unknown, and exactly one of these (`kindOf_eq_iff`). What
a text of words makes is then known from the kinds of its words: the first one that is refused
decides how it fails, and without such a word the gates make the circuit. Reading goes through one
step (`readWords_cons`), and what is shown of texts follows from it by induction on their words.
-/

namespace QubitTrace.Words
set_option autoImplicit false

open Literal (Signed)

variable {K : Type}

/-! ## Kinds of words -/

/-- What a word may be. -/
inductive Kind (K : Type) where
  /-- A gate of its own, or a rotation with its angle. -/
  | gate (g : Gate K)
  /-- A rotation whose angle is missing, no number, or not a finite one. -/
  | malformed (fault : WordFault)
  | unknown

namespace Kind

def gate? : Kind K → Option (Gate K)
  | gate g => some g
  | malformed _ | unknown => none

/-- The error that a word of this kind is. -/
def refusal? (mode : ParseMode) (word : Text) : Kind K → Option WordFault
  | gate _ => none
  | malformed fault => some fault
  | unknown => if mode = .strict then some (.unknown word) else none

def known : Kind K → Bool
  | gate _ | malformed _ => true
  | unknown => false

end Kind

/-- The letters that are gates of their own. -/
def letters : List (Char × Gate K) :=
  [('H', .h), ('X', .x), ('Y', .y), ('Z', .z), ('S', .s), ('T', .t)]

/-- The axes of rotations, which stand between `R` and the opening parenthesis. -/
def rotations : List (Char × (K → Gate K)) := [('X', .rx), ('Y', .ry), ('Z', .rz)]

theorem mem_letters {c : Char} {g : Gate K} : (c, g) ∈ letters ↔
    c = 'H' ∧ g = .h ∨ c = 'X' ∧ g = .x ∨ c = 'Y' ∧ g = .y ∨ c = 'Z' ∧ g = .z ∨
      c = 'S' ∧ g = .s ∨ c = 'T' ∧ g = .t := by
  simp [letters]

theorem mem_rotations {c : Char} {turn : K → Gate K} : (c, turn) ∈ rotations ↔
    c = 'X' ∧ turn = .rx ∨ c = 'Y' ∧ turn = .ry ∨ c = 'Z' ∧ turn = .rz := by
  simp [rotations]

/-- What is wrong with the text behind an opening parenthesis that is no angle. -/
def flaw (word rest : Text) : WordFault :=
  match Text.withoutLast? ')' rest with
  | none => .unclosed word
  | some angle =>
    if (Literal.read angle).isNone then .malformedAngle angle word else .notFinite word

/-- How the kinds of words are spelled, in capitals. -/
inductive OfKind [Scalar K] (word : Text) : Kind K → Prop where
  | letter {c : Char} {g : Gate K} (listed : (c, g) ∈ letters)
      (spelled : word.map Char.toUpper = [c]) : OfKind word (.gate g)
  | rotation {c : Char} {turn : K → Gate K} {angle : Signed} (listed : (c, turn) ∈ rotations)
      (spelled : word.map Char.toUpper = 'R' :: c :: '(' :: (angle.text ++ [')']))
      (finite : Scalar.isFinite (angle.value : K) = true) : OfKind word (.gate (turn angle.value))
  | malformed {c : Char} {turn : K → Gate K} {rest : Text} (listed : (c, turn) ∈ rotations)
      (opened : word.map Char.toUpper = 'R' :: c :: '(' :: rest)
      (other : ∀ angle : Signed, rest = angle.text ++ [')'] →
        Scalar.isFinite (angle.value : K) = false) : OfKind word (.malformed (flaw word rest))
  | unknown
      (letterless : ∀ c (g : Gate K), (c, g) ∈ letters → word.map Char.toUpper ≠ [c])
      (unopened : ∀ c (turn : K → Gate K) rest, (c, turn) ∈ rotations →
        word.map Char.toUpper ≠ 'R' :: c :: '(' :: rest) : OfKind word .unknown

variable [Scalar K]

/-- The kind of a word, as it is read. -/
def kindOf (word : Text) : Kind K :=
  match readWord word with
  | .ok (some g) => .gate g
  | .ok none => .unknown
  | .error fault => .malformed fault

/-! ## Reading a word -/

section Word

variable {word rest : Text}

/-- An angle is read where a finite number and a closing parenthesis stand. -/
theorem readAngle_eq_ok_iff {θ : K} : readAngle word rest = .ok θ ↔
    ∃ angle : Signed, rest = angle.text ++ [')'] ∧ angle.value = θ ∧
      Scalar.isFinite θ = true := by
  constructor
  · intro taken
    unfold readAngle at taken
    cases closed : Text.withoutLast? ')' rest with
    | none =>
      rw [closed] at taken
      cases taken
    | some text =>
      rw [closed] at taken
      cases number : Literal.read text with
      | none =>
        simp only [number] at taken
        cases taken
      | some literal =>
        simp only [number] at taken
        cases worth : (literal.scalar? : Option K) with
        | none =>
          simp only [worth] at taken
          cases taken
        | some value =>
          simp only [worth] at taken
          split_ifs at taken with finite
          cases taken
          obtain ⟨angle, rfl, rfl⟩ := Literal.exists_read_iff.1 ⟨literal, number, worth⟩
          exact ⟨angle, Text.withoutLast?_eq_some_iff.1 closed, rfl, finite⟩
  · rintro ⟨angle, rfl, rfl, finite⟩
    obtain ⟨literal, number, worth⟩ := (Literal.exists_read_iff (K := K)).2 ⟨angle, rfl, rfl⟩
    simp only [readAngle, Text.withoutLast?_concat, number, worth, finite]
    rfl

/-- An angle that is not read is refused for what is wrong with it. -/
theorem eq_flaw_of_readAngle {fault : WordFault}
    (refused : (readAngle word rest : Except WordFault K) = .error fault) :
    fault = flaw word rest := by
  unfold readAngle at refused
  unfold flaw
  cases closed : Text.withoutLast? ')' rest with
  | none =>
    rw [closed] at refused
    cases refused
    rfl
  | some text =>
    rw [closed] at refused
    cases number : Literal.read text with
    | none =>
      simp only [number] at refused
      cases refused
      simp [number]
    | some literal =>
      simp only [number] at refused
      cases worth : (literal.scalar? : Option K) with
      | none =>
        simp only [worth] at refused
        cases refused
        simp [number]
      | some value =>
        simp only [worth] at refused
        split_ifs at refused
        cases refused
        simp [number]

theorem readWord_of_letter {c : Char} {g : Gate K} (listed : (c, g) ∈ letters)
    (spelled : word.map Char.toUpper = [c]) : readWord word = .ok (some g) := by
  rw [readWord, spelled]
  rcases mem_letters.1 listed with
    ⟨rfl, rfl⟩ | ⟨rfl, rfl⟩ | ⟨rfl, rfl⟩ | ⟨rfl, rfl⟩ | ⟨rfl, rfl⟩ | ⟨rfl, rfl⟩ <;>
    rfl

theorem readWord_of_rotation {c : Char} {turn : K → Gate K} (listed : (c, turn) ∈ rotations)
    (opened : word.map Char.toUpper = 'R' :: c :: '(' :: rest) :
    readWord word = (readAngle word rest).map fun θ => some (turn θ) := by
  rw [readWord, opened]
  rcases mem_rotations.1 listed with ⟨rfl, rfl⟩ | ⟨rfl, rfl⟩ | ⟨rfl, rfl⟩ <;> rfl

theorem readWord_of_neither
    (letterless : ∀ c (g : Gate K), (c, g) ∈ letters → word.map Char.toUpper ≠ [c])
    (unopened : ∀ c (turn : K → Gate K) rest, (c, turn) ∈ rotations →
      word.map Char.toUpper ≠ 'R' :: c :: '(' :: rest) :
    (readWord word : Except WordFault (Option (Gate K))) = .ok none := by
  unfold readWord
  split
  case h_1 spelled => exact absurd spelled (letterless 'H' .h (by simp [letters]))
  case h_2 spelled => exact absurd spelled (letterless 'X' .x (by simp [letters]))
  case h_3 spelled => exact absurd spelled (letterless 'Y' .y (by simp [letters]))
  case h_4 spelled => exact absurd spelled (letterless 'Z' .z (by simp [letters]))
  case h_5 spelled => exact absurd spelled (letterless 'S' .s (by simp [letters]))
  case h_6 spelled => exact absurd spelled (letterless 'T' .t (by simp [letters]))
  case h_7 spelled => exact absurd spelled (unopened 'X' .rx _ (by simp [rotations]))
  case h_8 spelled => exact absurd spelled (unopened 'Y' .ry _ (by simp [rotations]))
  case h_9 spelled => exact absurd spelled (unopened 'Z' .rz _ (by simp [rotations]))
  case h_10 => rfl

/-- What a word is spelled as is what it is read as. -/
theorem OfKind.kindOf_eq {kind : Kind K} (spelled : OfKind word kind) : kindOf word = kind := by
  cases spelled with
  | letter listed spelled => rw [kindOf, readWord_of_letter listed spelled]
  | rotation listed spelled finite =>
    rw [kindOf, readWord_of_rotation listed spelled, readAngle_eq_ok_iff.2 ⟨_, rfl, rfl, finite⟩]
    rfl
  | @malformed c turn rest listed opened other =>
    rw [kindOf, readWord_of_rotation listed opened]
    cases read : (readAngle word rest : Except WordFault K) with
    | error fault =>
      rw [eq_flaw_of_readAngle read]
      rfl
    | ok θ =>
      obtain ⟨angle, closed, rfl, finite⟩ := readAngle_eq_ok_iff.1 read
      rw [other angle closed] at finite
      cases finite
  | unknown letterless unopened => rw [kindOf, readWord_of_neither letterless unopened]

variable (K) in
/-- Every word is of some kind. -/
theorem exists_ofKind (word : Text) : ∃ kind : Kind K, OfKind word kind := by
  by_cases lettered : ∃ c, ∃ g : Gate K, (c, g) ∈ letters ∧ word.map Char.toUpper = [c]
  · obtain ⟨c, g, listed, spelled⟩ := lettered
    exact ⟨_, .letter listed spelled⟩
  by_cases opened : ∃ c, ∃ turn : K → Gate K, ∃ rest, (c, turn) ∈ rotations ∧
      word.map Char.toUpper = 'R' :: c :: '(' :: rest
  · obtain ⟨c, turn, rest, listed, opened⟩ := opened
    by_cases angled : ∃ angle : Signed, rest = angle.text ++ [')'] ∧
        Scalar.isFinite (angle.value : K) = true
    · obtain ⟨angle, rfl, finite⟩ := angled
      exact ⟨_, .rotation listed opened finite⟩
    · refine ⟨_, .malformed listed opened fun angle closed => ?_⟩
      exact Bool.eq_false_iff.2 fun finite => angled ⟨angle, closed, finite⟩
  · exact ⟨_, .unknown (fun c g listed spelled => lettered ⟨c, g, listed, spelled⟩)
      fun c turn rest listed spelled => opened ⟨c, turn, rest, listed, spelled⟩⟩

/-- A word is of exactly one kind, the one that it is read as. -/
theorem kindOf_eq_iff {kind : Kind K} : kindOf word = kind ↔ OfKind word kind := by
  constructor
  · rintro rfl
    obtain ⟨kind, spelled⟩ := exists_ofKind K word
    rwa [spelled.kindOf_eq]
  · exact OfKind.kindOf_eq

/-- Words are gates on one qubit. -/
theorem arity_of_gate {g : Gate K} (spelled : OfKind word (.gate g)) : g.arity = 1 := by
  cases spelled with
  | letter listed spelled =>
    rcases mem_letters.1 listed with
      ⟨-, rfl⟩ | ⟨-, rfl⟩ | ⟨-, rfl⟩ | ⟨-, rfl⟩ | ⟨-, rfl⟩ | ⟨-, rfl⟩ <;> rfl
  | rotation listed spelled finite =>
    rcases mem_rotations.1 listed with ⟨-, rfl⟩ | ⟨-, rfl⟩ | ⟨-, rfl⟩ <;> rfl

end Word

/-! ## Reading words -/

section Reading

variable (K) in
/-- The error that a word is, if it is refused. -/
def refusal? (mode : ParseMode) (word : Text) : Option WordFault :=
  (kindOf word : Kind K).refusal? mode word

variable (K) in
def isKnown (word : Text) : Bool := (kindOf word : Kind K).known

def gate? (word : Text) : Option (Gate K) := (kindOf word).gate?

theorem gate?_eq_some_iff {word : Text} {g : Gate K} :
    gate? word = some g ↔ OfKind word (.gate g) := by
  rw [← kindOf_eq_iff, gate?]
  cases (kindOf word : Kind K) <;> simp [Kind.gate?]

/-- What strict reading does not refuse is a gate. -/
theorem exists_gate_of_refusal? {word : Text} (passed : refusal? K .strict word = none) :
    ∃ g : Gate K, OfKind word (.gate g) := by
  unfold refusal? at passed
  cases kind : (kindOf word : Kind K) with
  | gate g => exact ⟨g, kindOf_eq_iff.1 kind⟩
  | malformed fault =>
    rw [kind] at passed
    cases passed
  | unknown =>
    rw [kind] at passed
    cases passed

/-- A word ends the reading, or adds the gate that it is. -/
theorem readWords_cons (mode : ParseMode) (word : Text) (words : List Text) :
    (readWords mode (word :: words) : Except WordFault (List (Gate K))) =
      match refusal? K mode word with
      | some fault => .error fault
      | none => (readWords mode words).map ((gate? word).toList ++ ·) := by
  unfold refusal? gate? kindOf
  change (readWord word >>= _) = _
  cases (readWord word : Except WordFault (Option (Gate K))) with
  | error fault => rfl
  | ok first =>
    cases first with
    | some g => cases (readWords mode words : Except WordFault (List (Gate K))) <;> rfl
    | none =>
      cases mode with
      | strict => rfl
      | permissive => cases (readWords .permissive words : Except WordFault (List (Gate K))) <;> rfl

/-- Words are read up to the first one that is refused, or all of them for their gates. -/
theorem readWords_eq (mode : ParseMode) (words : List Text) :
    (readWords mode words : Except WordFault (List (Gate K))) =
      match words.findSome? (refusal? K mode) with
      | some fault => .error fault
      | none => .ok (words.filterMap gate?) := by
  induction words with
  | nil => rfl
  | cons word words ih =>
    rw [readWords_cons, ih, List.findSome?_cons, List.filterMap_cons]
    cases refusal? K mode word with
    | some fault => rfl
    | none =>
      cases words.findSome? (refusal? K mode) with
      | some fault => rfl
      | none => cases (gate? word : Option (Gate K)) <;> rfl

theorem readWords_append (mode : ParseMode) (words others : List Text) :
    (readWords mode (words ++ others) : Except WordFault (List (Gate K))) = do
      let gates ← readWords mode words
      let more ← readWords mode others
      return gates ++ more := by
  induction words with
  | nil =>
    rw [List.nil_append, readWords, ok_bind]
    cases (readWords mode others : Except WordFault (List (Gate K))) <;> rfl
  | cons word words ih =>
    rw [List.cons_append, readWords_cons, readWords_cons, ih]
    cases refusal? K mode word with
    | some fault => rfl
    | none =>
      cases (readWords mode words : Except WordFault (List (Gate K))) with
      | error fault => rfl
      | ok gates =>
        cases (readWords mode others : Except WordFault (List (Gate K))) with
        | error fault => rfl
        | ok more => exact congrArg Except.ok (List.append_assoc _ gates more).symm

/-- An unknown word is passed over, and any other word is the same to both modes. -/
theorem refusal?_permissive (word : Text) : refusal? K .permissive word =
    if isKnown K word then refusal? K .strict word else none := by
  unfold refusal? isKnown
  cases (kindOf word : Kind K) <;> rfl

theorem gate?_of_unknown {word : Text} (unknown : ¬ isKnown K word = true) :
    (gate? word : Option (Gate K)) = none := by
  unfold isKnown at unknown
  unfold gate?
  revert unknown
  cases (kindOf word : Kind K) <;> simp [Kind.known, Kind.gate?]

/-- Unknown words are passed over as if they were not there. -/
theorem readWords_permissive (words : List Text) :
    (readWords .permissive words : Except WordFault (List (Gate K))) =
      readWords .strict (words.filter (isKnown K)) := by
  induction words with
  | nil => rfl
  | cons word words ih =>
    rw [readWords_cons, refusal?_permissive, ih]
    by_cases known : isKnown K word = true
    · rw [List.filter_cons_of_pos known, readWords_cons, if_pos known]
    · rw [List.filter_cons_of_neg known, if_neg known, gate?_of_unknown known]
      generalize (readWords .strict (words.filter (isKnown K)) : Except _ (List (Gate K))) = outcome
      cases outcome <;> rfl

end Reading

/-! ## Bytes -/

/-- The reading of a word that is cut at its third byte, first to compare its beginning, and then to
take the angle behind it. There is no result where the second cut goes through a character. -/
def readBytewise (word : Text) : Option (Except WordFault (Option (Gate K))) :=
  let token := word.map Char.toUpper
  match letters.find? fun (c, _) => token == [c] with
  | some (_, g) => some (.ok (some g))
  | none =>
    match Text.cutBytes? 3 token with
    | none => some (.ok none)
    | some (front, _) =>
      match rotations.find? fun (c, _) => front == ['R', c, '('] with
      | none => some (.ok none)
      | some (_, turn) => (Text.cutBytes? 3 token).map fun (_, rest) =>
          (readAngle word rest).map fun θ => some (turn θ)

omit [Scalar K] in
/-- What opens a rotation is three bytes long. -/
theorem cutBytes?_of_rotation {c : Char} {turn : K → Gate K} (listed : (c, turn) ∈ rotations)
    (rest : Text) : Text.cutBytes? 3 ('R' :: c :: '(' :: rest) = some (['R', c, '('], rest) := by
  refine Text.cutBytes?_eq_some_iff.2 ⟨rfl, ?_⟩
  rcases mem_rotations.1 listed with ⟨rfl, -⟩ | ⟨rfl, -⟩ | ⟨rfl, -⟩ <;> decide

/-- Cut at bytes, a word is read as it is read by its characters. -/
theorem readBytewise_eq (word : Text) : readBytewise (K := K) word = some (readWord word) := by
  unfold readBytewise
  dsimp only
  cases lettered : letters.find? fun (p : Char × Gate K) => word.map Char.toUpper == [p.1] with
  | some p =>
    have spelled := List.find?_some lettered
    rw [readWord_of_letter (List.mem_of_find?_eq_some lettered) (by simpa using spelled)]
  | none =>
    have letterless (c : Char) (g : Gate K) (listed : (c, g) ∈ letters) :
        word.map Char.toUpper ≠ [c] := by
      simpa using List.find?_eq_none.1 lettered (c, g) listed
    dsimp only
    cases cut : Text.cutBytes? 3 (word.map Char.toUpper) with
    | none =>
      rw [readWord_of_neither letterless fun c turn rest listed opened => ?_]
      rw [opened, cutBytes?_of_rotation listed] at cut
      cases cut
    | some parts =>
      obtain ⟨front, rest⟩ := parts
      dsimp only
      cases opened : rotations.find? fun (p : Char × (K → Gate K)) => front == ['R', p.1, '('] with
      | none =>
        rw [readWord_of_neither letterless fun c turn rest' listed opening => ?_]
        rw [opening, cutBytes?_of_rotation listed] at cut
        cases cut
        simpa using List.find?_eq_none.1 opened (c, turn) listed
      | some p =>
        have opening := List.find?_some opened
        obtain rfl := eq_of_beq opening
        obtain ⟨whole, -⟩ := Text.cutBytes?_eq_some_iff.1 cut
        rw [readWord_of_rotation (List.mem_of_find?_eq_some opened) whole.symm]
        rfl

/-! ## Main result -/

section Parse

/-- The circuit on one qubit that takes the gates among the words. -/
def circuitOf (words : List Text) : Circuit K := ⟨1, (words.filterMap gate?).map (.gate · [0])⟩

variable (K) in
/-- The known words of a text, with blanks between them. -/
def knownText (source : Text) : Text :=
  List.intercalate [' '] ((Text.words source).filter (isKnown K))

theorem words_knownText (source : Text) :
    Text.words (knownText K source) = (Text.words source).filter (isKnown K) :=
  Text.words_intercalate fun _ mem => Text.visible_of_mem_words (List.mem_of_mem_filter mem)

theorem parse_eq (mode : ParseMode) (source : Text) :
    (parse mode source : Except WordFault (Circuit K)) =
      match (Text.words source).findSome? (refusal? K mode) with
      | some fault => .error fault
      | none => .ok (circuitOf (Text.words source)) := by
  rw [parse, readWords_eq]
  cases (Text.words source).findSome? (refusal? K mode) <;> rfl

/-- A text is refused with the error of its first word that is one. -/
theorem parse_eq_error_iff {mode : ParseMode} {source : Text} {fault : WordFault} :
    (parse mode source : Except WordFault (Circuit K)) = .error fault ↔
      (Text.words source).findSome? (refusal? K mode) = some fault := by
  rw [parse_eq]
  cases (Text.words source).findSome? (refusal? K mode) <;> simp

/-- A text without such a word makes the circuit of its gates. -/
theorem parse_eq_ok_iff {mode : ParseMode} {source : Text} {c : Circuit K} :
    parse mode source = .ok c ↔
      (∀ word ∈ Text.words source, refusal? K mode word = none) ∧
        c = circuitOf (Text.words source) := by
  rw [parse_eq, ← List.findSome?_eq_none_iff]
  cases (Text.words source).findSome? (refusal? K mode) <;> simp [eq_comm]

/-- The circuit takes every gate that a word can be. -/
theorem addAll_circuitOf (words : List Text) :
    (Circuit.empty 1).addAll (circuitOf words : Circuit K).operations = .ok (circuitOf words) := by
  refine Circuit.addAll_eq_ok_iff.2 ⟨fun op mem => ?_, rfl⟩
  obtain ⟨g, listed, rfl⟩ := List.mem_map.1 mem
  obtain ⟨word, -, made⟩ := List.mem_filterMap.1 listed
  have one := arity_of_gate (gate?_eq_some_iff.1 made)
  refine Operation.fault?_gate_eq_none_iff.2 ⟨one.symm, List.nodup_singleton 0, ?_⟩
  exact List.forall_mem_singleton.2 Nat.one_pos

/-- Gate words make a circuit on one qubit, which takes all of them. -/
theorem reachable_of_parse {mode : ParseMode} {source : Text} {c : Circuit K}
    (parsed : parse mode source = .ok c) : c.Reachable ∧ c.qubits = 1 := by
  obtain ⟨-, rfl⟩ := parse_eq_ok_iff.1 parsed
  exact ⟨(Circuit.Reachable.empty 1).addAll (addAll_circuitOf _), rfl⟩

/-- **Gate words, one by one.** Every word is of exactly one kind, whatever the case of its letters.
A text is refused with the error of its first word that is a malformed rotation or, in strict mode,
unknown; without such a word it makes the circuit on one qubit that takes the gates of its words in
their order. So permissive reading is strict reading of the known words, and a blank between two
texts joins what they make. No cut at the third byte of a word goes through a character. -/
theorem parse_by_words (K : Type) [Scalar K] (mode : ParseMode) (source : Text) :
    (∀ word (kind : Kind K), kindOf word = kind ↔ OfKind word kind) ∧
    (∀ fault, (parse mode source : Except WordFault (Circuit K)) = .error fault ↔
      ∃ before word after, Text.words source = before ++ word :: after ∧
        (∀ w ∈ before, refusal? K mode w = none) ∧ refusal? K mode word = some fault) ∧
    (∀ c : Circuit K, parse mode source = .ok c ↔
      (∀ word ∈ Text.words source, refusal? K mode word = none) ∧
        c = circuitOf (Text.words source) ∧ (Circuit.empty 1).addAll c.operations = .ok c) ∧
    (Text.words (knownText K source) = (Text.words source).filter (isKnown K) ∧
      ∀ source', Text.words source' = (Text.words source).filter (isKnown K) →
        (parse .permissive source : Except WordFault (Circuit K)) = parse .strict source') ∧
    (∀ other, (parse mode (source ++ ' ' :: other) : Except WordFault (Circuit K)) = do
      let c ← parse mode source
      let c' ← parse mode other
      return ⟨1, c.operations ++ c'.operations⟩) ∧
    ∀ word, readBytewise (K := K) word = some (readWord word) := by
  refine ⟨fun word kind => kindOf_eq_iff, fun fault => ?_, fun c => ?_,
    ⟨words_knownText source, fun source' known => ?_⟩, fun other => ?_, readBytewise_eq⟩
  · rw [parse_eq_error_iff, List.findSome?_eq_some_iff]
    constructor
    · rintro ⟨before, word, after, cut, here, passed⟩
      exact ⟨before, word, after, cut, passed, here⟩
    · rintro ⟨before, word, after, cut, passed, here⟩
      exact ⟨before, word, after, cut, here, passed⟩
  · rw [parse_eq_ok_iff]
    constructor
    · rintro ⟨passed, rfl⟩
      exact ⟨passed, rfl, addAll_circuitOf _⟩
    · rintro ⟨passed, made, -⟩
      exact ⟨passed, made⟩
  · rw [parse, parse, known, readWords_permissive]
  · rw [parse, parse, parse, Text.words_append_blank, readWords_append]
    cases (readWords mode (Text.words source) : Except WordFault (List (Gate K))) with
    | error fault => rfl
    | ok gates =>
      cases (readWords mode (Text.words other) : Except WordFault (List (Gate K))) with
      | error fault => rfl
      | ok more =>
        rw [ok_bind, ok_bind]
        exact congrArg (fun ops => Except.ok (Circuit.mk 1 ops)) List.map_append

/-- Words between wide blanks, one of them with a character around its third byte. -/
def wide : Text := "h\u3000rZ(-.5E1) rxé( X".toList

/-- The number `-.5E1`. -/
def minusFive : Signed where
  sign := .minus
  number :=
    { whole := []
      fraction := some ['5']
      exponent := some
        { capital := true
          sign := .unsigned
          digits := ['1']
          digital := List.forall_mem_singleton.2 rfl
          nonempty := List.cons_ne_nil _ _ }
      digital := List.forall_mem_singleton.2 rfl
      nonempty := List.cons_ne_nil _ _ }

theorem parse_by_words_wide :
    (parse .strict wide : Except WordFault (Circuit Float)) = .error (.unknown "rxé(".toList) ∧
    (parse .permissive wide : Except WordFault (Circuit Float)) =
      .ok ⟨1, [.gate .h [0], .gate (.rz (-5)) [0], .gate .x [0]]⟩ ∧
    (parse .strict "h rZ(-.5E1) X".toList : Except WordFault (Circuit Float)) =
      .ok ⟨1, [.gate .h [0], .gate (.rz (-5)) [0], .gate .x [0]]⟩ := by
  have cut : Text.words wide =
      ["h".toList, "rZ(-.5E1)".toList, "rxé(".toList, "X".toList] := by decide +kernel
  obtain ⟨-, refused, -⟩ := parse_by_words Float .strict wide
  obtain ⟨kinds, -, accepted, ⟨-, permissive⟩, -⟩ := parse_by_words Float .permissive wide
  have passed : ∀ word ∈ Text.words wide, refusal? Float .permissive word = none := by
    rw [cut]
    decide +kernel
  have five : minusFive.value = (-5 : Float) := by decide +kernel
  have turned : (kindOf "rZ(-.5E1)".toList : Kind Float) = .gate (.rz (-5)) := by
    rw [kinds, ← five]
    exact .rotation (c := 'Z') (by simp [rotations]) (by decide) (by decide +kernel)
  have gates : (circuitOf (Text.words wide) : Circuit Float) =
      ⟨1, [.gate .h [0], .gate (.rz (-5)) [0], .gate .x [0]]⟩ := by
    rw [cut, circuitOf, List.filterMap_cons, List.filterMap_cons]
    simp only [gate?, turned]
    rfl
  have whole : (parse .permissive wide : Except WordFault (Circuit Float)) =
      .ok ⟨1, [.gate .h [0], .gate (.rz (-5)) [0], .gate .x [0]]⟩ := by
    rw [← gates]
    exact (accepted _).2 ⟨passed, rfl, addAll_circuitOf _⟩
  refine ⟨?_, whole, ?_⟩
  · refine (refused _).2 ⟨["h".toList, "rZ(-.5E1)".toList], "rxé(".toList, ["X".toList], cut, ?_⟩
    decide +kernel
  · rw [← permissive _ (by decide +kernel), whole]

end Parse

end QubitTrace.Words
