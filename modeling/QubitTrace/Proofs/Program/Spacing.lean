import Mathlib
import QubitTrace.Proofs.Angle.Derivation
import QubitTrace.Proofs.Except
import QubitTrace.Proofs.Program.Keyword
import QubitTrace.Proofs.Text.Tidy

/-! # The spacing of statements

White space in a statement sets its parts apart, and it does not matter how much of it there is:
with a single blank for every stretch of white space the statement does what it does as it stands
(`toOption_step_tidy`). Each reader takes the tidied text to the tidied parts, and what is left
when the parts are trimmed, a name, a number, an angle, is the same.
-/

namespace QubitTrace.Program
set_option autoImplicit false

open Text (tidy push isBlank tidy_cons push_of_visible push_of_blank)

/-! ## Lists in parentheses -/

section Lists

variable {depth i : Nat} {s a b : Text}

theorem closingFrom_cons {c : Char} (opens : c ≠ '(') (closes : c ≠ ')') (depth : Nat) (s : Text) :
    closingFrom depth (c :: s) = (closingFrom depth s).map (· + 1) := by
  rw [closingFrom]
  · exact opens
  · exact fun _ => closes
  · exact fun _ _ => closes

/-- A parenthesis that is found stands at the place found. -/
theorem exists_of_closingFrom (closed : closingFrom depth s = some i) :
    ∃ a b, s = a ++ ')' :: b ∧ a.length = i := by
  fun_induction closingFrom depth s generalizing i with
  | case1 => cases closed
  | case3 s =>
    cases closed
    exact ⟨[], s, rfl, rfl⟩
  | case2 depth s ih | case4 depth s ih =>
    obtain ⟨j, later, rfl⟩ := Option.map_eq_some_iff.1 closed
    obtain ⟨a, b, rfl, rfl⟩ := ih later
    exact ⟨_ :: a, b, rfl, rfl⟩
  | case5 depth c s opens outer inner ih =>
    obtain ⟨j, later, rfl⟩ := Option.map_eq_some_iff.1 closed
    obtain ⟨a, b, rfl, rfl⟩ := ih later
    exact ⟨c :: a, b, rfl, rfl⟩

theorem closingFrom_append_tidy {t : Text}
    (closed : closingFrom depth (a ++ ')' :: t) = some a.length) (t' : Text) :
    closingFrom depth (tidy a ++ ')' :: t') = some (tidy a).length := by
  induction a generalizing depth with
  | nil =>
    cases depth with
    | zero => rfl
    | succ depth =>
      obtain ⟨j, -, same⟩ := Option.map_eq_some_iff.1 closed
      cases same
  | cons c a ih =>
    rw [List.cons_append] at closed
    by_cases opens : c = '('
    · subst opens
      obtain ⟨j, later, same⟩ := Option.map_eq_some_iff.1 closed
      rw [tidy_cons, push_of_visible rfl, List.cons_append, closingFrom,
        ih (by rw [later, Nat.succ.inj same])]
      rfl
    by_cases closes : c = ')'
    · subst closes
      cases depth with
      | zero => cases closed
      | succ depth =>
        obtain ⟨j, later, same⟩ := Option.map_eq_some_iff.1 closed
        rw [tidy_cons, push_of_visible rfl, List.cons_append, closingFrom,
          ih (by rw [later, Nat.succ.inj same])]
        rfl
    · rw [closingFrom_cons opens closes] at closed
      obtain ⟨j, later, same⟩ := Option.map_eq_some_iff.1 closed
      have inside := ih (by rw [later, Nat.succ.inj same])
      rw [tidy_cons]
      cases blank : isBlank c with
      | false =>
        rw [push_of_visible blank, List.cons_append, closingFrom_cons opens closes, inside]
        rfl
      | true =>
        rcases push_of_blank blank (tidy a) with ⟨kept, -⟩ | ⟨added, -⟩
        · rw [kept, inside]
        · rw [added, List.cons_append, closingFrom_cons (by decide) (by decide), inside]
          rfl

theorem closingFrom_tidy_eq_none (unclosed : closingFrom depth s = none) :
    closingFrom depth (tidy s) = none := by
  fun_induction closingFrom depth s with
  | case1 => rfl
  | case3 => cases unclosed
  | case2 depth s ih | case4 depth s ih =>
    rw [tidy_cons, push_of_visible rfl, closingFrom, ih (Option.map_eq_none_iff.1 unclosed)]
    rfl
  | case5 depth c s opens outer inner ih =>
    have rest := ih (Option.map_eq_none_iff.1 unclosed)
    rw [tidy_cons]
    cases blank : isBlank c with
    | false =>
      rw [push_of_visible blank, closingFrom, rest]
      · rfl
      · exact opens
      · exact outer
      · exact inner
    | true =>
      rcases push_of_blank blank (tidy s) with ⟨kept, -⟩ | ⟨added, -⟩
      · rw [kept, rest]
      · rw [added, closingFrom_cons (by decide) (by decide), rest]
        rfl

theorem intoFirst_cutAtDepth (sep c : Char) (depth : Nat) (s : Text) :
    intoFirst c (cutAtDepth sep depth s) = (cutAtDepth sep depth s).modifyHead (c :: ·) := by
  obtain ⟨piece, pieces, shape⟩ := List.exists_cons_of_ne_nil (cutAtDepth_ne_nil sep depth s)
  rw [shape]
  rfl

/-- White space goes into the first piece. -/
theorem cutAtDepth_blank {sep c : Char} (visible : isBlank sep = false) (blank : isBlank c = true)
    (depth : Nat) (s : Text) :
    cutAtDepth sep depth (c :: s) = (cutAtDepth sep depth s).modifyHead (c :: ·) := by
  have ne {d : Char} (seen : isBlank d = false) : c ≠ d := Text.ne_of_blank blank seen
  rw [cutAtDepth, if_neg (ne rfl), if_neg (ne rfl), if_neg fun h => ne visible h.1,
    intoFirst_cutAtDepth]

/-- The first piece is a front of the text. -/
theorem prefix_of_cutAtDepth {sep : Char} {piece : Text} {pieces : List Text}
    (cut : cutAtDepth sep depth s = piece :: pieces) : piece <+: s := by
  induction s generalizing depth piece pieces with
  | nil =>
    cases cut
    exact List.prefix_refl []
  | cons c s ih =>
    have goes {depth : Nat} (cut : intoFirst c (cutAtDepth sep depth s) = piece :: pieces) :
        piece <+: c :: s := by
      obtain ⟨first, others, shape⟩ := List.exists_cons_of_ne_nil (cutAtDepth_ne_nil sep depth s)
      rw [shape] at cut
      cases cut
      exact List.cons_prefix_cons.2 ⟨rfl, ih shape⟩
    rw [cutAtDepth] at cut
    split_ifs at cut
    · exact goes cut
    · exact goes cut
    · cases cut
      exact List.nil_prefix
    · exact goes cut

theorem cutAtDepth_tidy {sep : Char} (visible : isBlank sep = false) (depth : Nat) (s : Text) :
    cutAtDepth sep depth (tidy s) = (cutAtDepth sep depth s).map tidy := by
  induction s generalizing depth with
  | nil => rfl
  | cons c s ih =>
    cases blank : isBlank c with
    | false =>
      have goes (depth : Nat) : intoFirst c (cutAtDepth sep depth (tidy s)) =
          (intoFirst c (cutAtDepth sep depth s)).map tidy := by
        rw [intoFirst_cutAtDepth, intoFirst_cutAtDepth, Text.map_tidy_modifyHead, ih]
        exact congrArg (List.modifyHead · _) (funext fun t => (push_of_visible blank t).symm)
      rw [tidy_cons, push_of_visible blank, cutAtDepth, cutAtDepth, goes, goes, goes, ih]
      split_ifs <;> rfl
    | true =>
      rw [tidy_cons, Text.modifyHead_push (cutAtDepth_ne_nil sep depth) prefix_of_cutAtDepth
        (cutAtDepth_blank visible rfl depth) blank, ih, cutAtDepth_blank visible blank,
        Text.map_tidy_modifyHead]

theorem splitTopLevel_tidy {sep : Char} (visible : isBlank sep = false) (s : Text) :
    splitTopLevel sep (tidy s) = (splitTopLevel sep s).map tidy := by
  rw [splitTopLevel, splitTopLevel, Text.isBlankText_tidy, cutAtDepth_tidy visible]
  split_ifs <;> rfl

end Lists

/-! ## Operands -/

section Operands

variable {kind : RegisterKind} {registers : List Register} {operand : Text}

theorem isName_tidy (s : Text) : isName (tidy s) = isName s := by
  refine Text.apply_tidy (b := false) (fun s blank => ?_) s
  cases named : isName s with
  | false => rfl
  | true =>
    obtain ⟨c, mem, blank⟩ := blank
    rw [isBlank_of_mem_name named c mem] at blank
    cases blank

theorem readSize_tidy (s : Text) : Literal.readSize (tidy s) = Literal.readSize s := by
  refine Text.apply_tidy (b := none) (fun s blank => ?_) s
  obtain ⟨c, mem, blank⟩ := blank
  have undigital {s : Text} (mem : c ∈ s) : Literal.readDigits s = none := by
    rw [Option.eq_none_iff_forall_ne_some]
    intro n read
    rw [Decimal.isBlank_of_isDigit ((Literal.readDigits_eq_some_iff.1 read).2.1 c mem)] at blank
    cases blank
  unfold Literal.readSize
  dsimp only
  split
  · next t =>
    rcases List.mem_cons.1 mem with rfl | mem
    · cases blank
    · rw [undigital mem]
      rfl
  · rw [undigital mem]
    rfl

theorem toOption_named_tidy (name : Text) (index : Option Nat) :
    (named (tidy name) index).toOption = (named name index).toOption := by
  unfold named
  rw [isName_tidy]
  split_ifs with identifier
  · rw [Text.tidy_of_visible (isBlank_of_mem_name identifier)]
  · rfl

theorem toOption_readOperand_tidy (operand : Text) :
    (readOperand (tidy operand)).toOption = (readOperand operand).toOption := by
  unfold readOperand
  rw [Text.cut?_tidy (List.forall_mem_singleton.2 rfl) (List.cons_ne_nil _ _)]
  cases Text.cut? ['['] operand with
  | none =>
    dsimp only [Option.map_none]
    rw [Text.trim_tidy, toOption_named_tidy]
  | some parts =>
    obtain ⟨name, tail⟩ := parts
    dsimp only [Option.map_some, Prod.map]
    rw [Text.withoutLast?_tidy (by decide)]
    cases Text.withoutLast? ']' tail with
    | none => rfl
    | some index =>
      dsimp only [Option.map_some]
      rw [Text.trim_tidy, readSize_tidy]
      cases Literal.readSize (Text.trim index) with
      | none => rfl
      | some i =>
        dsimp only
        rw [Text.trim_tidy, toOption_named_tidy]

theorem toOption_resolve_tidy (operand : Text) :
    (Register.resolve kind registers (tidy operand)).toOption =
      (Register.resolve kind registers operand).toOption := by
  unfold Register.resolve
  rw [toOption_bind, toOption_bind, toOption_readOperand_tidy]

theorem toOption_declare_tidy (known : List Register) (offset : Nat) (operand : Text) :
    (Register.declare known offset (tidy operand)).toOption =
      (Register.declare known offset operand).toOption := by
  unfold Register.declare
  rw [toOption_bind, toOption_bind, toOption_readOperand_tidy]

theorem toOption_evaluate_tidy {K : Type} [Scalar K] (angle : Text) :
    (Angle.evaluate (tidy angle) : Except AngleFault K).toOption =
      (Angle.evaluate angle : Except AngleFault K).toOption := by
  rw [toOption_eq_iff]
  intro v
  rw [Angle.evaluate_eq_ok_iff, Angle.evaluate_eq_ok_iff, Text.squeeze_tidy]

end Operands

/-! ## Statements -/

section Statements

variable {K : Type} {p : Program K} {rules : Rules}

theorem toOption_declareQuantum_tidy (operand : Text) :
    (p.declareQuantum rules (tidy operand)).toOption =
      (p.declareQuantum rules operand).toOption := by
  unfold declareQuantum
  rw [toOption_bind, toOption_bind, toOption_declare_tidy]

theorem toOption_declareClassical_tidy (operand : Text) :
    (p.declareClassical (tidy operand)).toOption = (p.declareClassical operand).toOption := by
  unfold declareClassical
  rw [toOption_bind, toOption_bind, toOption_declare_tidy]

theorem toOption_qubitOperands_tidy (list : Text) :
    (p.qubitOperands (tidy list)).toOption = (p.qubitOperands list).toOption := by
  unfold qubitOperands
  rw [splitTopLevel_tidy (by decide)]
  refine toOption_mapM_map fun operand _ => ?_
  rw [Text.trim_tidy, toOption_resolve_tidy]

theorem toOption_measure_tidy (operands : Text) :
    (p.measure (tidy operands)).toOption = (p.measure operands).toOption := by
  unfold measure
  rw [Text.cut?_tidy (List.forall_mem_cons.2 ⟨rfl, List.forall_mem_singleton.2 rfl⟩)
    (List.cons_ne_nil _ _)]
  cases Text.cut? ['-', '>'] operands with
  | none => rfl
  | some parts =>
    obtain ⟨source, target⟩ := parts
    dsimp only [Option.map_some, Prod.map]
    rw [Text.trim_tidy, Text.trim_tidy, toOption_bind, toOption_bind, toOption_resolve_tidy]
    simp only [toOption_bind, toOption_resolve_tidy]

theorem toOption_barrier_tidy (operands : Text) :
    (p.barrier (tidy operands)).toOption = (p.barrier operands).toOption := by
  unfold barrier
  rw [toOption_bind, toOption_bind, toOption_qubitOperands_tidy]

/-- A gate statement falls into its parts when tidied as it does before, the parts tidied. -/
theorem toOption_splitApplication_tidy (statement : Text) :
    (splitApplication (tidy statement)).toOption = (splitApplication statement).toOption.map
      fun (name, angles, operands) => (name, angles.map tidy, tidy operands) := by
  obtain ⟨front, rest⟩ := Text.span_tidy
    (fun c (letter : isNameChar c = true) => (printing_of_isNameChar letter).isBlank) statement
  unfold splitApplication
  rw [isNameChar_eq]
  dsimp only
  rw [front, rest, Text.trimLeft_tidy]
  generalize Text.trimLeft (statement.dropWhile isNameChar) = rest
  split_ifs with empty
  · rfl
  by_cases opens : ∃ inner, rest = '(' :: inner
  · obtain ⟨inner, rfl⟩ := opens
    rw [tidy_cons, push_of_visible rfl]
    simp only
    cases closed : closing? inner with
    | none =>
      have unclosed : closing? (tidy inner) = none := closingFrom_tidy_eq_none closed
      rw [unclosed]
      rfl
    | some i =>
      obtain ⟨a, b, rfl, rfl⟩ := exists_of_closingFrom closed
      rw [Text.tidy_append_visible rfl]
      have closes : closing? (tidy a ++ ')' :: tidy b) = some (tidy a).length :=
        closingFrom_append_tidy closed _
      rw [closes]
      simp only [List.take_left, List.drop_length_add_append, List.drop_one, List.tail_cons]
      rw [splitTopLevel_tidy rfl, Text.trimLeft_tidy]
      rfl
  · have closed : ¬ ∃ inner, tidy rest = '(' :: inner := by
      simpa only [← List.head?_eq_some_iff, Text.head?_tidy (c := '(') rfl] using opens
    split
    · next inner shape => exact absurd ⟨inner, shape⟩ closed
    · split
      · exact absurd ⟨_, rfl⟩ opens
      · rfl

theorem toOption_applyGate_tidy (statement statement' name : Text) (g : Gate K) (operands : Text) :
    (p.applyGate statement' name g (tidy operands)).toOption =
      (p.applyGate statement name g operands).toOption := by
  unfold applyGate
  rw [toOption_bind, toOption_bind, toOption_qubitOperands_tidy]
  refine congrArg _ (funext fun spans => ?_)
  split_ifs <;> rfl

variable [Scalar K]

theorem toOption_application_tidy (statement : Text) :
    (p.application rules (tidy statement)).toOption =
      (p.application rules statement).toOption := by
  unfold application
  rw [toOption_bind, toOption_bind, toOption_splitApplication_tidy]
  cases (splitApplication statement).toOption with
  | none => rfl
  | some parts =>
    obtain ⟨name, angles, operands⟩ := parts
    have values : ((angles.map tidy).mapM fun a =>
        (Angle.evaluate a : Except AngleFault K).mapError StatementFault.angle).toOption =
          (angles.mapM fun a =>
            (Angle.evaluate a : Except AngleFault K).mapError StatementFault.angle).toOption :=
      toOption_mapM_map fun a _ => by
        rw [toOption_mapError, toOption_mapError, toOption_evaluate_tidy]
    simp only [Option.map_some, Option.bind_eq_bind, Option.bind_some, toOption_bind, values]
    refine Option.bind_congr fun values _ => Option.bind_congr fun found _ => ?_
    cases found with
    | some g => exact toOption_applyGate_tidy statement (tidy statement) name g operands
    | none => rfl

theorem splitKeyword_tidy (statement : Text) :
    splitKeyword (tidy statement) =
      ((splitKeyword statement).1, tidy (splitKeyword statement).2) := by
  obtain ⟨front, rest⟩ := Text.span_tidy (p := fun c => !isBlank c) (by simp) statement
  rw [splitKeyword, front, rest, splitKeyword]

/-- **Spacing does not matter.** A statement with a single blank for every stretch of white space
does what it does as it stands, though it may be refused in other words. -/
theorem toOption_step_tidy (statement : Text) :
    (p.step rules (tidy statement)).toOption = (p.step rules statement).toOption := by
  have split := splitKeyword_tidy statement
  by_cases keyword : String.ofList (splitKeyword statement).1 ∈ reserved
  · unfold step
    rw [split]
    generalize splitKeyword statement = parts at keyword
    obtain ⟨word, rest⟩ := parts
    dsimp only at keyword ⊢
    generalize String.ofList word = key at keyword ⊢
    simp only [reserved, List.mem_cons, List.not_mem_nil, or_false] at keyword
    rcases keyword with rfl | rfl | rfl | rfl | rfl | rfl | rfl | rfl | rfl | rfl
    · have same : (Text.trim (tidy rest)).head? = some '2' ↔ (Text.trim rest).head? = some '2' := by
        rw [Text.trim_tidy, Text.head?_tidy rfl]
      exact toOption_guard_congr same p _ _
    · have visible : ∀ c ∈ "qelib1.inc".toList, isBlank c = false := by
        simp [isBlank, Text.blankRanges]
      have same : Text.strip '"' (Text.trim (tidy rest)) = "qelib1.inc".toList ↔
          Text.strip '"' (Text.trim rest) = "qelib1.inc".toList := by
        rw [Text.trim_tidy, Text.strip_tidy rfl, Text.tidy_eq_iff visible]
      exact toOption_guard_congr same p _ _
    · change (p.declareQuantum rules (Text.trim (tidy rest))).toOption = _
      rw [Text.trim_tidy]
      exact toOption_declareQuantum_tidy _
    · change (p.declareClassical (Text.trim (tidy rest))).toOption = _
      rw [Text.trim_tidy]
      exact toOption_declareClassical_tidy _
    · exact toOption_measure_tidy rest
    · exact toOption_barrier_tidy rest
    all_goals rfl
  · rw [step_of_free keyword, step_of_free (by rwa [split]), toOption_application_tidy]

end Statements

end QubitTrace.Program
