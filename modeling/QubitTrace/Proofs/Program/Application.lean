import Mathlib
import QubitTrace.Proofs.Program.Modes
import QubitTrace.Proofs.Program.RoundTrip
import QubitTrace.Proofs.Program.Standing

/-! # Gate statements with other operands

What stands before the operands of a gate statement (`heading`) makes a gate statement with any
other operands in front of which it is put. The new statement applies the same gate
(`Applies.heading`), and can stand in a program as well as the old one (`Standing.heading`).
-/

namespace QubitTrace.Program
set_option autoImplicit false

/-! ## Names -/

section Names

variable {statement name operands : Text} {angles : List Text}

/-- The name of a gate statement is what it begins with, and is not empty. -/
theorem name_of_splitApplication (parts : splitApplication statement = .ok (name, angles, operands)) :
    name = statement.takeWhile isNameChar ∧ statement.takeWhile isNameChar ≠ [] := by
  unfold splitApplication at parts
  rw [isNameChar_eq] at parts
  dsimp only at parts
  split_ifs at parts with empty
  have nonempty : statement.takeWhile isNameChar ≠ [] := by simpa using empty
  split at parts
  · split at parts
    · cases parts
    · cases parts
      exact ⟨rfl, nonempty⟩
  · cases parts
    exact ⟨rfl, nonempty⟩

/-- A keyword of letters is the name that the statement would apply as a gate. -/
theorem takeWhile_isNameChar_of_keyword
    (letters : ∀ c ∈ (splitKeyword statement).1, isNameChar c = true) :
    statement.takeWhile isNameChar = (splitKeyword statement).1 := by
  induction statement with
  | nil => rfl
  | cons c s ih =>
    unfold splitKeyword at letters ih ⊢
    dsimp only at letters ih ⊢
    by_cases blank : Text.isBlank c = true
    · have other : ¬ isNameChar c = true := fun letter => by
        rw [(printing_of_isNameChar letter).isBlank] at blank
        cases blank
      rw [List.takeWhile_cons_of_neg other, List.takeWhile_cons_of_neg (by simp [blank])]
    · have stays : (c :: s).takeWhile (fun c => !Text.isBlank c) =
          c :: s.takeWhile fun c => !Text.isBlank c :=
        List.takeWhile_cons_of_pos (by simpa using blank)
      rw [stays] at letters ⊢
      obtain ⟨first, rest⟩ := List.forall_mem_cons.1 letters
      rw [List.takeWhile_cons_of_pos first, ih rest]

end Names

/-! ## Headings -/

/-- What stands before the operands of a gate statement: the name, and the angles with their
parentheses. -/
def heading (statement : Text) : Text :=
  let name := statement.takeWhile isNameChar
  match Text.trimLeft (statement.dropWhile isNameChar) with
  | '(' :: inner =>
    match closing? inner with
    | some i => name ++ '(' :: (inner.take i ++ [')'])
    | none => name
  | _ => name

theorem heading_of_closed {statement inner : Text} {i : Nat}
    (rest : Text.trimLeft (statement.dropWhile isNameChar) = '(' :: inner)
    (closed : closing? inner = some i) :
    heading statement = statement.takeWhile isNameChar ++ '(' :: (inner.take i ++ [')']) := by
  simp only [heading, rest, closed]

theorem heading_of_plain {statement : Text}
    (plain : ∀ inner, Text.trimLeft (statement.dropWhile isNameChar) ≠ '(' :: inner) :
    heading statement = statement.takeWhile isNameChar := by
  unfold heading
  split
  · next inner rest => exact absurd rest (plain inner)
  · rfl

/-- A heading is a name, or a name and a stretch of the statement in parentheses. -/
theorem heading_cases (statement : Text) :
    heading statement = statement.takeWhile isNameChar ∨ ∃ inner, inner <:+: statement ∧
      heading statement = statement.takeWhile isNameChar ++ '(' :: (inner ++ [')']) := by
  unfold heading
  split
  · next inner rest =>
    split
    · next i _ =>
      refine .inr ⟨inner.take i, ?_, rfl⟩
      have later : '(' :: inner <:+ statement := rest ▸
        (List.dropWhile_suffix Text.isBlank).trans (List.dropWhile_suffix isNameChar)
      exact (List.take_prefix i inner).isInfix.trans
        ((List.suffix_cons '(' inner).trans later).isInfix
    · exact .inl rfl
  · exact .inl rfl

/-- The parenthesis that closes a list closes it whatever follows. -/
theorem closingFrom_take {depth : Nat} {s : Text} {i : Nat} (closed : closingFrom depth s = some i)
    (t : Text) : closingFrom depth (s.take i ++ ')' :: t) = some (s.take i).length := by
  fun_induction closingFrom depth s generalizing i with
  | case1 => cases closed
  | case2 depth s ih =>
    obtain ⟨j, later, rfl⟩ := Option.map_eq_some_iff.1 closed
    rw [List.take_succ_cons, List.cons_append, closingFrom, ih later]
    rfl
  | case3 s =>
    cases closed
    rfl
  | case4 depth s ih =>
    obtain ⟨j, later, rfl⟩ := Option.map_eq_some_iff.1 closed
    rw [List.take_succ_cons, List.cons_append, closingFrom, ih later]
    rfl
  | case5 depth c s opens outer inner ih =>
    obtain ⟨j, later, rfl⟩ := Option.map_eq_some_iff.1 closed
    rw [List.take_succ_cons, List.cons_append, closingFrom, ih later]
    · rfl
    · exact opens
    · exact outer
    · exact inner

/-- A heading in front of other operands makes a gate statement with the same name and angles. -/
theorem splitApplication_heading {statement name operands : Text} {angles : List Text}
    (parts : splitApplication statement = .ok (name, angles, operands)) {others : Text}
    (first : ∀ c ∈ others.head?, Text.isBlank c = false ∧ c ≠ '(') :
    splitApplication (heading statement ++ ' ' :: others) = .ok (name, angles, others) := by
  obtain ⟨rfl, nonempty⟩ := name_of_splitApplication parts
  have letters : ∀ c ∈ statement.takeWhile isNameChar, isNameChar c = true := fun c mem =>
    List.mem_takeWhile_imp mem
  unfold splitApplication at parts
  rw [isNameChar_eq] at parts
  dsimp only at parts
  rw [if_neg (by simpa using nonempty)] at parts
  split at parts
  · next inner rest =>
    cases closed : closing? inner with
    | none =>
      rw [closed] at parts
      cases parts
    | some i =>
      rw [closed] at parts
      cases parts
      have spelled : (statement.takeWhile isNameChar ++ '(' :: (inner.take i ++ [')'])) ++
          ' ' :: others =
            statement.takeWhile isNameChar ++ '(' :: (inner.take i ++ ')' :: ' ' :: others) := by
        simp
      rw [heading_of_closed rest closed, spelled]
      exact splitApplication_closed letters nonempty (closingFrom_take closed _)
        fun c mem => (first c mem).1
  · next plain =>
    cases parts
    rw [heading_of_plain plain]
    exact splitApplication_plain letters nonempty first

theorem takeWhile_prefix_heading (statement : Text) :
    statement.takeWhile isNameChar <+: heading statement := by
  rcases heading_cases statement with bare | ⟨inner, -, closed⟩
  · rw [bare]
  · rw [closed]
    exact List.prefix_append _ _

/-- A heading holds no character that ends a statement or a line, and no comment. -/
theorem Standing.plain_heading {statement : Text} (standing : Standing statement) :
    (∀ c ∈ Program.heading statement, c ≠ ';' ∧ c ≠ '\n') ∧
      Uncommented (Program.heading statement) := by
  have slash : '/' ∉ statement.takeWhile isNameChar := fun mem =>
    absurd (List.mem_takeWhile_imp mem) (by decide)
  have front : ∀ c ∈ statement.takeWhile isNameChar, c ≠ ';' ∧ c ≠ '\n' := fun c mem =>
    standing.plain c ((List.takeWhile_prefix isNameChar).subset mem)
  rcases heading_cases statement with bare | ⟨inner, inside, closed⟩
  · rw [bare]
    exact ⟨front, uncommented_of_free slash⟩
  · have list : Uncommented inner := List.IsChain.infix standing.uncommented inside
    rw [closed]
    refine ⟨fun c mem => ?_,
      (uncommented_of_free slash).append_cons (by decide) (list.append_cons (by decide) .nil)⟩
    rcases List.mem_append.1 mem with name | mem
    · exact front c name
    · rcases List.mem_cons.1 mem with rfl | mem
      · decide
      · rcases List.mem_append.1 mem with mem | last
        · exact standing.plain c (inside.subset mem)
        · rw [List.mem_singleton.1 last]
          decide

/-- A heading in front of printed operands can stand where the statement stood. -/
theorem Standing.heading {statement others : Text} (standing : Standing statement)
    (named : statement.takeWhile isNameChar ≠ []) (some : others ≠ [])
    (printing : ∀ c ∈ others, Printing c) :
    Standing (Program.heading statement ++ ' ' :: others) := by
  obtain ⟨plain, uncommented⟩ := standing.plain_heading
  refine ⟨by simp, Text.trim_of_ends (fun c mem => ?_) (fun c mem => ?_), fun c mem => ?_, ?_⟩
  · obtain ⟨ending, spelled⟩ := takeWhile_prefix_heading statement
    rw [← spelled, List.append_assoc, List.head?_append_of_ne_nil _ named] at mem
    have letter := List.mem_takeWhile_imp (List.mem_of_mem_head? mem)
    exact (printing_of_isNameChar letter).isBlank
  · rw [List.getLast?_append_of_ne_nil _ (List.cons_ne_nil _ _),
      List.getLast?_cons_of_ne_nil some] at mem
    exact (printing c (List.mem_of_getLast? mem)).isBlank
  · rcases List.mem_append.1 mem with front | back
    · exact plain c front
    · rcases List.mem_cons.1 back with rfl | inside
      · decide
      · exact ⟨(printing c inside).plain.1, (printing c inside).plain.2.1⟩
  · refine uncommented.append_cons (by decide) (uncommented_of_free fun mem => ?_)
    exact (printing _ mem).plain.2.2 rfl

/-! ## Gate statements -/

section Applies

variable {K : Type} [Scalar K] {statement name operands : Text} {g : Gate K}

/-- The statement applies a gate of the catalogue, under one of its names, to a list of operands. -/
def Applies (statement name : Text) (g : Gate K) (operands : Text) : Prop :=
  ∃ angles values, splitApplication statement = .ok (name, angles, operands) ∧
    (angles.mapM fun a =>
      (Angle.evaluate a : Except AngleFault K).mapError StatementFault.angle) = .ok values ∧
    findGate name values = .ok (some g)

/-- No keyword of other statements is the name of a gate. -/
theorem ofName?_of_reserved {word : String} (keyword : word ∈ reserved) :
    Template.ofName? (K := K) word = none := by
  simp only [reserved, List.mem_cons, List.not_mem_nil, or_false] at keyword
  rcases keyword with rfl | rfl | rfl | rfl | rfl | rfl | rfl | rfl | rfl | rfl <;> rfl

theorem Applies.named (applies : Applies statement name g operands) :
    statement.takeWhile isNameChar ≠ [] := by
  obtain ⟨_, _, parts, -⟩ := applies
  exact (name_of_splitApplication parts).2

theorem Applies.free (applies : Applies statement name g operands) :
    String.ofList (splitKeyword statement).1 ∉ reserved := by
  intro keyword
  obtain ⟨angles, values, parts, -, found⟩ := applies
  have letters : ∀ word ∈ reserved, ∀ c ∈ word.toList, isNameChar c = true := by
    simp [reserved]
    decide
  have same : name = (splitKeyword statement).1 := by
    rw [(name_of_splitApplication parts).1]
    refine takeWhile_isNameChar_of_keyword fun c mem => letters _ keyword c ?_
    rwa [String.toList_ofList]
  have none : findGate name values = .ok (none : Option (Gate K)) := by
    rw [findGate, same, ofName?_of_reserved keyword]
  rw [none] at found
  cases found

/-- A statement that applies a gate of the catalogue is run as such. -/
theorem Applies.step_eq (applies : Applies statement name g operands) (rules : Rules)
    (p : Program K) : p.step rules statement = p.applyGate statement name g operands := by
  have free := applies.free
  obtain ⟨angles, values, parts, evaluated, found⟩ := applies
  rw [step_of_free free]
  simp only [application, parts, evaluated, found, ok_bind]

theorem Applies.heading (applies : Applies statement name g operands) {others : Text}
    (first : ∀ c ∈ others.head?, Text.isBlank c = false ∧ c ≠ '(') :
    Applies (Program.heading statement ++ ' ' :: others) name g others := by
  obtain ⟨angles, values, parts, evaluated, found⟩ := applies
  exact ⟨angles, values, splitApplication_heading parts first, evaluated, found⟩

end Applies

end QubitTrace.Program
