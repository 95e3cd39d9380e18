import Mathlib
import QubitTrace.Proofs.Program.Broadcast
import QubitTrace.Proofs.Program.Code
import QubitTrace.Proofs.Program.Modes
import QubitTrace.Proofs.Program.Spacing

/-! # Lines, comments and the statements of a program

A program that fails in one of its statements is refused with the line of the first that fails
(`parse_eq_statement_iff`). Where the lines of a program are broken and what its comments say makes
no difference to its statements but for the lines they are on. A comment is cut off whatever it
says (`codeLines_comment`). Breaking a line at white space, behind a comment or not, leaves the code
the same when tidied (`tidy_joined_break`), and tidied statements do what the statements do
(`toOption_parse_congr`).
-/

namespace QubitTrace.Program
set_option autoImplicit false

open Text (tidy isBlank splitWhere before)

/-! ## Lines -/

section Lines

variable {s t l : Text}

/-- A line feed sets the lines before it apart from those behind it. -/
theorem splitWhere_append (s t : Text) : splitWhere (· == '\n') (s ++ '\n' :: t) =
    splitWhere (· == '\n') s ++ splitWhere (· == '\n') t := by
  simp only [Text.splitWhere_eq_splitOnP]
  exact List.splitOnP_append_cons s t rfl

/-- The last line of a text. -/
def lastLine (s : Text) : Text := s.rtakeWhile (· != '\n')

/-- What holds no line feed goes on with the last line. -/
theorem exists_splitWhere (s : Text) : ∃ init, splitWhere (· == '\n') s = init ++ [lastLine s] ∧
    ∀ t : Text, '\n' ∉ t → splitWhere (· == '\n') (s ++ t) = init ++ [lastLine s ++ t] := by
  suffices goes : ∃ init, ∀ t : Text, '\n' ∉ t →
      splitWhere (· == '\n') (s ++ t) = init ++ [lastLine s ++ t] by
    obtain ⟨init, goes⟩ := goes
    have here := goes [] List.not_mem_nil
    rw [List.append_nil, List.append_nil] at here
    exact ⟨init, here, goes⟩
  unfold lastLine
  induction s using List.reverseRecOn with
  | nil => exact ⟨[], fun t free => by rw [List.nil_append, splitWhere_of_free free]; rfl⟩
  | append_singleton s c ih =>
    obtain ⟨init, goes⟩ := ih
    by_cases lineFeed : c = '\n'
    · subst lineFeed
      refine ⟨splitWhere (· == '\n') s, fun t free => ?_⟩
      rw [List.append_assoc, List.singleton_append, splitWhere_append, splitWhere_of_free free,
        List.rtakeWhile_concat_neg _ _ _ (by simp)]
      rfl
    · refine ⟨init, fun t free => ?_⟩
      rw [List.append_assoc, List.singleton_append,
        goes (c :: t) (by simp [free, Ne.symm lineFeed]),
        List.rtakeWhile_concat_pos _ _ _ (by simpa using lineFeed), List.append_assoc]
      rfl

/-- A line without the carriage return at its end. -/
def chomp (line : Text) : Text := (Text.withoutLast? '\r' line).getD line

theorem chomp_cases (line : Text) : chomp line = line ∨ line = chomp line ++ ['\r'] := by
  unfold chomp Text.withoutLast?
  split_ifs with last
  · refine Or.inr ?_
    obtain ⟨t, rfl⟩ := List.getLast?_eq_some_iff.1 last
    simp
  · exact Or.inl rfl

theorem codeLines_eq {init : List Text} {last : Text}
    (pieces : splitWhere (· == '\n') s = init ++ [last]) : codeLines s =
      init.map (fun line => before ['/', '/'] (chomp line)) ++
        if last = [] then [] else [before ['/', '/'] last] := by
  unfold codeLines Text.lines
  rw [pieces]
  cases last with
  | nil => simp [chomp]
  | cons c last => simp [chomp]

end Lines

/-! ## Comments -/

section Comments

variable {s : Text} {b : Char}

/-- Behind a comment the line is lost. -/
theorem before_append_of_commented (commented : ¬ Uncommented s) (t : Text) :
    before ['/', '/'] (s ++ t) = before ['/', '/'] s := by
  induction s with
  | nil => exact absurd .nil commented
  | cons c s ih =>
    rw [List.cons_append, before_cons, before_cons]
    by_cases here : c = '/' ∧ s.head? = some '/'
    · have goes : c = '/' ∧ (s ++ t).head? = some '/' := by
        rw [List.head?_append, here.2]
        exact ⟨here.1, rfl⟩
      rw [if_pos here, if_pos goes]
    · have later : ¬ Uncommented s := fun plain =>
        commented (plain.cons fun d first both => here ⟨both.1, both.2 ▸ first⟩)
      have nonempty : s ≠ [] := by
        rintro rfl
        exact later .nil
      rw [List.head?_append_of_ne_nil s nonempty, if_neg here, if_neg here, ih later]

theorem before_append_of_uncommented (plain : Uncommented s) (other : b ≠ '/') (t : Text) :
    before ['/', '/'] (s ++ b :: t) = s ++ b :: before ['/', '/'] t := by
  induction s with
  | nil => rw [List.nil_append, before_cons, if_neg fun comment => other comment.1, List.nil_append]
  | cons c s ih =>
    obtain ⟨first, rest⟩ := List.isChain_cons.1 plain
    have apart : ¬ (c = '/' ∧ (s ++ b :: t).head? = some '/') := by
      rintro ⟨here, there⟩
      cases s with
      | nil => exact other (Option.some.inj there)
      | cons d s => exact first '/' there ⟨here, rfl⟩
    rw [List.cons_append, before_cons, if_neg apart, ih rest, List.cons_append]

theorem not_uncommented_comment (l : Text) : ¬ Uncommented (l ++ ['/', '/']) := fun plain =>
  List.isChain_pair.1 plain.right_of_append ⟨rfl, rfl⟩

/-- What a comment says does not matter, even if it ends in a carriage return. -/
theorem before_comment (l c : Text) :
    before ['/', '/'] (l ++ '/' :: '/' :: c) = before ['/', '/'] (l ++ ['/', '/']) ∧
      before ['/', '/'] (chomp (l ++ '/' :: '/' :: c)) = before ['/', '/'] (l ++ ['/', '/']) := by
  have split : l ++ '/' :: '/' :: c = (l ++ ['/', '/']) ++ c := by simp
  have whole : before ['/', '/'] (l ++ '/' :: '/' :: c) = before ['/', '/'] (l ++ ['/', '/']) := by
    rw [split, before_append_of_commented (not_uncommented_comment l)]
  refine ⟨whole, ?_⟩
  rcases chomp_cases (l ++ '/' :: '/' :: c) with kept | ended
  · rw [kept, whole]
  · -- without the carriage return the line still has its comment
    have commented : ¬ Uncommented (chomp (l ++ '/' :: '/' :: c)) := by
      intro plain
      have longer := plain.append_cons (c := '\r') (by decide) .nil
      rw [← ended, split] at longer
      exact not_uncommented_comment l longer.left_of_append
    rw [← whole, ← before_append_of_commented commented ['\r'], ← ended]

/-- The code is the same whatever a comment says. -/
theorem codeLines_comment {old new post : Text} (free : '\n' ∉ old) (free' : '\n' ∉ new)
    (ends : post = [] ∨ post.head? = some '\n') (pre : Text) :
    codeLines (pre ++ '/' :: '/' :: (old ++ post)) =
      codeLines (pre ++ '/' :: '/' :: (new ++ post)) := by
  obtain ⟨init, -, goes⟩ := exists_splitWhere pre
  have pieces {c : Text} (free : '\n' ∉ c) : splitWhere (· == '\n') (pre ++ '/' :: '/' :: c) =
      init ++ [lastLine pre ++ '/' :: '/' :: c] := goes _ (by simpa using free)
  rcases ends with rfl | first
  · have last {c : Text} (free : '\n' ∉ c) : codeLines (pre ++ '/' :: '/' :: c) =
        init.map (fun line => before ['/', '/'] (chomp line)) ++
          [before ['/', '/'] (lastLine pre ++ ['/', '/'])] := by
      rw [codeLines_eq (pieces free), if_neg (by simp), (before_comment _ _).1]
    rw [List.append_nil, List.append_nil, last free, last free']
  · obtain ⟨post, rfl⟩ := List.head?_eq_some_iff.1 first
    obtain ⟨init', rest, -⟩ := exists_splitWhere post
    have within {c : Text} (free : '\n' ∉ c) :
        codeLines (pre ++ '/' :: '/' :: (c ++ '\n' :: post)) =
          init.map (fun line => before ['/', '/'] (chomp line)) ++
            before ['/', '/'] (lastLine pre ++ ['/', '/']) ::
              init'.map (fun line => before ['/', '/'] (chomp line)) ++
            if lastLine post = [] then [] else [before ['/', '/'] (lastLine post)] := by
      have all : splitWhere (· == '\n') (pre ++ '/' :: '/' :: (c ++ '\n' :: post)) =
          (init ++ (lastLine pre ++ '/' :: '/' :: c) :: init') ++ [lastLine post] := by
        have shape : pre ++ '/' :: '/' :: (c ++ '\n' :: post) =
            (pre ++ '/' :: '/' :: c) ++ '\n' :: post := by simp
        rw [shape, splitWhere_append, pieces free, rest]
        simp
      rw [codeLines_eq all, List.map_append, List.map_cons, (before_comment _ _).2]
    rw [within free, within free']

end Comments

/-! ## Line breaks -/

section Breaks

variable {b : Char} {u pre post : Text}

/-- The code of a text as a part of a program, with a blank behind each line. -/
def raw (s : Text) : Text :=
  (splitWhere (· == '\n') s).flatMap fun line => before ['/', '/'] line ++ [' ']

theorem raw_append (s t : Text) : raw (s ++ '\n' :: t) = raw s ++ raw t := by
  rw [raw, splitWhere_append, List.flatMap_append, raw, raw]

/-- A front of a line goes into the code whole if it holds no comment; white space and a rest
without code behind it are no code. -/
theorem tidy_before_append (blank : isBlank b = true) (gone : before ['/', '/'] u = []) (l : Text) :
    tidy (before ['/', '/'] (l ++ b :: u) ++ [' ']) = tidy (before ['/', '/'] l ++ [' ']) := by
  by_cases plain : Uncommented l
  · have blanks : tidy [b, ' '] = tidy [' '] := by
      rw [Text.tidy_cons_congr_blank (t := [' ']) blank (d := ' ') rfl rfl]
      rfl
    rw [before_append_of_uncommented plain (Text.ne_of_blank blank rfl), gone,
      before_eq_self plain, List.append_assoc]
    exact Text.tidy_append_congr rfl blanks
  · rw [before_append_of_commented plain]

theorem tidy_before_chomp (line : Text) :
    tidy (before ['/', '/'] (chomp line) ++ [' ']) = tidy (before ['/', '/'] line ++ [' ']) := by
  rcases chomp_cases line with kept | ended
  · rw [kept]
  · have longer := tidy_before_append (b := '\r') (u := []) rfl rfl (chomp line)
    rw [← ended] at longer
    exact longer.symm

theorem tidy_flatMap_congr {α : Type} {f g : α → Text} {l : List α}
    (each : ∀ a ∈ l, tidy (f a) = tidy (g a)) : tidy (l.flatMap f) = tidy (l.flatMap g) := by
  induction l with
  | nil => rfl
  | cons a l ih =>
    obtain ⟨first, rest⟩ := List.forall_mem_cons.1 each
    rw [List.flatMap_cons, List.flatMap_cons]
    exact Text.tidy_append_congr first (ih rest)

/-- Another blank behind the blank at the end of the last line makes no difference. -/
theorem tidy_flatMap_blank {lines : List Text} (nonempty : lines ≠ []) (f : Text → Text) :
    tidy (lines.flatMap (fun line => f line ++ [' ']) ++ [' ']) =
      tidy (lines.flatMap fun line => f line ++ [' ']) := by
  obtain ⟨init, last, rfl⟩ := (List.eq_nil_or_concat lines).resolve_left nonempty
  rw [List.concat_eq_append, List.flatMap_append, List.flatMap_singleton, List.append_assoc,
    List.append_assoc]
  exact Text.tidy_append_congr rfl (Text.tidy_append_congr rfl rfl)

/-- Carriage returns and the end of the last line make no difference when the code is tidied. -/
theorem tidy_joined {s : Text} (nonempty : s ≠ []) : tidy (joined s) = tidy (raw s) := by
  obtain ⟨init, pieces, -⟩ := exists_splitWhere s
  have front : tidy ((init.map fun line => before ['/', '/'] (chomp line)).flatMap (· ++ [' '])) =
      tidy (init.flatMap fun line => before ['/', '/'] line ++ [' ']) := by
    rw [List.flatMap_map]
    exact tidy_flatMap_congr fun line _ => tidy_before_chomp line
  rw [joined, codeLines_eq pieces, raw, pieces, List.flatMap_append, List.flatMap_append,
    List.flatMap_singleton]
  by_cases empty : lastLine s = []
  · have others : init ≠ [] := by
      rintro rfl
      rw [empty, Text.splitWhere_eq_splitOnP] at pieces
      have whole : List.intercalate ['\n'] (s.splitOn '\n') = s := List.intercalate_splitOn '\n'
      rw [List.splitOn, pieces] at whole
      exact nonempty whole.symm
    rw [empty, if_pos rfl, List.flatMap_nil, List.append_nil, front]
    exact (tidy_flatMap_blank others _).symm
  · rw [if_neg empty, List.flatMap_singleton]
    exact Text.tidy_append_congr front rfl

/-- Ends of a line: a line feed, by itself, behind a carriage return, or behind a blank and a
comment. -/
inductive Breaks : Text → Prop
  | lineFeed : Breaks ['\n']
  | carriageReturn : Breaks ['\r', '\n']
  | comment (b : Char) (c : Text) (blank : isBlank b = true) (free : '\n' ∉ b :: c) :
    Breaks (b :: '/' :: '/' :: c ++ ['\n'])

/-- White space and a rest without code are no code at the end of a text. -/
theorem tidy_raw_append (blank : isBlank b = true) (free : '\n' ∉ b :: u)
    (gone : before ['/', '/'] u = []) (pre : Text) :
    tidy (raw (pre ++ b :: u)) = tidy (raw pre) := by
  obtain ⟨init, pieces, goes⟩ := exists_splitWhere pre
  rw [raw, goes _ free, raw, pieces, List.flatMap_append, List.flatMap_append,
    List.flatMap_singleton, List.flatMap_singleton]
  exact Text.tidy_append_congr rfl (tidy_before_append blank gone _)

/-- The end of a line is white space in the code. -/
theorem tidy_raw_break {new : Text} (breaks : Breaks new) (pre post : Text) :
    tidy (raw (pre ++ new ++ post)) = tidy (raw pre ++ raw post) := by
  have whole (t : Text) (same : tidy (raw (pre ++ t)) = tidy (raw pre)) :
      tidy (raw (pre ++ (t ++ ['\n']) ++ post)) = tidy (raw pre ++ raw post) := by
    have shape : pre ++ (t ++ ['\n']) ++ post = (pre ++ t) ++ '\n' :: post := by simp
    rw [shape, raw_append]
    exact Text.tidy_append_congr same rfl
  cases breaks with
  | lineFeed => exact whole [] (by rw [List.append_nil])
  | carriageReturn => exact whole ['\r'] (tidy_raw_append rfl (by decide) rfl pre)
  | comment b c blank free =>
    have gone : before ['/', '/'] ('/' :: '/' :: c) = [] := by
      rw [before_cons, if_pos ⟨rfl, rfl⟩]
    exact whole (b :: '/' :: '/' :: c)
      (tidy_raw_append blank (by simpa using free) gone pre)

/-- White space that is not in a comment is white space in the code. -/
theorem tidy_raw_blank (blank : isBlank b = true) (outside : b = '\n' ∨ Uncommented (lastLine pre))
    (post : Text) : tidy (raw (pre ++ b :: post)) = tidy (raw pre ++ raw post) := by
  rcases outside with rfl | plain
  · rw [raw_append]
  by_cases lineFeed : b = '\n'
  · rw [lineFeed, raw_append]
  have within (u : Text) (free : '\n' ∉ u) :
      tidy (raw (pre ++ b :: u)) = tidy (raw pre ++ raw u) := by
    obtain ⟨init, pieces, goes⟩ := exists_splitWhere pre
    have kept : '\n' ∉ b :: u := by simp [free, Ne.symm lineFeed]
    rw [raw, goes (b :: u) kept, raw, pieces, raw, splitWhere_of_free free,
      List.flatMap_append, List.flatMap_append, List.flatMap_singleton, List.flatMap_singleton,
      List.flatMap_singleton, before_append_of_uncommented plain (Text.ne_of_blank blank rfl),
      before_eq_self plain, List.append_assoc, List.append_assoc, List.append_assoc]
    refine Text.tidy_append_congr rfl (Text.tidy_append_congr rfl ?_)
    exact Text.tidy_cons_congr_blank blank rfl rfl
  by_cases broken : '\n' ∈ post
  · -- what stands on the lines behind is the same on both sides
    obtain ⟨u, rest, rfl, free⟩ := List.eq_append_cons_of_mem broken
    have shape : pre ++ b :: (u ++ '\n' :: rest) = (pre ++ b :: u) ++ '\n' :: rest := by simp
    rw [shape, raw_append, raw_append, ← List.append_assoc]
    exact Text.tidy_append_congr (within u free) rfl
  · exact within post broken

/-- The code is the same when tidied, whether a line is broken at white space or not. -/
theorem tidy_joined_break {new : Text} (blank : isBlank b = true)
    (outside : b = '\n' ∨ Uncommented (lastLine pre)) (breaks : Breaks new) (post : Text) :
    tidy (joined (pre ++ new ++ post)) = tidy (joined (pre ++ b :: post)) := by
  have nonempty : new ≠ [] := by cases breaks <;> simp
  rw [tidy_joined (by simp [nonempty]), tidy_joined (by simp), tidy_raw_break breaks,
    tidy_raw_blank blank outside]

end Breaks

/-! ## Runs on tidied statements -/

section Runs

variable {K : Type} {rules : Rules} {expected : Option Nat}

theorem finish_ne_statement (p : Program K) (line : Nat) (reason : StatementFault) :
    p.finish expected ≠ .error (.statement line reason) := by
  intro failed
  unfold finish at failed
  dsimp only at failed
  split_ifs at failed with none
  · cases failed
  · split at failed
    · cases failed
    obtain ⟨fault, -, other⟩ := mapError_eq_error_iff.1 failed
    cases other

variable [Scalar K]

theorem map_tidy_texts (source : Text) : ((statements source).map Statement.text).map tidy =
    (((tidy (joined source)).splitOnP (· == ';')).map Text.trim).filter fun t => !t.isEmpty := by
  have empty (t : Text) : (tidy t).isEmpty = t.isEmpty := by
    rw [Bool.eq_iff_iff, List.isEmpty_iff, List.isEmpty_iff, Text.tidy_eq_iff (by simp)]
  rw [texts_eq, Text.splitOnP_tidy rfl, List.map_map, List.filter_map, List.filter_map,
    List.map_map]
  simp only [Function.comp_def, Text.trim_tidy, empty]

theorem runTexts_map_tidy (texts : List Text) (p : Program K) :
    runTexts rules p (texts.map tidy) = runTexts rules p texts := by
  induction texts generalizing p with
  | nil => rfl
  | cons t texts ih =>
    rw [List.map_cons, runTexts_cons, runTexts_cons, toOption_step_tidy]
    exact Option.bind_congr fun next _ => ih next

/-- Programs whose code is the same when tidied describe the same circuit, or none. -/
theorem toOption_parse_congr {s t : Text} (same : tidy (joined s) = tidy (joined t)) :
    (parse (K := K) rules expected s).toOption = (parse (K := K) rules expected t).toOption := by
  rw [toOption_parse, toOption_parse, ← runTexts_map_tidy, map_tidy_texts, same, ← map_tidy_texts,
    runTexts_map_tidy]

/-- A run stops at the first statement that is refused, and with its line. -/
theorem run_eq_error_iff {ss : List Statement} {p : Program K} {fault : ProgramFault K} :
    run rules p ss = .error fault ↔ ∃ pre s post p' reason, ss = pre ++ s :: post ∧
      run rules p pre = .ok p' ∧ p'.step rules s.text = .error reason ∧
      fault = .statement s.line reason := by
  constructor
  · intro failed
    induction ss generalizing p with
    | nil => cases failed
    | cons s ss ih =>
      rw [run] at failed
      cases stepped : p.step rules s.text with
      | error reason =>
        rw [stepped] at failed
        cases failed
        exact ⟨[], s, ss, p, reason, rfl, rfl, stepped, rfl⟩
      | ok next =>
        rw [stepped] at failed
        obtain ⟨pre, s', post, p', reason, rfl, ran, refused, same⟩ := ih failed
        refine ⟨s :: pre, s', post, p', reason, rfl, ?_, refused, same⟩
        rw [run, stepped]
        exact ran
  · rintro ⟨pre, s, post, p', reason, rfl, ran, refused, rfl⟩
    rw [run_append, ran, ok_bind, run, refused]

/-- A program is refused in a statement with the line of the first one that fails. -/
theorem parse_eq_statement_iff {source : Text} {line : Nat} {reason : StatementFault} :
    parse (K := K) rules expected source = .error (.statement line reason) ↔
      ∃ pre s post p, statements source = pre ++ s :: post ∧
        run rules (empty : Program K) pre = .ok p ∧ p.step rules s.text = .error reason ∧
        s.line = line := by
  have finishes : ¬ ∃ p : Program K, run rules empty (statements source) = .ok p ∧
      p.finish expected = .error (.statement line reason) := by
    rintro ⟨p, -, failed⟩
    exact finish_ne_statement p line reason failed
  rw [parse, bind_eq_error_iff, or_iff_left finishes, run_eq_error_iff]
  constructor
  · rintro ⟨pre, s, post, p, reason, split, ran, refused, same⟩
    cases same
    exact ⟨pre, s, post, p, split, ran, refused, rfl⟩
  · rintro ⟨pre, s, post, p, split, ran, refused, rfl⟩
    exact ⟨pre, s, post, p, reason, split, ran, refused, rfl⟩

/-- **A program is what its code says.** Its statements are the pieces of its code, each on the line
of its first visible character. A program is refused in a statement with the line of the first one
that fails. Another comment in the place of one makes no difference at all, and another end of a
line in the place of white space that is not in a comment describes the same circuit. -/
theorem parse_by_code (source : Text) :
    statements source = ((code source).splitOnP (·.1 == ';')).filterMap stated? ∧
    (∀ rules expected line reason,
      parse (K := K) rules expected source = .error (.statement line reason) ↔
        ∃ pre s post p, statements source = pre ++ s :: post ∧
          run rules (empty : Program K) pre = .ok p ∧ p.step rules s.text = .error reason ∧
          s.line = line) ∧
    (∀ line reason, (ProgramFault.statement line reason : ProgramFault Float).message =
      "line " ++ Decimal.natText line ++ ": " ++ reason.message) ∧
    (∀ pre old new post, source = pre ++ '/' :: '/' :: (old ++ post) → '\n' ∉ old → '\n' ∉ new →
      post = [] ∨ post.head? = some '\n' → ∀ rules expected,
        parse (K := K) rules expected (pre ++ '/' :: '/' :: (new ++ post)) =
          parse rules expected source) ∧
    ∀ pre b post new, source = pre ++ b :: post → isBlank b = true →
      b = '\n' ∨ Uncommented (lastLine pre) → Breaks new → ∀ rules expected circuit,
        parse (K := K) rules expected (pre ++ new ++ post) = .ok circuit ↔
          parse rules expected source = .ok circuit := by
  refine ⟨statements_eq source, fun _ _ _ _ => parse_eq_statement_iff, fun _ _ => rfl, ?_, ?_⟩
  · rintro pre old new post rfl free free' ends rules expected
    rw [parse, parse, statements_eq, statements_eq, code, code, codeLines_comment free free' ends]
  · rintro pre b post new rfl blank outside breaks rules expected circuit
    exact toOption_eq_iff.1
      (toOption_parse_congr (tidy_joined_break blank outside breaks post)) circuit

end Runs

/-- A program with a comment, and a statement on two lines. -/
def entangling : Text := "qreg q[2]; // two\nh q[0];\ncx q[0],\n  q[1];".toList

/-- It describes the same circuit with another comment, and with a comment in the statement. -/
theorem parse_by_code_entangling :
    (parse ⟨.strict, none⟩ none "qreg q[2]; // q[3]; x q[2];\nh q[0];\ncx q[0],\n  q[1];".toList =
      .ok (⟨2, [.gate .h [0], .gate .cx [0, 1]]⟩ : Circuit Float)) ∧
    (parse ⟨.strict, none⟩ none "qreg q[2]; // two\nh q[0];\ncx // from;\nq[0],\n  q[1];".toList =
      .ok (⟨2, [.gate .h [0], .gate .cx [0, 1]]⟩ : Circuit Float)) := by
  have parsed : parse ⟨.strict, none⟩ none entangling =
      .ok (⟨2, [.gate .h [0], .gate .cx [0, 1]]⟩ : Circuit Float) := by
    cbv
  obtain ⟨-, -, -, comments, breaks⟩ := parse_by_code (K := Float) entangling
  constructor
  · rw [← parsed]
    exact comments "qreg q[2]; ".toList " two".toList " q[3]; x q[2];".toList
      "\nh q[0];\ncx q[0],\n  q[1];".toList (by decide) (by decide) (by decide) (by decide) _ _
  · refine (breaks "qreg q[2]; // two\nh q[0];\ncx".toList ' ' "q[0],\n  q[1];".toList
      " // from;\n".toList (by decide) rfl (Or.inr (uncommented_of_free (by decide)))
      (.comment ' ' " from;".toList rfl (by decide)) _ _ _).2 parsed

end QubitTrace.Program
