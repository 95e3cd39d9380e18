import Mathlib
import QubitTrace.Proofs.Program.Code

/-! # Joined texts cut apart again

Pieces that hold no semicolon, each ended by one, are the pieces of the code of the program they
make, and so its statements (`statements_pieces`). Pieces that hold no separator and no
parenthesis, joined by the separator, are the parts of the list they make
(`splitTopLevel_intercalate`), and a gate statement falls into the name, the angles and the
operands it was put together from.
-/

namespace QubitTrace.Program
set_option autoImplicit false

/-! ## Lines -/

theorem splitWhere_of_free {s : Text} (free : '\n' ∉ s) :
    Text.splitWhere (· == '\n') s = [s] := by
  rw [Text.splitWhere_eq_splitOnP]
  exact List.splitOnP_eq_singleton fun c mem => beq_false_of_ne (ne_of_mem_of_not_mem mem free)

/-- A text without line feeds is one line, if it is not empty. -/
theorem lines_eq_singleton {s : Text} (free : '\n' ∉ s) (nonempty : s ≠ []) :
    Text.lines s = [s] := by
  rw [Text.lines, splitWhere_of_free free]
  cases s with
  | nil => exact absurd rfl nonempty
  | cons c s => rfl

/-! ## Comments -/

/-- No two strokes stand side by side, as they do where a comment begins. -/
def Uncommented (s : Text) : Prop := s.IsChain fun a b => ¬ (a = '/' ∧ b = '/')

theorem uncommented_of_free {s : Text} (free : '/' ∉ s) : Uncommented s := by
  induction s with
  | nil => exact .nil
  | cons c s ih =>
    obtain ⟨ne, rest⟩ := not_or.1 (free ∘ List.mem_cons.2)
    exact (ih rest).cons fun d _ both => ne both.1.symm

theorem before_cons (c : Char) (s : Text) : Text.before ['/', '/'] (c :: s) =
    if c = '/' ∧ s.head? = some '/' then [] else c :: Text.before ['/', '/'] s := by
  have pattern : Text.after? ['/', '/'] (c :: s) =
      if c = '/' ∧ s.head? = some '/' then some s.tail else none := by
    rw [Text.after?]
    cases s with
    | nil => simp [Text.after?]
    | cons d s => simp [Text.after?, eq_comm, ← ite_and]
  rw [Text.before, Text.cut?, pattern]
  split_ifs with comment
  · rfl
  · rw [Text.before]
    cases Text.cut? ['/', '/'] s <;> rfl

theorem prefix_before (s : Text) : Text.before ['/', '/'] s <+: s := by
  induction s with
  | nil => exact List.prefix_refl []
  | cons c s ih =>
    rw [before_cons]
    split_ifs
    · exact List.nil_prefix
    · exact List.cons_prefix_cons.2 ⟨rfl, ih⟩

/-- What stands before a comment holds none. -/
theorem uncommented_before (s : Text) : Uncommented (Text.before ['/', '/'] s) := by
  induction s with
  | nil => exact .nil
  | cons c s ih =>
    rw [before_cons]
    split_ifs with comment
    · exact .nil
    · refine ih.cons fun d here both => comment ⟨both.1, ?_⟩
      obtain ⟨t, whole⟩ := prefix_before s
      rw [← whole, List.head?_append, here, both.2]
      rfl

theorem before_eq_self {s : Text} (plain : Uncommented s) : Text.before ['/', '/'] s = s := by
  induction s with
  | nil => rfl
  | cons c s ih =>
    obtain ⟨first, rest⟩ := List.isChain_cons.1 plain
    rw [before_cons, if_neg fun comment => first '/' comment.2 ⟨comment.1, rfl⟩, ih rest]

/-- Texts with something else between them hold no comment if neither of them does. -/
theorem Uncommented.append_cons {s t : Text} (left : Uncommented s) {c : Char} (between : c ≠ '/')
    (right : Uncommented t) : Uncommented (s ++ c :: t) := by
  have behind : Uncommented (c :: t) := right.cons fun _ _ both => between both.1
  refine List.IsChain.append left behind fun _ _ d here both => ?_
  cases here
  exact between both.2

/-! ## Statements -/

section Pieces

theorem uncommented_pieces {c : Char} (other : c ≠ '/') {pieces : List Text}
    (plain : ∀ p ∈ pieces, Uncommented p) : Uncommented (pieces.flatMap (· ++ [c])) := by
  induction pieces with
  | nil => exact .nil
  | cons p pieces ih =>
    obtain ⟨first, rest⟩ := List.forall_mem_cons.1 plain
    rw [List.flatMap_cons, List.append_assoc]
    exact first.append_cons other (ih rest)

/-- The code of a program on one line, without a comment. -/
theorem code_of_line {s : Text} (free : '\n' ∉ s) (nonempty : s ≠ []) (plain : Uncommented s) :
    code s = (s ++ [' ']).map (·, 1) := by
  rw [code, codeLines, lines_eq_singleton free nonempty, List.map_singleton, before_eq_self plain]
  exact List.flatMap_singleton _ _

/-- Pieces that each end in a semicolon are what is between the semicolons. -/
theorem splitOnP_pieces {pieces : List Text} (free : ∀ p ∈ pieces, ';' ∉ p) {last : Text}
    (free' : ';' ∉ last) :
    (pieces.flatMap (· ++ [';']) ++ last).splitOnP (· == ';') = pieces ++ [last] := by
  have alone {p : Text} (free : ';' ∉ p) : p.splitOnP (· == ';') = [p] :=
    List.splitOnP_eq_singleton fun c mem => beq_false_of_ne (ne_of_mem_of_not_mem mem free)
  induction pieces with
  | nil => exact alone free'
  | cons p pieces ih =>
    obtain ⟨first, rest⟩ := List.forall_mem_cons.1 free
    rw [List.flatMap_cons, List.append_assoc, List.append_assoc, List.singleton_append,
      List.splitOnP_append_cons _ _ rfl, alone first, ih rest]
    rfl

/-- A piece on one line states its text, trimmed, on this line. -/
theorem stated?_of_line {piece : Text} (visible : Text.trim piece ≠ []) (n : Nat) :
    stated? (piece.map (·, n)) = some ⟨n, Text.trim piece⟩ := by
  have text : (piece.map (·, n)).map Prod.fst = piece := by
    rw [List.map_map]
    exact List.map_id _
  unfold stated?
  rw [text]
  cases seen : (piece.map (·, n)).find? fun c => !Text.isBlank c.1 with
  | none =>
    have blank := find?_visible_eq_none_iff.1 seen
    rw [text] at blank
    exact absurd blank visible
  | some first =>
    obtain ⟨c, -, rfl⟩ := List.mem_map.1 (List.mem_of_find?_eq_some seen)
    rfl

/-- Pieces that each end in a semicolon are the statements of the program they make. -/
theorem statements_pieces {pieces : List Text} (free : ∀ p ∈ pieces, ∀ c ∈ p, c ≠ ';' ∧ c ≠ '\n')
    (plain : ∀ p ∈ pieces, Uncommented p) (visible : ∀ p ∈ pieces, Text.trim p ≠ []) :
    statements (pieces.flatMap (· ++ [';'])) = pieces.map fun p => ⟨1, Text.trim p⟩ := by
  -- the empty program is apart: it has no line, and any other listing has one
  rcases pieces with _ | ⟨p, pieces⟩
  · rfl
  · have line : '\n' ∉ (p :: pieces).flatMap (· ++ [';']) := by
      intro mem
      obtain ⟨piece, listed, mem⟩ := List.mem_flatMap.1 mem
      rcases List.mem_append.1 mem with inside | last
      · exact (free piece listed _ inside).2 rfl
      · exact absurd last (by decide)
    have nonempty : (p :: pieces).flatMap (· ++ [';']) ≠ [] := by simp
    have states : ∀ q ∈ p :: pieces, stated? (q.map (·, 1)) = some ⟨1, Text.trim q⟩ :=
      fun q mem => stated?_of_line (visible q mem) 1
    have silent : [[' ']].filterMap (stated? ∘ List.map (·, 1)) = [] := rfl
    rw [statements_eq, code_of_line line nonempty (uncommented_pieces (by decide) plain),
      splitOnP_map]
    change List.filterMap stated? (List.map _ (List.splitOnP (· == ';') _)) = _
    rw [splitOnP_pieces (fun p mem inside => (free p mem _ inside).1 rfl) (by decide),
      List.filterMap_map, List.filterMap_append, silent, List.append_nil]
    exact (List.filterMap_congr states).trans (congrFun List.filterMap_eq_map _)

end Pieces

/-! ## Lists -/

section Lists

variable {sep : Char} {s : Text}

/-- A parenthesis is closed by the first one that follows. -/
theorem closing?_append (free : ∀ c ∈ s, c ≠ '(' ∧ c ≠ ')') (t : Text) :
    closing? (s ++ ')' :: t) = some s.length := by
  rw [closing?]
  induction s with
  | nil => rfl
  | cons c s ih =>
    obtain ⟨⟨opens, closes⟩, rest⟩ := List.forall_mem_cons.1 free
    rw [List.cons_append, closingFrom, ih rest]
    · rfl
    · exact opens
    · exact fun _ => closes
    · exact fun _ _ => closes

theorem cutAtDepth_ne_nil (sep : Char) (depth : Nat) (s : Text) : cutAtDepth sep depth s ≠ [] := by
  have extended (c : Char) (pieces : List Text) : intoFirst c pieces ≠ [] := by
    cases pieces <;> simp [intoFirst]
  cases s with
  | nil => simp [cutAtDepth]
  | cons c s =>
    rw [cutAtDepth]
    split_ifs
    · exact extended _ _
    · exact extended _ _
    · exact List.cons_ne_nil _ _
    · exact extended _ _

theorem mem_intercalate {c : Char} {pieces : List Text}
    (mem : c ∈ List.intercalate [sep] pieces) : c = sep ∨ ∃ p ∈ pieces, c ∈ p := by
  induction pieces with
  | nil => cases mem
  | cons p pieces ih =>
    cases pieces with
    | nil => exact Or.inr ⟨p, List.mem_cons_self, by rwa [List.intercalate_singleton] at mem⟩
    | cons p' pieces =>
      rw [List.intercalate_cons_cons, List.append_assoc, List.singleton_append] at mem
      rcases List.mem_append.1 mem with front | back
      · exact Or.inr ⟨p, List.mem_cons_self, front⟩
      · rcases List.mem_cons.1 back with between | later
        · exact Or.inl between
        · refine (ih later).imp_right fun ⟨q, listed, inside⟩ => ?_
          exact ⟨q, List.mem_cons_of_mem _ listed, inside⟩

theorem cutAtDepth_append (free : ∀ c ∈ s, c ≠ '(' ∧ c ≠ ')' ∧ c ≠ sep)
    (plain : sep ≠ '(' ∧ sep ≠ ')') (t : Text) :
    cutAtDepth sep 0 (s ++ sep :: t) = s :: cutAtDepth sep 0 t := by
  induction s with
  | nil => simp [cutAtDepth, plain]
  | cons c s ih =>
    obtain ⟨⟨opens, closes, other⟩, rest⟩ := List.forall_mem_cons.1 free
    rw [List.cons_append, cutAtDepth, if_neg opens, if_neg closes, if_neg (by simp [other]),
      ih rest]
    rfl

theorem cutAtDepth_eq_singleton (free : ∀ c ∈ s, c ≠ '(' ∧ c ≠ ')' ∧ c ≠ sep) :
    cutAtDepth sep 0 s = [s] := by
  induction s with
  | nil => rfl
  | cons c s ih =>
    obtain ⟨⟨opens, closes, other⟩, rest⟩ := List.forall_mem_cons.1 free
    rw [cutAtDepth, if_neg opens, if_neg closes, if_neg (by simp [other]), ih rest]
    rfl

theorem cutAtDepth_intercalate (plain : sep ≠ '(' ∧ sep ≠ ')') {pieces : List Text}
    (free : ∀ p ∈ pieces, ∀ c ∈ p, c ≠ '(' ∧ c ≠ ')' ∧ c ≠ sep) (nonempty : pieces ≠ []) :
    cutAtDepth sep 0 (List.intercalate [sep] pieces) = pieces := by
  induction pieces with
  | nil => exact absurd rfl nonempty
  | cons p pieces ih =>
    obtain ⟨first, rest⟩ := List.forall_mem_cons.1 free
    cases pieces with
    | nil => rw [List.intercalate_singleton, cutAtDepth_eq_singleton first]
    | cons p' pieces =>
      rw [List.intercalate_cons_cons, List.append_assoc, List.singleton_append,
        cutAtDepth_append first plain, ih rest (by simp)]

/-- Pieces joined by a separator are the parts of the list they make. -/
theorem splitTopLevel_intercalate (plain : sep ≠ '(' ∧ sep ≠ ')') {pieces : List Text}
    (free : ∀ p ∈ pieces, ∀ c ∈ p, c ≠ '(' ∧ c ≠ ')' ∧ c ≠ sep)
    (visible : ∀ p ∈ pieces, Text.isBlankText p = false) :
    splitTopLevel sep (List.intercalate [sep] pieces) = pieces := by
  rcases pieces with _ | ⟨p, pieces⟩
  · rfl
  · have seen : Text.isBlankText (List.intercalate [sep] (p :: pieces)) = false := by
      have first : Text.isBlankText p = false := visible p List.mem_cons_self
      unfold Text.isBlankText at first ⊢
      cases pieces with
      | nil => rwa [List.intercalate_singleton]
      | cons p' pieces =>
        rw [List.intercalate_cons_cons, List.append_assoc, List.all_append, first, Bool.false_and]
    rw [splitTopLevel, seen, if_neg Bool.false_ne_true,
      cutAtDepth_intercalate plain free (List.cons_ne_nil p pieces)]

end Lists

/-! ## Gate statements -/

section Application

variable {name operands : Text}

/-- The characters that gate names are made of. -/
def isNameChar (c : Char) : Bool := c.isAlphanum || c == '_'

theorem isNameChar_eq : (fun c : Char => c.isAlphanum || c == '_') = isNameChar := rfl

theorem takeWhile_name (letters : ∀ c ∈ name, isNameChar c = true) {c : Char}
    (stop : isNameChar c = false) (s : Text) :
    (name ++ c :: s).takeWhile isNameChar = name ∧
      (name ++ c :: s).dropWhile isNameChar = c :: s := by
  constructor
  · rw [List.takeWhile_append_of_pos letters, List.takeWhile_cons_of_neg (by simp [stop]),
      List.append_nil]
  · rw [List.dropWhile_append_of_pos letters, List.dropWhile_cons_of_neg (by simp [stop])]

/-- A gate without angles falls into its name and its operands. -/
theorem splitApplication_plain (letters : ∀ c ∈ name, isNameChar c = true) (nonempty : name ≠ [])
    (first : ∀ c ∈ operands.head?, Text.isBlank c = false ∧ c ≠ '(') :
    splitApplication (name ++ ' ' :: operands) = .ok (name, [], operands) := by
  obtain ⟨front, rest⟩ := takeWhile_name letters (c := ' ') rfl operands
  have trimmed : Text.trimLeft (' ' :: operands) = operands :=
    Text.trimLeft_of_head fun c mem => (first c mem).1
  unfold splitApplication
  dsimp only
  rw [isNameChar_eq, front, rest, trimmed, if_neg (by simpa using nonempty)]
  split
  · exact absurd rfl (first '(' rfl).2
  · rfl

/-- A gate with a list in parentheses falls into its name, the parts of the list and its
operands. -/
theorem splitApplication_closed {inner : Text} (letters : ∀ c ∈ name, isNameChar c = true)
    (nonempty : name ≠ [])
    (closed : closing? (inner ++ ')' :: ' ' :: operands) = some inner.length)
    (first : ∀ c ∈ operands.head?, Text.isBlank c = false) :
    splitApplication (name ++ '(' :: (inner ++ ')' :: ' ' :: operands)) =
      .ok (name, splitTopLevel ',' inner, operands) := by
  obtain ⟨front, rest⟩ := takeWhile_name letters (c := '(') rfl (inner ++ ')' :: ' ' :: operands)
  have trimmed : Text.trimLeft (' ' :: operands) = operands := Text.trimLeft_of_head first
  have opened : Text.trimLeft ('(' :: (inner ++ ')' :: ' ' :: operands)) =
      '(' :: (inner ++ ')' :: ' ' :: operands) := rfl
  unfold splitApplication
  dsimp only
  rw [isNameChar_eq, front, rest, if_neg (by simpa using nonempty)]
  simp only [opened, closed]
  rw [List.take_left, List.drop_length_add_append, List.drop_one, List.tail_cons, trimmed]

/-- A gate with angles falls into its name, its angles and its operands. -/
theorem splitApplication_angles {angles : List Text} (letters : ∀ c ∈ name, isNameChar c = true)
    (nonempty : name ≠ []) (free : ∀ a ∈ angles, ∀ c ∈ a, c ≠ '(' ∧ c ≠ ')' ∧ c ≠ ',')
    (visible : ∀ a ∈ angles, Text.isBlankText a = false)
    (first : ∀ c ∈ operands.head?, Text.isBlank c = false) :
    splitApplication (name ++ '(' :: (List.intercalate [','] angles ++ ')' :: ' ' :: operands)) =
      .ok (name, angles, operands) := by
  have closed : closing? (List.intercalate [','] angles ++ ')' :: ' ' :: operands) =
      some (List.intercalate [','] angles).length := by
    refine closing?_append (fun c mem => ?_) _
    rcases mem_intercalate mem with rfl | ⟨a, listed, inside⟩
    · decide
    · exact ⟨(free a listed c inside).1, (free a listed c inside).2.1⟩
  rw [splitApplication_closed letters nonempty closed first,
    splitTopLevel_intercalate (by decide) free visible]

end Application

end QubitTrace.Program
