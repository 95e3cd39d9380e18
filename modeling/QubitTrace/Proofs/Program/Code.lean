import Mathlib
import QubitTrace.Program.Interpreter
import QubitTrace.Proofs.Text.Pieces

/-! # Statements as pieces of the code

The code of a program is what its lines hold in front of their comments, with a blank behind each
line (`code`). Read character by character it gives the pieces between its semicolons: trimmed, the
blank ones left out, each on the line of its first visible character (`statements_eq`). While the
splitter reads, what is pending is the piece so far, and its line is that character's (`Pending`).
-/

namespace QubitTrace.Program
set_option autoImplicit false

/-- What the lines of a program hold in front of their comments. -/
def codeLines (source : Text) : List Text := (Text.lines source).map (Text.before ['/', '/'])

/-- The code of a program, every character with the number of its line. -/
def code (source : Text) : List (Char × Nat) :=
  ((codeLines source).zipIdx 1).flatMap fun (line, n) => (line ++ [' ']).map (·, n)

/-- The statement that a piece of code states, on the line of its first visible character. -/
def stated? (piece : List (Char × Nat)) : Option Statement :=
  (piece.find? fun c => !Text.isBlank c.1).map fun first =>
    ⟨first.2, Text.trim (piece.map Prod.fst)⟩

/-- A piece states nothing when it is blank. -/
theorem find?_visible_eq_none_iff {piece : List (Char × Nat)} :
    (piece.find? fun c => !Text.isBlank c.1) = none ↔ Text.trim (piece.map Prod.fst) = [] := by
  rw [Text.trim_eq_nil_iff, List.find?_eq_none, List.forall_mem_map]
  simp

/-! ## Reading character by character -/

section Reading

variable {s : Splitter} {q rest : List (Char × Nat)}

/-- Reads a character with the number of its line. -/
def Splitter.readAt (s : Splitter) (c : Char × Nat) : Splitter := s.read c.2 c.1

/-- The end of a line is read as a blank. -/
theorem readLine_eq (s : Splitter) (line : Text) (n : Nat) : s.readLine (line, n) =
    ((Text.before ['/', '/'] line ++ [' ']).map (·, n)).foldl Splitter.readAt s := by
  have blank (s : Splitter) : s.readAt (' ', n) = { s with pending := ' ' :: s.pending } := by
    have space : Text.isBlank ' ' = true := rfl
    simp [Splitter.readAt, Splitter.read, space]
  rw [List.foldl_map, List.foldl_append]
  exact (blank _).symm

theorem foldl_readLine_eq (lines : List (Text × Nat)) (s : Splitter) :
    lines.foldl Splitter.readLine s = (lines.flatMap fun (line, n) =>
      (Text.before ['/', '/'] line ++ [' ']).map (·, n)).foldl Splitter.readAt s := by
  rw [List.foldl_flatMap]
  have each : Splitter.readLine = _ := funext₂ fun s line => readLine_eq s line.1 line.2
  rw [each]

/-- What is pending is the piece `q`, and the line is that of its first visible character. -/
structure Splitter.Pending (s : Splitter) (q : List (Char × Nat)) : Prop where
  text : s.pending = (q.map Prod.fst).reverse
  line : ∀ first ∈ q.find? fun c => !Text.isBlank c.1, s.line = first.2

theorem Splitter.Pending.isBlankText (pending : s.Pending q) :
    Text.isBlankText s.pending = (q.find? fun c => !Text.isBlank c.1).isNone := by
  rw [pending.text, Text.isBlankText, List.all_reverse, List.all_map, Bool.eq_iff_iff,
    Option.isNone_iff_eq_none, List.find?_eq_none, List.all_eq_true]
  simp

theorem Splitter.Pending.read (pending : s.Pending q) {c : Char × Nat} (inside : c.1 ≠ ';') :
    (s.readAt c).Pending (q ++ [c]) := by
  have step : s.readAt c = { s with
      line := if Text.isBlankText s.pending && !Text.isBlank c.1 then c.2 else s.line
      pending := c.1 :: s.pending } := if_neg inside
  rw [step]
  refine ⟨?_, fun first here => ?_⟩
  · rw [List.map_append, List.reverse_append, ← pending.text]
    rfl
  · rw [List.find?_append] at here
    dsimp only
    rw [pending.isBlankText]
    cases seen : q.find? fun c => !Text.isBlank c.1 with
    | some known =>
      rw [seen] at here
      cases here
      exact pending.line first seen
    | none =>
      rw [seen, Option.none_or, List.find?_singleton] at here
      obtain ⟨visible, same⟩ := Option.ite_none_right_eq_some.1 here
      cases same
      rw [visible]
      rfl

/-- What is pending is found as the statement that the piece states, if it states one. -/
theorem Splitter.Pending.close (pending : s.Pending q) :
    s.close.found = s.found ++ (stated? q).toList := by
  have text : s.pending.reverse = q.map Prod.fst := by rw [pending.text, List.reverse_reverse]
  unfold Splitter.close stated?
  dsimp only
  rw [text]
  cases seen : q.find? fun c => !Text.isBlank c.1 with
  | none =>
    rw [find?_visible_eq_none_iff.1 seen]
    simp
  | some first =>
    have nonempty : Text.trim (q.map Prod.fst) ≠ [] := fun gone => by
      rw [find?_visible_eq_none_iff.2 gone] at seen
      cases seen
    rw [pending.line first seen]
    simp [nonempty]

theorem modifyHead_nil_append {α : Type} (pieces : List (List α)) :
    pieces.modifyHead ([] ++ ·) = pieces := by
  cases pieces <;> rfl

/-- What is found in the end are the statements that the pieces state, the first of them the one
that goes on with what is pending. -/
theorem found_foldl (pending : s.Pending q) (rest : List (Char × Nat)) :
    (rest.foldl Splitter.readAt s).close.found = s.found ++
      ((rest.splitOnP (·.1 == ';')).modifyHead (q ++ ·)).filterMap stated? := by
  induction rest generalizing s q with
  | nil =>
    rw [List.foldl_nil, pending.close]
    cases h : stated? q <;> simp [h]
  | cons c rest ih =>
    rw [List.foldl_cons, List.splitOnP_cons_eq_if_modifyHead]
    by_cases ends : c.1 = ';'
    · have step : s.readAt c = s.close := if_pos ends
      rw [step, ih (s := s.close) (q := []) ⟨rfl, nofun⟩, pending.close,
        if_pos (by simpa using ends), List.modifyHead_cons, List.append_nil, List.filterMap_cons,
        modifyHead_nil_append]
      cases stated? q <;> simp
    · have kept : (s.readAt c).found = s.found := by
        rw [Splitter.readAt, Splitter.read, if_neg ends]
      rw [ih (pending.read ends), kept, if_neg (by simpa using ends), List.modifyHead_modifyHead]
      simp [Function.comp_def]

end Reading

/-- The statements of a program are those that the pieces of its code state. -/
theorem statements_eq (source : Text) :
    statements source = ((code source).splitOnP (·.1 == ';')).filterMap stated? := by
  have start : (⟨[], 1, []⟩ : Splitter).Pending [] := ⟨rfl, nofun⟩
  have same : (((Text.lines source).zipIdx 1).flatMap fun (line, n) =>
      (Text.before ['/', '/'] line ++ [' ']).map (·, n)) = code source := by
    rw [code, codeLines, List.zipIdx_map, List.flatMap_map]
    rfl
  rw [statements, foldl_readLine_eq, found_foldl start, modifyHead_nil_append, same]
  rfl

/-! ## The texts of statements -/

/-- The code of a program as a text. -/
def joined (source : Text) : Text := (codeLines source).flatMap (· ++ [' '])

theorem map_fst_code (source : Text) : (code source).map Prod.fst = joined source := by
  have line (l : Text × Nat) : ((l.1 ++ [' ']).map (·, l.2)).map Prod.fst = l.1 ++ [' '] := by
    rw [List.map_map]
    exact List.map_id _
  rw [code, List.map_flatMap, joined]
  calc ((codeLines source).zipIdx 1).flatMap (fun l => ((l.1 ++ [' ']).map (·, l.2)).map Prod.fst)
      = ((codeLines source).zipIdx 1).flatMap fun l => l.1 ++ [' '] := by simp only [line]
    _ = (((codeLines source).zipIdx 1).map Prod.fst).flatMap (· ++ [' ']) := by
      rw [List.flatMap_map]
    _ = (codeLines source).flatMap (· ++ [' ']) := by rw [List.zipIdx_map_fst]

theorem splitOnP_map {α β : Type} (f : α → β) (p : β → Bool) (l : List α) :
    (l.map f).splitOnP p = (l.splitOnP (p ∘ f)).map (List.map f) := by
  induction l with
  | nil => rfl
  | cons a l ih =>
    rw [List.map_cons, List.splitOnP_cons_eq_if_modifyHead, List.splitOnP_cons_eq_if_modifyHead, ih]
    cases l.splitOnP (p ∘ f) <;> split_ifs <;> simp_all

theorem text_stated? (piece : List (Char × Nat)) : (stated? piece).map Statement.text =
    Option.guard (fun t => !t.isEmpty) (Text.trim (piece.map Prod.fst)) := by
  unfold stated?
  cases seen : piece.find? fun c => !Text.isBlank c.1 with
  | none =>
    rw [find?_visible_eq_none_iff.1 seen]
    rfl
  | some first =>
    have nonempty : Text.trim (piece.map Prod.fst) ≠ [] := fun gone => by
      rw [find?_visible_eq_none_iff.2 gone] at seen
      cases seen
    simp [Option.guard, nonempty]

/-- The texts of the statements are the pieces of the code, trimmed, without the blank ones. -/
theorem texts_eq (source : Text) : (statements source).map Statement.text =
    (((joined source).splitOnP (· == ';')).map Text.trim).filter fun t => !t.isEmpty := by
  rw [statements_eq, List.map_filterMap, ← map_fst_code, splitOnP_map, ← List.filterMap_eq_filter,
    List.map_map, List.filterMap_map]
  exact congrFun (congrArg List.filterMap (funext text_stated?)) _

end QubitTrace.Program
