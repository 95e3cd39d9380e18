import Mathlib
import QubitTrace.Proofs.Text.Pieces

/-! # Words and bytes

A blank between two texts keeps their words apart (`words_append_blank`), so visible words that are
joined by blanks are read back. A text can be cut at a byte where its encoding has a boundary
between two characters (`cutBytes?_eq_some_iff`), and nowhere else.
-/

namespace QubitTrace.Text
set_option autoImplicit false

/-! ## Words -/

section Words

variable {s w : Text}

theorem words_eq (s : Text) : words s = (s.splitOnP isBlank).filter fun w => !w.isEmpty := by
  rw [words, splitWhere_eq_splitOnP]

/-- A word is not empty and holds no white space. -/
theorem visible_of_mem_words (mem : w ∈ words s) : w ≠ [] ∧ ∀ c ∈ w, isBlank c = false := by
  rw [words_eq] at mem
  obtain ⟨listed, nonempty⟩ := List.mem_filter.1 mem
  exact ⟨by simpa using nonempty, not_of_mem_splitOnP listed⟩

theorem words_append_blank (s t : Text) : words (s ++ ' ' :: t) = words s ++ words t := by
  rw [words_eq, words_eq, words_eq, List.splitOnP_append_cons _ _ rfl, List.filter_append]

/-- A text of visible characters is one word. -/
theorem words_of_visible (nonempty : w ≠ []) (visible : ∀ c ∈ w, isBlank c = false) :
    words w = [w] := by
  rw [words_eq, List.splitOnP_eq_singleton visible]
  simpa using nonempty

theorem words_intercalate {ws : List Text}
    (visible : ∀ w ∈ ws, w ≠ [] ∧ ∀ c ∈ w, isBlank c = false) :
    words (List.intercalate [' '] ws) = ws := by
  induction ws with
  | nil => rfl
  | cons w ws ih =>
    obtain ⟨⟨nonempty, seen⟩, rest⟩ := List.forall_mem_cons.1 visible
    cases ws with
    | nil => rw [List.intercalate_singleton, words_of_visible nonempty seen]
    | cons w' ws =>
      rw [List.intercalate_cons_cons, List.append_assoc, List.singleton_append,
        words_append_blank, words_of_visible nonempty seen, ih rest]
      rfl

end Words

/-! ## Bytes -/

/-- The text cut `n` bytes behind its beginning, if it is as long and no character is cut. -/
def cutBytes? (n : Nat) : Text → Option (Text × Text)
  | [] => if n = 0 then some ([], []) else none
  | c :: s =>
    if n = 0 then some ([], c :: s)
    else if n < c.utf8Size then none
    else (cutBytes? (n - c.utf8Size) s).map fun (front, rest) => (c :: front, rest)

theorem cutBytes?_eq_some_iff {n : Nat} {s front rest : Text} : cutBytes? n s = some (front, rest) ↔
    front ++ rest = s ∧ (String.ofList front).utf8ByteSize = n := by
  induction s generalizing n front with
  | nil =>
    rw [cutBytes?, List.append_eq_nil_iff]
    constructor
    · intro cut
      split_ifs at cut with none
      cases cut
      exact ⟨⟨rfl, rfl⟩, none.symm⟩
    · rintro ⟨⟨rfl, rfl⟩, rfl⟩
      rfl
  | cons c s ih =>
    have size := c.utf8Size_pos
    rw [cutBytes?]
    constructor
    · intro cut
      split_ifs at cut with none inside
      · cases cut
        exact ⟨rfl, none.symm⟩
      · obtain ⟨⟨front', rest'⟩, later, same⟩ := Option.map_eq_some_iff.1 cut
        cases same
        obtain ⟨rfl, bytes⟩ := ih.1 later
        refine ⟨rfl, ?_⟩
        rw [String.ofList_cons, String.utf8ByteSize_append, String.utf8ByteSize_singleton, bytes]
        omega
    · rintro ⟨whole, rfl⟩
      cases front with
      | nil =>
        rw [List.nil_append] at whole
        rw [whole]
        rfl
      | cons d front =>
        obtain ⟨rfl, later⟩ := List.cons.inj whole
        rw [String.ofList_cons, String.utf8ByteSize_append, String.utf8ByteSize_singleton,
          if_neg (by omega), if_neg (by omega), Nat.add_sub_cancel_left, ih.2 ⟨later, rfl⟩]
        rfl

end QubitTrace.Text
