import Mathlib
import QubitTrace.Proofs.Text.Pieces

/-! # Tidied texts

`tidy` makes a single blank of every stretch of white space. What reads a text for its visible
characters, and white space only for where it is, takes a tidied text to the tidied result:
trimming, cutting at visible characters, and reading a front of visible characters.
-/

namespace QubitTrace.Text
set_option autoImplicit false

/-- Puts a character in front of a tidied text; white space adds a blank, unless there is one. -/
def push (c : Char) (s : Text) : Text :=
  if isBlank c then if s.head? = some ' ' then s else ' ' :: s else c :: s

/-- The text with a single blank for every stretch of white space. -/
def tidy (s : Text) : Text := s.foldr push []

section Push

variable {c d : Char} {s t : Text}

theorem ne_of_blank (blank : isBlank c = true) (visible : isBlank d = false) : c ≠ d := by
  rintro rfl
  rw [blank] at visible
  cases visible

@[simp] theorem tidy_nil : tidy [] = [] := rfl

@[simp] theorem tidy_cons (c : Char) (s : Text) : tidy (c :: s) = push c (tidy s) := rfl

theorem push_of_visible (visible : isBlank c = false) (s : Text) : push c s = c :: s := by
  rw [push, visible, if_neg Bool.false_ne_true]

/-- White space in front of a text is a blank of its own, or goes into the one that is there. -/
theorem push_of_blank (blank : isBlank c = true) (s : Text) :
    push c s = s ∧ s.head? = some ' ' ∨ push c s = ' ' :: s ∧ s.head? ≠ some ' ' := by
  rw [push, if_pos blank]
  by_cases head : s.head? = some ' '
  · exact Or.inl ⟨if_pos head, head⟩
  · exact Or.inr ⟨if_neg head, head⟩

theorem push_push_blank (blank : isBlank c = true) (s : Text) :
    push c (push ' ' s) = push ' ' s := by
  have first : (push ' ' s).head? = some ' ' := by
    rcases push_of_blank (c := ' ') rfl s with ⟨same, head⟩ | ⟨added, -⟩
    · rw [same, head]
    · rw [added, List.head?_cons]
  rw [push, if_pos blank, if_pos first]

theorem push_congr_blank (blank : isBlank c = true) (s : Text) : push c s = push ' ' s := by
  have space : isBlank ' ' = true := rfl
  rw [push, push, blank, space, if_pos rfl, if_pos rfl]

theorem push_append_visible (visible : isBlank d = false) (c : Char) (s t : Text) :
    push c (s ++ d :: t) = push c s ++ d :: t := by
  have other : d ≠ ' ' := (ne_of_blank rfl visible).symm
  unfold push
  cases s with
  | nil => split_ifs <;> simp_all
  | cons e s => split_ifs <;> simp_all

end Push

/-! ## Texts put together -/

section Append

variable {c : Char} {s t : Text}

theorem tidy_append (s t : Text) : tidy (s ++ t) = s.foldr push (tidy t) := List.foldr_append

theorem foldr_push_tidy (s t : Text) : (tidy s).foldr push t = s.foldr push t := by
  induction s with
  | nil => rfl
  | cons c s ih =>
    rw [tidy_cons, List.foldr_cons, ← ih]
    cases blank : isBlank c with
    | false => rw [push_of_visible blank, List.foldr_cons]
    | true =>
      rcases push_of_blank blank (tidy s) with ⟨same, head⟩ | ⟨added, -⟩
      · obtain ⟨u, shape⟩ := List.head?_eq_some_iff.1 head
        rw [same, shape, List.foldr_cons, push_push_blank blank]
      · rw [added, List.foldr_cons, push_congr_blank blank]

/-- Tidied texts are the same when their parts are. -/
theorem tidy_append_congr {s s' t t' : Text} (front : tidy s = tidy s') (back : tidy t = tidy t') :
    tidy (s ++ t) = tidy (s' ++ t') := by
  rw [tidy_append, tidy_append, ← foldr_push_tidy s, ← foldr_push_tidy s', front, back]

theorem tidy_cons_congr_blank {d : Char} (here : isBlank c = true) (there : isBlank d = true)
    (same : tidy s = tidy t) : tidy (c :: s) = tidy (d :: t) := by
  rw [tidy_cons, tidy_cons, push_congr_blank here, push_congr_blank there, same]

/-- A visible character keeps apart what stands before and behind it. -/
theorem tidy_append_visible (visible : isBlank c = false) (s t : Text) :
    tidy (s ++ c :: t) = tidy s ++ c :: tidy t := by
  rw [tidy_append, tidy_cons, push_of_visible visible]
  induction s with
  | nil => rfl
  | cons d s ih => rw [List.foldr_cons, ih, push_append_visible visible, tidy_cons]

theorem tidy_of_visible (visible : ∀ c ∈ s, isBlank c = false) : tidy s = s := by
  induction s with
  | nil => rfl
  | cons c s ih =>
    obtain ⟨first, rest⟩ := List.forall_mem_cons.1 visible
    rw [tidy_cons, ih rest, push_of_visible first]

theorem any_isBlank_tidy (s : Text) : (tidy s).any isBlank = s.any isBlank := by
  induction s with
  | nil => rfl
  | cons c s ih =>
    rw [tidy_cons, List.any_cons, ← ih]
    cases blank : isBlank c with
    | false => rw [push_of_visible blank, List.any_cons, blank]
    | true =>
      rcases push_of_blank blank (tidy s) with ⟨same, head⟩ | ⟨added, -⟩
      · obtain ⟨u, shape⟩ := List.head?_eq_some_iff.1 head
        rw [same, shape]
        rfl
      · rw [added]
        rfl

/-- A text without white space is without it when tidied, and only such a text is. -/
theorem visible_tidy_iff {s : Text} :
    (∀ c ∈ tidy s, isBlank c = false) ↔ ∀ c ∈ s, isBlank c = false := by
  simpa only [List.any_eq_false, Bool.not_eq_true] using
    Iff.of_eq (congrArg (· = false) (any_isBlank_tidy s))

theorem tidy_eq_iff {s t : Text} (visible : ∀ c ∈ t, isBlank c = false) :
    tidy s = t ↔ s = t := by
  constructor
  · rintro rfl
    exact (tidy_of_visible (visible_tidy_iff.1 visible)).symm
  · rintro rfl
    exact tidy_of_visible visible

/-- What treats all texts with white space alike treats a tidied text as it does the text. -/
theorem apply_tidy {β : Type} {f : Text → β} {b : β}
    (alike : ∀ s, (∃ c ∈ s, isBlank c = true) → f s = b) (s : Text) : f (tidy s) = f s := by
  by_cases visible : ∀ c ∈ s, isBlank c = false
  · rw [tidy_of_visible visible]
  · have blank {s : Text} (visible : ¬ ∀ c ∈ s, isBlank c = false) : ∃ c ∈ s, isBlank c = true := by
      simpa using visible
    rw [alike s (blank visible), alike _ (blank fun tidied => visible (visible_tidy_iff.1 tidied))]

end Append

/-! ## Fronts and ends -/

section Ends

variable {c : Char} {s : Text} {p : Char → Bool}

theorem exists_push_blank (blank : isBlank c = true) (s : Text) : ∃ u, push c s = ' ' :: u := by
  rcases push_of_blank blank s with ⟨same, head⟩ | ⟨added, -⟩
  · rw [same]
    exact List.head?_eq_some_iff.1 head
  · exact ⟨s, added⟩

/-- A front of visible characters is read off a tidied text as it is off the text. -/
theorem span_tidy (seen : ∀ c, p c = true → isBlank c = false) (s : Text) :
    (tidy s).takeWhile p = s.takeWhile p ∧ (tidy s).dropWhile p = tidy (s.dropWhile p) := by
  have space : ¬ p ' ' = true := fun h => absurd (seen ' ' h) (by decide)
  induction s with
  | nil => exact ⟨rfl, rfl⟩
  | cons c s ih =>
    by_cases taken : p c = true
    · rw [tidy_cons, push_of_visible (seen c taken), List.takeWhile_cons_of_pos taken,
        List.takeWhile_cons_of_pos taken, List.dropWhile_cons_of_pos taken,
        List.dropWhile_cons_of_pos taken, ih.1]
      exact ⟨rfl, ih.2⟩
    · rw [List.takeWhile_cons_of_neg taken, List.dropWhile_cons_of_neg taken, tidy_cons]
      cases blank : isBlank c with
      | false =>
        rw [push_of_visible blank]
        exact ⟨List.takeWhile_cons_of_neg taken, List.dropWhile_cons_of_neg taken⟩
      | true =>
        obtain ⟨u, shape⟩ := exists_push_blank blank (tidy s)
        rw [shape]
        exact ⟨List.takeWhile_cons_of_neg space, List.dropWhile_cons_of_neg space⟩

theorem head?_tidy (visible : isBlank c = false) :
    (tidy s).head? = some c ↔ s.head? = some c := by
  cases s with
  | nil => rfl
  | cons d s =>
    cases blank : isBlank d with
    | false => rw [tidy_cons, push_of_visible blank, List.head?_cons, List.head?_cons]
    | true =>
      obtain ⟨u, shape⟩ := exists_push_blank blank (tidy s)
      rw [tidy_cons, shape, List.head?_cons, List.head?_cons]
      refine iff_of_false ?_ ?_
      · rintro ⟨⟩
        cases visible
      · rintro ⟨⟩
        rw [blank] at visible
        cases visible

theorem trimLeft_tidy (s : Text) : trimLeft (tidy s) = tidy (trimLeft s) := by
  induction s with
  | nil => rfl
  | cons c s ih =>
    unfold trimLeft at ih ⊢
    cases blank : isBlank c with
    | false =>
      rw [tidy_cons, push_of_visible blank, List.dropWhile_cons_of_neg (by simp [blank]),
        List.dropWhile_cons_of_neg (by simp [blank]), tidy_cons, push_of_visible blank]
    | true =>
      rw [tidy_cons, List.dropWhile_cons_of_pos blank, ← ih]
      rcases push_of_blank blank (tidy s) with ⟨same, -⟩ | ⟨added, -⟩
      · rw [same]
      · rw [added, List.dropWhile_cons_of_pos rfl]

/-- Characters are put in front of a text and behind it in either order. -/
theorem push_reverse_push (c d : Char) (s : Text) :
    push d (push c s.reverse).reverse = (push c (push d s).reverse).reverse := by
  cases front : isBlank d with
  | false =>
    rw [push_of_visible front, push_of_visible front, List.reverse_cons,
      push_append_visible front c, List.reverse_append]
    rfl
  | true =>
    cases back : isBlank c with
    | false =>
      rw [push_of_visible back, push_of_visible back, List.reverse_cons, List.reverse_cons,
        List.reverse_reverse, List.reverse_reverse, push_append_visible back]
    | true =>
      cases s with
      | nil => simp [push, front, back]
      | cons e s =>
        by_cases first : (e :: s).head? = some ' ' <;>
          by_cases last : (e :: s).reverse.head? = some ' ' <;>
          simp_all [push]

theorem tidy_concat (s : Text) (c : Char) :
    tidy (s ++ [c]) = (push c (tidy s).reverse).reverse := by
  induction s with
  | nil =>
    change push c [] = (push c []).reverse
    unfold push
    split_ifs <;> rfl
  | cons d s ih => rw [List.cons_append, tidy_cons, ih, push_reverse_push, tidy_cons]

theorem tidy_reverse (s : Text) : tidy s.reverse = (tidy s).reverse := by
  induction s with
  | nil => rfl
  | cons c s ih => rw [List.reverse_cons, tidy_concat, ih, List.reverse_reverse, tidy_cons]

theorem trim_tidy (s : Text) : trim (tidy s) = tidy (trim s) := by
  have right (s : Text) : trimRight (tidy s) = tidy (trimRight s) := by
    rw [trimRight, trimRight, ← tidy_reverse, ← trimLeft, trimLeft_tidy, tidy_reverse, trimLeft]
  rw [trim, trim, trimLeft_tidy, right]

theorem strip_tidy (visible : isBlank c = false) (s : Text) :
    strip c (tidy s) = tidy (strip c s) := by
  have seen (d : Char) (same : (d == c) = true) : isBlank d = false := by
    rwa [eq_of_beq same]
  rw [strip, strip, (span_tidy seen s).2, ← tidy_reverse, (span_tidy seen _).2, tidy_reverse]

theorem isBlankText_tidy (s : Text) : isBlankText (tidy s) = isBlankText s := by
  unfold isBlankText
  induction s with
  | nil => rfl
  | cons c s ih =>
    rw [tidy_cons, List.all_cons, ← ih]
    cases blank : isBlank c with
    | false => rw [push_of_visible blank, List.all_cons, blank]
    | true =>
      rcases push_of_blank blank (tidy s) with ⟨same, -⟩ | ⟨added, -⟩
      · rw [same, Bool.true_and]
      · rw [added]
        rfl

theorem squeeze_tidy (s : Text) : squeeze (tidy s) = squeeze s := by
  unfold squeeze
  induction s with
  | nil => rfl
  | cons c s ih =>
    rw [tidy_cons]
    cases blank : isBlank c with
    | false =>
      rw [push_of_visible blank, List.filter_cons_of_pos (by simp [blank]),
        List.filter_cons_of_pos (by simp [blank]), ih]
    | true =>
      rw [List.filter_cons_of_neg (by simp [blank]), ← ih]
      rcases push_of_blank blank (tidy s) with ⟨same, -⟩ | ⟨added, -⟩
      · rw [same]
      · rw [added]
        rfl

theorem withoutLast?_tidy (visible : isBlank c = false) (s : Text) :
    withoutLast? c (tidy s) = (withoutLast? c s).map tidy := by
  by_cases last : s.getLast? = some c
  · obtain ⟨t, rfl⟩ := List.getLast?_eq_some_iff.1 last
    rw [tidy_append_visible visible, tidy_nil, withoutLast?_concat, withoutLast?_concat,
      Option.map_some]
  · have other : ¬ (tidy s).getLast? = some c := by
      rwa [← List.head?_reverse, ← tidy_reverse, head?_tidy visible, List.head?_reverse]
    rw [withoutLast?, withoutLast?, if_neg last, if_neg other, Option.map_none]

end Ends

/-! ## Cuts -/

section Cut

variable {pattern : Text} (visible : ∀ c ∈ pattern, isBlank c = false)
include visible

theorem after?_tidy (s : Text) : after? pattern (tidy s) = (after? pattern s).map tidy := by
  induction pattern generalizing s with
  | nil => rfl
  | cons p pattern ih =>
    obtain ⟨seen, rest⟩ := List.forall_mem_cons.1 visible
    cases s with
    | nil => rfl
    | cons c s =>
      cases blank : isBlank c with
      | false =>
        rw [tidy_cons, push_of_visible blank, after?, after?, ih rest]
        split_ifs <;> rfl
      | true =>
        have other {d : Char} (blank : isBlank d = true) : p ≠ d := (ne_of_blank blank seen).symm
        obtain ⟨u, shape⟩ := exists_push_blank blank (tidy s)
        rw [tidy_cons, shape, after?_of_ne (other rfl), after?_of_ne (other blank), Option.map_none]

variable (nonempty : pattern ≠ [])
include nonempty

theorem cut?_nil : cut? pattern [] = none := by
  cases pattern with
  | nil => exact absurd rfl nonempty
  | cons p pattern => rfl

theorem cut?_of_blank {c : Char} (blank : isBlank c = true) (s : Text) :
    cut? pattern (c :: s) = (cut? pattern s).map (Prod.map (c :: ·) id) := by
  obtain ⟨p, pattern, rfl⟩ := List.exists_cons_of_ne_nil nonempty
  rw [cut?, after?_of_ne (ne_of_blank blank (visible p List.mem_cons_self)).symm]
  rfl

/-- What stands before the cut is a front of the text. -/
theorem prefix_of_cut? {s a b : Text} (cut : cut? pattern s = some (a, b)) : a <+: s := by
  induction s generalizing a with
  | nil =>
    rw [cut?_nil visible nonempty] at cut
    cases cut
  | cons c s ih =>
    rw [cut?] at cut
    split at cut
    · cases cut
      exact List.nil_prefix
    · obtain ⟨⟨a', b'⟩, rest, same⟩ := Option.map_eq_some_iff.1 cut
      cases same
      exact List.cons_prefix_cons.2 ⟨rfl, ih rest⟩

/-- White space in front of a text goes in front of what stands before the cut. -/
theorem cut?_push {c : Char} (blank : isBlank c = true) (s : Text) :
    cut? pattern (push c s) = (cut? pattern s).map (Prod.map (push c) id) := by
  rcases push_of_blank blank s with ⟨kept, head⟩ | ⟨added, head⟩
  · obtain ⟨u, rfl⟩ := List.head?_eq_some_iff.1 head
    rw [kept, cut?_of_blank visible nonempty rfl, Option.map_map]
    refine Option.map_congr fun x _ => ?_
    have goes : push c (' ' :: x.1) = ' ' :: x.1 := by rw [push, if_pos blank]; rfl
    exact Prod.ext goes.symm rfl
  · rw [added, cut?_of_blank visible nonempty rfl]
    refine Option.map_congr fun x here => ?_
    obtain ⟨t, whole⟩ := prefix_of_cut? (a := x.1) (b := x.2) visible nonempty here
    have apart : ¬ x.1.head? = some ' ' := fun first => head (by
      rw [← whole, List.head?_append, first]
      rfl)
    have added : push c x.1 = ' ' :: x.1 := by rw [push, if_pos blank, if_neg apart]
    exact Prod.ext added.symm rfl

/-- Texts are cut at visible characters when tidied as they are before. -/
theorem cut?_tidy (s : Text) :
    cut? pattern (tidy s) = (cut? pattern s).map (Prod.map tidy tidy) := by
  induction s with
  | nil => rw [tidy_nil, cut?_nil visible nonempty, Option.map_none]
  | cons c s ih =>
    cases blank : isBlank c with
    | false =>
      have front := after?_tidy visible (c :: s)
      rw [tidy_cons, push_of_visible blank] at front ⊢
      rw [cut?, cut?, front, ih]
      cases after? pattern (c :: s) with
      | some rest => rfl
      | none =>
        dsimp only [Option.map_none]
        rw [Option.map_map, Option.map_map]
        refine Option.map_congr fun x _ => ?_
        dsimp only [Function.comp_apply, Prod.map]
        rw [tidy_cons, push_of_visible blank]
    | true =>
      rw [tidy_cons, cut?_push visible nonempty blank, ih, cut?_of_blank visible nonempty blank,
        Option.map_map, Option.map_map, Prod.map_comp_map, Prod.map_comp_map]
      rfl

end Cut

/-! ## Pieces -/

section Pieces

variable {c sep : Char}

theorem map_tidy_modifyHead (c : Char) (pieces : List Text) :
    (pieces.modifyHead (c :: ·)).map tidy = (pieces.map tidy).modifyHead (push c) := by
  cases pieces <;> rfl

/-- Where pieces are cut off from the front, and a blank goes into the first of them, white space
in front of the text goes in front of the first piece. -/
theorem modifyHead_push {cut : Text → List Text} (nonempty : ∀ s, cut s ≠ [])
    (front : ∀ {s piece pieces}, cut s = piece :: pieces → piece <+: s)
    (space : ∀ s, cut (' ' :: s) = (cut s).modifyHead (' ' :: ·)) (blank : isBlank c = true)
    (s : Text) : cut (push c s) = (cut s).modifyHead (push c) := by
  rcases push_of_blank blank s with ⟨kept, head⟩ | ⟨added, head⟩
  · obtain ⟨u, rfl⟩ := List.head?_eq_some_iff.1 head
    obtain ⟨piece, pieces, shape⟩ := List.exists_cons_of_ne_nil (nonempty u)
    rw [kept, space, shape, List.modifyHead_cons, List.modifyHead_cons, push, if_pos blank,
      List.head?_cons, if_pos rfl]
  · obtain ⟨piece, pieces, shape⟩ := List.exists_cons_of_ne_nil (nonempty s)
    obtain ⟨t, whole⟩ := front shape
    have apart : ¬ piece.head? = some ' ' := fun first => head (by
      rw [← whole, List.head?_append, first]
      rfl)
    rw [added, space, shape, List.modifyHead_cons, List.modifyHead_cons, push, if_pos blank,
      if_neg apart]

/-- Texts are split at visible characters when tidied as they are before. -/
theorem splitOnP_tidy (visible : isBlank sep = false) (s : Text) :
    (tidy s).splitOnP (· == sep) = (s.splitOnP (· == sep)).map tidy := by
  have goes {c : Char} (blank : isBlank c = true) (s : Text) :
      (c :: s).splitOnP (· == sep) = (s.splitOnP (· == sep)).modifyHead (c :: ·) := by
    have other : ¬ (c == sep) = true := fun same => ne_of_blank blank visible (eq_of_beq same)
    rw [List.splitOnP_cons_eq_if_modifyHead, if_neg other]
  induction s with
  | nil => rfl
  | cons c s ih =>
    rw [tidy_cons]
    cases blank : isBlank c with
    | false =>
      rw [push_of_visible blank, List.splitOnP_cons_eq_if_modifyHead,
        List.splitOnP_cons_eq_if_modifyHead, ih]
      split_ifs
      · rfl
      · rw [map_tidy_modifyHead]
        exact congrArg (List.modifyHead · _) (funext fun t => (push_of_visible blank t).symm)
    | true =>
      rw [modifyHead_push (List.splitOnP_ne_nil _) prefix_of_splitOnP (goes rfl) blank, ih,
        goes blank, map_tidy_modifyHead]

end Pieces

end QubitTrace.Text
