import Mathlib
import QubitTrace.Text.Cut

/-! # Trimmed, cut and split texts

What is visible at its two ends is not trimmed, and a text is cut at a character where that
character stands first. The pieces of a text that is split stand in it and hold no separator.
-/

namespace QubitTrace.Text
set_option autoImplicit false

/-! ## White space -/

/-- The printing characters of ASCII are visible. -/
theorem isBlank_of_ascii {c : Char} (low : 0x20 < c.toNat) (high : c.toNat < 0x7F) :
    isBlank c = false := by
  simp only [isBlank, blankRanges, List.any_cons, List.any_nil, Bool.or_false, Bool.or_eq_false_iff,
    Bool.and_eq_false_iff, decide_eq_false_iff_not]
  omega

theorem trimLeft_of_head {s : Text} (visible : ∀ c ∈ s.head?, isBlank c = false) :
    trimLeft s = s := by
  cases s with
  | nil => rfl
  | cons c s => exact List.dropWhile_cons_of_neg (by simpa using visible c rfl)

theorem trimRight_of_last {s : Text} (visible : ∀ c ∈ s.getLast?, isBlank c = false) :
    trimRight s = s := by
  have reversed : trimLeft s.reverse = s.reverse :=
    trimLeft_of_head (by rwa [List.head?_reverse])
  rw [trimRight, ← trimLeft, reversed, List.reverse_reverse]

/-- A text whose ends are visible is not trimmed. -/
theorem trim_of_ends {s : Text} (first : ∀ c ∈ s.head?, isBlank c = false)
    (last : ∀ c ∈ s.getLast?, isBlank c = false) : trim s = s := by
  rw [trim, trimLeft_of_head first, trimRight_of_last last]

theorem trim_of_visible {s : Text} (visible : ∀ c ∈ s, isBlank c = false) : trim s = s :=
  trim_of_ends (fun c mem => visible c (List.mem_of_mem_head? mem))
    fun c mem => visible c (List.mem_of_getLast? mem)

theorem trim_cons_of_blank {c : Char} (blank : isBlank c = true) (s : Text) :
    trim (c :: s) = trim s := by
  rw [trim, trim, trimLeft, List.dropWhile_cons_of_pos blank]
  rfl

/-- Blanks around a text that is visible at its ends are trimmed. -/
theorem trim_concat_of_blank {c : Char} (blank : isBlank c = true) {s : Text} (nonempty : s ≠ [])
    (first : ∀ d ∈ s.head?, isBlank d = false) : trim (s ++ [c]) = trim s := by
  have kept : ∀ d ∈ (s ++ [c]).head?, isBlank d = false := by
    rwa [List.head?_append_of_ne_nil s nonempty]
  rw [trim, trim, trimLeft_of_head kept, trimLeft_of_head first, trimRight, List.reverse_append,
    List.reverse_singleton, List.singleton_append, List.dropWhile_cons_of_pos blank]
  rfl

theorem trim_ne_nil {c : Char} (visible : isBlank c = false) (s : Text) : trim (c :: s) ≠ [] := by
  have kept : trimLeft (c :: s) = c :: s := List.dropWhile_cons_of_neg (by simp [visible])
  rw [trim, kept, trimRight]
  intro gone
  have blank := List.dropWhile_eq_nil_iff.1 (List.reverse_eq_nil_iff.1 gone) c (by simp)
  rw [visible] at blank
  cases blank

/-- Nothing is left of a text when it is trimmed only if it is white space. -/
theorem trim_eq_nil_iff {s : Text} : trim s = [] ↔ ∀ c ∈ s, isBlank c = true := by
  constructor
  · intro gone
    cases front : trimLeft s with
    | nil => exact List.dropWhile_eq_nil_iff.1 front
    | cons c t =>
      have visible : isBlank c = false := by
        have first := List.head?_dropWhile_not isBlank s
        rw [← trimLeft, front] at first
        simpa using first
      have kept : trimLeft (c :: t) = c :: t := List.dropWhile_cons_of_neg (by simp [visible])
      rw [trim, front, ← kept, ← trim] at gone
      exact absurd gone (trim_ne_nil visible t)
  · intro blank
    rw [trim, trimLeft, List.dropWhile_eq_nil_iff.2 blank]
    rfl

theorem prefix_trim (s : Text) : trim s <+: trimLeft s := by
  rw [trim, trimRight, ← List.reverse_suffix, List.reverse_reverse]
  exact List.dropWhile_suffix isBlank

theorem infix_trim (s : Text) : trim s <:+: s :=
  (prefix_trim s).isInfix.trans (List.dropWhile_suffix isBlank).isInfix

theorem mem_trimLeft {c : Char} {s : Text} (mem : c ∈ s) (visible : isBlank c = false) :
    c ∈ trimLeft s := by
  have whole := List.takeWhile_append_dropWhile (p := isBlank) (l := s)
  rw [← whole, List.mem_append] at mem
  refine mem.resolve_left fun front => ?_
  have blank := List.mem_takeWhile_imp front
  rw [visible] at blank
  cases blank

/-- Only blanks are trimmed. -/
theorem mem_trim {c : Char} {s : Text} (mem : c ∈ s) (visible : isBlank c = false) :
    c ∈ trim s := by
  have kept : c ∈ trimLeft (trimLeft s).reverse :=
    mem_trimLeft (List.mem_reverse.2 (mem_trimLeft mem visible)) visible
  exact List.mem_reverse.2 kept

theorem isBlank_of_head_trimLeft {s : Text} {c : Char} (here : c ∈ (trimLeft s).head?) :
    isBlank c = false := by
  have first := List.head?_dropWhile_not isBlank s
  rw [← trimLeft, here] at first
  simpa using first

/-- A trimmed text is visible at its ends. -/
theorem ends_of_trim (s : Text) : (∀ c ∈ (trim s).head?, isBlank c = false) ∧
    ∀ c ∈ (trim s).getLast?, isBlank c = false := by
  have last (c : Char) (here : c ∈ (trim s).getLast?) : isBlank c = false := by
    rw [trim, trimRight, List.getLast?_reverse] at here
    exact isBlank_of_head_trimLeft here
  refine ⟨fun c here => ?_, last⟩
  obtain ⟨t, whole⟩ := prefix_trim s
  refine isBlank_of_head_trimLeft (s := s) ?_
  rw [← whole, List.head?_append, here]
  rfl

theorem trim_trim (s : Text) : trim (trim s) = trim s :=
  trim_of_ends (ends_of_trim s).1 (ends_of_trim s).2

/-! ## Cutting -/

section Cut

variable {c : Char} {s : Text}

theorem after?_of_ne {d : Char} (ne : c ≠ d) (pattern s : Text) :
    after? (c :: pattern) (d :: s) = none :=
  if_neg ne

theorem after?_append (pattern t : Text) : after? pattern (pattern ++ t) = some t := by
  induction pattern with
  | nil => rfl
  | cons p pattern ih => exact (if_pos rfl).trans ih

/-- A text is cut at the first place where the first character of the pattern stands, if the rest
of the pattern follows there. -/
theorem cut?_append (free : c ∉ s) (pattern t : Text) :
    cut? (c :: pattern) (s ++ c :: (pattern ++ t)) = some (s, t) := by
  induction s with
  | nil =>
    rw [List.nil_append, cut?, ← List.cons_append, after?_append]
  | cons d s ih =>
    obtain ⟨ne, rest⟩ := not_or.1 (free ∘ List.mem_cons.2)
    rw [List.cons_append, cut?, after?_of_ne ne, ih rest]
    rfl

/-- A pattern does not stand where its first character does not. -/
theorem cut?_eq_none (free : c ∉ s) (pattern : Text) : cut? (c :: pattern) s = none := by
  induction s with
  | nil => rfl
  | cons d s ih =>
    obtain ⟨ne, rest⟩ := not_or.1 (free ∘ List.mem_cons.2)
    rw [cut?, after?_of_ne ne, ih rest]
    rfl

/-- A text is cut at the first place where the character stands. -/
theorem cut?_singleton (free : c ∉ s) (t : Text) : cut? [c] (s ++ c :: t) = some (s, t) :=
  cut?_append free [] t

/-- The front of a text that is cut at a character does not hold it. -/
theorem cut?_singleton_eq_some_iff {a t : Text} :
    cut? [c] s = some (a, t) ↔ c ∉ a ∧ s = a ++ c :: t := by
  constructor
  · intro cut
    by_cases mem : c ∈ s
    · obtain ⟨b, u, rfl, free⟩ := List.eq_append_cons_of_mem mem
      rw [cut?_singleton free] at cut
      cases cut
      exact ⟨free, rfl⟩
    · rw [cut?_eq_none mem] at cut
      cases cut
  · rintro ⟨free, rfl⟩
    exact cut?_singleton free t

theorem withoutLast?_concat (c : Char) (s : Text) : withoutLast? c (s ++ [c]) = some s := by
  simp [withoutLast?]

theorem withoutLast?_eq_some_iff {t : Text} : withoutLast? c s = some t ↔ s = t ++ [c] := by
  constructor
  · intro cut
    unfold withoutLast? at cut
    split_ifs at cut with last
    obtain ⟨u, rfl⟩ := List.getLast?_eq_some_iff.1 last
    rw [List.dropLast_concat] at cut
    cases cut
    rfl
  · rintro rfl
    exact withoutLast?_concat c t

end Cut

/-! ## Splitting -/

section Split

variable {p : Char → Bool} {s piece : Text}

theorem splitWhere_eq_splitOnP (p : Char → Bool) (s : Text) : splitWhere p s = s.splitOnP p := by
  induction s with
  | nil => rfl
  | cons c s ih =>
    rw [splitWhere, ih, List.splitOnP_cons_eq_if_modifyHead]
    obtain ⟨piece, pieces, shape⟩ := List.exists_cons_of_ne_nil (List.splitOnP_ne_nil p s)
    rw [shape]
    rfl

/-- The first piece is a front of the text. -/
theorem prefix_of_splitOnP {pieces : List Text}
    (cut : s.splitOnP p = piece :: pieces) : piece <+: s := by
  induction s generalizing piece pieces with
  | nil =>
    cases cut
    exact List.prefix_refl []
  | cons c s ih =>
    rw [List.splitOnP_cons_eq_if_modifyHead] at cut
    split_ifs at cut
    · cases cut
      exact List.nil_prefix
    · obtain ⟨first, others, shape⟩ := List.exists_cons_of_ne_nil (List.splitOnP_ne_nil p s)
      rw [shape] at cut
      cases cut
      exact List.cons_prefix_cons.2 ⟨rfl, ih shape⟩

/-- The pieces of a text stand in it. -/
theorem infix_of_mem_splitOnP (mem : piece ∈ s.splitOnP p) : piece <:+: s := by
  induction s with
  | nil =>
    rw [List.splitOnP_nil, List.mem_singleton] at mem
    rw [mem]
  | cons c s ih =>
    obtain ⟨first, others, shape⟩ := List.exists_cons_of_ne_nil (List.splitOnP_ne_nil p (c :: s))
    rw [shape] at mem
    rcases List.mem_cons.1 mem with rfl | later
    · exact (prefix_of_splitOnP shape).isInfix
    · -- the pieces behind the first are pieces of the rest
      refine List.infix_cons (ih ?_)
      rw [List.splitOnP_cons_eq_if_modifyHead] at shape
      split_ifs at shape
      · rwa [(List.cons.inj shape).2]
      · obtain ⟨first', others', shape'⟩ := List.exists_cons_of_ne_nil (List.splitOnP_ne_nil p s)
        rw [shape'] at shape ⊢
        rw [List.modifyHead_cons] at shape
        rw [(List.cons.inj shape).2]
        exact List.mem_cons_of_mem _ later

/-- The pieces of a text hold no separator. -/
theorem not_of_mem_splitOnP (mem : piece ∈ s.splitOnP p) : ∀ c ∈ piece, p c = false := by
  induction s generalizing piece with
  | nil =>
    rw [List.splitOnP_nil, List.mem_singleton] at mem
    rw [mem]
    exact fun c inside => absurd inside List.not_mem_nil
  | cons d s ih =>
    rw [List.splitOnP_cons_eq_if_modifyHead] at mem
    split_ifs at mem with cut
    · rcases List.mem_cons.1 mem with rfl | later
      · exact fun c inside => absurd inside List.not_mem_nil
      · exact ih later
    · obtain ⟨first, others, shape⟩ := List.exists_cons_of_ne_nil (List.splitOnP_ne_nil p s)
      rw [shape, List.modifyHead_cons] at mem
      rw [shape] at ih
      rcases List.mem_cons.1 mem with rfl | later
      · exact List.forall_mem_cons.2 ⟨by simpa using cut, ih List.mem_cons_self⟩
      · exact ih (List.mem_cons_of_mem _ later)

end Split

end QubitTrace.Text
