import Mathlib
import QubitTrace.Proofs.Program.Spacing

/-! # Balanced parentheses

The parenthesis that is found to close one opened before the text is the one with a balanced text
before it (`closing?_eq_some_iff`), and there is no other (`ClosedAt.unique`). The parts of a list
make the text again when they are joined (`intercalate_splitTopLevel`). They are cut at the
separators before which every opened parenthesis is closed (`mem_cuts_splitTopLevel`), whatever the
text, and so in a balanced text at those outside all parentheses
(`mem_cuts_splitTopLevel_of_balanced`).

Both scanners count. Their counters are met in one lemma each, `closingFrom_eq_some_iff` and
`depthAfter_le_iff`; everything else speaks of the parentheses in a text.
-/

namespace QubitTrace.Program
set_option autoImplicit false

variable {depth i j : Nat} {sep : Char} {s p q : Text}

/-! ## Balance -/

/-- As many parentheses close as open, and never more in any front of the text. -/
structure Balanced (s : Text) : Prop where
  total : s.count ')' = s.count '('
  never : ∀ p, p <+: s → p.count ')' ≤ p.count '('

instance (s : Text) : Decidable (Balanced s) :=
  decidable_of_iff
    (s.count ')' = s.count '(' ∧ ∀ p ∈ s.inits, p.count ')' ≤ p.count '(')
    ⟨fun h => ⟨h.1, fun p front => h.2 p ((List.mem_inits p s).2 front)⟩,
      fun h => ⟨h.total, fun p listed => h.never p ((List.mem_inits p s).1 listed)⟩⟩

/-- At position `i` a parenthesis closes, and the text before it is balanced. -/
def ClosedAt (s : Text) (i : Nat) : Prop := s[i]? = some ')' ∧ Balanced (s.take i)

instance (s : Text) (i : Nat) : Decidable (ClosedAt s i) := instDecidableAnd

theorem ClosedAt.lt_length (h : ClosedAt s i) : i < s.length :=
  (List.getElem?_eq_some_iff.1 h.1).1

theorem ClosedAt.eq_append (h : ClosedAt s i) : s = s.take i ++ ')' :: s.drop (i + 1) := by
  obtain ⟨inside, same⟩ := List.getElem?_eq_some_iff.1 h.1
  rw [← same, List.cons_getElem_drop_succ, List.take_append_drop]

/-- Up to its end, a text with a parenthesis that closes closes one more than it opens. -/
theorem ClosedAt.count_take (h : ClosedAt s i) :
    (s.take (i + 1)).count ')' = (s.take (i + 1)).count '(' + 1 := by
  obtain ⟨here, balanced⟩ := h
  rw [List.take_add_one, here, List.count_append, List.count_append, balanced.total]
  rfl

/-- What stands at the end of a balanced text opens no more parentheses than it closes. -/
theorem Balanced.count_le_of_suffix (balanced : Balanced s) (back : q <:+ s) :
    q.count '(' ≤ q.count ')' := by
  obtain ⟨p, rfl⟩ := back
  have total := balanced.total
  have fronts := balanced.never p (List.prefix_append p q)
  rw [List.count_append, List.count_append] at total
  omega

/-- No front of a balanced text has a parenthesis that closes one opened before it. -/
theorem Balanced.not_closedAt (balanced : Balanced s) (front : p <+: s) : ¬ClosedAt p i := by
  intro closed
  have fronts := balanced.never _ ((List.take_prefix (i + 1) p).trans front)
  rw [closed.count_take] at fronts
  exact absurd fronts (Nat.not_succ_le_self _)

/-- A closing parenthesis of a text is one of every front that reaches beyond it. -/
theorem ClosedAt.of_append (h : ClosedAt (p ++ q) i) (inside : i < p.length) : ClosedAt p i := by
  obtain ⟨here, balanced⟩ := h
  rw [List.getElem?_append_left inside] at here
  rw [List.take_append_of_le_length inside.le] at balanced
  exact ⟨here, balanced⟩

/-- One parenthesis at most closes one opened before the text. -/
theorem ClosedAt.unique (here : ClosedAt s i) (there : ClosedAt s j) : i = j := by
  have least {i j : Nat} (here : ClosedAt s i) (there : ClosedAt s j) : ¬i < j := by
    intro lt
    have within : i < (s.take j).length := by rwa [List.length_take_of_le there.lt_length.le]
    rw [← List.take_append_drop j s] at here
    exact there.2.not_closedAt (List.prefix_refl _) (here.of_append within)
  exact Nat.le_antisymm (Nat.not_lt.1 (least there here)) (Nat.not_lt.1 (least here there))

/-! ## The parenthesis that closes -/

section Closing

/-- With `depth` parentheses open before the text, none of its closing ones is without an opening
one. -/
def Covered (depth : Nat) (s : Text) : Prop :=
  ∀ p, p <+: s → p.count ')' ≤ p.count '(' + depth

theorem covered_cons {c : Char} : Covered depth (c :: s) ↔
    ∀ p, p <+: s → (c :: p).count ')' ≤ (c :: p).count '(' + depth := by
  constructor
  · exact fun h p front => h (c :: p) (List.cons_prefix_cons.2 ⟨rfl, front⟩)
  · intro h p front
    rcases List.prefix_cons_iff.1 front with rfl | ⟨t, rfl, later⟩
    · exact Nat.zero_le _
    · exact h t later

/-- The text closes `depth` parentheses opened before it, and all that it opens itself. -/
structure Closes (depth : Nat) (s : Text) : Prop where
  total : s.count ')' = s.count '(' + depth
  never : Covered depth s

theorem balanced_iff_closes : Balanced s ↔ Closes 0 s :=
  ⟨fun h => ⟨h.total, h.never⟩, fun h => ⟨h.total, h.never⟩⟩

theorem closes_nil : Closes depth [] ↔ depth = 0 := by
  constructor
  · intro h
    have total := h.total
    rw [List.count_nil, List.count_nil] at total
    omega
  · rintro rfl
    refine ⟨rfl, fun p front => ?_⟩
    rw [List.prefix_nil.1 front]
    exact Nat.le_refl 0

/-! What a text does to the counts, by its first character. -/

theorem covered_open : Covered depth ('(' :: s) ↔ Covered (depth + 1) s := by
  rw [covered_cons]
  refine forall₂_congr fun p _ => ?_
  rw [List.count_cons_of_ne (by decide), List.count_cons_self]
  omega

theorem covered_close : Covered (depth + 1) (')' :: s) ↔ Covered depth s := by
  rw [covered_cons]
  refine forall₂_congr fun p _ => ?_
  rw [List.count_cons_self, List.count_cons_of_ne (by decide)]
  omega

theorem not_covered_close : ¬Covered 0 (')' :: s) := by
  intro h
  exact absurd (h [')'] (List.cons_prefix_cons.2 ⟨rfl, List.nil_prefix⟩)) (by decide)

theorem covered_other {c : Char} (opens : c ≠ '(') (closes : c ≠ ')') :
    Covered depth (c :: s) ↔ Covered depth s := by
  rw [covered_cons]
  refine forall₂_congr fun p _ => ?_
  rw [List.count_cons_of_ne closes, List.count_cons_of_ne opens]

theorem closes_open : Closes depth ('(' :: s) ↔ Closes (depth + 1) s := by
  have total : ('(' :: s).count ')' = ('(' :: s).count '(' + depth ↔
      s.count ')' = s.count '(' + (depth + 1) := by
    rw [List.count_cons_of_ne (by decide), List.count_cons_self]
    omega
  exact ⟨fun h => ⟨total.1 h.total, covered_open.1 h.never⟩,
    fun h => ⟨total.2 h.total, covered_open.2 h.never⟩⟩

theorem closes_close : Closes (depth + 1) (')' :: s) ↔ Closes depth s := by
  have total : (')' :: s).count ')' = (')' :: s).count '(' + (depth + 1) ↔
      s.count ')' = s.count '(' + depth := by
    rw [List.count_cons_self, List.count_cons_of_ne (by decide)]
    omega
  exact ⟨fun h => ⟨total.1 h.total, covered_close.1 h.never⟩,
    fun h => ⟨total.2 h.total, covered_close.2 h.never⟩⟩

theorem closes_other {c : Char} (opens : c ≠ '(') (closes : c ≠ ')') :
    Closes depth (c :: s) ↔ Closes depth s := by
  have total : (c :: s).count ')' = (c :: s).count '(' + depth ↔
      s.count ')' = s.count '(' + depth := by
    rw [List.count_cons_of_ne closes, List.count_cons_of_ne opens]
  exact ⟨fun h => ⟨total.1 h.total, (covered_other opens closes).1 h.never⟩,
    fun h => ⟨total.2 h.total, (covered_other opens closes).2 h.never⟩⟩

theorem closingFrom_eq_some_iff : closingFrom depth s = some i ↔
    s[i]? = some ')' ∧ Closes depth (s.take i) := by
  induction s generalizing depth i with
  | nil => simp [closingFrom]
  | cons c s ih =>
    by_cases opens : c = '('
    · subst opens
      cases i with
      | zero => simp [closingFrom]
      | succ i => simp [closingFrom, ih, closes_open]
    by_cases closes : c = ')'
    · subst closes
      cases depth with
      | zero =>
        cases i with
        | zero => simp [closingFrom, closes_nil]
        | succ i =>
          have never : ¬Closes 0 (')' :: s.take i) := fun h => not_covered_close h.never
          simp [closingFrom, never]
      | succ depth =>
        cases i with
        | zero => simp [closingFrom, closes_nil]
        | succ i => simp [closingFrom, ih, closes_close]
    · rw [closingFrom_cons opens closes]
      cases i with
      | zero => simp [closes]
      | succ i => simp [ih, closes_other opens closes]

/-- A character that closes neither one of the text nor one before it does not close. -/
theorem ne_close {c : Char} (outer : depth = 0 → c = ')' → False)
    (inner : ∀ n, depth = n + 1 → c = ')' → False) : c ≠ ')' := by
  cases depth with
  | zero => exact outer rfl
  | succ depth => exact inner depth rfl

/-- Where no parenthesis is found, none of the text closes one opened before it. -/
theorem covered_of_closingFrom_eq_none (unclosed : closingFrom depth s = none) :
    Covered depth s := by
  fun_induction closingFrom depth s with
  | case1 depth =>
    intro p front
    rw [List.prefix_nil.1 front]
    exact Nat.zero_le _
  | case2 depth s ih => exact covered_open.2 (ih (Option.map_eq_none_iff.1 unclosed))
  | case3 => cases unclosed
  | case4 depth s ih => exact covered_close.2 (ih (Option.map_eq_none_iff.1 unclosed))
  | case5 depth c s opens outer inner ih =>
    exact (covered_other opens (ne_close outer inner)).2 (ih (Option.map_eq_none_iff.1 unclosed))

theorem closing?_eq_some_iff : closing? s = some i ↔ ClosedAt s i := by
  rw [closing?, closingFrom_eq_some_iff, ← balanced_iff_closes, ClosedAt]

theorem closing?_eq_none_iff : closing? s = none ↔ ∀ i, ¬ClosedAt s i := by
  simp only [Option.eq_none_iff_forall_ne_some, ne_eq, closing?_eq_some_iff]

/-- A text that closes more parentheses than it opens closes one opened before it. -/
theorem exists_closedAt (more : s.count '(' < s.count ')') : ∃ i, ClosedAt s i := by
  cases found : closing? s with
  | some i => exact ⟨i, closing?_eq_some_iff.1 found⟩
  | none =>
    have covered := covered_of_closingFrom_eq_none found s (List.prefix_refl s)
    exact absurd covered (by omega)

end Closing

/-! ## The parts of a list -/

section Parts

theorem intercalate_intoFirst (c : Char) {pieces : List Text} (nonempty : pieces ≠ []) :
    List.intercalate [sep] (intoFirst c pieces) = c :: List.intercalate [sep] pieces := by
  rcases pieces with _ | ⟨p, _ | ⟨p', pieces⟩⟩
  · exact absurd rfl nonempty
  · rfl
  · rw [intoFirst, List.intercalate_cons_cons, List.intercalate_cons_cons]
    rfl

theorem intercalate_cutAtDepth (sep : Char) (depth : Nat) (s : Text) :
    List.intercalate [sep] (cutAtDepth sep depth s) = s := by
  induction s generalizing depth with
  | nil => rfl
  | cons c s ih =>
    have goes (depth : Nat) :
        List.intercalate [sep] (intoFirst c (cutAtDepth sep depth s)) = c :: s := by
      rw [intercalate_intoFirst c (cutAtDepth_ne_nil sep depth s), ih]
    rw [cutAtDepth]
    split_ifs with opens closes cut
    · exact goes _
    · exact goes _
    · obtain ⟨p, pieces, shape⟩ := List.exists_cons_of_ne_nil (cutAtDepth_ne_nil sep 0 s)
      rw [shape, List.intercalate_cons_cons, ← shape, ih, cut.1]
      rfl
    · exact goes _

/-- Joined by the separator, the parts are the text. -/
theorem intercalate_splitTopLevel (visible : Text.isBlankText s = false) :
    List.intercalate [sep] (splitTopLevel sep s) = s := by
  rw [splitTopLevel, visible, if_neg Bool.false_ne_true, intercalate_cutAtDepth]

/-- Where the separators stand in the text that pieces make when they are joined. -/
def cuts : List Text → List Nat
  | [] => []
  | [_] => []
  | p :: p' :: pieces => p.length :: (cuts (p' :: pieces)).map (p.length + 1 + ·)

theorem cuts_intoFirst (c : Char) (pieces : List Text) :
    cuts (intoFirst c pieces) = (cuts pieces).map (· + 1) := by
  rcases pieces with _ | ⟨p, _ | ⟨p', pieces⟩⟩
  · rfl
  · rfl
  · have moved : (cuts (p' :: pieces)).map ((c :: p).length + 1 + ·) =
        ((cuts (p' :: pieces)).map (p.length + 1 + ·)).map (· + 1) := by
      rw [List.map_map]
      exact List.map_congr_left fun n _ => by
        simp only [List.length_cons, Function.comp_apply]
        omega
    rw [intoFirst, cuts, cuts, moved]
    rfl

theorem cuts_nil_cons {pieces : List Text} (nonempty : pieces ≠ []) :
    cuts ([] :: pieces) = 0 :: (cuts pieces).map (· + 1) := by
  obtain ⟨p, pieces, rfl⟩ := List.exists_cons_of_ne_nil nonempty
  rw [cuts]
  exact congrArg _ (List.map_congr_left fun n _ => by rw [List.length_nil]; omega)

/-- How many parentheses count as open behind a text with `depth` open before it. -/
def depthAfter (depth : Nat) (s : Text) : Nat :=
  s.foldl (fun d c => if c = '(' then d + 1 else if c = ')' then d - 1 else d) depth

theorem depthAfter_cons (c : Char) : depthAfter depth (c :: s) =
    depthAfter (if c = '(' then depth + 1 else if c = ')' then depth - 1 else depth) s := rfl

theorem depthAfter_concat (c : Char) : depthAfter depth (s ++ [c]) =
    if c = '(' then depthAfter depth s + 1
    else if c = ')' then depthAfter depth s - 1 else depthAfter depth s := by
  rw [depthAfter, List.foldl_append]
  rfl

/-- The text is cut at the separators where no parenthesis counts as open. -/
theorem mem_cuts_cutAtDepth (plain : sep ≠ '(' ∧ sep ≠ ')') :
    i ∈ cuts (cutAtDepth sep depth s) ↔ s[i]? = some sep ∧ depthAfter depth (s.take i) = 0 := by
  induction s generalizing depth i with
  | nil => simp [cutAtDepth, cuts]
  | cons c s ih =>
    -- a character that is no cut moves those behind it
    have goes {next : Nat} (counted : next =
          if c = '(' then depth + 1 else if c = ')' then depth - 1 else depth)
        (kept : ¬(c = sep ∧ depth = 0)) : i ∈ cuts (intoFirst c (cutAtDepth sep next s)) ↔
          (c :: s)[i]? = some sep ∧ depthAfter depth ((c :: s).take i) = 0 := by
      rw [cuts_intoFirst]
      cases i with
      | zero => simpa [depthAfter] using kept
      | succ i => simp [ih, depthAfter_cons, counted]
    rw [cutAtDepth]
    split_ifs with opens closes cut
    · exact goes (by rw [if_pos opens]) fun h => plain.1 (h.1.symm.trans opens)
    · exact goes (by rw [if_neg opens, if_pos closes]) fun h => plain.2 (h.1.symm.trans closes)
    · rw [cuts_nil_cons (cutAtDepth_ne_nil sep 0 s)]
      cases i with
      | zero => simp [depthAfter, cut]
      | succ i => simp [ih, depthAfter_cons, opens, closes, cut.2]
    · exact goes (by rw [if_neg opens, if_neg closes]) cut

/-- What holds of all ends of a text and one more character, said of the ends of the text. -/
theorem forall_suffix_concat {P : Text → Prop} (empty : P []) (s : Text) (c : Char) :
    (∀ q, q <:+ s ++ [c] → P q) ↔ ∀ q, q <:+ s → P (q ++ [c]) := by
  constructor
  · exact fun h q back => h (q ++ [c]) ((List.suffix_append_inj_of_length_eq rfl).2 ⟨back, rfl⟩)
  · intro h q back
    rcases List.suffix_concat_iff.1 back with rfl | ⟨t, rfl, later⟩
    · exact empty
    · exact h t later

/-- What counts as open is the largest excess of opening parentheses at the end of the text. -/
theorem depthAfter_le_iff (s : Text) (n : Nat) :
    depthAfter 0 s ≤ n ↔ ∀ q, q <:+ s → q.count '(' ≤ q.count ')' + n := by
  induction s using List.reverseRecOn generalizing n with
  | nil => simp [depthAfter]
  | append_singleton s c ih =>
    rw [forall_suffix_concat (Nat.zero_le _), depthAfter_concat]
    split_ifs with opens closes
    · subst opens
      cases n with
      | zero =>
        refine iff_of_false (Nat.not_succ_le_zero _) fun h => ?_
        exact absurd (h [] List.nil_suffix) (by decide)
      | succ n =>
        rw [Nat.add_le_add_iff_right]
        refine (ih n).trans (forall₂_congr fun q _ => ?_)
        simp only [List.count_append, show List.count '(' ['('] = 1 from rfl,
          show List.count ')' ['('] = 0 from rfl]
        omega
    · subst closes
      rw [Nat.sub_le_iff_le_add]
      refine (ih (n + 1)).trans (forall₂_congr fun q _ => ?_)
      simp only [List.count_append, show List.count '(' [')'] = 0 from rfl,
        show List.count ')' [')'] = 1 from rfl]
      omega
    · refine (ih n).trans (forall₂_congr fun q _ => ?_)
      rw [List.count_append, List.count_append, List.count_cons_of_ne opens,
        List.count_cons_of_ne closes, List.count_nil, List.count_nil]
      rfl

/-- Where every parenthesis is closed, no end of the text opens more than it closes. -/
theorem count_le_of_closed (closed : ∀ p q, s = p ++ '(' :: q → ∃ i, ClosedAt q i)
    (back : q <:+ s) : q.count '(' ≤ q.count ')' := by
  -- by the length, since behind an opened parenthesis all is passed over that it encloses
  induction len : q.length using Nat.strong_induction_on generalizing q with
  | h n shorter =>
    subst len
    cases q with
    | nil => exact Nat.le_refl 0
    | cons c q =>
      have later {t : Text} (end' : t <:+ q) : t.count '(' ≤ t.count ')' :=
        shorter t.length (Nat.lt_succ_of_le end'.length_le)
          (end'.trans ((List.suffix_cons c q).trans back)) rfl
      by_cases opens : c = '('
      · subst opens
        obtain ⟨p, rfl⟩ := back
        obtain ⟨i, closing⟩ := closed p q rfl
        have rest := later (List.drop_suffix (i + 1) q)
        have upTo := closing.count_take
        rw [← List.take_append_drop (i + 1) q, List.count_cons_self,
          List.count_cons_of_ne (by decide), List.count_append, List.count_append, upTo]
        omega
      · rw [List.count_cons_of_ne opens]
        exact (later (List.suffix_refl q)).trans List.count_le_count_cons

/-- No parenthesis counts as open behind a text that closes every one it opens. -/
theorem depthAfter_eq_zero_iff :
    depthAfter 0 s = 0 ↔ ∀ p q, s = p ++ '(' :: q → ∃ i, ClosedAt q i := by
  rw [← Nat.le_zero, depthAfter_le_iff s 0]
  constructor
  · rintro even p q rfl
    have more := even ('(' :: q) (List.suffix_append p _)
    rw [List.count_cons_self, List.count_cons_of_ne (by decide)] at more
    exact exists_closedAt (by omega)
  · exact fun closed q back => count_le_of_closed closed back

/-- The text is cut at the separators before which every opened parenthesis is closed. -/
theorem mem_cuts_splitTopLevel (plain : sep ≠ '(' ∧ sep ≠ ')')
    (visible : Text.isBlankText s = false) : i ∈ cuts (splitTopLevel sep s) ↔
      s[i]? = some sep ∧ ∀ p q, s.take i = p ++ '(' :: q → ∃ j, ClosedAt q j := by
  rw [splitTopLevel, visible, if_neg Bool.false_ne_true, mem_cuts_cutAtDepth plain,
    depthAfter_eq_zero_iff]

example : cuts (splitTopLevel ',' "a),b,(c,d".toList) = [2, 4] := by decide

/-- Position `i` lies between a parenthesis and the one that closes it. -/
def Enclosed (s : Text) (i : Nat) : Prop :=
  ∃ p inner q, s = p ++ '(' :: (inner ++ ')' :: q) ∧ Balanced inner ∧
    p.length < i ∧ i < p.length + 1 + inner.length

/-- Where every parenthesis opened before a place is closed before it, none is around it. -/
theorem not_enclosed_of_closed
    (closed : ∀ p q, s.take i = p ++ '(' :: q → ∃ j, ClosedAt q j) : ¬Enclosed s i := by
  rintro ⟨p, inner, q, rfl, balanced, opened, closes⟩
  obtain ⟨k, rfl⟩ := Nat.exists_eq_add_of_lt opened
  have front : (p ++ '(' :: (inner ++ ')' :: q)).take (p.length + k + 1) =
      p ++ '(' :: inner.take k := by
    rw [Nat.add_assoc, List.take_length_add_append, List.take_succ_cons,
      List.take_append_of_le_length (by omega)]
  obtain ⟨j, closing⟩ := closed p _ front
  exact balanced.not_closedAt (List.take_prefix k inner) closing

/-- In a balanced text, a parenthesis opened before a place that is not enclosed is closed before
it: closed it is, and if not before the place then around it. -/
theorem exists_closedAt_of_not_enclosed (balanced : Balanced s) (closes : sep ≠ ')')
    (here : s[i]? = some sep) (outside : ¬Enclosed s i) (front : s.take i = p ++ '(' :: q) :
    ∃ j, ClosedAt q j := by
  have whole : s = p ++ '(' :: (q ++ s.drop i) := by
    rw [← List.cons_append, ← List.append_assoc, ← front, List.take_append_drop]
  have place : p.length + 1 + q.length = i := by
    obtain ⟨inside, -⟩ := List.getElem?_eq_some_iff.1 here
    rw [← List.length_take_of_le inside.le, front, List.length_append, List.length_cons]
    omega
  have more := balanced.count_le_of_suffix ⟨p, whole.symm⟩
  rw [List.count_cons_self, List.count_cons_of_ne (by decide)] at more
  obtain ⟨j, closing⟩ := exists_closedAt (Nat.lt_of_succ_le more)
  rcases Nat.lt_trichotomy j q.length with before | same | behind
  · exact ⟨j, closing.of_append before⟩
  · have there := closing.1
    rw [same, List.getElem?_append_right (Nat.le_refl _), Nat.sub_self, List.getElem?_drop,
      Nat.add_zero, here] at there
    exact absurd (Option.some.inj there) closes
  · have around : s = p ++ '(' :: ((q ++ s.drop i).take j ++
        ')' :: (q ++ s.drop i).drop (j + 1)) := by
      rw [← closing.eq_append]
      exact whole
    refine absurd ⟨p, _, _, around, closing.2, by omega, ?_⟩ outside
    rw [List.length_take_of_le closing.lt_length.le]
    omega

/-- A balanced text is cut at the separators outside all parentheses. -/
theorem mem_cuts_splitTopLevel_of_balanced (plain : sep ≠ '(' ∧ sep ≠ ')')
    (visible : Text.isBlankText s = false) (balanced : Balanced s) :
    i ∈ cuts (splitTopLevel sep s) ↔ s[i]? = some sep ∧ ¬Enclosed s i := by
  rw [mem_cuts_splitTopLevel plain visible]
  refine and_congr_right fun here => ⟨not_enclosed_of_closed, fun outside p q front => ?_⟩
  exact exists_closedAt_of_not_enclosed balanced plain.2 here outside front

end Parts

end QubitTrace.Program
