import Mathlib
import QubitTrace.Json.Reader
import QubitTrace.Proofs.Decimal.Digits
import QubitTrace.Proofs.Decimal.Unsigned

/-! # Number literals in front of other text

A number ends where it ends alone when the text behind it cannot go on with it: each part of a
number is read in front of such a text as it is read by itself, and so is the number
(`Json.Literal.takes_of_ofText?`). The digits of a size are a literal for it
(`Json.Literal.ofText?_digits`).
-/

namespace QubitTrace
set_option autoImplicit false

open Literal.Unsigned (Stops)

namespace Text

/-- The reading takes `value` off the front of a text and leaves `rest`. -/
def Takes {α : Type} {s : Text} (reading : Option (Read α s)) (value : α) (rest : Text) : Prop :=
  ∃ shorter, reading = some ⟨value, rest, shorter⟩

/-- The reading takes `value` off the front of a text, or finds it there, and leaves `rest`. -/
def Leaves {α : Type} {s : Text} (reading : Option (Continued α s)) (value : α) (rest : Text) :
    Prop :=
  ∃ noLonger, reading = some ⟨value, rest, noLonger⟩

theorem takes_some {α : Type} {s rest : Text} {r : Read α s} {value : α} (taken : r.value = value)
    (left : r.rest = rest) : Takes (some r) value rest := by
  subst taken left
  exact ⟨r.shorter, rfl⟩

theorem leaves_some {α : Type} {s rest : Text} {r : Continued α s} {value : α}
    (taken : r.value = value) (left : r.rest = rest) : Leaves (some r) value rest := by
  subst taken left
  exact ⟨r.noLonger, rfl⟩

/-- A span ends inside a text as it ends at its end, if what follows cannot go on with it. -/
theorem span_append {p : Char → Bool} {rest : Text} (stops : ∀ c ∈ rest.head?, p c = false)
    (s : Text) : (Continued.span p (s ++ rest)).value = (Continued.span p s).value ∧
      (Continued.span p (s ++ rest)).rest = (Continued.span p s).rest ++ rest := by
  induction s with
  | nil => exact Literal.span_append (a := []) nofun stops
  | cons c s ih =>
    obtain ⟨front, behind⟩ := ih
    by_cases kept : p c <;> simp_all [Continued.span]

end Text

namespace Json.Literal

open Text (Takes Leaves)

/-- The literal that a text is as a whole, if it is one. -/
def ofText? (s : Text) : Option Literal :=
  (readNumber s).bind fun r => if r.rest.isEmpty then some r.value else none

variable {s t rest : Text}

/-! ## Part by part -/

theorem takes_whole {whole : Text} (stops : Stops rest) (read : Takes (readWhole s) whole t) :
    Takes (readWhole (s ++ rest)) whole (t ++ rest) := by
  obtain ⟨_, read⟩ := read
  unfold readWhole at read ⊢
  cases s with
  | nil => cases read
  | cons c s =>
    obtain ⟨front, behind⟩ := Text.span_append stops.digit s
    obtain ⟨leading, read⟩ := Option.ite_none_left_eq_some.1 read
    cases read
    rw [List.cons_append]
    dsimp only
    rw [if_neg (by rwa [front])]
    exact Text.takes_some (congrArg (c :: ·) front) behind

theorem readFraction_of_ne (bare : ∀ c ∈ s.head?, c ≠ '.') :
    readFraction s = some (.nothing [] s) := by
  rw [readFraction]
  rintro t rfl
  exact bare '.' rfl rfl

theorem leaves_fraction {fraction : Text} (stops : Stops rest)
    (read : Leaves (readFraction s) fraction t) :
    Leaves (readFraction (s ++ rest)) fraction (t ++ rest) := by
  obtain ⟨_, read⟩ := read
  by_cases bare : ∀ c ∈ s.head?, c ≠ '.'
  · have behind : ∀ c ∈ (s ++ rest).head?, c ≠ '.' := by
      cases s with
      | nil => exact fun c here => (stops c here).2.1
      | cons => exact bare
    rw [readFraction_of_ne bare] at read
    rw [readFraction_of_ne behind]
    cases read
    exact Text.leaves_some rfl rfl
  · push Not at bare
    obtain ⟨c, here, rfl⟩ := bare
    obtain ⟨s, rfl⟩ := List.head?_eq_some_iff.1 here
    obtain ⟨front, behind⟩ := Text.span_append stops.digit s
    obtain ⟨digits, read⟩ := Option.ite_none_left_eq_some.1 read
    cases read
    rw [List.cons_append, readFraction, if_neg (by rwa [front])]
    exact Text.leaves_some front behind

theorem readSign_append (nonempty : s ≠ []) (rest : Text) :
    (QubitTrace.Literal.readSign (s ++ rest)).value = (QubitTrace.Literal.readSign s).value ∧
      (QubitTrace.Literal.readSign (s ++ rest)).rest =
        (QubitTrace.Literal.readSign s).rest ++ rest := by
  obtain ⟨c, s, rfl⟩ := List.exists_cons_of_ne_nil nonempty
  by_cases bare : c ≠ '+' ∧ c ≠ '-'
  · rw [List.cons_append, QubitTrace.Literal.readSign_of_ne bare,
      QubitTrace.Literal.readSign_of_ne bare]
    exact ⟨rfl, rfl⟩
  · rw [not_and_or, not_not, not_not] at bare
    rcases bare with rfl | rfl <;> exact ⟨rfl, rfl⟩

theorem leaves_exponent {power : Option Int} (stops : Stops rest)
    (read : Leaves (readExponent s) power t) :
    Leaves (readExponent (s ++ rest)) power (t ++ rest) := by
  obtain ⟨_, read⟩ := read
  cases s with
  | nil =>
    cases read
    rw [List.nil_append]
    cases rest with
    | nil => exact Text.leaves_some rfl rfl
    | cons c rest =>
      have other : ¬ (c = 'e' ∨ c = 'E') := not_or.2 (stops c rfl).2.2
      rw [readExponent, if_neg other]
      exact Text.leaves_some rfl rfl
  | cons c s =>
    rw [readExponent] at read
    rw [List.cons_append, readExponent]
    split_ifs at read ⊢ with letter
    · obtain ⟨digits, read⟩ := Option.ite_none_left_eq_some.1 read
      cases read
      have nonempty : s ≠ [] := by
        rintro rfl
        exact digits rfl
      obtain ⟨sign, left⟩ := readSign_append nonempty rest
      obtain ⟨front, behind⟩ :=
        Text.span_append stops.digit (QubitTrace.Literal.readSign s).rest
      rw [← left] at front behind
      rw [if_neg (by rwa [front])]
      refine Text.leaves_some ?_ behind
      change some (if _ then _ else _) = some (if _ then _ else _)
      rw [sign, front]
    · cases read
      exact Text.leaves_some rfl rfl

/-! ## Whole numbers -/

theorem takes_unsigned {negative : Bool} {n : Literal} (stops : Stops rest)
    (read : Takes (readUnsigned negative s) n t) :
    Takes (readUnsigned negative (s ++ rest)) n (t ++ rest) := by
  obtain ⟨_, read⟩ := read
  obtain ⟨whole, wholeRead, read⟩ := Option.bind_eq_some_iff.1 read
  obtain ⟨fraction, fractionRead, read⟩ := Option.bind_eq_some_iff.1 read
  obtain ⟨power, powerRead, read⟩ := Option.bind_eq_some_iff.1 read
  cases read
  obtain ⟨_, wholeRead⟩ := takes_whole stops ⟨_, wholeRead⟩
  obtain ⟨_, fractionRead⟩ := leaves_fraction stops ⟨_, fractionRead⟩
  obtain ⟨_, powerRead⟩ := leaves_exponent stops ⟨_, powerRead⟩
  simp only [readUnsigned, wholeRead, fractionRead, powerRead, Option.bind_eq_bind,
    Option.bind_some]
  exact Text.takes_some rfl rfl

theorem readNumber_of_ne (bare : ∀ c ∈ s.head?, c ≠ '-') :
    readNumber s = readUnsigned false s := by
  rw [readNumber]
  rintro t rfl
  exact bare '-' rfl rfl

theorem takes_number {n : Literal} (stops : Stops rest) (read : Takes (readNumber s) n t) :
    Takes (readNumber (s ++ rest)) n (t ++ rest) := by
  by_cases bare : ∀ c ∈ s.head?, c ≠ '-'
  · rw [readNumber_of_ne bare] at read
    have behind : ∀ c ∈ (s ++ rest).head?, c ≠ '-' := by
      cases s with
      | nil =>
        obtain ⟨_, read⟩ := read
        cases read
      | cons => exact bare
    rw [readNumber_of_ne behind]
    exact takes_unsigned stops read
  · push Not at bare
    obtain ⟨c, here, rfl⟩ := bare
    obtain ⟨s, rfl⟩ := List.head?_eq_some_iff.1 here
    obtain ⟨_, read⟩ := read
    obtain ⟨n, magnitude, shape⟩ := Option.map_eq_some_iff.1 read
    cases shape
    obtain ⟨_, magnitude⟩ := takes_unsigned stops ⟨_, magnitude⟩
    rw [List.cons_append, readNumber, magnitude]
    exact Text.takes_some rfl rfl

theorem ofText?_eq_some_iff {n : Literal} : ofText? s = some n ↔ Takes (readNumber s) n [] := by
  rw [ofText?, Option.bind_eq_some_iff]
  constructor
  · rintro ⟨r, read, whole⟩
    obtain ⟨empty, value⟩ := Option.ite_none_right_eq_some.1 whole
    rw [read]
    exact Text.takes_some (Option.some.inj value) (List.isEmpty_iff.1 empty)
  · rintro ⟨_, read⟩
    exact ⟨_, read, rfl⟩

/-- A number is read in front of a text that cannot go on with it as it is read by itself. -/
theorem takes_of_ofText? {n : Literal} (stops : Stops rest) (read : ofText? s = some n) :
    Takes (readNumber (s ++ rest)) n rest :=
  takes_number stops (ofText?_eq_some_iff.1 read)

/-- A number begins with a digit or a minus sign. -/
theorem exists_cons_of_ofText? {n : Literal} (read : ofText? s = some n) :
    ∃ c t, s = c :: t ∧ (c.isDigit = true ∨ c = '-') := by
  obtain ⟨_, read⟩ := ofText?_eq_some_iff.1 read
  by_cases bare : ∀ c ∈ s.head?, c ≠ '-'
  · rw [readNumber_of_ne bare] at read
    obtain ⟨whole, read, -⟩ := Option.bind_eq_some_iff.1 read
    unfold readWhole at read
    cases s with
    | nil => cases read
    | cons c t =>
      obtain ⟨leading, -⟩ := Option.ite_none_left_eq_some.1 read
      refine ⟨c, t, rfl, Or.inl ?_⟩
      by_contra other
      simp [other] at leading
  · push Not at bare
    obtain ⟨c, here, rfl⟩ := bare
    obtain ⟨t, rfl⟩ := List.head?_eq_some_iff.1 here
    exact ⟨'-', t, rfl, Or.inr rfl⟩

/-! ## Sizes -/

/-- The digits of a positive number do not begin with a zero. -/
theorem head?_digits_ne {n : Nat} (positive : 0 < n) : (Decimal.digits n).head? ≠ some '0' := by
  fun_induction Decimal.digits n with
  | case1 n small =>
    intro zero
    have value := Decimal.toNat_digit n
    rw [Option.some.inj zero] at value
    change 48 = _ at value
    omega
  | case2 n large ih =>
    have digits := Decimal.digits_ne_nil (n / 10)
    obtain ⟨c, t, shape⟩ := List.exists_cons_of_ne_nil digits
    rw [shape] at ih ⊢
    exact ih (by omega)

theorem takes_digits (n : Nat) : Takes (readWhole (Decimal.digits n)) (Decimal.digits n) [] := by
  obtain ⟨c, t, shape⟩ := List.exists_cons_of_ne_nil (Decimal.digits_ne_nil n)
  have digital := Decimal.isDigit_of_mem_digits (n := n)
  have short : c = '0' → t = [] := by
    rintro rfl
    rcases Nat.eq_zero_or_pos n with rfl | positive
    · have zero : Decimal.digits 0 = ['0'] := by
        rw [Decimal.digits]
        rfl
      exact (List.cons.inj (zero.symm.trans shape)).2.symm
    · exact absurd (by rw [shape]; rfl) (head?_digits_ne positive)
  rw [shape] at digital ⊢
  obtain ⟨first, others⟩ := List.forall_mem_cons.1 digital
  obtain ⟨front, behind⟩ := Literal.span_append (s := []) others nofun
  rw [List.append_nil] at front behind
  change (Text.Continued.span Char.isDigit t).value = t at front
  have leading : ¬ (!c.isDigit || c == '0' && !(Text.Continued.span Char.isDigit t).value.isEmpty) =
      true := by
    rw [front, first]
    simpa using short
  rw [readWhole, if_neg leading]
  exact Text.takes_some (congrArg (c :: ·) front) behind

/-- The digits of a size are a literal for it. -/
theorem ofText?_digits (n : Nat) : ofText? (Decimal.digits n) = some ⟨false, n, 0, true⟩ := by
  obtain ⟨_, whole⟩ := takes_digits n
  have bare : ∀ c ∈ (Decimal.digits n).head?, c ≠ '-' := by
    rintro c here rfl
    exact absurd (Decimal.isDigit_of_mem_digits _ (List.mem_of_mem_head? here)) (by decide)
  rw [ofText?_eq_some_iff, readNumber_of_ne bare, readUnsigned, whole]
  refine Text.takes_some ?_ rfl
  change Literal.mk false (Decimal.value (Decimal.digits n ++ [])) 0 true = _
  rw [List.append_nil, Decimal.value_digits]

end Json.Literal

end QubitTrace
