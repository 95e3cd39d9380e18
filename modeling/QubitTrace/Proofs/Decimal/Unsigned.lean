import Mathlib
import QubitTrace.Decimal.Literal

/-! # Unsigned decimals, part by part

How a number is spelled: digits, perhaps a point with digits behind it, perhaps an exponent
(`Unsigned`). The texts that `readUnsigned` takes for a number are those spelled so, and it reads
off the significand and the power of the spelling (`readUnsigned_eq_some_iff`). In front of a text
that cannot go on with it, a number is spelled in one way only (`Unsigned.append_inj`).
-/

namespace QubitTrace.Literal
set_option autoImplicit false

/-- The sign of an exponent, as it is spelled. -/
inductive Sign where
  | unsigned
  | plus
  | minus
  deriving DecidableEq

/-- An exponent: its letter, small or capital, perhaps a sign, and digits. -/
@[ext] structure Exponent where
  capital : Bool
  sign : Sign
  digits : Text
  digital : ∀ c ∈ digits, c.isDigit = true
  nonempty : digits ≠ []

/-- An unsigned decimal: digits, perhaps a point with digits behind it, at least one digit in
all, and perhaps an exponent. -/
@[ext] structure Unsigned where
  whole : Text
  fraction : Option Text
  exponent : Option Exponent
  digital : ∀ c ∈ whole ++ fraction.getD [], c.isDigit = true
  nonempty : whole ++ fraction.getD [] ≠ []

def Sign.text : Sign → Text
  | unsigned => []
  | plus => ['+']
  | minus => ['-']

namespace Exponent

def letter (x : Exponent) : Char := if x.capital then 'E' else 'e'

def text (x : Exponent) : Text := x.letter :: (x.sign.text ++ x.digits)

def value (x : Exponent) : Int :=
  if x.sign = .minus then -(Decimal.value x.digits : Int) else Decimal.value x.digits

end Exponent

namespace Unsigned

/-- The point and what stands behind it. -/
def fractionText (n : Unsigned) : Text := n.fraction.elim [] ('.' :: ·)

/-- What stands in front of the exponent. -/
def mantissa (n : Unsigned) : Text := n.whole ++ n.fractionText

def exponentText (n : Unsigned) : Text := n.exponent.elim [] Exponent.text

def text (n : Unsigned) : Text := n.mantissa ++ n.exponentText

/-- The digits of a number without its point. -/
def significand (n : Unsigned) : Nat := Decimal.value (n.whole ++ n.fraction.getD [])

/-- The power of ten that goes with the digits: every digit behind the point takes one off. -/
def power (n : Unsigned) : Int :=
  ((n.exponent.map Exponent.value).getD 0) - (n.fraction.getD []).length

end Unsigned

/-! ## Fronts of texts -/

section Span

variable {p : Char → Bool} {a b s t : Text}

/-- The characters with `p` that a text begins with are all its front, when no more of them
follow. -/
theorem span_append (ha : ∀ c ∈ a, p c = true) (hs : ∀ c ∈ s.head?, p c = false) :
    (a ++ s).takeWhile p = a ∧ (a ++ s).dropWhile p = s := by
  rw [List.takeWhile_append_of_pos ha, List.dropWhile_append_of_pos ha]
  cases s with
  | nil => simp
  | cons c s => simp [hs c rfl]

/-- Texts of characters with `p`, in front of texts that do not go on with such, are the same when
the whole is. -/
theorem append_inj_of_span (ha : ∀ c ∈ a, p c = true) (hb : ∀ c ∈ b, p c = true)
    (hs : ∀ c ∈ s.head?, p c = false) (ht : ∀ c ∈ t.head?, p c = false) (same : a ++ s = b ++ t) :
    a = b ∧ s = t := by
  obtain ⟨front, rest⟩ := span_append ha hs
  rw [same, (span_append hb ht).1] at front
  rw [same, (span_append hb ht).2] at rest
  exact ⟨front.symm, rest.symm⟩

end Span

/-! ## Exponents -/

theorem readDigits_eq_some_iff {s : Text} {n : Nat} :
    readDigits s = some n ↔ s ≠ [] ∧ (∀ c ∈ s, c.isDigit = true) ∧ Decimal.value s = n := by
  cases s <;> simp [readDigits, and_assoc]

theorem readSign_of_ne {c : Char} (bare : c ≠ '+' ∧ c ≠ '-') (s : Text) :
    readSign (c :: s) = .nothing false (c :: s) := by
  rw [readSign]
  · rintro t shape
    cases shape
    exact bare.2 rfl
  · rintro t shape
    cases shape
    exact bare.1 rfl

theorem ne_sign_of_isDigit {c : Char} (digital : c.isDigit = true) : c ≠ '+' ∧ c ≠ '-' := by
  constructor
  all_goals
    rintro rfl
    cases digital

theorem readSign_of_isDigit {c : Char} {s : Text} (digital : c.isDigit = true) :
    readSign (c :: s) = .nothing false (c :: s) :=
  readSign_of_ne (ne_sign_of_isDigit digital) s

/-- A sign in front of something else is read off. -/
theorem readSign_text {c : Char} (bare : c ≠ '+' ∧ c ≠ '-') (s : Text) (sign : Sign) :
    (readSign (sign.text ++ c :: s)).rest = c :: s ∧
      (readSign (sign.text ++ c :: s)).value = decide (sign = .minus) := by
  cases sign with
  | plus => exact ⟨rfl, rfl⟩
  | minus => exact ⟨rfl, rfl⟩
  | unsigned =>
    change (readSign (c :: s)).rest = _ ∧ (readSign (c :: s)).value = _
    rw [readSign_of_ne bare]
    exact ⟨rfl, rfl⟩

/-- What `readSign` leaves stands behind the sign that it took. -/
theorem exists_readSign (s : Text) :
    ∃ sign : Sign, sign.text ++ (readSign s).rest = s ∧
      (readSign s).value = decide (sign = .minus) := by
  unfold readSign
  split
  · exact ⟨.minus, rfl, rfl⟩
  · exact ⟨.plus, rfl, rfl⟩
  · exact ⟨.unsigned, rfl, rfl⟩

theorem Exponent.letter_eq (x : Exponent) : x.letter = 'e' ∨ x.letter = 'E' := by
  unfold letter
  cases x.capital with
  | true => exact Or.inr rfl
  | false => exact Or.inl rfl

theorem readExponent_text (x : Exponent) : readExponent x.text = some x.value := by
  obtain ⟨c, t, shape⟩ := List.exists_cons_of_ne_nil x.nonempty
  have digital : c.isDigit = true := x.digital c (shape ▸ List.mem_cons_self)
  obtain ⟨rest, negative⟩ := readSign_text (ne_sign_of_isDigit digital) t x.sign
  rw [← shape] at rest negative
  have digits := readDigits_eq_some_iff.2 ⟨x.nonempty, x.digital, rfl⟩
  rw [Exponent.text, readExponent, if_pos x.letter_eq]
  dsimp only
  rw [rest, negative, digits, Exponent.value]
  simp

/-- The texts read for an exponent are those spelled as one. -/
theorem exists_of_readExponent {s : Text} {e : Int} (nonempty : s ≠ [])
    (read : readExponent s = some e) : ∃ x : Exponent, x.text = s ∧ x.value = e := by
  obtain ⟨c, s, rfl⟩ := List.exists_cons_of_ne_nil nonempty
  rw [readExponent] at read
  obtain ⟨letter, read⟩ := Option.ite_none_right_eq_some.1 read
  obtain ⟨_, digits, read⟩ := Option.map_eq_some_iff.1 read
  obtain ⟨n, made, cast⟩ := Option.bind_eq_some_iff.1 digits
  cases cast
  obtain ⟨nonempty, digital, rfl⟩ := readDigits_eq_some_iff.1 made
  obtain ⟨sign, whole, negative⟩ := exists_readSign s
  refine ⟨⟨decide (c = 'E'), sign, _, digital, nonempty⟩, ?_, ?_⟩
  · rcases letter with rfl | rfl <;> simp [Exponent.text, Exponent.letter, whole]
  · rw [negative] at read
    simpa [Exponent.value] using read

/-- Signs in front of digits are the same when the whole is. -/
theorem Sign.append_inj {x y : Sign} {c d : Char} {s t : Text} (hc : c.isDigit = true)
    (hd : d.isDigit = true) (same : x.text ++ c :: s = y.text ++ d :: t) :
    x = y ∧ c :: s = d :: t := by
  have ne {sign c : Char} (digital : c.isDigit = true) (other : sign.isDigit = false) :
      sign ≠ c := by
    rintro rfl
    rw [digital] at other
    cases other
  cases x <;> cases y <;> simp_all [Sign.text, ne hd, (ne hc _).symm]

/-- Exponents in front of texts that do not go on with a digit are the same when the whole is. -/
theorem Exponent.append_inj {x y : Exponent} {s t : Text} (hs : ∀ c ∈ s.head?, c.isDigit = false)
    (ht : ∀ c ∈ t.head?, c.isDigit = false) (same : x.text ++ s = y.text ++ t) : x = y ∧ s = t := by
  obtain ⟨letter, same⟩ := List.cons.inj same
  change x.sign.text ++ x.digits ++ s = y.sign.text ++ y.digits ++ t at same
  have capital : x.capital = y.capital := by
    revert letter
    unfold Exponent.letter
    cases x.capital <;> cases y.capital <;> decide
  obtain ⟨c, a, hx⟩ := List.exists_cons_of_ne_nil x.nonempty
  obtain ⟨d, b, hy⟩ := List.exists_cons_of_ne_nil y.nonempty
  rw [List.append_assoc, List.append_assoc, hx, hy] at same
  obtain ⟨sign, same⟩ := Sign.append_inj (x.digital c (hx ▸ List.mem_cons_self))
    (y.digital d (hy ▸ List.mem_cons_self)) same
  obtain ⟨digits, rest⟩ := append_inj_of_span x.digital y.digital hs ht (by rw [hx, hy]; exact same)
  exact ⟨Exponent.ext capital sign digits, rest⟩

/-! ## Numbers -/

namespace Unsigned

/-- The number cannot go on with the text. -/
def Stops (s : Text) : Prop :=
  ∀ c ∈ s.head?, c.isDigit = false ∧ c ≠ '.' ∧ c ≠ 'e' ∧ c ≠ 'E'

variable {s t : Text}

theorem Stops.digit (stops : Stops s) : ∀ c ∈ s.head?, c.isDigit = false :=
  fun c here => (stops c here).1

theorem stops_nil : Stops [] := nofun

/-- An exponent begins with its letter. -/
theorem head_exponentText (n : Unsigned) {c : Char} (stops : Stops s)
    (here : c ∈ (n.exponentText ++ s).head?) : c.isDigit = false ∧ c ≠ '.' := by
  unfold exponentText at here
  cases exponent : n.exponent with
  | none =>
    rw [exponent] at here
    exact ⟨(stops c here).1, (stops c here).2.1⟩
  | some x =>
    rw [exponent] at here
    cases here
    rcases x.letter_eq with h | h <;> rw [h] <;> decide

/-- No digit stands behind the digits in front of the point. -/
theorem head_fractionText (n : Unsigned) {c : Char} (stops : Stops s)
    (here : c ∈ (n.fractionText ++ (n.exponentText ++ s)).head?) : c.isDigit = false := by
  unfold fractionText at here
  cases fraction : n.fraction with
  | none =>
    rw [fraction] at here
    exact (n.head_exponentText stops here).1
  | some digits =>
    rw [fraction] at here
    cases here
    rfl

theorem readExponent_exponentText (n : Unsigned) :
    readExponent n.exponentText = some ((n.exponent.map Exponent.value).getD 0) := by
  unfold exponentText
  cases n.exponent with
  | none => rfl
  | some x => exact readExponent_text x

end Unsigned

section Reading

variable {s t : Text}

theorem readUnsigned_of_point (rest : s.dropWhile Char.isDigit = '.' :: t) :
    readUnsigned s = if s.takeWhile Char.isDigit ++ t.takeWhile Char.isDigit = [] then none else
      (readExponent (t.dropWhile Char.isDigit)).map fun e =>
        (Decimal.value (s.takeWhile Char.isDigit ++ t.takeWhile Char.isDigit),
          e - ((t.takeWhile Char.isDigit).length : Int)) := by
  unfold readUnsigned
  rw [rest]
  simp

theorem readUnsigned_of_pointless (rest : ∀ c ∈ (s.dropWhile Char.isDigit).head?, c ≠ '.') :
    readUnsigned s = if s.takeWhile Char.isDigit = [] then none else
      (readExponent (s.dropWhile Char.isDigit)).map fun e =>
        (Decimal.value (s.takeWhile Char.isDigit), e) := by
  unfold readUnsigned
  dsimp only
  split
  · next t shape =>
    rw [shape] at rest
    exact absurd rfl (rest '.' rfl)
  · simp

end Reading

namespace Unsigned

/-- The spelling of a number is read as the number. -/
theorem readUnsigned_text (n : Unsigned) : readUnsigned n.text = some (n.significand, n.power) := by
  obtain ⟨front, rest⟩ := span_append (p := Char.isDigit)
    (fun c mem => n.digital c (List.mem_append_left _ mem))
    fun c here => n.head_fractionText stops_nil here
  rw [List.append_nil, ← List.append_assoc] at front rest
  change n.text.takeWhile _ = _ at front
  change n.text.dropWhile _ = _ at rest
  have tail := n.readExponent_exponentText
  have digital := n.digital
  have nonempty := n.nonempty
  have exponentHead : ∀ c ∈ n.exponentText.head?, c.isDigit = false ∧ c ≠ '.' :=
    fun c here => n.head_exponentText stops_nil (by rwa [List.append_nil])
  unfold significand power
  unfold fractionText at rest
  cases fraction : n.fraction with
  | none =>
    rw [fraction] at rest nonempty
    rw [Option.elim_none, List.nil_append] at rest
    rw [readUnsigned_of_pointless (rest ▸ fun c here => (exponentHead c here).2), rest, front, tail,
      if_neg (by simpa using nonempty)]
    simp
  | some digits =>
    rw [fraction] at rest digital nonempty
    rw [Option.elim_some, List.cons_append] at rest
    rw [Option.getD_some] at digital nonempty ⊢
    obtain ⟨front', rest'⟩ := span_append (p := Char.isDigit)
      (fun c mem => digital c (List.mem_append_right _ mem)) fun c here => (exponentHead c here).1
    rw [readUnsigned_of_point rest, front, front', rest', tail, if_neg nonempty]
    rfl

end Unsigned

/-- The texts read for the part behind the digits are those spelled as an exponent, or empty. -/
theorem exists_exponent {s : Text} {e : Int} (read : readExponent s = some e) :
    ∃ x : Option Exponent, x.elim [] Exponent.text = s ∧ (x.map Exponent.value).getD 0 = e := by
  by_cases empty : s = []
  · subst empty
    cases read
    exact ⟨none, rfl, rfl⟩
  · obtain ⟨x, text, value⟩ := exists_of_readExponent empty read
    exact ⟨some x, text, value⟩

theorem isDigit_of_mem_takeWhile {s : Text} {c : Char} (mem : c ∈ s.takeWhile Char.isDigit) :
    c.isDigit = true :=
  List.mem_takeWhile_imp mem

/-- The texts read for a number are those spelled as one. -/
theorem readUnsigned_eq_some_iff {s : Text} {m : Nat} {e : Int} :
    readUnsigned s = some (m, e) ↔
      ∃ n : Unsigned, n.text = s ∧ n.significand = m ∧ n.power = e := by
  constructor
  · intro read
    have whole := s.takeWhile_append_dropWhile (p := Char.isDigit)
    by_cases point : ∀ c ∈ (s.dropWhile Char.isDigit).head?, c ≠ '.'
    · rw [readUnsigned_of_pointless point] at read
      obtain ⟨nonempty, read⟩ := Option.ite_none_left_eq_some.1 read
      obtain ⟨e', tail, value⟩ := Option.map_eq_some_iff.1 read
      cases value
      obtain ⟨x, text, rfl⟩ := exists_exponent tail
      let n : Unsigned :=
        { whole := s.takeWhile Char.isDigit, fraction := none, exponent := x
          digital := fun c mem => isDigit_of_mem_takeWhile (by simpa using mem)
          nonempty := by simpa using nonempty }
      refine ⟨n, ?_, ?_, ?_⟩
      · rw [← whole, ← text]
        simp [n, Unsigned.text, Unsigned.mantissa, Unsigned.fractionText, Unsigned.exponentText]
      · simp [n, Unsigned.significand]
      · simp [n, Unsigned.power]
    · obtain ⟨t, rest⟩ : ∃ t, s.dropWhile Char.isDigit = '.' :: t := by
        simpa [List.head?_eq_some_iff] using point
      rw [readUnsigned_of_point rest] at read
      obtain ⟨nonempty, read⟩ := Option.ite_none_left_eq_some.1 read
      obtain ⟨e', tail, value⟩ := Option.map_eq_some_iff.1 read
      cases value
      obtain ⟨x, text, rfl⟩ := exists_exponent tail
      let n : Unsigned :=
        { whole := s.takeWhile Char.isDigit, fraction := some (t.takeWhile Char.isDigit)
          exponent := x
          digital := fun c mem => (List.mem_append.1 mem).elim isDigit_of_mem_takeWhile
            isDigit_of_mem_takeWhile
          nonempty := nonempty }
      refine ⟨n, ?_, rfl, rfl⟩
      have spelled : n.text = s.takeWhile Char.isDigit ++
          '.' :: (t.takeWhile Char.isDigit ++ x.elim [] Exponent.text) := by
        simp [n, Unsigned.text, Unsigned.mantissa, Unsigned.fractionText, Unsigned.exponentText]
      rw [spelled, text, List.takeWhile_append_dropWhile, ← rest, whole]
  · rintro ⟨n, rfl, rfl, rfl⟩
    exact n.readUnsigned_text

/-! ## One spelling -/

namespace Unsigned

variable {n n' : Unsigned} {s t : Text}

/-- Exponents in front of texts that stop the number are the same when the whole is. -/
theorem exponent_append_inj (hs : Stops s) (ht : Stops t)
    (same : n.exponentText ++ s = n'.exponentText ++ t) : n.exponent = n'.exponent ∧ s = t := by
  have impossible {x : Exponent} {s t : Text} (stops : Stops s) (same : s = x.text ++ t) :
      False := by
    subst same
    obtain ⟨-, -, small, capital⟩ := stops x.letter rfl
    rcases x.letter_eq with h | h
    · exact small h
    · exact capital h
  unfold exponentText at same
  cases left : n.exponent with
  | none =>
    rw [left] at same
    cases right : n'.exponent with
    | none => exact ⟨rfl, by simpa [right] using same⟩
    | some y => exact (impossible hs (by simpa [right] using same)).elim
  | some x =>
    rw [left] at same
    cases right : n'.exponent with
    | none => exact (impossible ht (by simpa [right] using same.symm)).elim
    | some y =>
      rw [right] at same
      obtain ⟨rfl, rest⟩ := Exponent.append_inj hs.digit ht.digit same
      exact ⟨rfl, rest⟩

/-- Fractions in front of texts that go on with neither a digit nor a point are the same when the
whole is. -/
theorem fraction_append_inj (hs : ∀ c ∈ s.head?, c.isDigit = false ∧ c ≠ '.')
    (ht : ∀ c ∈ t.head?, c.isDigit = false ∧ c ≠ '.')
    (same : n.fractionText ++ s = n'.fractionText ++ t) : n.fraction = n'.fraction ∧ s = t := by
  have digital := n.digital
  have digital' := n'.digital
  unfold fractionText at same
  cases left : n.fraction with
  | none =>
    rw [left] at same
    cases right : n'.fraction with
    | none => exact ⟨rfl, by simpa [right] using same⟩
    | some b =>
      rw [right] at same
      change s = '.' :: (b ++ t) at same
      subst same
      exact absurd rfl (hs '.' rfl).2
  | some a =>
    rw [left] at same digital
    cases right : n'.fraction with
    | none =>
      rw [right] at same
      change '.' :: (a ++ s) = t at same
      subst same
      exact absurd rfl (ht '.' rfl).2
    | some b =>
      rw [right] at same digital'
      obtain ⟨rfl, rest⟩ := append_inj_of_span
        (fun c mem => digital c (List.mem_append_right _ mem))
        (fun c mem => digital' c (List.mem_append_right _ mem))
        (fun c here => (hs c here).1) (fun c here => (ht c here).1) (List.cons.inj same).2
      exact ⟨rfl, rest⟩

/-- A number in front of a text that cannot go on with it is spelled in one way only. -/
theorem append_inj (hs : Stops s) (ht : Stops t) (same : n.text ++ s = n'.text ++ t) :
    n = n' ∧ s = t := by
  simp only [text, mantissa, List.append_assoc] at same
  obtain ⟨whole, same⟩ := append_inj_of_span (fun c mem => n.digital c (List.mem_append_left _ mem))
    (fun c mem => n'.digital c (List.mem_append_left _ mem))
    (fun c here => n.head_fractionText hs here) (fun c here => n'.head_fractionText ht here) same
  obtain ⟨fraction, same⟩ := fraction_append_inj (fun c here => n.head_exponentText hs here)
    (fun c here => n'.head_exponentText ht here) same
  obtain ⟨exponent, rest⟩ := exponent_append_inj hs ht same
  exact ⟨Unsigned.ext whole fraction exponent, rest⟩

end Unsigned

end QubitTrace.Literal
