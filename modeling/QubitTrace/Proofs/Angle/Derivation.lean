import Mathlib
import QubitTrace.Fault
import QubitTrace.Proofs.Angle.Grammar
import QubitTrace.Proofs.Decimal.Digits
import QubitTrace.Proofs.Except
import QubitTrace.Proofs.Scalar.Finite

/-! # Angles by their derivations

The readers accept the texts that have a derivation and compute its value
(`evaluate_eq_ok_iff`). What a reader takes is spelled by a derivation, by induction along the
calls of the readers (`Taken`); and a derivation is read to its end, whatever may follow it, by
induction on the derivation (`Reads`). Sums and products, and what follows in them behind an
operator, are readings one behind the other (`chained`), and both directions are shown once for
these.
-/

namespace QubitTrace.Angle
set_option autoImplicit false

open Literal (Unsigned readUnsigned readUnsigned_eq_some_iff span_append)
open Text (Read Continued)

variable {K : Type}

/-! ## Readings one behind the other -/

section Chains

variable {v v' : K} {s rest rest' : Text}

/-- The reader takes a front of the text for `v` and leaves `rest`. -/
def Reads (outcome : Except Obstacle (Read K s)) (v : K) (rest : Text) : Prop :=
  ∃ r, outcome = .ok r ∧ r.value = v ∧ r.rest = rest

/-- The reader goes on to the value `v` and leaves `rest`. -/
def GoesOn (outcome : Except Obstacle (Continued K s)) (v : K) (rest : Text) : Prop :=
  ∃ r, outcome = .ok r ∧ r.value = v ∧ r.rest = rest

/-- What is taken from the text is the spelling of a derivation, and worth what it is worth. -/
def Taken {D : Type} (text : D → Text) (value : D → K) (s rest : Text) (v : K) : Prop :=
  ∃ d : D, text d ++ rest = s ∧ value d = v

/-- A reading that goes on from its value so far with what it leaves. -/
def chained (first : Except Obstacle (Read K s))
    (more : K → (rest : Text) → Except Obstacle (Continued K rest)) :
    Except Obstacle (Read K s) :=
  first >>= fun r => more r.value r.rest >>= fun all => .ok (r.andContinue all)

/-- A reading behind an operator. -/
def operated (c : Char) (operand : Except Obstacle (Read K s)) :
    Except Obstacle (Continued K (c :: s)) :=
  operand >>= fun r => .ok (r.behind c).weaken

/-- What is read first and what is read on from there are read one behind the other. -/
theorem reads_chained {first : Except Obstacle (Read K s)}
    {more : K → (rest : Text) → Except Obstacle (Continued K rest)} (front : Reads first v rest)
    (back : GoesOn (more v rest) v' rest') : Reads (chained first more) v' rest' := by
  obtain ⟨r, rfl, rfl, rfl⟩ := front
  obtain ⟨all, here, worth, left⟩ := back
  rw [chained, ok_bind, here]
  exact ⟨_, rfl, worth, left⟩

theorem goesOn_operated {c : Char} {operand : Except Obstacle (Read K s)}
    (reads : Reads operand v rest) : GoesOn (operated c operand) v rest := by
  obtain ⟨r, rfl, rfl, rfl⟩ := reads
  exact ⟨_, rfl, rfl, rfl⟩

theorem append_behind {a b r u : Text} (first : a ++ r = s) (more : b ++ u = r) :
    a ++ b ++ u = s := by
  rw [List.append_assoc, more, first]

/-- A derivation of what is taken first and one of what is taken on from there are known when the
two are taken one behind the other. -/
theorem taken_chained {D E : Type} {text : D → Text} {value : D → K} {text' : E → Text}
    (onto : E → K → K) {first : Except Obstacle (Read K s)}
    {more : K → (rest : Text) → Except Obstacle (Continued K rest)} {r : Read K s}
    (read : chained first more = .ok r)
    (front : ∀ r, first = .ok r → Taken text value s r.rest r.value)
    (back : ∀ (r : Read K s) all, more r.value r.rest = .ok all →
      Taken text' (onto · r.value) r.rest all.rest all.value) :
    ∃ d ds, text d ++ text' ds ++ r.rest = s ∧ onto ds (value d) = r.value := by
  obtain ⟨r', taken, read⟩ := bind_eq_ok_iff.1 read
  obtain ⟨all, others, read⟩ := bind_eq_ok_iff.1 read
  cases read
  obtain ⟨d, spelled, worth⟩ := front r' taken
  obtain ⟨ds, spelled', worth'⟩ := back r' all others
  exact ⟨d, ds, append_behind spelled spelled', worth ▸ worth'⟩

end Chains

variable [Scalar K]

/-! ## Names and numbers -/

section Lexing

variable {c : Char} {s t : Text}

theorem signChar_append (s : Text) : (signChar s).value ++ (signChar s).rest = s := by
  unfold signChar
  split <;> rfl

theorem exponent_append (s : Text) : (exponent s).value ++ (exponent s).rest = s := by
  unfold exponent
  split
  · rfl
  · split_ifs
    · next c t _ =>
      change c :: (signChar t).value ++ (signChar t).rest.takeWhile _ ++
        (signChar t).rest.dropWhile _ = c :: t
      rw [List.append_assoc, List.takeWhile_append_dropWhile, List.cons_append, signChar_append]
    · rfl

/-- What `numeral` takes is spelled as a number. -/
theorem exists_of_numeral {r : Read K (c :: s)} (read : numeral c s = .ok r) :
    ∃ n : Unsigned, n.text ++ r.rest = c :: s ∧
      Scalar.ofDecimal n.significand n.power = r.value := by
  unfold numeral at read
  dsimp only at read
  split at read
  · cases read
  · next m e literal =>
    cases read
    obtain ⟨n, text, rfl, rfl⟩ := readUnsigned_eq_some_iff.1 literal
    refine ⟨n, ?_, rfl⟩
    rw [text]
    change c :: (s.takeWhile isNumeral) ++ (exponent (s.dropWhile isNumeral)).value ++
      (exponent (s.dropWhile isNumeral)).rest = c :: s
    rw [List.append_assoc, exponent_append, List.cons_append, List.takeWhile_append_dropWhile]

/-- What `name` takes is `pi`. -/
theorem eq_of_name {r : Read K (c :: s)} (read : name c s = .ok r) :
    ['p', 'i'] ++ r.rest = c :: s ∧ (Scalar.pi : K) = r.value := by
  unfold name at read
  dsimp only at read
  split_ifs at read with pi
  cases read
  refine ⟨?_, rfl⟩
  change ['p', 'i'] ++ s.dropWhile _ = _
  rw [← pi]
  exact congrArg (c :: ·) List.takeWhile_append_dropWhile

theorem reads_name (after : Follows afterFactor s) :
    Reads (name 'p' ('i' :: s)) (Scalar.pi : K) s := by
  have stops : ∀ c ∈ s.head?, c.isAlphanum = false := by
    intro c here
    rcases after.cases here with rfl | rfl | rfl | rfl | rfl <;> decide
  obtain ⟨front, rest⟩ := span_append (a := ['i']) (by simp) stops
  unfold name
  dsimp only [Continued.span]
  rw [List.singleton_append] at front rest
  rw [front, if_pos rfl]
  exact ⟨_, rfl, rfl, rest⟩

theorem signChar_text {c : Char} (digital : c.isDigit = true) (s : Text) (sign : Literal.Sign) :
    (signChar (sign.text ++ c :: s)).value = sign.text ∧
      (signChar (sign.text ++ c :: s)).rest = c :: s := by
  cases sign with
  | plus => exact ⟨rfl, rfl⟩
  | minus => exact ⟨rfl, rfl⟩
  | unsigned =>
    change (signChar (c :: s)).value = [] ∧ (signChar (c :: s)).rest = c :: s
    rw [signChar]
    · exact ⟨rfl, rfl⟩
    all_goals
      rintro t shape
      cases shape
      exact absurd digital (by decide)

theorem exponent_text {n : Unsigned} (stops : Unsigned.Stops s) (whole : t = n.exponentText ++ s) :
    (exponent t).value = n.exponentText ∧ (exponent t).rest = s := by
  subst whole
  unfold Unsigned.exponentText
  cases n.exponent with
  | none =>
    change (exponent s).value = [] ∧ (exponent s).rest = s
    cases s with
    | nil => exact ⟨rfl, rfl⟩
    | cons c s =>
      obtain ⟨-, -, small, capital⟩ := stops c rfl
      rw [exponent, if_neg (not_or.2 ⟨small, capital⟩)]
      exact ⟨rfl, rfl⟩
  | some x =>
    obtain ⟨d, t, shape⟩ := List.exists_cons_of_ne_nil x.nonempty
    have digital : d.isDigit = true := x.digital d (shape ▸ List.mem_cons_self)
    obtain ⟨sign, digits⟩ := signChar_text digital (t ++ s) x.sign
    obtain ⟨front, rest⟩ := span_append x.digital stops.digit
    rw [← List.cons_append, ← shape] at sign digits
    change (exponent (x.letter :: (x.sign.text ++ x.digits ++ s))).value = x.letter :: _ ∧
      (exponent (x.letter :: (x.sign.text ++ x.digits ++ s))).rest = _
    rw [exponent, if_pos x.letter_eq, List.append_assoc]
    change x.letter :: (signChar _).value ++ (signChar _).rest.takeWhile _ = _ ∧
      (signChar _).rest.dropWhile _ = _
    rw [sign, digits, front, rest]
    exact ⟨rfl, rfl⟩

theorem isNumeral_of_head (n : Unsigned) (stops : Unsigned.Stops s) :
    ∀ c ∈ (n.exponentText ++ s).head?, isNumeral c = false := by
  intro c here
  obtain ⟨digit, point⟩ := n.head_exponentText stops here
  simp [isNumeral, digit, point]

theorem not_isAlpha_of_isNumeral (numeric : isNumeral c = true) : ¬ c.isAlpha = true := by
  rcases Bool.or_eq_true_iff.1 numeric with digital | point
  · have range := Decimal.toNat_of_isDigit digital
    simp only [Char.isAlpha, Char.isUpper, Char.isLower, Bool.or_eq_true, Bool.and_eq_true,
      decide_eq_true_eq, UInt32.le_iff_toNat_le, ge_iff_le]
    change ¬ (65 ≤ c.toNat ∧ c.toNat ≤ 90 ∨ 97 ≤ c.toNat ∧ c.toNat ≤ 122)
    omega
  · rw [eq_of_beq point]
    decide

/-- A number is read to its end. -/
theorem reads_numeral {n : Unsigned} {front : Text} (text : n.text = c :: front)
    (stops : Unsigned.Stops s) :
    Reads (numeral c (front ++ s)) (Scalar.ofDecimal n.significand n.power : K) s := by
  obtain ⟨m, shape⟩ : ∃ m, n.mantissa = c :: m ∧ front = m ++ n.exponentText := by
    obtain ⟨d, m, shape, -⟩ := exists_mantissa_cons n
    rw [Unsigned.text, shape] at text
    obtain ⟨rfl, rfl⟩ := List.cons.inj text
    exact ⟨m, shape, rfl⟩
  obtain ⟨mantissa, rfl⟩ := shape
  have numerals : ∀ d ∈ m, isNumeral d = true := fun d mem =>
    isNumeral_of_mem_mantissa n (by rw [mantissa]; exact List.mem_cons_of_mem c mem)
  -- what stands in front of the exponent is taken first, and the exponent from what is left
  obtain ⟨digits, behind⟩ := span_append numerals (isNumeral_of_head n stops)
  rw [List.append_assoc]
  have digits : (Continued.span isNumeral (m ++ (n.exponentText ++ s))).value = m := digits
  obtain ⟨power, rest⟩ := exponent_text
    (t := (Continued.span isNumeral (m ++ (n.exponentText ++ s))).rest) stops behind
  unfold numeral
  dsimp only
  rw [digits, power, List.cons_append, ← text, n.readUnsigned_text]
  exact ⟨_, rfl, rfl, rest⟩

end Lexing

/-! ## One step of the readers -/

theorem sum_chained (s : Text) : sum s = chained (product s : Except _ (Read K s)) moreTerms :=
  sum.eq_def s

theorem product_chained (s : Text) :
    product s = chained (factor s : Except _ (Read K s)) moreFactors :=
  product.eq_def s

theorem moreTerms_next (acc : K) (sign : Sign) (s : Text) : moreTerms acc (sign.char :: s) =
    operated sign.char (chained (product s) fun v => moreTerms (sign.join acc v)) := by
  unfold operated chained
  simp only [bind_assoc]
  cases sign <;> exact moreTerms.eq_def ..

theorem moreFactors_next (acc : K) (ratio : Ratio) (s : Text) : moreFactors acc (ratio.char :: s) =
    operated ratio.char (chained (factor s) fun v => moreFactors (ratio.join acc v)) := by
  unfold operated chained
  simp only [bind_assoc]
  cases ratio <;> exact moreFactors.eq_def ..

theorem factor_signed (sign : Sign) (s : Text) :
    factor (sign.char :: s) = (factor s >>= fun inner : Read K s =>
      .ok ((inner.map sign.apply).behind sign.char)) := by
  cases sign <;> exact factor.eq_def ..

theorem factor_grouped (s : Text) :
    factor ('(' :: s) = (sum s >>= fun inner : Read K s =>
      match Read.char? ')' inner.rest with
      | some close => .ok ((inner.andThen (close.map fun _ => inner.value)).behind '(')
      | none => .error .malformed) :=
  factor.eq_def ..

/-! ## What is read has a derivation -/

section Taken

variable {s t : Text}

variable (K) in
/-- Whatever the reader of expressions takes has a derivation, and so for the other readers. -/
def SumTaken (s : Text) : Prop :=
  ∀ r : Read K s, sum s = .ok r → Taken Expression.text Expression.value s r.rest r.value

def TermsTaken (acc : K) (s : Text) : Prop :=
  ∀ r, moreTerms acc s = .ok r → Taken MoreTerms.text (MoreTerms.onto · acc) s r.rest r.value

variable (K) in
def ProductTaken (s : Text) : Prop :=
  ∀ r : Read K s, product s = .ok r → Taken Term.text Term.value s r.rest r.value

def FactorsTaken (acc : K) (s : Text) : Prop :=
  ∀ r, moreFactors acc s = .ok r → Taken MoreFactors.text (MoreFactors.onto · acc) s r.rest r.value

variable (K) in
def FactorTaken (s : Text) : Prop :=
  ∀ r : Read K s, factor s = .ok r → Taken Factor.text Factor.value s r.rest r.value

theorem eq_of_char? {c : Char} {r : Read Unit s} (read : Read.char? c s = some r) :
    s = c :: r.rest := by
  cases s with
  | nil => cases read
  | cons d s =>
    rw [Read.char?] at read
    split_ifs at read with same
    cases read
    rw [same]
    rfl

theorem sumTaken_of_product (first : ProductTaken K s)
    (more : ∀ r : Read K s, TermsTaken r.value r.rest) : SumTaken K s := by
  intro r read
  rw [sum_chained] at read
  obtain ⟨d, ds, spelled, worth⟩ := taken_chained MoreTerms.onto read first more
  exact ⟨.sum d ds, spelled, worth⟩

theorem termsTaken_next {acc : K} (sign : Sign) (first : ProductTaken K t)
    (more : ∀ r : Read K t, TermsTaken (sign.join acc r.value) r.rest) :
    TermsTaken acc (sign.char :: t) := by
  intro r read
  rw [moreTerms_next] at read
  obtain ⟨operand, taken, same⟩ := bind_eq_ok_iff.1 read
  cases same
  obtain ⟨d, ds, spelled, worth⟩ :=
    taken_chained (fun (ds : MoreTerms) v => ds.onto (sign.join acc v)) taken first more
  exact ⟨.next sign d ds, congrArg _ spelled, worth⟩

theorem termsTaken_done {acc : K} (plus : ∀ t, s = '+' :: t → False)
    (minus : ∀ t, s = '-' :: t → False) : TermsTaken acc s := by
  intro r read
  rw [moreTerms] at read
  · cases read
    exact ⟨.done, rfl, rfl⟩
  · exact plus
  · exact minus

theorem productTaken_of_factor (first : FactorTaken K s)
    (more : ∀ r : Read K s, FactorsTaken r.value r.rest) : ProductTaken K s := by
  intro r read
  rw [product_chained] at read
  obtain ⟨d, ds, spelled, worth⟩ := taken_chained MoreFactors.onto read first more
  exact ⟨.product d ds, spelled, worth⟩

theorem factorsTaken_next {acc : K} (ratio : Ratio) (first : FactorTaken K t)
    (more : ∀ r : Read K t, FactorsTaken (ratio.join acc r.value) r.rest) :
    FactorsTaken acc (ratio.char :: t) := by
  intro r read
  rw [moreFactors_next] at read
  obtain ⟨operand, taken, same⟩ := bind_eq_ok_iff.1 read
  cases same
  obtain ⟨d, ds, spelled, worth⟩ :=
    taken_chained (fun (ds : MoreFactors) v => ds.onto (ratio.join acc v)) taken first more
  exact ⟨.next ratio d ds, congrArg _ spelled, worth⟩

theorem factorsTaken_done {acc : K} (times : ∀ t, s = '*' :: t → False)
    (divided : ∀ t, s = '/' :: t → False) : FactorsTaken acc s := by
  intro r read
  rw [moreFactors] at read
  · cases read
    exact ⟨.done, rfl, rfl⟩
  · exact times
  · exact divided

theorem factorTaken_signed (sign : Sign) (inner : FactorTaken K t) :
    FactorTaken K (sign.char :: t) := by
  intro r read
  rw [factor_signed] at read
  obtain ⟨operand, taken, read⟩ := bind_eq_ok_iff.1 read
  cases read
  obtain ⟨d, spelled, worth⟩ := inner operand taken
  refine ⟨.signed sign d, congrArg _ spelled, ?_⟩
  rw [Factor.value, worth]
  rfl

theorem factorTaken_grouped (inner : SumTaken K t) : FactorTaken K ('(' :: t) := by
  intro r read
  rw [factor_grouped] at read
  obtain ⟨group, taken, read⟩ := bind_eq_ok_iff.1 read
  obtain ⟨d, spelled, worth⟩ := inner group taken
  split at read
  · next close closed =>
    cases read
    exact ⟨.grouped d, congrArg _ (append_behind spelled (eq_of_char? closed).symm), worth⟩
  · cases read

/-- A factor that begins with neither a sign nor a parenthesis is `pi` or a number. -/
theorem factorTaken_other {c : Char} (minus : c ≠ '-') (plus : c ≠ '+') (group : c ≠ '(') :
    FactorTaken K (c :: t) := by
  intro r read
  rw [factor] at read
  · split_ifs at read
    · obtain ⟨spelled, worth⟩ := eq_of_name read
      exact ⟨.pi, spelled, worth⟩
    · obtain ⟨n, spelled, worth⟩ := exists_of_numeral read
      exact ⟨.number n, spelled, worth⟩
  · exact minus
  · exact plus
  · exact group

variable (K) in
/-- What the reader of expressions takes has a derivation: by induction along the calls, with one
of the lemmas above for each way to go on. -/
theorem sumTaken (s : Text) : SumTaken K s :=
  sum.induct (SumTaken K) TermsTaken (ProductTaken K) FactorsTaken (FactorTaken K)
    (fun _ => sumTaken_of_product)
    (fun _ _ => termsTaken_next .plus) (fun _ _ => termsTaken_next .minus)
    (fun _ _ => termsTaken_done)
    (fun _ => productTaken_of_factor)
    (fun _ _ => factorsTaken_next .times) (fun _ _ => factorsTaken_next .divided)
    (fun _ _ => factorsTaken_done)
    (fun r read => by rw [factor] at read; cases read)
    (fun _ => factorTaken_signed .minus) (fun _ => factorTaken_signed .plus)
    (fun _ => factorTaken_grouped)
    (fun _ _ minus plus group _ => factorTaken_other minus plus group)
    (fun _ _ minus plus group _ _ => factorTaken_other minus plus group)
    (fun _ _ minus plus group _ _ => factorTaken_other minus plus group) s

end Taken

/-! ## What has a derivation is read -/

section Reads

variable {acc v v' : K} {s rest rest' : Text}

theorem reads_signed (sign : Sign) (inner : Reads (factor s) v rest) :
    Reads (factor (sign.char :: s)) (sign.apply v) rest := by
  obtain ⟨r, inner, rfl, rfl⟩ := inner
  rw [factor_signed, inner]
  exact ⟨_, rfl, rfl, rfl⟩

theorem reads_grouped (inner : Reads (sum s) v (')' :: rest)) :
    Reads (factor ('(' :: s)) v rest := by
  obtain ⟨⟨_, _, shorter⟩, inner, rfl, rfl⟩ := inner
  rw [factor_grouped, inner]
  exact ⟨_, rfl, rfl, rfl⟩

theorem reads_pi (after : Follows afterFactor s) :
    Reads (factor ('p' :: 'i' :: s)) (Scalar.pi : K) s := by
  rw [factor]
  · exact reads_name after
  all_goals exact fun h => absurd h (by decide)

theorem reads_number (n : Unsigned) (after : Follows afterFactor s) :
    Reads (factor (n.text ++ s)) (Scalar.ofDecimal n.significand n.power : K) s := by
  obtain ⟨c, m, shape, numeric⟩ := exists_mantissa_cons n
  have text : n.text = c :: (m ++ n.exponentText) := by rw [Unsigned.text, shape]; rfl
  have letterless := not_isAlpha_of_isNumeral numeric
  rw [text, List.cons_append, factor]
  · rw [if_neg letterless, if_pos numeric]
    exact reads_numeral text after.stops
  all_goals
    rintro rfl
    exact absurd numeric (by decide)

mutual

theorem Expression.reads : ∀ (d : Expression) {s : Text}, Follows afterExpression s →
    Reads (sum (d.text ++ s)) (d.value : K) s
  | .sum first more, s, after => by
    rw [Expression.text, Expression.value, List.append_assoc]
    rw [sum_chained]
    exact reads_chained (first.reads (more.follows after)) (more.reads _ after)

theorem MoreTerms.reads : ∀ (d : MoreTerms) (acc : K) {s : Text}, Follows afterExpression s →
    GoesOn (moreTerms acc (d.text ++ s)) (d.onto acc) s
  | .done, acc, s, after => by
    rw [MoreTerms.text, List.nil_append, moreTerms]
    · exact ⟨_, rfl, rfl, rfl⟩
    all_goals
      rintro t rfl
      exact absurd (after _ rfl) (by decide)
  | .next sign term more, acc, s, after => by
    rw [MoreTerms.text, MoreTerms.onto, List.cons_append, List.append_assoc, moreTerms_next]
    exact goesOn_operated (reads_chained (term.reads (more.follows after)) (more.reads _ after))

theorem Term.reads : ∀ (d : Term) {s : Text}, Follows afterTerm s →
    Reads (product (d.text ++ s)) (d.value : K) s
  | .product first more, s, after => by
    rw [Term.text, Term.value, List.append_assoc]
    rw [product_chained]
    exact reads_chained (first.reads (more.follows after)) (more.reads _ after)

theorem MoreFactors.reads : ∀ (d : MoreFactors) (acc : K) {s : Text}, Follows afterTerm s →
    GoesOn (moreFactors acc (d.text ++ s)) (d.onto acc) s
  | .done, acc, s, after => by
    rw [MoreFactors.text, List.nil_append, moreFactors]
    · exact ⟨_, rfl, rfl, rfl⟩
    all_goals
      rintro t rfl
      exact absurd (after _ rfl) (by decide)
  | .next ratio factor more, acc, s, after => by
    rw [MoreFactors.text, MoreFactors.onto, List.cons_append, List.append_assoc, moreFactors_next]
    exact goesOn_operated (reads_chained (factor.reads (more.follows after)) (more.reads _ after))

theorem Factor.reads : ∀ (d : Factor) {s : Text}, Follows afterFactor s →
    Reads (factor (d.text ++ s)) (d.value : K) s
  | .signed sign inner, s, after => by
    rw [Factor.text, Factor.value]
    exact reads_signed sign (inner.reads after)
  | .grouped inner, s, after => by
    rw [Factor.text, Factor.value, List.cons_append, List.append_assoc]
    exact reads_grouped (inner.reads (.cons List.mem_cons_self s))
  | .pi, s, after => by
    rw [Factor.text, Factor.value]
    exact reads_pi after
  | .number n, s, after => by
    rw [Factor.text, Factor.value]
    exact reads_number n after

end

end Reads

/-! ## The value of a text -/

section Evaluate

variable {source : Text} {v : K}

/-- A text is worth `v` when, without its white space, it has a derivation that is. -/
theorem evaluate_eq_ok_iff : evaluate source = .ok v ↔
    ∃ d : Expression, d.text = Text.squeeze source ∧ d.value = v ∧ Scalar.isFinite v = true := by
  constructor
  · intro accepted
    unfold evaluate at accepted
    split at accepted
    · cases accepted
    · cases accepted
    · next r read =>
      split_ifs at accepted with left finite
      cases accepted
      obtain ⟨d, spelled, worth⟩ := sumTaken K _ r read
      have none : r.rest = [] := by simpa using left
      rw [none, List.append_nil] at spelled
      exact ⟨d, spelled, worth, finite⟩
  · rintro ⟨d, spelled, rfl, finite⟩
    have whole : Reads (sum (d.text ++ [])) (d.value : K) [] := d.reads nofun
    rw [List.append_nil, spelled] at whole
    obtain ⟨r, read, worth, rest⟩ := whole
    rw [← worth] at finite ⊢
    rw [evaluate, read]
    simp [rest, finite]

end Evaluate

/-- The value of an angle in double precision: a text is worth `v` when the text without its white
space has a derivation with the finite value `v`. There is no more than one derivation, and a
text without one of a finite value is refused as an invalid circuit. -/
theorem evaluate_by_derivation (source : Text) :
    (∀ v : Float, evaluate source = .ok v ↔
      ∃ d : Expression, d.text = Text.squeeze source ∧ d.value = v ∧ v.isFinite = true) ∧
    (∀ d d' : Expression, d.text = Text.squeeze source → d'.text = Text.squeeze source → d = d') ∧
    ((¬ ∃ d : Expression, d.text = Text.squeeze source ∧ (d.value : Float).isFinite = true) →
      ∃ fault, (evaluate source : Except AngleFault Float) = .error fault ∧
        (Fault.angle fault : Fault Float).kind = .invalidCircuit) := by
  have accepted (v : Float) : evaluate source = .ok v ↔
      ∃ d : Expression, d.text = Text.squeeze source ∧ d.value = v ∧ v.isFinite = true := by
    have finite : Scalar.isFinite v = true ↔ v.isFinite = true := Double.isFinite_iff v
    rw [evaluate_eq_ok_iff, finite]
  refine ⟨accepted, fun d d' here there => ?_, fun underivable => ?_⟩
  · exact Expression.text_injective (here.trans there.symm)
  · cases outcome : (evaluate source : Except AngleFault Float) with
    | error fault => exact ⟨fault, rfl, rfl⟩
    | ok v =>
      obtain ⟨d, spelled, rfl, finite⟩ := (accepted v).1 outcome
      exact absurd ⟨d, spelled, finite⟩ underivable

/-- The sign goes with the factor behind it, the operators go from the left. -/
theorem evaluate_by_derivation_quotient :
    evaluate " -8/pi * 2".toList = .ok (-(8 : Float) / Scalar.pi * 2) := by
  have one (c : Char) (digital : c.isDigit = true) : ∃ n : Unsigned, n.text = [c] ∧
      n.significand = Decimal.value [c] ∧ n.power = 0 :=
    ⟨⟨[c], none, none, List.forall_mem_singleton.2 digital, List.cons_ne_nil _ _⟩, rfl, rfl, rfl⟩
  obtain ⟨eight, text, significand, power⟩ := one '8' rfl
  obtain ⟨two, text', significand', power'⟩ := one '2' rfl
  refine ((evaluate_by_derivation _).1 _).2 ⟨.sum (.product (.signed .minus (.number eight))
    (.next .divided .pi (.next .times (.number two) .done))) .done, ?_, ?_, by decide +kernel⟩
  · simp only [Expression.text, Term.text, Factor.text, MoreFactors.text, MoreTerms.text, text,
      text']
    decide +kernel
  · simp only [Expression.value, Term.value, Factor.value, MoreFactors.onto, MoreTerms.onto,
      significand, power, significand', power']
    change -Scalar.ofDecimal 8 0 / Scalar.pi * Scalar.ofDecimal 2 0 = _
    have numbers : (Scalar.ofDecimal 8 0 : Float) = 8 ∧ (Scalar.ofDecimal 2 0 : Float) = 2 := by
      decide +kernel
    rw [numbers.1, numbers.2]

end QubitTrace.Angle
