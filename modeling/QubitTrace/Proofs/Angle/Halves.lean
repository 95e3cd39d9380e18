import Mathlib
import QubitTrace.Proofs.Angle.Derivation
import QubitTrace.Proofs.Program.Operand

/-! # White space between operands

No derivation puts two operands next to each other: where a letter, a digit or a point follows
another one in its text, both belong to one operand (`Expression.unbroken`). So a text whose
white space parts two operands is refused, as malformed or for a name that is not `pi`, and white
space is passed over without notice only inside an operand (`evaluate_apart`). There it does join
two halves into one, as the `1` and the `2` of `1 2` (`not_forall_apart_refused`).
-/

namespace QubitTrace.Angle
set_option autoImplicit false

open Literal (Unsigned)
open Text (Read Continued)

/-- The characters of names and numbers. -/
def isOperandChar (c : Char) : Bool := c.isAlphanum || c == '.'

/-- The texts of the two kinds of operands. -/
inductive Operand : Text → Prop where
  | pi : Operand ['p', 'i']
  | number (n : Unsigned) : Operand n.text

/-- Whether the last character of a text is one of an operand. -/
def endsInOperand (s : Text) : Bool := s.getLast?.any isOperandChar

/-- Whether the first character of a text is one of an operand. -/
def startsInOperand (s : Text) : Bool := s.head?.any isOperandChar

/-- The first text ends, and the second begins, with a letter, a digit or a point. -/
def Touching (s t : Text) : Prop := endsInOperand s = true ∧ startsInOperand t = true

/-- The first text ends in the middle of an operand that the second one goes on with. No letter,
digit or point stands right in front of that operand or right behind it. -/
def Halved (s t : Text) : Prop :=
  ∃ before front back after, s = before ++ front ∧ t = back ++ after ∧ front ≠ [] ∧ back ≠ [] ∧
    Operand (front ++ back) ∧ endsInOperand before = false ∧ startsInOperand after = false

/-- Wherever a letter, a digit or a point follows another one, both belong to one operand. -/
def Unbroken (s : Text) : Prop := ∀ l r, s = l ++ r → Touching l r → Halved l r

section Ends

variable {c : Char} {s t : Text}

theorem endsInOperand_append (some : t ≠ []) : endsInOperand (s ++ t) = endsInOperand t := by
  rw [endsInOperand, List.getLast?_append_of_ne_nil _ some]
  rfl

theorem endsInOperand_cons (some : s ≠ []) : endsInOperand (c :: s) = endsInOperand s :=
  endsInOperand_append (s := [c]) some

theorem startsInOperand_append (some : s ≠ []) :
    startsInOperand (s ++ t) = startsInOperand s := by
  rw [startsInOperand, List.head?_append_of_ne_nil _ some]
  rfl

theorem Touching.left_ne_nil (touching : Touching s t) : s ≠ [] := by
  rintro rfl
  cases touching.1

theorem Touching.right_ne_nil (touching : Touching s t) : t ≠ [] := by
  rintro rfl
  cases touching.2

end Ends

/-! ## Deciding -/

section Decide

variable {s t : Text}

theorem operand_iff : Operand s ↔ s = ['p', 'i'] ∨ (Literal.readUnsigned s).isSome = true := by
  constructor
  · rintro (_ | n)
    · exact .inl rfl
    · exact .inr (by rw [n.readUnsigned_text]; rfl)
  · rintro (rfl | literal)
    · exact .pi
    · obtain ⟨⟨m, e⟩, read⟩ := Option.isSome_iff_exists.1 literal
      obtain ⟨n, rfl, -⟩ := Literal.readUnsigned_eq_some_iff.1 read
      exact .number n

instance : Decidable (Operand s) := decidable_of_iff _ operand_iff.symm

instance : Decidable (Touching s t) := inferInstanceAs (Decidable (_ ∧ _))

/-- The halves are found among the ends of the one text and the beginnings of the other. -/
theorem halved_iff : Halved s t ↔ ∃ i < s.length, ∃ j < t.length,
    Operand (s.drop i ++ t.take (j + 1)) ∧ endsInOperand (s.take i) = false ∧
      startsInOperand (t.drop (j + 1)) = false := by
  constructor
  · rintro ⟨before, front, back, after, rfl, rfl, some, more, one, clear, free⟩
    have left := List.length_pos_iff.2 some
    have right := List.length_pos_iff.2 more
    refine ⟨before.length, by rw [List.length_append]; omega, back.length - 1,
      by rw [List.length_append]; omega, ?_⟩
    rw [Nat.sub_add_cancel right, List.drop_left, List.take_left, List.take_left, List.drop_left]
    exact ⟨one, clear, free⟩
  · rintro ⟨i, hi, j, hj, one, clear, free⟩
    refine ⟨s.take i, s.drop i, t.take (j + 1), t.drop (j + 1), (List.take_append_drop ..).symm,
      (List.take_append_drop ..).symm, ?_, ?_, one, clear, free⟩
    · exact List.ne_nil_of_length_pos (by rw [List.length_drop]; omega)
    · exact List.ne_nil_of_length_pos (by rw [List.length_take]; omega)

instance : Decidable (Halved s t) := decidable_of_iff _ halved_iff.symm

end Decide

/-! ## Texts put together from operands -/

section Unbroken

variable {c : Char} {s t : Text}

theorem isOperandChar_of_isNumeral (numeric : isNumeral c = true) : isOperandChar c = true := by
  rcases Bool.or_eq_true_iff.1 numeric with digit | point
  · simp [isOperandChar, Char.isAlphanum, digit]
  · simp [isOperandChar, point]

theorem Operand.starts (operand : Operand s) : startsInOperand s = true := by
  cases operand with
  | pi => rfl
  | number n =>
    obtain ⟨c, t, shape, numeric⟩ := exists_mantissa_cons n
    rw [Unsigned.text, shape]
    exact isOperandChar_of_isNumeral numeric

theorem Operand.unbroken (operand : Operand s) : Unbroken s := by
  rintro l r rfl touching
  exact ⟨[], l, r, [], rfl, (List.append_nil r).symm, touching.left_ne_nil, touching.right_ne_nil,
    operand, rfl, rfl⟩

theorem unbroken_nil : Unbroken [] := fun _ _ same touching =>
  absurd (List.append_eq_nil_iff.1 same.symm).1 touching.left_ne_nil

/-- Something else than a letter, a digit or a point may stand in front. -/
theorem unbroken_cons (other : isOperandChar c = false) (whole : Unbroken s) :
    Unbroken (c :: s) := by
  intro l r same touching
  rcases List.cons_eq_append_iff.1 same with ⟨rfl, -⟩ | ⟨l, rfl, rfl⟩
  · exact absurd rfl touching.left_ne_nil
  · have nonempty : l ≠ [] := by
      rintro rfl
      exact Bool.false_ne_true (other.symm.trans touching.1)
    have inside : Touching l r := ⟨endsInOperand_cons nonempty ▸ touching.1, touching.2⟩
    obtain ⟨before, front, back, after, rfl, rfl, some, more, one, clear, free⟩ :=
      whole l r rfl inside
    refine ⟨c :: before, front, back, after, rfl, rfl, some, more, one, ?_, free⟩
    cases before with
    | nil => exact other
    | cons b before => rwa [endsInOperand_cons (List.cons_ne_nil b before)]

/-- Two such texts may stand one behind the other unless the second begins with a letter, a digit
or a point. -/
theorem unbroken_append (left : Unbroken s) (right : Unbroken t)
    (breaks : startsInOperand t = false) : Unbroken (s ++ t) := by
  intro l r same touching
  have behind : r ≠ t := by
    rintro rfl
    exact Bool.false_ne_true (breaks.symm.trans touching.2)
  rcases List.append_eq_append_iff.1 same with ⟨m, rfl, rfl⟩ | ⟨m, rfl, rfl⟩
  · -- the cut is in the second text, whose first character is part of no operand
    have nonempty : m ≠ [] := by
      rintro rfl
      exact behind rfl
    obtain ⟨before, front, back, after, rfl, rfl, some, more, one, clear, free⟩ :=
      right m r rfl ⟨endsInOperand_append nonempty ▸ touching.1, touching.2⟩
    have standing : before ≠ [] := by
      rintro rfl
      rw [List.nil_append, startsInOperand_append some] at breaks
      rw [← startsInOperand_append (t := back) some, one.starts] at breaks
      cases breaks
    refine ⟨s ++ before, front, back, after, (List.append_assoc ..).symm, rfl, some, more, one,
      ?_, free⟩
    rwa [endsInOperand_append standing]
  · -- the cut is in the first text
    have nonempty : m ≠ [] := by
      rintro rfl
      exact behind rfl
    obtain ⟨before, front, back, after, rfl, rfl, some, more, one, clear, free⟩ :=
      left l m rfl ⟨touching.1, startsInOperand_append nonempty ▸ touching.2⟩
    refine ⟨before, front, back, after ++ t, rfl, List.append_assoc .., some, more, one, clear, ?_⟩
    cases after with
    | nil => exact breaks
    | cons a after => exact free

end Unbroken

/-! ## Derivations -/

/-- What may follow a factor is no part of an operand. -/
theorem Follows.breaks {s : Text} (after : Follows afterFactor s) : startsInOperand s = false := by
  cases s with
  | nil => rfl
  | cons c s =>
    rcases after.cases (c := c) rfl with rfl | rfl | rfl | rfl | rfl <;> rfl

theorem MoreFactors.breaks (more : MoreFactors) : startsInOperand more.text = false := by
  have after := more.follows (s := []) nofun
  rw [List.append_nil] at after
  exact after.breaks

theorem MoreTerms.breaks (more : MoreTerms) : startsInOperand more.text = false := by
  have after := more.follows (s := []) nofun
  rw [List.append_nil] at after
  exact Follows.breaks fun c here => List.mem_cons_of_mem _ (List.mem_cons_of_mem _ (after c here))

theorem Sign.isOperandChar_char (sign : Sign) : isOperandChar sign.char = false := by
  cases sign <;> rfl

theorem Ratio.isOperandChar_char (ratio : Ratio) : isOperandChar ratio.char = false := by
  cases ratio <;> rfl

mutual

/-- No derivation puts two operands next to each other. -/
theorem Expression.unbroken : ∀ d : Expression, Unbroken d.text
  | .sum first more => by
    rw [Expression.text]
    exact unbroken_append first.unbroken more.unbroken more.breaks

theorem MoreTerms.unbroken : ∀ d : MoreTerms, Unbroken d.text
  | .done => by
    rw [MoreTerms.text]
    exact unbroken_nil
  | .next sign term more => by
    rw [MoreTerms.text]
    exact unbroken_cons sign.isOperandChar_char
      (unbroken_append term.unbroken more.unbroken more.breaks)

theorem Term.unbroken : ∀ d : Term, Unbroken d.text
  | .product first more => by
    rw [Term.text]
    exact unbroken_append first.unbroken more.unbroken more.breaks

theorem MoreFactors.unbroken : ∀ d : MoreFactors, Unbroken d.text
  | .done => by
    rw [MoreFactors.text]
    exact unbroken_nil
  | .next ratio factor more => by
    rw [MoreFactors.text]
    exact unbroken_cons ratio.isOperandChar_char
      (unbroken_append factor.unbroken more.unbroken more.breaks)

theorem Factor.unbroken : ∀ d : Factor, Unbroken d.text
  | .signed sign inner => by
    rw [Factor.text]
    exact unbroken_cons sign.isOperandChar_char inner.unbroken
  | .grouped inner => by
    rw [Factor.text]
    exact unbroken_cons rfl
      (unbroken_append inner.unbroken (unbroken_cons rfl unbroken_nil) rfl)
  | .pi => by
    rw [Factor.text]
    exact Operand.pi.unbroken
  | .number n => by
    rw [Factor.text]
    exact (Operand.number n).unbroken

end

/-! ## What a reader leaves and names -/

/-- What a reader leaves of a text is an end of it, and a name it stops at stands in the text and
is not `pi`. -/
def Within {α : Type} (s : Text) (rest : α → Text) (outcome : Except Obstacle α) : Prop :=
  (∀ r, outcome = .ok r → rest r <:+ s) ∧
    ∀ name, outcome = .error (.unknownName name) → name <:+: s ∧ name ≠ ['p', 'i']

section Within

variable {α β : Type} {s t : Text} {rest : α → Text} {rest' : β → Text}

theorem within_ok {r : α} (left : rest r <:+ s) : Within s rest (.ok r) :=
  ⟨fun _ same => by cases same; exact left, nofun⟩

theorem within_malformed : Within s rest (.error .malformed) := ⟨nofun, nofun⟩

/-- A reader goes on within what was left to it. -/
theorem within_bind {x : Except Obstacle α} {f : α → Except Obstacle β} (first : Within s rest x)
    (next : ∀ r, Within (rest r) rest' (f r)) : Within s rest' (x >>= f) := by
  constructor
  · intro r read
    obtain ⟨r', taken, read⟩ := bind_eq_ok_iff.1 read
    exact ((next r').1 r read).trans (first.1 r' taken)
  · intro name stopped
    rcases bind_eq_error_iff.1 stopped with here | ⟨r, taken, later⟩
    · exact first.2 name here
    · obtain ⟨stands, unknown⟩ := (next r).2 name later
      exact ⟨stands.trans (first.1 r taken).isInfix, unknown⟩

theorem Within.cons {x : Except Obstacle α} (within : Within s rest x) (c : Char) :
    Within (c :: s) rest x :=
  ⟨fun r read => (within.1 r read).trans (List.suffix_cons c s), fun name stopped =>
    ⟨(within.2 name stopped).1.trans (List.suffix_cons c s).isInfix, (within.2 name stopped).2⟩⟩

end Within

section Readers

variable {K : Type} {s t : Text}

theorem within_chained {first : Except Obstacle (Read K s)}
    {more : K → (rest : Text) → Except Obstacle (Continued K rest)}
    (front : Within s Read.rest first)
    (back : ∀ r : Read K s, Within r.rest Continued.rest (more r.value r.rest)) :
    Within s Read.rest (chained first more) :=
  within_bind front fun r => within_bind (back r) fun all => within_ok (List.suffix_refl all.rest)

theorem within_operated (c : Char) {operand : Except Obstacle (Read K s)}
    (within : Within s Read.rest operand) : Within (c :: s) Continued.rest (operated c operand) :=
  within_bind (within.cons c) fun r => within_ok (List.suffix_refl r.rest)

variable [Scalar K]

theorem within_name (c : Char) (t : Text) :
    Within (c :: t) Read.rest (name c t : Except Obstacle (Read K (c :: t))) := by
  have front : c :: t.takeWhile Char.isAlphanum <+: c :: t :=
    (List.prefix_cons_inj c).2 (List.takeWhile_prefix _)
  unfold name
  dsimp only [Continued.span]
  split_ifs with pi
  · exact within_ok ((List.dropWhile_suffix _).trans (List.suffix_cons c t))
  · refine ⟨nofun, fun name stopped => ?_⟩
    cases stopped
    exact ⟨front.isInfix, pi⟩

theorem within_numeral (c : Char) (t : Text) :
    Within (c :: t) Read.rest (numeral c t : Except Obstacle (Read K (c :: t))) := by
  have left : (exponent (t.dropWhile isNumeral)).rest <:+ t :=
    List.IsSuffix.trans ⟨_, exponent_append _⟩ (List.dropWhile_suffix _)
  unfold numeral
  dsimp only [Continued.span]
  split
  · exact within_malformed
  · exact within_ok (left.trans (List.suffix_cons c t))

theorem within_sum (first : Within s Read.rest (product s : Except _ (Read K s)))
    (more : ∀ r : Read K s, Within r.rest Continued.rest (moreTerms r.value r.rest)) :
    Within s Read.rest (sum s : Except _ (Read K s)) := by
  rw [sum_chained]
  exact within_chained first more

theorem within_moreTerms {acc : K} (sign : Sign)
    (first : Within t Read.rest (product t : Except _ (Read K t)))
    (more : ∀ r : Read K t,
      Within r.rest Continued.rest (moreTerms (sign.join acc r.value) r.rest)) :
    Within (sign.char :: t) Continued.rest (moreTerms acc (sign.char :: t)) := by
  rw [moreTerms_next]
  exact within_operated sign.char (within_chained first more)

theorem within_moreTerms_done {acc : K} (plus : ∀ t, s = '+' :: t → False)
    (minus : ∀ t, s = '-' :: t → False) : Within s Continued.rest (moreTerms acc s) := by
  rw [moreTerms]
  · exact within_ok (List.suffix_refl s)
  · exact plus
  · exact minus

theorem within_product (first : Within s Read.rest (factor s : Except _ (Read K s)))
    (more : ∀ r : Read K s, Within r.rest Continued.rest (moreFactors r.value r.rest)) :
    Within s Read.rest (product s : Except _ (Read K s)) := by
  rw [product_chained]
  exact within_chained first more

theorem within_moreFactors {acc : K} (ratio : Ratio)
    (first : Within t Read.rest (factor t : Except _ (Read K t)))
    (more : ∀ r : Read K t,
      Within r.rest Continued.rest (moreFactors (ratio.join acc r.value) r.rest)) :
    Within (ratio.char :: t) Continued.rest (moreFactors acc (ratio.char :: t)) := by
  rw [moreFactors_next]
  exact within_operated ratio.char (within_chained first more)

theorem within_moreFactors_done {acc : K} (times : ∀ t, s = '*' :: t → False)
    (divided : ∀ t, s = '/' :: t → False) : Within s Continued.rest (moreFactors acc s) := by
  rw [moreFactors]
  · exact within_ok (List.suffix_refl s)
  · exact times
  · exact divided

theorem within_factor_signed (sign : Sign)
    (inner : Within t Read.rest (factor t : Except _ (Read K t))) :
    Within (sign.char :: t) Read.rest (factor (sign.char :: t) : Except _ (Read K _)) := by
  rw [factor_signed]
  exact within_bind (inner.cons sign.char) fun r => within_ok (List.suffix_refl r.rest)

theorem within_factor_grouped (inner : Within t Read.rest (sum t : Except _ (Read K t))) :
    Within ('(' :: t) Read.rest (factor ('(' :: t) : Except _ (Read K _)) := by
  rw [factor_grouped]
  refine within_bind (inner.cons '(') fun group => ?_
  split
  · next close closed =>
    have left : close.rest <:+ group.rest := ⟨[')'], (eq_of_char? closed).symm⟩
    exact within_ok left
  · exact within_malformed

theorem within_factor_other {c : Char} (minus : c ≠ '-') (plus : c ≠ '+') (group : c ≠ '(') :
    Within (c :: t) Read.rest (factor (c :: t) : Except _ (Read K _)) := by
  rw [factor]
  · split_ifs
    · exact within_name c t
    · exact within_numeral c t
    · exact within_malformed
  · exact minus
  · exact plus
  · exact group

variable (K) in
/-- The reader of expressions keeps within its text, by induction along the calls of the readers. -/
theorem within_of_sum (s : Text) : Within s Read.rest (sum s : Except _ (Read K s)) :=
  sum.induct (fun s => Within s Read.rest (sum s : Except _ (Read K s)))
    (fun acc s => Within s Continued.rest (moreTerms acc s))
    (fun s => Within s Read.rest (product s : Except _ (Read K s)))
    (fun acc s => Within s Continued.rest (moreFactors acc s))
    (fun s => Within s Read.rest (factor s : Except _ (Read K s)))
    (fun _ => within_sum)
    (fun _ _ => within_moreTerms .plus) (fun _ _ => within_moreTerms .minus)
    (fun _ _ => within_moreTerms_done)
    (fun _ => within_product)
    (fun _ _ => within_moreFactors .times) (fun _ _ => within_moreFactors .divided)
    (fun _ _ => within_moreFactors_done)
    (by rw [factor]; exact within_malformed)
    (fun _ => within_factor_signed .minus) (fun _ => within_factor_signed .plus)
    (fun _ => within_factor_grouped)
    (fun _ _ minus plus group _ => within_factor_other minus plus group)
    (fun _ _ minus plus group _ _ => within_factor_other minus plus group)
    (fun _ _ minus plus group _ _ => within_factor_other minus plus group) s

/-- A text without a derivation is malformed, or it holds a name that is not `pi`. -/
theorem evaluate_of_underivable {source : Text}
    (underivable : ¬ ∃ d : Expression, d.text = Text.squeeze source) :
    ∃ fault, (evaluate source : Except AngleFault K) = .error fault ∧
      (fault = .malformed (Text.trim source) ∨ ∃ name, fault = .unknownName name ∧
        name <:+: Text.squeeze source ∧ name ≠ ['p', 'i']) := by
  unfold evaluate
  split
  · exact ⟨_, rfl, .inl rfl⟩
  · next name stopped =>
    exact ⟨_, rfl, .inr ⟨name, rfl, (within_of_sum K _).2 name stopped⟩⟩
  · next r read =>
    split_ifs with left
    · exact ⟨_, rfl, .inl rfl⟩
    all_goals
      obtain ⟨d, spelled, -⟩ := sumTaken K _ r read
      have none : r.rest = [] := by simpa using left
      rw [none, List.append_nil] at spelled
      exact absurd ⟨d, spelled⟩ underivable

end Readers

/-! ## White space -/

section Space

variable {a b : Text} {c : Char}

theorem isBlank_of_isOperandChar (operand : isOperandChar c = true) : Text.isBlank c = false := by
  rcases Bool.or_eq_true_iff.1 operand with letter | point
  · have := Program.toNat_of_isAlphanum letter
    exact Text.isBlank_of_ascii (by omega) (by omega)
  · rw [eq_of_beq point]
    rfl

/-- The ends of two texts that touch stay when the white space is taken out. -/
theorem Touching.squeeze (touching : Touching a b) :
    Touching (Text.squeeze a) (Text.squeeze b) := by
  obtain ⟨c, last, left⟩ := (Option.any_eq_true ..).1 touching.1
  obtain ⟨d, first, right⟩ := (Option.any_eq_true ..).1 touching.2
  obtain ⟨a, rfl⟩ := List.getLast?_eq_some_iff.1 last
  obtain ⟨b, rfl⟩ := List.head?_eq_some_iff.1 first
  constructor
  · simp [Text.squeeze, isBlank_of_isOperandChar left, endsInOperand, left]
  · simp [Text.squeeze, isBlank_of_isOperandChar right, startsInOperand, right]

theorem squeeze_append_blank (a b : Text) :
    Text.squeeze (a ++ ' ' :: b) = Text.squeeze a ++ Text.squeeze b := by
  rw [Text.squeeze, List.filter_append, List.filter_cons_of_neg (by decide)]
  rfl

end Space

/-- White space between a letter, a digit or a point and another one. It is refused as an invalid
circuit unless it parts two halves of one number or of `pi`, and nothing of an operand stands in
front of these or behind them: the angle is malformed then, or it holds a name that is not `pi`, by
which it is refused. Between two halves of one operand the white space means nothing, and the angle
is worth what it is worth without it. -/
theorem evaluate_apart {a b : Text} (touching : Touching a b) :
    (¬ Halved (Text.squeeze a) (Text.squeeze b) →
      ∃ fault, (evaluate (a ++ ' ' :: b) : Except AngleFault Float) = .error fault ∧
        (Fault.angle fault : Fault Float).kind = .invalidCircuit ∧
        (fault = .malformed (Text.trim (a ++ ' ' :: b)) ∨ ∃ name, fault = .unknownName name ∧
          name <:+: Text.squeeze a ++ Text.squeeze b ∧ name ≠ ['p', 'i'])) ∧
    ∀ v : Float, evaluate (a ++ ' ' :: b) = .ok v ↔
      Halved (Text.squeeze a) (Text.squeeze b) ∧ evaluate (a ++ b) = .ok v := by
  have squeezed := squeeze_append_blank a b
  have together : Text.squeeze (a ++ b) = Text.squeeze a ++ Text.squeeze b :=
    List.filter_append ..
  have halved : (∃ d : Expression, d.text = Text.squeeze (a ++ ' ' :: b)) →
      Halved (Text.squeeze a) (Text.squeeze b) := by
    rintro ⟨d, spelled⟩
    exact d.unbroken _ _ (spelled.trans squeezed) touching.squeeze
  constructor
  · intro apart
    obtain ⟨fault, refused, reason⟩ := evaluate_of_underivable (K := Float) (apart ∘ halved)
    rw [squeezed] at reason
    exact ⟨fault, refused, rfl, reason⟩
  · intro v
    rw [evaluate_eq_ok_iff, evaluate_eq_ok_iff, together, ← squeezed]
    constructor
    · rintro ⟨d, spelled, worth⟩
      exact ⟨halved ⟨d, spelled⟩, d, spelled, worth⟩
    · exact And.right

/-- Two numbers beside each other are refused. -/
theorem evaluate_apart_numbers :
    Touching "2*1.5".toList "2.5/pi".toList ∧ ¬ Halved "2*1.5".toList "2.5/pi".toList ∧
    ∃ fault, (evaluate "2*1.5 2.5/pi".toList : Except AngleFault Float) = .error fault ∧
      (Fault.angle fault : Fault Float).kind = .invalidCircuit := by
  have touching : Touching "2*1.5".toList "2.5/pi".toList := by decide +kernel
  have apart : ¬ Halved "2*1.5".toList "2.5/pi".toList := by decide +kernel
  obtain ⟨fault, refused, kind, -⟩ := (evaluate_apart touching).1 apart
  exact ⟨touching, apart, fault, refused, kind⟩

/-- White space does join two halves of a number: `1 2` is worth twelve. -/
theorem not_forall_apart_refused :
    ¬ ∀ a b : Text, Touching a b →
      ∃ fault, (evaluate (a ++ ' ' :: b) : Except AngleFault Float) = .error fault := by
  intro refused
  let twelve : Unsigned := ⟨['1', '2'], none, none,
    List.forall_mem_cons.2 ⟨rfl, List.forall_mem_singleton.2 rfl⟩, List.cons_ne_nil _ _⟩
  have spelled : (Expression.single (.number twelve)).text = Text.squeeze "1 2".toList := by
    rw [Expression.text_single, Factor.text]
    decide +kernel
  have worth : (evaluate "1 2".toList : Except AngleFault Float) =
      .ok (Expression.single (.number twelve)).value := by
    refine evaluate_eq_ok_iff.2 ⟨_, spelled, rfl, ?_⟩
    rw [Expression.value_single, Factor.value]
    decide +kernel
  obtain ⟨fault, refusal⟩ := refused ['1'] ['2'] ⟨rfl, rfl⟩
  cases worth.symm.trans refusal

end QubitTrace.Angle
