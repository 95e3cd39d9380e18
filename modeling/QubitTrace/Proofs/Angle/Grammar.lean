import Mathlib
import QubitTrace.Angle
import QubitTrace.Proofs.Decimal.Unsigned

/-! # The grammar of angles

An expression is a sum of terms, a term a product of factors, and a factor a signed factor, an
expression in parentheses, `pi` or a number. The trees below are the derivations: `text` is what a
derivation spells and `value` what it is worth, the operators taken from the left.

No text has two derivations (`Expression.text_injective`). A derivation is followed by an operator
of a lower rank, by a closing parenthesis or by nothing (`Follows`), and in front of such a text it
is known from the whole: at every place the next character tells which rule was applied.
-/

namespace QubitTrace.Angle
set_option autoImplicit false

open Literal (Unsigned)

/-- What joins terms, and what signs factors. -/
inductive Sign where
  | plus
  | minus

/-- What joins factors. -/
inductive Ratio where
  | times
  | divided

mutual

/-- `E ::= T (('+' | '-') T)*` -/
inductive Expression where
  | sum (first : Term) (more : MoreTerms)

inductive MoreTerms where
  | done
  | next (sign : Sign) (term : Term) (more : MoreTerms)

/-- `T ::= F (('*' | '/') F)*` -/
inductive Term where
  | product (first : Factor) (more : MoreFactors)

inductive MoreFactors where
  | done
  | next (ratio : Ratio) (factor : Factor) (more : MoreFactors)

/-- `F ::= '-' F | '+' F | '(' E ')' | 'pi' | number` -/
inductive Factor where
  | signed (sign : Sign) (inner : Factor)
  | grouped (inner : Expression)
  | pi
  | number (literal : Unsigned)

end

/-! ## Spelling -/

def Sign.char : Sign → Char
  | plus => '+'
  | minus => '-'

def Ratio.char : Ratio → Char
  | times => '*'
  | divided => '/'

mutual

def Expression.text : Expression → Text
  | .sum first more => first.text ++ more.text

def MoreTerms.text : MoreTerms → Text
  | .done => []
  | .next sign term more => sign.char :: (term.text ++ more.text)

def Term.text : Term → Text
  | .product first more => first.text ++ more.text

def MoreFactors.text : MoreFactors → Text
  | .done => []
  | .next ratio factor more => ratio.char :: (factor.text ++ more.text)

def Factor.text : Factor → Text
  | .signed sign inner => sign.char :: inner.text
  | .grouped inner => '(' :: (inner.text ++ [')'])
  | .pi => ['p', 'i']
  | .number literal => literal.text

end

/-! ## Value -/

section Value

variable {K : Type} [Scalar K]

def Sign.join : Sign → K → K → K
  | plus, x, y => x + y
  | minus, x, y => x - y

def Sign.apply : Sign → K → K
  | plus, x => x
  | minus, x => -x

def Ratio.join : Ratio → K → K → K
  | times, x, y => x * y
  | divided, x, y => x / y

mutual

def Expression.value : Expression → K
  | .sum first more => more.onto first.value

/-- The sum that starts with the value so far. -/
def MoreTerms.onto : MoreTerms → K → K
  | .done, acc => acc
  | .next sign term more, acc => more.onto (sign.join acc term.value)

def Term.value : Term → K
  | .product first more => more.onto first.value

/-- The product that starts with the value so far. -/
def MoreFactors.onto : MoreFactors → K → K
  | .done, acc => acc
  | .next ratio factor more, acc => more.onto (ratio.join acc factor.value)

def Factor.value : Factor → K
  | .signed sign inner => sign.apply inner.value
  | .grouped inner => inner.value
  | .pi => Scalar.pi
  | .number literal => Scalar.ofDecimal literal.significand literal.power

end

/-- The expression that is one factor. -/
def Expression.single (d : Factor) : Expression := .sum (.product d .done) .done

theorem Expression.text_single (d : Factor) : (single d).text = d.text := by
  simp only [single, Expression.text, Term.text, MoreFactors.text, MoreTerms.text, List.append_nil]

theorem Expression.value_single (d : Factor) : (single d).value = (d.value : K) := by
  simp only [single, Expression.value, Term.value, MoreFactors.onto, MoreTerms.onto]

end Value

/-! ## What follows -/

/-- The text is at its end or goes on with one of the characters. -/
def Follows (chars : List Char) (s : Text) : Prop := ∀ c ∈ s.head?, c ∈ chars

/-- What may follow an expression, a term and a factor. -/
def afterExpression : List Char := [')']

def afterTerm : List Char := '+' :: '-' :: afterExpression

def afterFactor : List Char := '*' :: '/' :: afterTerm

section Follow

variable {s t : Text}

theorem Follows.cons {chars : List Char} {c : Char} (mem : c ∈ chars) (s : Text) :
    Follows chars (c :: s) := by
  rintro d ⟨⟩
  exact mem

theorem Sign.char_mem (sign : Sign) : sign.char ∈ afterTerm := by
  cases sign <;> decide

theorem Ratio.char_mem (ratio : Ratio) : ratio.char ∈ afterFactor := by
  cases ratio <;> decide

theorem Sign.char_not_mem (sign : Sign) : sign.char ∉ afterExpression := by
  cases sign <;> decide

theorem Ratio.char_not_mem (ratio : Ratio) : ratio.char ∉ afterTerm := by
  cases ratio <;> decide

theorem Sign.char_injective : Function.Injective Sign.char := by
  rintro ⟨⟩ ⟨⟩ h <;> first | rfl | cases h

theorem Ratio.char_injective : Function.Injective Ratio.char := by
  rintro ⟨⟩ ⟨⟩ h <;> first | rfl | cases h

/-- A term is followed by a sign, or by what follows the expression. -/
theorem MoreTerms.follows (more : MoreTerms) (after : Follows afterExpression s) :
    Follows afterTerm (more.text ++ s) := by
  cases more with
  | done => exact fun c here => List.mem_cons_of_mem _ (List.mem_cons_of_mem _ (after c here))
  | next sign => exact .cons sign.char_mem _

/-- A factor is followed by an operator on factors, or by what follows the term. -/
theorem MoreFactors.follows (more : MoreFactors) (after : Follows afterTerm s) :
    Follows afterFactor (more.text ++ s) := by
  cases more with
  | done => exact fun c here => List.mem_cons_of_mem _ (List.mem_cons_of_mem _ (after c here))
  | next ratio => exact .cons ratio.char_mem _

theorem Follows.cases (after : Follows afterFactor s) {c : Char} (here : c ∈ s.head?) :
    c = '*' ∨ c = '/' ∨ c = '+' ∨ c = '-' ∨ c = ')' := by
  simpa [afterFactor, afterTerm, afterExpression] using after c here

/-- A number cannot go on with what may follow it. -/
theorem Follows.stops (after : Follows afterFactor s) : Unsigned.Stops s := by
  intro c here
  rcases after.cases here with rfl | rfl | rfl | rfl | rfl <;> decide

end Follow

/-! ## One derivation

By induction on one of the derivations, all five kinds at once: the first character of the whole
tells the rule, and what is left after it is again a part with what may follow it. -/

inductive Factor.Rule where
  | signed
  | grouped
  | pi
  | number

def Factor.rule : Factor → Rule
  | .signed .. => .signed
  | .grouped _ => .grouped
  | .pi => .pi
  | .number _ => .number

/-- The rule of the factor that begins with the character. -/
def Factor.ruleOf (c : Char) : Rule :=
  if isNumeral c then .number else if c = '(' then .grouped else if c = 'p' then .pi else .signed

theorem isNumeral_of_mem_mantissa (n : Unsigned) {c : Char} (mem : c ∈ n.mantissa) :
    isNumeral c = true := by
  have digital {c : Char} (mem : c ∈ n.whole ++ n.fraction.getD []) : isNumeral c = true := by
    rw [isNumeral, n.digital c mem, Bool.true_or]
  rcases List.mem_append.1 mem with whole | fraction
  · exact digital (List.mem_append_left _ whole)
  · unfold Unsigned.fractionText at fraction
    cases shape : n.fraction with
    | none =>
      rw [shape] at fraction
      cases fraction
    | some digits =>
      rw [shape] at fraction
      rcases List.mem_cons.1 fraction with rfl | digit
      · rfl
      · exact digital (List.mem_append_right _ (by rwa [shape]))

/-- A number begins with a digit or a point. -/
theorem exists_mantissa_cons (n : Unsigned) : ∃ c t, n.mantissa = c :: t ∧ isNumeral c = true := by
  have nonempty : n.mantissa ≠ [] := by
    intro empty
    obtain ⟨whole, fraction⟩ := List.append_eq_nil_iff.1 empty
    refine n.nonempty ?_
    unfold Unsigned.fractionText at fraction
    cases shape : n.fraction with
    | none => rw [whole, Option.getD_none, List.append_nil]
    | some digits =>
      rw [shape] at fraction
      cases fraction
  obtain ⟨c, t, shape⟩ := List.exists_cons_of_ne_nil nonempty
  exact ⟨c, t, shape, isNumeral_of_mem_mantissa n (shape ▸ List.mem_cons_self)⟩

theorem Factor.ruleOf_head (d : Factor) : ∃ c t, d.text = c :: t ∧ ruleOf c = d.rule := by
  cases d with
  | signed sign inner =>
    refine ⟨sign.char, inner.text, by rw [text], ?_⟩
    cases sign <;> rfl
  | grouped inner => exact ⟨'(', _, by rw [text], rfl⟩
  | pi => exact ⟨'p', _, by rw [text], rfl⟩
  | number n =>
    obtain ⟨c, t, shape, numeric⟩ := exists_mantissa_cons n
    exact ⟨c, _, by rw [text, Unsigned.text, shape, List.cons_append],
      by rw [ruleOf, if_pos numeric, rule]⟩

/-- Factors with which the same text begins are made by the same rule. -/
theorem Factor.rule_eq {d d' : Factor} {s t : Text} (same : d.text ++ s = d'.text ++ t) :
    d.rule = d'.rule := by
  obtain ⟨c, r, shape, rule⟩ := d.ruleOf_head
  obtain ⟨c', r', shape', rule'⟩ := d'.ruleOf_head
  rw [shape, shape'] at same
  rw [← rule, ← rule', (List.cons.inj same).1]

mutual

theorem Expression.append_inj : ∀ {d d' : Expression} {s t : Text}, Follows afterExpression s →
    Follows afterExpression t → d.text ++ s = d'.text ++ t → d = d' ∧ s = t
  | .sum first more, .sum first' more', s, t, hs, ht, same => by
    rw [Expression.text, Expression.text, List.append_assoc, List.append_assoc] at same
    obtain ⟨rfl, behind⟩ := Term.append_inj (more.follows hs) (more'.follows ht) same
    obtain ⟨rfl, rest⟩ := MoreTerms.append_inj hs ht behind
    exact ⟨rfl, rest⟩

theorem MoreTerms.append_inj : ∀ {d d' : MoreTerms} {s t : Text}, Follows afterExpression s →
    Follows afterExpression t → d.text ++ s = d'.text ++ t → d = d' ∧ s = t
  | .done, .done, s, t, hs, ht, same => ⟨rfl, same⟩
  | .done, .next sign term more, s, t, hs, ht, same => by
    rw [MoreTerms.text, MoreTerms.text, List.nil_append, List.cons_append] at same
    subst same
    exact absurd (hs sign.char rfl) sign.char_not_mem
  | .next sign term more, .done, s, t, hs, ht, same => by
    rw [MoreTerms.text, MoreTerms.text, List.nil_append, List.cons_append] at same
    subst same
    exact absurd (ht sign.char rfl) sign.char_not_mem
  | .next sign term more, .next sign' term' more', s, t, hs, ht, same => by
    rw [MoreTerms.text, MoreTerms.text, List.cons_append, List.cons_append, List.append_assoc,
      List.append_assoc] at same
    obtain ⟨char, operand⟩ := List.cons.inj same
    obtain rfl := Sign.char_injective char
    obtain ⟨rfl, behind⟩ := Term.append_inj (more.follows hs) (more'.follows ht) operand
    obtain ⟨rfl, rest⟩ := MoreTerms.append_inj hs ht behind
    exact ⟨rfl, rest⟩

theorem Term.append_inj : ∀ {d d' : Term} {s t : Text}, Follows afterTerm s →
    Follows afterTerm t → d.text ++ s = d'.text ++ t → d = d' ∧ s = t
  | .product first more, .product first' more', s, t, hs, ht, same => by
    rw [Term.text, Term.text, List.append_assoc, List.append_assoc] at same
    obtain ⟨rfl, behind⟩ := Factor.append_inj (more.follows hs) (more'.follows ht) same
    obtain ⟨rfl, rest⟩ := MoreFactors.append_inj hs ht behind
    exact ⟨rfl, rest⟩

theorem MoreFactors.append_inj : ∀ {d d' : MoreFactors} {s t : Text}, Follows afterTerm s →
    Follows afterTerm t → d.text ++ s = d'.text ++ t → d = d' ∧ s = t
  | .done, .done, s, t, hs, ht, same => ⟨rfl, same⟩
  | .done, .next ratio factor more, s, t, hs, ht, same => by
    rw [MoreFactors.text, MoreFactors.text, List.nil_append, List.cons_append] at same
    subst same
    exact absurd (hs ratio.char rfl) ratio.char_not_mem
  | .next ratio factor more, .done, s, t, hs, ht, same => by
    rw [MoreFactors.text, MoreFactors.text, List.nil_append, List.cons_append] at same
    subst same
    exact absurd (ht ratio.char rfl) ratio.char_not_mem
  | .next ratio factor more, .next ratio' factor' more', s, t, hs, ht, same => by
    rw [MoreFactors.text, MoreFactors.text, List.cons_append, List.cons_append, List.append_assoc,
      List.append_assoc] at same
    obtain ⟨char, operand⟩ := List.cons.inj same
    obtain rfl := Ratio.char_injective char
    obtain ⟨rfl, behind⟩ := Factor.append_inj (more.follows hs) (more'.follows ht) operand
    obtain ⟨rfl, rest⟩ := MoreFactors.append_inj hs ht behind
    exact ⟨rfl, rest⟩

theorem Factor.append_inj : ∀ {d d' : Factor} {s t : Text}, Follows afterFactor s →
    Follows afterFactor t → d.text ++ s = d'.text ++ t → d = d' ∧ s = t
  | .signed sign inner, d', s, t, hs, ht, same => by
    cases d' with
    | signed sign' inner' =>
      rw [Factor.text, Factor.text, List.cons_append, List.cons_append] at same
      obtain ⟨char, operand⟩ := List.cons.inj same
      obtain rfl := Sign.char_injective char
      obtain ⟨rfl, rest⟩ := Factor.append_inj hs ht operand
      exact ⟨rfl, rest⟩
    | _ => exact absurd (Factor.rule_eq same) nofun
  | .grouped inner, d', s, t, hs, ht, same => by
    cases d' with
    | grouped inner' =>
      rw [Factor.text, Factor.text, List.cons_append, List.cons_append, List.append_assoc,
        List.append_assoc] at same
      obtain ⟨rfl, behind⟩ := Expression.append_inj (.cons List.mem_cons_self _)
        (.cons List.mem_cons_self _) (List.cons.inj same).2
      exact ⟨rfl, (List.cons.inj behind).2⟩
    | _ => exact absurd (Factor.rule_eq same) nofun
  | .pi, d', s, t, hs, ht, same => by
    cases d' with
    | pi => exact ⟨rfl, List.append_cancel_left same⟩
    | _ => exact absurd (Factor.rule_eq same) nofun
  | .number n, d', s, t, hs, ht, same => by
    cases d' with
    | number n' =>
      rw [Factor.text, Factor.text] at same
      obtain ⟨rfl, rest⟩ := Unsigned.append_inj hs.stops ht.stops same
      exact ⟨rfl, rest⟩
    | _ => exact absurd (Factor.rule_eq same) nofun

end

/-- A text has no more than one derivation. -/
theorem Expression.text_injective : Function.Injective Expression.text := fun d d' same =>
  (append_inj (s := []) (t := []) nofun nofun (by rw [same])).1

end QubitTrace.Angle
