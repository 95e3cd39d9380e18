import Mathlib
import QubitTrace.Decimal.Rounding
import QubitTrace.Proofs.Scalar.Finite

/-! # Sums of doubles are rounded once

Finite doubles are integer multiples of the smallest positive one, so their sum is again such a
multiple, and rounding it is rounding a natural number to 53 binary digits (`nearest`). Dropping
digits one at a time keeps just what this needs to know of the digits dropped (`Holds`). Rounding is
monotone: within a binade because rounded quotients are, and from one binade to the next because the
power of two between them is not rounded at all (`nearest_mono`).
-/

namespace QubitTrace.Double
set_option autoImplicit false

open Float.Model (Format UnpackedFloat totalExponent)
open Float.Model.UnpackedFloat
open Decimal (roundDiv roundDiv_mem roundDiv_mul_self)

/-! ## Rounded quotients -/

theorem roundDiv_mono {n n' : Nat} (d : Nat) (le : n ≤ n') : roundDiv n d ≤ roundDiv n' d := by
  rcases (Nat.div_le_div_right le : n / d ≤ n' / d).lt_or_eq with less | same
  · exact (roundDiv_mem n d).2.trans (less.trans_le (roundDiv_mem n' d).1)
  · have split := Nat.div_add_mod n d
    have split' := Nat.div_add_mod n' d
    rw [← same] at split'
    have rest : n % d ≤ n' % d := by omega
    unfold roundDiv
    rw [← same]
    dsimp only
    split_ifs <;> omega

theorem roundDiv_mul_mul (n d : Nat) {c : Nat} (positive : 0 < c) :
    roundDiv (n * c) (d * c) = roundDiv n d := by
  unfold roundDiv
  rw [Nat.mul_div_mul_right n d positive, Nat.mul_mod_mul_right c n d, ← mul_assoc]
  simp only [Nat.mul_lt_mul_right positive]

/-! ## Dropping digits -/

/-- What a significand with its residual bits tells of a quotient of naturals. -/
def Holds (em : ExtendedMantissa) (n d : Nat) : Prop :=
  match em with
  | ⟨q, false, false⟩ => n = q * d
  | ⟨q, false, true⟩ => q * d < n ∧ 2 * n < (2 * q + 1) * d
  | ⟨q, true, false⟩ => 2 * n = (2 * q + 1) * d
  | ⟨q, true, true⟩ => (2 * q + 1) * d < 2 * n ∧ n < (q + 1) * d

/-- A digit that is dropped is kept track of. -/
theorem Holds.shiftRightOne {em : ExtendedMantissa} {n d : Nat} (positive : 0 < d)
    (holds : Holds em n d) : Holds em.shiftRightOne n (d * 2) := by
  obtain ⟨q, r, t⟩ := em
  obtain ⟨p, rfl | rfl⟩ : ∃ p, q = 2 * p ∨ q = 2 * p + 1 := ⟨q / 2, by omega⟩
  · have half : 2 * p / 2 = p := by omega
    have even : (2 * p % 2 != 0) = false := by simp
    unfold ExtendedMantissa.shiftRightOne
    rw [half, even]
    cases r <;> cases t <;> simp only [Holds, Bool.or_false, Bool.or_true] at * <;>
      grind
  · have half : (2 * p + 1) / 2 = p := by omega
    have odd : ((2 * p + 1) % 2 != 0) = true := by simp
    unfold ExtendedMantissa.shiftRightOne
    rw [half, odd]
    cases r <;> cases t <;> simp only [Holds, Bool.or_false, Bool.or_true] at * <;>
      grind

theorem holds_shiftRight (n k : Nat) :
    Holds ((⟨n, false, false⟩ : ExtendedMantissa) >>> k) n (2 ^ k) := by
  change Holds (k.repeat ExtendedMantissa.shiftRightOne _) n _
  induction k with
  | zero => exact (Nat.mul_one n).symm
  | succ k ih =>
    rw [Nat.repeat, pow_succ]
    exact ih.shiftRightOne (by positivity)

theorem Holds.mantissa {em : ExtendedMantissa} {n d : Nat} (positive : 0 < d)
    (holds : Holds em n d) : n / d = em.mantissa := by
  obtain ⟨q, r, t⟩ := em
  apply Nat.div_eq_of_lt_le
  · cases r <;> cases t <;> simp only [Holds] at * <;> grind
  · cases r <;> cases t <;> simp only [Holds] at * <;> grind

/-- What is left of the significand is rounded as the quotient is. -/
theorem Holds.roundedMantissa {em : ExtendedMantissa} {n d : Nat} (positive : 0 < d)
    (holds : Holds em n d) : em.roundedMantissa = roundDiv n d := by
  have split := Nat.div_add_mod' n d
  unfold roundDiv ExtendedMantissa.roundedMantissa
  rw [holds.mantissa positive] at split ⊢
  obtain ⟨q, r, t⟩ := em
  cases r <;> cases t <;> simp only [Holds] at * <;>
    grind [ExtendedMantissa.accuracy, Accuracy.roundToNearestEven]

theorem roundedMantissa_shiftRight (n k : Nat) :
    ((⟨n, false, false⟩ : ExtendedMantissa) >>> k).roundedMantissa = roundDiv n (2 ^ k) :=
  (holds_shiftRight n k).roundedMantissa (by positivity)

/-! ## Fifty-three digits -/

/-- The number of digits that a natural has too many. -/
def excess (n : Nat) : Nat := n.log2 - 52

/-- The nearest natural with no more than 53 digits that are not zero; of two equally near ones the
one that ends in a zero. -/
def nearest (n : Nat) : Nat := roundDiv n (2 ^ excess n) * 2 ^ excess n

/-- A number of 53 digits and zeros is rounded to itself. -/
theorem nearest_eq_self {c j : Nat} (small : c < 2 ^ 53) (full : 2 ^ 52 ≤ c ∨ j = 0) :
    nearest (c * 2 ^ j) = c * 2 ^ j := by
  have exact : excess (c * 2 ^ j) = j := by
    rcases full with full | rfl
    · have positive : 0 < c := (by positivity : 0 < 2 ^ 52).trans_le full
      have digits : (c * 2 ^ j).log2 = 52 + j := by
        refine (Nat.log2_eq_iff (by positivity)).2 ⟨?_, ?_⟩
        · rw [pow_add]
          exact Nat.mul_le_mul_right _ full
        · rw [add_right_comm, pow_add]
          exact Nat.mul_lt_mul_of_pos_right small (by positivity)
      rw [excess, digits, Nat.add_sub_cancel_left]
    · have digits : c.log2 ≤ 52 := by
        rcases Nat.eq_zero_or_pos c with rfl | positive
        · simp
        · exact Nat.lt_succ_iff.1 ((Nat.log2_lt positive.ne').2 small)
      rw [excess, pow_zero, mul_one, Nat.sub_eq_zero_of_le digits]
  rw [nearest, exact, roundDiv_mul_self c (by positivity)]

theorem two_pow_nearest (k : Nat) : nearest (2 ^ k) = 2 ^ k := by
  rcases Nat.le_total k 52 with few | many
  · have small : 2 ^ k < 2 ^ 53 := Nat.pow_lt_pow_right (by decide) (by omega)
    simpa using nearest_eq_self (j := 0) small (.inr rfl)
  · obtain ⟨j, rfl⟩ := Nat.exists_eq_add_of_le many
    rw [pow_add]
    exact nearest_eq_self (by decide) (.inl le_rfl)

theorem nearest_mono_of_log2 {n n' : Nat} (le : n ≤ n') (same : n.log2 = n'.log2) :
    nearest n ≤ nearest n' := by
  rw [nearest, nearest, excess, same, ← excess]
  exact Nat.mul_le_mul_right _ (roundDiv_mono _ le)

/-- Rounding goes no further than to the next power of two. -/
theorem nearest_le (n : Nat) : nearest n ≤ 2 ^ (n.log2 + 1) := by
  have digits : 2 ^ (n.log2 + 1) = 2 ^ (n.log2 + 1 - excess n) * 2 ^ excess n := by
    rw [← pow_add, excess]
    congr 1
    omega
  have rounded := roundDiv_mono (2 ^ excess n) (Nat.lt_log2_self (n := n)).le
  rw [digits, roundDiv_mul_self _ (by positivity)] at rounded
  rw [nearest, digits]
  exact Nat.mul_le_mul_right _ rounded

theorem le_nearest {n : Nat} (positive : 0 < n) : 2 ^ n.log2 ≤ nearest n :=
  (two_pow_nearest n.log2).ge.trans
    (nearest_mono_of_log2 (Nat.log2_self_le positive.ne') Nat.log2_two_pow)

/-- Rounding is monotone. -/
theorem nearest_mono {n n' : Nat} (le : n ≤ n') : nearest n ≤ nearest n' := by
  rcases Nat.eq_zero_or_pos n with rfl | positive
  · exact (nearest_eq_self (c := 0) (j := 0) (by decide) (.inr rfl)).le.trans (Nat.zero_le _)
  · have positive' := positive.trans_le le
    have digits : n.log2 ≤ n'.log2 :=
      (Nat.le_log2 positive'.ne').2 ((Nat.log2_self_le positive.ne').trans le)
    rcases digits.lt_or_eq with fewer | same
    · calc nearest n ≤ 2 ^ (n.log2 + 1) := nearest_le n
        _ ≤ 2 ^ n'.log2 := Nat.pow_le_pow_right (by decide) fewer
        _ ≤ nearest n' := le_nearest positive'
    · exact nearest_mono_of_log2 le same

/-- Rounding of integers, to both sides alike. -/
def nearestInt (z : Int) : Int := z.sign * nearest z.natAbs

theorem nearestInt_natCast (n : Nat) : nearestInt n = nearest n := by
  rcases Nat.eq_zero_or_pos n with rfl | positive
  · rfl
  · rw [nearestInt, Int.sign_natCast_of_ne_zero positive.ne', one_mul, Int.natAbs_natCast]

theorem nearestInt_neg (z : Int) : nearestInt (-z) = -nearestInt z := by
  rw [nearestInt, nearestInt, Int.sign_neg, Int.natAbs_neg, neg_mul]

theorem nearestInt_mono {z w : Int} (le : z ≤ w) : nearestInt z ≤ nearestInt w := by
  rcases Int.le_total 0 z with left | left
  · obtain ⟨n, rfl⟩ := Int.eq_ofNat_of_zero_le left
    obtain ⟨k, rfl⟩ := Int.eq_ofNat_of_zero_le (left.trans le)
    rw [nearestInt_natCast, nearestInt_natCast]
    exact_mod_cast nearest_mono (Int.ofNat_le.1 le)
  · obtain ⟨n, rfl⟩ := Int.exists_eq_neg_ofNat left
    rw [nearestInt_neg, nearestInt_natCast]
    rcases Int.le_total 0 w with right | right
    · obtain ⟨k, rfl⟩ := Int.eq_ofNat_of_zero_le right
      rw [nearestInt_natCast]
      omega
    · obtain ⟨k, rfl⟩ := Int.exists_eq_neg_ofNat right
      rw [nearestInt_neg, nearestInt_natCast]
      exact_mod_cast neg_le_neg (Int.ofNat_le.2 (nearest_mono (by omega)))

/-! ## Rounded numbers -/

/-- The power of two behind the largest double, in units of the smallest. -/
def beyond : Nat := 2 ^ 53 * 2 ^ 2045

/-- How often the smallest double goes into a number; infinity stands behind the largest one. -/
def units : UnpackedFloat → Int
  | .notANumber | .zero _ => 0
  | .infinity s => s.apply beyond
  | .finite s m e _ => s.apply (m * 2 ^ (e + 1074).toNat : Nat)

/-- A number that is written as a double is, but for the size of its exponent. -/
def Canonical : UnpackedFloat → Prop
  | .finite _ m e _ => m < 2 ^ 53 ∧ -1074 ≤ e ∧ (2 ^ 52 ≤ m ∨ e = -1074)
  | .infinity _ | .zero _ | .notANumber => True

/-- What is made of a significand that has been rounded: a carry may have given it a digit too
many. -/
def settle (s : Sign) (r : Nat) (t : Int) : UnpackedFloat :=
  let carried := shiftToTargetExponent Format.binary64 r t .exact
  if h : carried.1.mantissa = 0 then .zero s
  else .finite s carried.1.mantissa carried.2 (Nat.pos_of_ne_zero h)

theorem roundWithAccuracy_eq_settle (s : Sign) (m : Nat) (e : Int) (acc : Accuracy) :
    roundWithAccuracy Format.binary64 s m e acc =
      settle s (shiftToTargetExponent Format.binary64 m e acc).1.roundedMantissa
        (shiftToTargetExponent Format.binary64 m e acc).2 := rfl

theorem settle_eq (s : Sign) {r k : Nat} {t : Int}
    (shift : (max ((r.log2 : Int) + 1 + t - 53) (-1074) - t).toNat = k) (kept : 0 < r / 2 ^ k) :
    settle s r t = .finite s (r / 2 ^ k) (t + k) kept := by
  have significand : (shiftToTargetExponent Format.binary64 r t .exact).1.mantissa = r / 2 ^ k := by
    rw [← shift]
    exact mantissa_shiftRight _ _
  have exponent : (shiftToTargetExponent Format.binary64 r t .exact).2 = t + k := by
    rw [first_exponent, shift]
  unfold settle
  simp only [significand, exponent]
  exact dif_neg kept.ne'

theorem settle_spec (s : Sign) {r : Nat} {t : Int} (positive : 0 < r) (le : r ≤ 2 ^ 53)
    (low : -1074 ≤ t) (full : 2 ^ 52 ≤ r ∨ t = -1074) :
    Canonical (settle s r t) ∧ units (settle s r t) = s.apply (r * 2 ^ (t + 1074).toNat : Nat) := by
  rcases le.lt_or_eq with fits | rfl
  · have digits : r.log2 < 53 := (Nat.log2_lt positive.ne').2 fits
    have nothing : (max ((r.log2 : Int) + 1 + t - 53) (-1074) - t).toNat = 0 := by omega
    have kept : r / 2 ^ 0 = r := by rw [pow_zero, Nat.div_one]
    rw [settle_eq s nothing (kept.symm ▸ positive)]
    simp only [kept, Nat.cast_zero, add_zero]
    exact ⟨⟨fits, low, full⟩, rfl⟩
  · have digits : Nat.log2 (2 ^ 53) = 53 := Nat.log2_two_pow
    have carry : (max ((Nat.log2 (2 ^ 53) : Int) + 1 + t - 53) (-1074) - t).toNat = 1 := by omega
    rw [settle_eq s carry (by decide)]
    refine ⟨⟨by decide, by omega, .inl (by decide)⟩, ?_⟩
    have scaled : 2 ^ 53 / 2 ^ 1 * 2 ^ (t + 1 + 1074).toNat = 2 ^ 53 * 2 ^ (t + 1074).toNat := by
      rw [show (t + 1 + 1074).toNat = (t + 1074).toNat + 1 by omega, pow_succ]
      omega
    exact congrArg (fun n : Nat => s.apply n) scaled

theorem log2_mul_two_pow {m : Nat} (positive : 0 < m) (k : Nat) :
    (m * 2 ^ k).log2 = m.log2 + k := by
  refine (Nat.log2_eq_iff (by positivity)).2 ⟨?_, ?_⟩
  · rw [pow_add]
    exact Nat.mul_le_mul_right _ (Nat.log2_self_le positive.ne')
  · rw [add_right_comm, pow_add]
    exact Nat.mul_lt_mul_of_pos_right Nat.lt_log2_self (by positivity)

/-- Rounding a multiple of the smallest double is rounding the natural number. The significand first
gets as many zeros as it is short of, and then loses what it has too many. -/
theorem round_eq_settle (s : Sign) {m : Nat} (positive : 0 < m) {e : Int} (low : -1074 ≤ e)
    {n : Nat} (multiple : n = m * 2 ^ (e + 1074).toNat) :
    UnpackedFloat.round Format.binary64 s m e =
      settle s (roundDiv n (2 ^ excess n)) (excess n - 1074) := by
  obtain ⟨d, zeros⟩ : ∃ d : Nat,
      (e - max ((m.log2 : Int) + 1 + e - 53) (-1074)).toNat = d := ⟨_, rfl⟩
  have digits : (m * 2 ^ d).log2 = m.log2 + d := log2_mul_two_pow positive d
  obtain ⟨k, lost⟩ : ∃ k : Nat,
      (max (((m * 2 ^ d).log2 : Int) + 1 + (e - d) - 53) (-1074) - (e - d)).toNat = k := ⟨_, rfl⟩
  obtain ⟨c, common⟩ : ∃ c : Nat, (e - d + 1074).toNat = c := ⟨_, rfl⟩
  have places : excess n = k + c := by
    rw [excess, multiple, log2_mul_two_pow positive]
    omega
  have quotient : roundDiv n (2 ^ excess n) = roundDiv (m * 2 ^ d) (2 ^ k) := by
    have split : (e + 1074).toNat = d + c := by omega
    rw [places, pow_add, multiple, split, pow_add, ← mul_assoc,
      roundDiv_mul_mul _ _ (by positivity)]
  have widened : UnpackedFloat.round Format.binary64 s m e =
      roundWithAccuracy Format.binary64 s (m * 2 ^ d) (e - d) .exact := by
    rw [← Nat.shiftLeft_eq, ← zeros]
    rfl
  have significand :
      (shiftToTargetExponent Format.binary64 (m * 2 ^ d) (e - d) .exact).1.roundedMantissa =
        roundDiv (m * 2 ^ d) (2 ^ k) := by
    rw [← lost]
    exact roundedMantissa_shiftRight _ _
  have exponent : (shiftToTargetExponent Format.binary64 (m * 2 ^ d) (e - d) .exact).2 =
      excess n - 1074 := by
    rw [first_exponent, lost, places]
    omega
  rw [widened, roundWithAccuracy_eq_settle, significand, exponent, quotient]

/-- A significand that has been rounded has 53 digits, or fewer where no smaller unit is left. -/
theorem roundDiv_excess_mem {n : Nat} (positive : 0 < n) :
    0 < roundDiv n (2 ^ excess n) ∧ roundDiv n (2 ^ excess n) ≤ 2 ^ 53 ∧
      (2 ^ 52 ≤ roundDiv n (2 ^ excess n) ∨ excess n = 0) := by
  have below : 2 ^ n.log2 ≤ roundDiv n (2 ^ excess n) * 2 ^ excess n := le_nearest positive
  have above : roundDiv n (2 ^ excess n) * 2 ^ excess n ≤ 2 ^ (n.log2 + 1) := nearest_le n
  refine ⟨?_, ?_, ?_⟩
  · exact Nat.pos_of_mul_pos_right ((by positivity : 0 < 2 ^ n.log2).trans_le below)
  · have digits : n.log2 + 1 ≤ 53 + excess n := by
      rw [excess]
      omega
    have most := above.trans (Nat.pow_le_pow_right (by decide) digits)
    rw [pow_add] at most
    exact Nat.le_of_mul_le_mul_right most (by positivity)
  · rcases Nat.eq_zero_or_pos (excess n) with none | some
    · exact .inr none
    · have digits : n.log2 = 52 + excess n := by
        rw [excess] at some ⊢
        omega
      rw [digits, pow_add] at below
      exact .inl (Nat.le_of_mul_le_mul_right below (by positivity))

theorem round_spec (s : Sign) {m : Nat} (positive : 0 < m) {e : Int} (low : -1074 ≤ e) :
    Canonical (UnpackedFloat.round Format.binary64 s m e) ∧
      units (UnpackedFloat.round Format.binary64 s m e) =
        s.apply (nearest (m * 2 ^ (e + 1074).toNat)) := by
  obtain ⟨n, multiple⟩ : ∃ n, n = m * 2 ^ (e + 1074).toNat := ⟨_, rfl⟩
  obtain ⟨some, fits, full⟩ := roundDiv_excess_mem (n := n) (multiple ▸ (by positivity))
  have position : (excess n - 1074 + 1074 : Int).toNat = excess n := by omega
  rw [round_eq_settle s positive low multiple, ← multiple]
  have spec := settle_spec s some fits (t := excess n - 1074) (by omega) (full.imp_right (by omega))
  rwa [position] at spec

theorem normalize_spec (m : Int) {e : Int} (low : -1074 ≤ e) (zero : Sign) :
    Canonical (UnpackedFloat.normalize Format.binary64 m e zero) ∧
      units (UnpackedFloat.normalize Format.binary64 m e zero) =
        nearestInt (m * 2 ^ (e + 1074).toNat) := by
  unfold UnpackedFloat.normalize
  split
  · next negative =>
    have less := compare_lt_iff_lt.1 negative
    obtain ⟨n, rfl⟩ := Int.exists_eq_neg_ofNat less.le
    obtain ⟨canonical, multiple⟩ := round_spec .negative (m := n) (by omega) low
    rw [neg_neg, Int.toNat_natCast]
    refine ⟨canonical, multiple.trans ?_⟩
    rw [neg_mul, nearestInt_neg]
    exact congrArg (fun z : Int => -z) (nearestInt_natCast _).symm |>.trans (by push_cast; rfl)
  · next none =>
    rw [compare_eq_iff_eq.1 none, zero_mul]
    exact ⟨trivial, rfl⟩
  · next positive =>
    have more := compare_gt_iff_gt.1 positive
    obtain ⟨n, rfl⟩ := Int.eq_ofNat_of_zero_le (le_of_lt more)
    obtain ⟨canonical, multiple⟩ := round_spec .positive (m := n) (by omega) low
    rw [Int.toNat_natCast]
    refine ⟨canonical, multiple.trans ?_⟩
    exact (nearestInt_natCast _).symm.trans (by push_cast; rfl)

/-! ## Sums -/

/-- A finite double is a multiple of the smallest one as it is. -/
theorem nearestInt_units {f : UnpackedFloat} (canonical : Canonical f)
    (finite : f.isFinite = true) : nearestInt (units f) = units f := by
  cases f with
  | infinity s => cases finite
  | notANumber => cases finite
  | zero s => exact zero_mul _
  | finite s m e positive =>
    obtain ⟨small, low, full⟩ := canonical
    have exact := nearest_eq_self (j := (e + 1074).toNat) small (full.imp_right (by omega))
    cases s with
    | positive => exact (nearestInt_natCast _).trans (congrArg Nat.cast exact)
    | negative =>
      exact (nearestInt_neg _).trans
        (congrArg (fun z : Int => -z) ((nearestInt_natCast _).trans (congrArg Nat.cast exact)))

/-- Zeros behind a significand make up for a smaller exponent. -/
theorem apply_shiftLeft (s : Sign) (m : Nat) {e low : Int} (lowest : -1074 ≤ low) (le : low ≤ e) :
    s.apply (m <<< (e - low).toNat : Nat) * 2 ^ (low + 1074).toNat =
      s.apply (m * 2 ^ (e + 1074).toNat : Nat) := by
  have places : (e + 1074).toNat = (e - low).toNat + (low + 1074).toNat := by omega
  rw [places, pow_add, ← mul_assoc, Nat.shiftLeft_eq]
  cases s with
  | positive =>
    change ((_ : Nat) : Int) * _ = ((_ : Nat) : Int)
    push_cast
    rfl
  | negative =>
    change -((_ : Nat) : Int) * _ = -((_ : Nat) : Int)
    push_cast
    ring

/-- The sum of finite doubles is the exact sum, rounded once. -/
theorem add_spec {f g : UnpackedFloat} (hf : Canonical f) (hg : Canonical g)
    (finite : f.isFinite = true) (finite' : g.isFinite = true) :
    Canonical (UnpackedFloat.add Format.binary64 f g) ∧
      units (UnpackedFloat.add Format.binary64 f g) = nearestInt (units f + units g) := by
  cases f with
  | infinity s => cases finite
  | notANumber => cases finite
  | zero s =>
    cases g with
    | infinity t => cases finite'
    | notANumber => cases finite'
    | zero t => cases s <;> cases t <;> exact ⟨trivial, (zero_mul _).symm⟩
    | finite t m e positive =>
      refine ⟨hg, ?_⟩
      rw [show units (.zero s) = 0 from rfl, zero_add, nearestInt_units hg finite']
      rfl
  | finite s m e positive =>
    cases g with
    | infinity t => cases finite'
    | notANumber => cases finite'
    | zero t =>
      refine ⟨hf, ?_⟩
      rw [show units (.zero t) = 0 from rfl, add_zero, nearestInt_units hf finite]
      rfl
    | finite t m' e' positive' =>
      have low : -1074 ≤ min e e' := le_min hf.2.1 hg.2.1
      have spec := normalize_spec (s.apply (m <<< (e - min e e').toNat : Nat) +
        t.apply (m' <<< (e' - min e e').toNat : Nat)) low .positive
      rw [add_mul, apply_shiftLeft s m low (min_le_left e e'),
        apply_shiftLeft t m' low (min_le_right e e')] at spec
      exact spec

theorem apply_neg (s : Sign) (z : Int) : (-s).apply z = -s.apply z := by
  cases s with
  | negative => exact (neg_neg z).symm
  | positive => rfl

/-- Subtraction is addition of the negative. -/
theorem sub_eq_add_neg (f g : UnpackedFloat) :
    UnpackedFloat.sub Format.binary64 f g = UnpackedFloat.add Format.binary64 f g.neg := by
  cases f with
  | notANumber => cases g <;> rfl
  | infinity s | zero s => cases g <;> rfl
  | finite s m e positive =>
    cases g with
    | notANumber | infinity t | zero t => rfl
    | finite t m' e' positive' =>
      unfold UnpackedFloat.sub UnpackedFloat.add
      simp only [UnpackedFloat.neg, apply_neg, Int.sub_eq_add_neg]

theorem canonical_neg {f : UnpackedFloat} (canonical : Canonical f) : Canonical f.neg := by
  cases f <;> exact canonical

theorem units_neg (f : UnpackedFloat) : units f.neg = -units f := by
  cases f with
  | notANumber | zero s => rfl
  | infinity s | finite s m e positive => exact apply_neg _ _

end QubitTrace.Double
