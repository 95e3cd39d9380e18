import Mathlib
import QubitTrace.Proofs.Scalar.Finite

/-! # Doubles that are no numbers

A double is a number exactly if it has a sign (`sign?`). What is no number stays none under sums,
differences and products, and compares with nothing. Numbers of one sign add up to a number of that
sign, and a square has none but the plus sign; so a sum of squares is a number unless one of its
terms is none. Between numbers one of two comparisons holds (`le_iff_not_lt`).
-/

namespace QubitTrace.Double
set_option autoImplicit false

open Float.Model (Format UnpackedFloat)
open Float.Model.UnpackedFloat

/-- The sign of a number; what is no number has none. -/
def sign? : UnpackedFloat → Option Sign
  | .notANumber => none
  | .infinity s | .zero s | .finite s _ _ _ => some s

/-! ## Packing -/

theorem unpackSign_packComponents {format : Format} {s : Sign} {e : BitVec format.exponentBits}
    {m : BitVec format.mantissaBitsWithoutImplicit} :
    unpackSign (packComponents format s e m) = s.toBitVec := by
  refine BitVec.eq_of_getLsbD_eq fun i lt => ?_
  obtain rfl : i = 0 := by omega
  simp [unpackSign, packComponents, BitVec.getLsbD_append, BitVec.getElem_append]

/-- An exponent that does not overflow leaves the field of the exponent short of all ones. -/
theorem ofNat_ne_ones {b : Nat} (fits : ¬ 2 ^ Format.binary64.exponentBits ≤ b + 1) :
    BitVec.ofNat Format.binary64.exponentBits b ≠ -1#_ := by
  intro full
  have number := congrArg BitVec.toNat full
  change ¬ 2048 ≤ b + 1 at fits
  change b % 2048 = 2047 at number
  omega

theorem ofBitVec_toBitVec (s : Sign) : Sign.ofBitVec s.toBitVec = s := by
  cases s <;> rfl

/-- Bits whose exponent field is not all ones are those of a number of their sign. -/
theorem sign?_unpack {b : BitVec Format.binary64.numBits} (field : unpackExponent b ≠ -1#_) :
    sign? (UnpackedFloat.unpack Format.binary64 b) = some (Sign.ofBitVec (unpackSign b)) := by
  unfold UnpackedFloat.unpack
  simp only [if_neg field]
  split_ifs <;> rfl

/-- Packing keeps the sign. -/
theorem sign?_pack (f : UnpackedFloat) : sign? (Float.Model.pack f).unpack = sign? f := by
  rw [unpack_pack]
  cases f with
  | notANumber => rfl
  | infinity s => cases s <;> rfl
  | zero s => cases s <;> rfl
  | finite s m e positive =>
    rw [UnpackedFloat.pack]
    split_ifs with huge normal
    · cases s <;> rfl
    · rw [sign?_unpack, unpackSign_packComponents, ofBitVec_toBitVec, sign?]
      rw [unpackExponent_packComponents]
      exact ofNat_ne_ones huge
    · rw [sign?_unpack, unpackSign_packComponents, ofBitVec_toBitVec, sign?]
      rw [unpackExponent_packComponents]
      decide

/-! ## Arithmetic -/

theorem sign?_roundWithAccuracy (s : Sign) (m : Nat) (e : Int) (acc : Accuracy) :
    sign? (roundWithAccuracy Format.binary64 s m e acc) = some s := by
  unfold roundWithAccuracy
  dsimp only
  split_ifs <;> rfl

theorem sign?_round (s : Sign) (m : Nat) (e : Int) :
    sign? (UnpackedFloat.round Format.binary64 s m e) = some s := sign?_roundWithAccuracy ..

theorem sign?_normalize (m : Int) (e : Int) (z : Sign) :
    sign? (UnpackedFloat.normalize Format.binary64 m e z) =
      some (if m < 0 then .negative else if m = 0 then z else .positive) := by
  unfold UnpackedFloat.normalize
  split
  · next negative =>
    rw [if_pos (compare_lt_iff_lt.1 negative)]
    exact sign?_round ..
  · next zero =>
    have none : m = 0 := compare_eq_iff_eq.1 zero
    rw [if_neg (by omega), if_pos none, sign?]
  · next positive =>
    have some : 0 < m := compare_gt_iff_gt.1 positive
    rw [if_neg (by omega), if_neg (by omega)]
    exact sign?_round ..

/-- What is no number spoils a sum. -/
theorem sign?_add_eq_none {f g : UnpackedFloat} (broken : sign? f = none ∨ sign? g = none) :
    sign? (UnpackedFloat.add Format.binary64 f g) = none := by
  rcases broken with broken | broken
  · cases f <;> first | rfl | cases broken
  · cases g <;> first | (cases f <;> rfl) | cases broken

/-- Numbers without a minus sign add up to a number without one. -/
theorem sign?_add_positive {f g : UnpackedFloat} (left : sign? f = some .positive)
    (right : sign? g = some .positive) :
    sign? (UnpackedFloat.add Format.binary64 f g) = some .positive := by
  cases f with
  | notANumber => cases left
  | infinity s =>
    cases left
    cases g with
    | notANumber => cases right
    | infinity s => cases right; rfl
    | zero s => rfl
    | finite s m e positive => rfl
  | zero s =>
    cases left
    cases g with
    | notANumber => cases right
    | infinity s => exact right
    | zero s => cases right; rfl
    | finite s m e positive => exact right
  | finite s m e positive =>
    cases left
    cases g with
    | notANumber => cases right
    | infinity s => exact right
    | zero s => rfl
    | finite s m' e' positive' =>
      cases right
      -- both significands are shifted to one exponent and added as they are
      change sign? (UnpackedFloat.normalize Format.binary64 ((_ : Nat) + (_ : Nat) : Int) _ _) = _
      rw [sign?_normalize, ite_self, if_neg]
      exact Int.not_lt.2 (Int.add_nonneg (Int.natCast_nonneg _) (Int.natCast_nonneg _))

/-- What is no number spoils a product. -/
theorem sign?_mul_eq_none {f g : UnpackedFloat} (broken : sign? f = none ∨ sign? g = none) :
    sign? (UnpackedFloat.mul Format.binary64 f g) = none := by
  rcases broken with broken | broken
  · cases f <;> first | rfl | cases broken
  · cases g <;> first | (cases f <;> rfl) | cases broken

/-- A square of a number has no minus sign. -/
theorem sign?_mul_self {f : UnpackedFloat} (number : sign? f ≠ none) :
    sign? (UnpackedFloat.mul Format.binary64 f f) = some .positive := by
  cases f with
  | notANumber => exact absurd rfl number
  | infinity s => cases s <;> rfl
  | zero s => cases s <;> rfl
  | finite s m e positive => cases s <;> exact sign?_roundWithAccuracy ..

/-- Taking a finite number away spoils nothing and mends nothing. -/
theorem sign?_sub_eq_none_iff {f g : UnpackedFloat} (finite : g.isFinite = true) :
    sign? (UnpackedFloat.sub Format.binary64 f g) = none ↔ sign? f = none := by
  cases f with
  | notANumber => exact iff_of_true rfl rfl
  | infinity s =>
    refine iff_of_false ?_ nofun
    cases g with
    | notANumber | infinity s => cases finite
    | zero s | finite s m e positive => exact nofun
  | zero s =>
    refine iff_of_false ?_ nofun
    cases g with
    | notANumber | infinity s => cases finite
    | zero t =>
      change sign? (if s == -t then .zero s else .zero .positive) ≠ none
      split_ifs <;> exact nofun
    | finite s m e positive => exact nofun
  | finite s m e positive =>
    refine iff_of_false ?_ nofun
    cases g with
    | notANumber | infinity s => cases finite
    | zero s => exact nofun
    | finite s' m' e' positive' =>
      change sign? (UnpackedFloat.normalize Format.binary64 _ _ _) ≠ none
      rw [sign?_normalize]
      exact Option.some_ne_none _

theorem sign?_neg_eq_none_iff {f : UnpackedFloat} : sign? f.neg = none ↔ sign? f = none := by
  cases f with
  | notANumber => exact iff_of_true rfl rfl
  | infinity s | zero s | finite s m e positive => exact iff_of_false nofun nofun

/-! ## Comparison -/

/-- What is no number compares with nothing, and numbers compare with each other. -/
theorem compare_eq_none_iff {f g : UnpackedFloat} :
    f.compare g = none ↔ sign? f = none ∨ sign? g = none := by
  cases f with
  | notANumber => exact iff_of_true rfl (.inl rfl)
  | infinity s | zero s | finite s m e positive =>
    cases g with
    | notANumber => cases s <;> exact iff_of_true rfl (.inr rfl)
    | infinity t | zero t | finite t m' e' positive' =>
      refine iff_of_false ?_ (not_or.2 ⟨nofun, nofun⟩)
      cases s <;> cases t <;> exact nofun

/-- Comparing the other way round gives the opposite. -/
theorem compare_swap (f g : UnpackedFloat) : g.compare f = (f.compare g).map Ordering.swap := by
  have magnitudes (e e' : Int) (m m' : Nat) : (compare e' e).then (compare m' m) =
      ((compare e e').then (compare m m')).swap := by
    rw [Ordering.swap_then, ← Std.OrientedCmp.eq_swap, ← Std.OrientedCmp.eq_swap]
  cases f with
  | notANumber => cases g <;> rfl
  | infinity s | zero s =>
    cases g with
    | notANumber => cases s <;> rfl
    | infinity t | zero t | finite t m' e' positive' => cases s <;> cases t <;> rfl
  | finite s m e positive =>
    cases g with
    | notANumber => cases s <;> rfl
    | infinity t | zero t => cases s <;> cases t <;> rfl
    | finite t m' e' positive' =>
      cases s <;> cases t
      · exact congrArg some (congrArg Ordering.swap (magnitudes e e' m m'))
      · rfl
      · rfl
      · exact congrArg some (magnitudes e e' m m')

/-! ## Doubles -/

/-- The sign of a double that is a number. -/
def sign (x : Float) : Option Sign := sign? x.toModel.unpack

variable {x y : Float}

theorem isNaN_iff : x.isNaN = true ↔ sign x = none := by
  change x.toModel.unpack.isNaN = true ↔ sign? x.toModel.unpack = none
  cases x.toModel.unpack with
  | notANumber => exact iff_of_true rfl rfl
  | infinity s | zero s | finite s m e positive => exact iff_of_false nofun nofun

theorem isNaN_eq_false_iff : x.isNaN = false ↔ sign x ≠ none := by
  rw [← Bool.not_eq_true]
  exact isNaN_iff.not

theorem sign_add_eq_none (broken : sign x = none ∨ sign y = none) : sign (x + y) = none :=
  (sign?_pack _).trans (sign?_add_eq_none broken)

theorem sign_add_positive (left : sign x = some .positive) (right : sign y = some .positive) :
    sign (x + y) = some .positive :=
  (sign?_pack _).trans (sign?_add_positive left right)

theorem sign_mul_eq_none (broken : sign x = none ∨ sign y = none) : sign (x * y) = none :=
  (sign?_pack _).trans (sign?_mul_eq_none broken)

theorem sign_mul_self (number : sign x ≠ none) : sign (x * x) = some .positive :=
  (sign?_pack _).trans (sign?_mul_self number)

theorem sign_sub_one_eq_none_iff : sign (x - 1) = none ↔ sign x = none :=
  (sign?_pack _).congr_left.trans (sign?_sub_eq_none_iff rfl)

theorem sign_abs_eq_none_iff : sign (Scalar.abs x) = none ↔ sign x = none := by
  unfold Scalar.abs
  split_ifs
  · exact (sign?_pack _).congr_left.trans sign?_neg_eq_none_iff
  · exact Iff.rfl

/-! ### Order -/

theorem le_iff_compare :
    x ≤ y ↔ (x.toModel.unpack.compare y.toModel.unpack).any (·.isLE) = true :=
  (decide_eq_true_iff (p := x.toModel ≤ y.toModel))

theorem lt_iff_compare :
    x < y ↔ x.toModel.unpack.compare y.toModel.unpack = some .lt := by
  refine (decide_eq_true_iff (p := x.toModel < y.toModel)).trans ?_
  exact beq_iff_eq

/-- Of two numbers one is at most the other exactly if it is not above it. -/
theorem le_iff_not_lt (hx : x.isNaN = false) (hy : y.isNaN = false) :
    x ≤ y ↔ ¬ y < x := by
  rw [le_iff_compare, lt_iff_compare, compare_swap x.toModel.unpack]
  cases compared : x.toModel.unpack.compare y.toModel.unpack with
  | none =>
    rcases compare_eq_none_iff.1 compared with broken | broken
    · rw [isNaN_iff.2 broken] at hx
      cases hx
    · rw [isNaN_iff.2 broken] at hy
      cases hy
  | some order => cases order <;> decide

/-- What is no number is not above anything, and nothing is above it. -/
theorem not_lt_of_isNaN (broken : x.isNaN = true ∨ y.isNaN = true) : ¬ x < y := by
  rw [isNaN_iff, isNaN_iff] at broken
  rw [lt_iff_compare, compare_eq_none_iff.2 broken]
  exact nofun

/-- What is no number is not within anything either. -/
theorem not_le_of_isNaN (broken : x.isNaN = true ∨ y.isNaN = true) : ¬ x ≤ y := by
  rw [isNaN_iff, isNaN_iff] at broken
  rw [le_iff_compare, compare_eq_none_iff.2 broken]
  exact nofun

end QubitTrace.Double
