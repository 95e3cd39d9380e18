import Mathlib
import QubitTrace.Proofs.Scalar.NotANumber
import QubitTrace.Proofs.Scalar.Rounding

/-! # The order of doubles

Doubles that are numbers compare as the integers do that say how often the smallest double goes into
them (`compare_eq`): with their first digit in place, the larger exponent decides, and with equal
exponents the significand. Packing cuts these integers off at infinity and changes nothing else
(`units_unpack_pack`). So sums of finite doubles are monotone, and differences monotone in the first
and antitone in the second operand.
-/

namespace QubitTrace.Double
set_option autoImplicit false

open Float.Model (Format UnpackedFloat)
open Float.Model.UnpackedFloat

/-! ## Packing -/

theorem toNat_one_append {w : Nat} (v : BitVec w) : (1#1 ++ v).toNat = 2 ^ w + v.toNat := by
  rw [BitVec.toNat_append, ← Nat.shiftLeft_add_eq_or_of_lt v.isLt, Nat.shiftLeft_eq]
  exact congrArg (· + v.toNat) (Nat.one_mul _)

/-- What a double is unpacked to is written as doubles are. -/
theorem canonical_unpack (x : Float.Model) : Canonical x.unpack := by
  unfold Float.Model.unpack UnpackedFloat.unpack
  dsimp only
  split_ifs with full empty none blank
  · trivial
  · trivial
  · trivial
  · refine ⟨(BitVec.isLt _).trans (by decide), ?_, .inr ?_⟩
    · rw [none]
      decide
    · rw [none]
      decide
  · have field :
        (unpackExponent x.toBits.toBitVec : BitVec Format.binary64.exponentBits).toNat ≠ 0 :=
      fun same => none (BitVec.eq_of_toNat_eq same)
    refine ⟨BitVec.isLt _, ?_, .inl ?_⟩
    · change (-1074 : Int) ≤ _ - ((1023 : Nat) + (52 : Nat))
      omega
    · rw [toNat_one_append]
      exact Nat.le_add_right _ _

theorem finite_congr {s t : Sign} {m n : Nat} {e d : Int} {hm : 0 < m} {hn : 0 < n} (signs : s = t)
    (significands : m = n) (exponents : e = d) :
    UnpackedFloat.finite s m e hm = .finite t n d hn := by
  subst signs significands exponents
  rfl

/-- A number with an exponent that fits is the double it is packed to. -/
theorem unpack_pack_of_bounded {s : Sign} {m : Nat} {e : Int} {positive : 0 < m}
    (canonical : Canonical (.finite s m e positive)) (fits : e ≤ 971) :
    (Float.Model.pack (.finite s m e positive)).unpack = .finite s m e positive := by
  obtain ⟨small, low, full⟩ := canonical
  have field : (e + Format.binary64.exponentBias +
      Format.binary64.mantissaBitsWithoutImplicit).toNat = (e + 1075).toNat := by
    change (e + 1023 + 52).toNat = _
    omega
  have inside : ¬ 2 ^ Format.binary64.exponentBits ≤ (e + 1075).toNat + 1 := by
    change ¬ 2048 ≤ _
    omega
  rw [unpack_pack, UnpackedFloat.pack, field, if_neg inside]
  have digits : m.log2 + 1 = Format.binary64.mantissaBits ↔ 2 ^ 52 ≤ m := by
    change m.log2 + 1 = 53 ↔ _
    rw [← Nat.le_log2 positive.ne']
    have := (Nat.log2_lt positive.ne').2 small
    omega
  split_ifs with normal
  · have full := digits.1 normal
    have ones : BitVec.ofNat 11 (e + 1075).toNat ≠ -1#_ := ofNat_ne_ones inside
    have field : (BitVec.ofNat 11 (e + 1075).toNat).toNat = (e + 1075).toNat := by
      rw [BitVec.toNat_ofNat, Nat.mod_eq_of_lt (by omega)]
    have zeros : BitVec.ofNat 11 (e + 1075).toNat ≠ 0#_ := by
      intro none
      rw [none] at field
      change 0 = _ at field
      omega
    unfold UnpackedFloat.unpack
    simp only [unpackExponent_packComponents, unpackMantissa_packComponents,
      unpackSign_packComponents, ofBitVec_toBitVec]
    rw [if_neg ones, if_neg zeros]
    refine finite_congr rfl ?_ ?_
    · rw [toNat_one_append, BitVec.toNat_ofNat]
      omega
    · rw [field]
      change ((e + 1075).toNat : Int) - ((1023 : Nat) + (52 : Nat)) = e
      omega
  · have short : m < 2 ^ 52 := not_le.1 (mt digits.2 normal)
    obtain rfl : e = -1074 := full.resolve_left (not_le.2 short)
    unfold UnpackedFloat.unpack
    simp only [unpackExponent_packComponents, unpackMantissa_packComponents,
      unpackSign_packComponents, ofBitVec_toBitVec]
    have value : (BitVec.ofNat 52 m).toNat = m := by
      rw [BitVec.toNat_ofNat, Nat.mod_eq_of_lt short]
    have some : BitVec.ofNat 52 m ≠ 0#_ := by
      intro none
      rw [none] at value
      exact positive.ne value
    rw [if_neg (by decide), if_pos trivial, dif_neg some]
    exact finite_congr rfl value rfl

/-- What is too large is packed to infinity. -/
theorem unpack_pack_of_large {s : Sign} {m : Nat} {e : Int} {positive : 0 < m} (large : 971 < e) :
    (Float.Model.pack (.finite s m e positive)).unpack = .infinity s := by
  have exceeds : 2 ^ Format.binary64.exponentBits ≤ (e + Format.binary64.exponentBias +
      Format.binary64.mantissaBitsWithoutImplicit).toNat + 1 := by
    change 2048 ≤ (e + 1023 + 52).toNat + 1
    omega
  rw [unpack_pack, UnpackedFloat.pack, if_pos exceeds]
  cases s <;> rfl

/-! ## Units -/

theorem mul_two_pow_lt {m j k : Nat} (small : m < 2 ^ 53) (le : j ≤ k) :
    m * 2 ^ j < 2 ^ 53 * 2 ^ k :=
  Nat.mul_lt_mul_of_lt_of_le small (Nat.pow_le_pow_right (by decide) le) (by positivity)

theorem le_mul_two_pow {m j k : Nat} (full : 2 ^ 52 ≤ m) (lt : k < j) :
    2 ^ 53 * 2 ^ k ≤ m * 2 ^ j :=
  calc 2 ^ 53 * 2 ^ k = 2 ^ 52 * 2 ^ (k + 1) := by ring
    _ ≤ m * 2 ^ j := Nat.mul_le_mul full (Nat.pow_le_pow_right (by decide) lt)

/-- Cutting off what lies beyond the largest double. -/
def cut (z : Int) : Int := max (-beyond) (min beyond z)

theorem cut_mono {z w : Int} (le : z ≤ w) : cut z ≤ cut w :=
  max_le_max le_rfl (min_le_min le_rfl le)

theorem cut_neg (z : Int) : cut (-z) = -cut z := by
  unfold cut
  omega

theorem cut_natCast_of_le {n : Nat} (le : n ≤ beyond) : cut n = n := by
  unfold cut
  omega

theorem cut_natCast_of_ge {n : Nat} (ge : beyond ≤ n) : cut n = beyond := by
  unfold cut
  omega

theorem apply_cut (s : Sign) (n : Nat) : s.apply (cut n) = cut (s.apply n) := by
  cases s with
  | positive => rfl
  | negative => exact (cut_neg n).symm

/-- Packing cuts off what is too large for a double and keeps the rest. -/
theorem units_unpack_pack {f : UnpackedFloat} (canonical : Canonical f) :
    units (Float.Model.pack f).unpack = cut (units f) := by
  cases f with
  | notANumber => exact (cut_natCast_of_le (Nat.zero_le _)).symm
  | zero s => cases s <;> exact (cut_natCast_of_le (Nat.zero_le _)).symm
  | infinity s =>
    have same : (Float.Model.pack (.infinity s)).unpack = .infinity s := by cases s <;> rfl
    rw [same, units, ← apply_cut, cut_natCast_of_le le_rfl]
  | finite s m e positive =>
    rcases le_or_gt e 971 with fits | large
    · rw [unpack_pack_of_bounded canonical fits, units, ← apply_cut,
        cut_natCast_of_le (mul_two_pow_lt canonical.1 (by omega)).le]
    · have full : 2 ^ 52 ≤ m := canonical.2.2.resolve_right (by omega)
      rw [unpack_pack_of_large large, units, units, ← apply_cut,
        cut_natCast_of_ge (le_mul_two_pow full (by omega))]

/-! ## Comparison -/

theorem compare_map {α β : Type} [LinearOrder α] [LinearOrder β] {f : α → β} (mono : StrictMono f)
    (a b : α) : compare (f a) (f b) = compare a b := by
  rw [← cmp_eq_compare, ← cmp_eq_compare, mono.cmp_map_eq]

theorem compare_natCast (a b : Nat) : compare (a : Int) (b : Int) = compare a b :=
  compare_map Nat.strictMono_cast a b

theorem compare_neg (a b : Int) : compare (-a) (-b) = (compare a b).swap := by
  rw [← cmp_eq_compare, ← cmp_eq_compare, cmp_swap]
  exact StrictAnti.cmp_map_eq (f := fun z : Int => -z) (fun _ _ => neg_lt_neg) a b

/-- The larger exponent decides, and with equal exponents the significand. -/
theorem compare_magnitude {m m' : Nat} {e e' : Int} (small : m < 2 ^ 53) (small' : m' < 2 ^ 53)
    (low : -1074 ≤ e) (low' : -1074 ≤ e') (full : 2 ^ 52 ≤ m ∨ e = -1074)
    (full' : 2 ^ 52 ≤ m' ∨ e' = -1074) : (compare e e').then (compare m m') =
      compare (m * 2 ^ (e + 1074).toNat) (m' * 2 ^ (e' + 1074).toNat) := by
  rcases lt_trichotomy e e' with less | rfl | more
  · have above := le_mul_two_pow (k := (e + 1074).toNat) (j := (e' + 1074).toNat)
      (full'.resolve_right (by omega)) (by omega)
    rw [compare_lt_iff_lt.2 less,
      compare_lt_iff_lt.2 ((mul_two_pow_lt small le_rfl).trans_le above)]
    rfl
  · rw [compare_eq_iff_eq.2 rfl]
    have scaled : StrictMono fun n : Nat => n * 2 ^ (e + 1074).toNat := fun _ _ less =>
      Nat.mul_lt_mul_of_pos_right less (by positivity)
    exact (compare_map scaled m m').symm
  · have above := le_mul_two_pow (k := (e' + 1074).toNat) (j := (e + 1074).toNat)
      (full.resolve_right (by omega)) (by omega)
    rw [compare_gt_iff_gt.2 more,
      compare_gt_iff_gt.2 ((mul_two_pow_lt small' le_rfl).trans_le above)]
    rfl

/-- Written as a double is, with an exponent that fits. -/
structure Representable (f : UnpackedFloat) : Prop where
  canonical : Canonical f
  fits : f.isFinite = true → Bounded f

theorem representable_unpack (x : Float.Model) : Representable x.unpack :=
  ⟨canonical_unpack x, bounded_unpack⟩

theorem Representable.magnitude_mem {s : Sign} {m : Nat} {e : Int} {positive : 0 < m}
    (representable : Representable (.finite s m e positive)) :
    0 < m * 2 ^ (e + 1074).toNat ∧ m * 2 ^ (e + 1074).toNat < beyond := by
  have fits : e ≤ 971 := representable.fits rfl
  exact ⟨by positivity, mul_two_pow_lt representable.canonical.1 (by omega)⟩

theorem beyond_pos : 0 < beyond := by
  unfold beyond
  positivity

section Compare

variable {z w : Int}

theorem lt_eq_compare (less : z < w) : some Ordering.lt = some (compare z w) :=
  congrArg some (compare_lt_iff_lt.2 less).symm

theorem gt_eq_compare (more : w < z) : some Ordering.gt = some (compare z w) :=
  congrArg some (compare_gt_iff_gt.2 more).symm

theorem eq_eq_compare (z : Int) : some Ordering.eq = some (compare z z) :=
  congrArg some (compare_eq_iff_eq.2 rfl).symm

end Compare

section Cases

variable {g : UnpackedFloat} (hg : Representable g) (number : sign? g ≠ none)
include hg number

theorem compare_infinity (s : Sign) :
    (UnpackedFloat.infinity s).compare g = some (compare (units (.infinity s)) (units g)) := by
  have last := beyond_pos
  cases g with
  | notANumber => exact absurd rfl number
  | infinity t =>
    cases s <;> cases t
    · exact eq_eq_compare _
    · exact lt_eq_compare (by change -(beyond : Int) < beyond; omega)
    · exact gt_eq_compare (by change -(beyond : Int) < beyond; omega)
    · exact eq_eq_compare _
  | zero t =>
    cases s
    · exact lt_eq_compare (by change -(beyond : Int) < 0; omega)
    · exact gt_eq_compare (by change (0 : Int) < beyond; omega)
  | finite t m e positive =>
    have small := hg.magnitude_mem
    cases s <;> cases t
    · exact lt_eq_compare (by change -(beyond : Int) < -((_ : Nat) : Int); omega)
    · exact lt_eq_compare (by change -(beyond : Int) < ((_ : Nat) : Int); omega)
    · exact gt_eq_compare (by change -((_ : Nat) : Int) < beyond; omega)
    · exact gt_eq_compare (by change ((_ : Nat) : Int) < beyond; omega)

theorem compare_zero (s : Sign) :
    (UnpackedFloat.zero s).compare g = some (compare (units (.zero s)) (units g)) := by
  have last := beyond_pos
  cases g with
  | notANumber => exact absurd rfl number
  | infinity t =>
    cases t
    · exact gt_eq_compare (by change -(beyond : Int) < 0; omega)
    · exact lt_eq_compare (by change (0 : Int) < beyond; omega)
  | zero t => exact eq_eq_compare 0
  | finite t m e positive =>
    have small := hg.magnitude_mem
    cases t
    · exact gt_eq_compare (by change -((_ : Nat) : Int) < 0; omega)
    · exact lt_eq_compare (by change (0 : Int) < ((_ : Nat) : Int); omega)

theorem compare_finite {s : Sign} {m : Nat} {e : Int} {positive : 0 < m}
    (hf : Representable (.finite s m e positive)) :
    (UnpackedFloat.finite s m e positive).compare g =
      some (compare (units (.finite s m e positive)) (units g)) := by
  have small := hf.magnitude_mem
  cases g with
  | notANumber => exact absurd rfl number
  | infinity t =>
    cases s <;> cases t
    · exact gt_eq_compare (by change -(beyond : Int) < -((_ : Nat) : Int); omega)
    · exact lt_eq_compare (by change -((_ : Nat) : Int) < beyond; omega)
    · exact gt_eq_compare (by change -(beyond : Int) < ((_ : Nat) : Int); omega)
    · exact lt_eq_compare (by change ((_ : Nat) : Int) < beyond; omega)
  | zero t =>
    cases s
    · exact lt_eq_compare (by change -((_ : Nat) : Int) < 0; omega)
    · exact gt_eq_compare (by change (0 : Int) < ((_ : Nat) : Int); omega)
  | finite t m' e' positive' =>
    have small' := hg.magnitude_mem
    have magnitudes := compare_magnitude hf.canonical.1 hg.canonical.1 hf.canonical.2.1
      hg.canonical.2.1 hf.canonical.2.2 hg.canonical.2.2
    cases s <;> cases t
    · refine congrArg some ?_
      rw [magnitudes, ← compare_natCast, ← compare_neg]
      rfl
    · exact lt_eq_compare (by change -((_ : Nat) : Int) < ((_ : Nat) : Int); omega)
    · exact gt_eq_compare (by change -((_ : Nat) : Int) < ((_ : Nat) : Int); omega)
    · refine congrArg some ?_
      rw [magnitudes, ← compare_natCast]
      rfl

/-- Numbers compare as their multiples of the smallest double do. -/
theorem compare_eq {f : UnpackedFloat} (hf : Representable f) (number' : sign? f ≠ none) :
    f.compare g = some (compare (units f) (units g)) := by
  cases f with
  | notANumber => exact absurd rfl number'
  | infinity s => exact compare_infinity hg number s
  | zero s => exact compare_zero hg number s
  | finite s m e positive => exact compare_finite hg number hf

end Cases

/-! ## Doubles -/

/-- How often the smallest double goes into a double. -/
def multiple (x : Float) : Int := units x.toModel.unpack

variable {x y z : Float}

theorem lt_iff (number : sign x ≠ none) (number' : sign y ≠ none) :
    x < y ↔ multiple x < multiple y := by
  rw [lt_iff_compare, compare_eq (representable_unpack _) number' (representable_unpack _) number,
    Option.some_inj, compare_lt_iff_lt]
  rfl

theorem le_iff (number : sign x ≠ none) (number' : sign y ≠ none) :
    x ≤ y ↔ multiple x ≤ multiple y := by
  rw [le_iff_compare, compare_eq (representable_unpack _) number' (representable_unpack _) number,
    Option.any_some, Std.isLE_compare]
  rfl

theorem number_of_isFinite (finite : Scalar.isFinite x = true) : sign x ≠ none := by
  have bounded := bounded_unpack ((isFinite_iff x).1 finite)
  unfold sign
  cases unpacked : x.toModel.unpack with
  | notANumber => rw [unpacked] at bounded; exact bounded.elim
  | infinity s | zero s | finite s m e positive => exact nofun

theorem numbers_of_le (le : x ≤ y) : sign x ≠ none ∧ sign y ≠ none := by
  constructor
  · exact fun none => not_le_of_isNaN (.inl (isNaN_iff.2 none)) le
  · exact fun none => not_le_of_isNaN (.inr (isNaN_iff.2 none)) le

theorem numbers_of_lt (lt : x < y) : sign x ≠ none ∧ sign y ≠ none := by
  constructor
  · exact fun none => not_lt_of_isNaN (.inl (isNaN_iff.2 none)) lt
  · exact fun none => not_lt_of_isNaN (.inr (isNaN_iff.2 none)) lt

theorem lt_of_le_lt (le : x ≤ y) (lt : y < z) : x < z := by
  obtain ⟨hx, hy⟩ := numbers_of_le le
  obtain ⟨-, hz⟩ := numbers_of_lt lt
  exact (lt_iff hx hz).2 (((le_iff hx hy).1 le).trans_lt ((lt_iff hy hz).1 lt))

theorem lt_of_lt_le (lt : x < y) (le : y ≤ z) : x < z := by
  obtain ⟨hx, hy⟩ := numbers_of_lt lt
  obtain ⟨-, hz⟩ := numbers_of_le le
  exact (lt_iff hx hz).2 (((lt_iff hx hy).1 lt).trans_le ((le_iff hy hz).1 le))

/-! ### Arithmetic -/

theorem cut_units {f : UnpackedFloat} (representable : Representable f) :
    cut (units f) = units f := by
  cases f with
  | notANumber | zero s => exact cut_natCast_of_le (Nat.zero_le _)
  | infinity s => rw [units, ← apply_cut, cut_natCast_of_le le_rfl]
  | finite s m e positive =>
    rw [units, ← apply_cut, cut_natCast_of_le representable.magnitude_mem.2.le]

theorem multiple_neg (x : Float) : multiple (-x) = -multiple x := by
  have negated := units_unpack_pack (canonical_neg (canonical_unpack x.toModel))
  rw [units_neg, cut_neg, cut_units (representable_unpack _)] at negated
  exact negated

theorem multiple_add (hx : Scalar.isFinite x = true) (hy : Scalar.isFinite y = true) :
    multiple (x + y) = cut (nearestInt (multiple x + multiple y)) := by
  obtain ⟨canonical, exact⟩ := add_spec (canonical_unpack x.toModel) (canonical_unpack y.toModel)
    ((isFinite_iff x).1 hx) ((isFinite_iff y).1 hy)
  exact (units_unpack_pack canonical).trans (congrArg cut exact)

theorem isFinite_unpack_neg {f : UnpackedFloat} : f.neg.isFinite = f.isFinite := by
  cases f <;> rfl

theorem multiple_sub (hx : Scalar.isFinite x = true) (hy : Scalar.isFinite y = true) :
    multiple (x - y) = cut (nearestInt (multiple x - multiple y)) := by
  obtain ⟨canonical, exact⟩ := add_spec (canonical_unpack x.toModel)
    (canonical_neg (canonical_unpack y.toModel)) ((isFinite_iff x).1 hx)
    (isFinite_unpack_neg.trans ((isFinite_iff y).1 hy))
  rw [units_neg] at exact
  rw [← sub_eq_add_neg] at canonical exact
  exact (units_unpack_pack canonical).trans (congrArg cut exact)

theorem number_sub (hx : sign x ≠ none) (hy : Scalar.isFinite y = true) : sign (x - y) ≠ none := by
  have kept := sign?_sub_eq_none_iff (f := x.toModel.unpack) ((isFinite_iff y).1 hy)
  exact fun none => hx (kept.1 ((sign?_pack _).symm.trans none))

theorem neg_neg_unpacked (f : UnpackedFloat) : f.neg.neg = f := by
  cases f with
  | notANumber => rfl
  | infinity s | zero s | finite s m e positive => cases s <;> rfl

theorem number_add (hx : sign x ≠ none) (hy : Scalar.isFinite y = true) : sign (x + y) ≠ none := by
  have kept := sign?_sub_eq_none_iff (f := x.toModel.unpack)
    (isFinite_unpack_neg.trans ((isFinite_iff y).1 hy))
  rw [sub_eq_add_neg, neg_neg_unpacked] at kept
  exact fun none => hx (kept.1 ((sign?_pack _).symm.trans none))

theorem neg_le_neg_of_le (le : x ≤ y) : -y ≤ -x := by
  obtain ⟨hx, hy⟩ := numbers_of_le le
  have number {x : Float} (hx : sign x ≠ none) : sign (-x) ≠ none := fun none =>
    hx (sign?_neg_eq_none_iff.1 ((sign?_pack _).symm.trans none))
  rw [le_iff (number hy) (number hx), multiple_neg, multiple_neg]
  exact Int.neg_le_neg ((le_iff hx hy).1 le)

/-- A sum is monotone in its second term. -/
theorem add_le_add_of_le (hz : Scalar.isFinite z = true) (hx : Scalar.isFinite x = true)
    (hy : Scalar.isFinite y = true) (le : x ≤ y) : z + x ≤ z + y := by
  rw [le_iff (number_add (number_of_isFinite hz) hx) (number_add (number_of_isFinite hz) hy),
    multiple_add hz hx, multiple_add hz hy]
  have exact := (le_iff (number_of_isFinite hx) (number_of_isFinite hy)).1 le
  exact cut_mono (nearestInt_mono (by omega))

/-- A difference is antitone in its second term. -/
theorem sub_le_sub_of_le (hz : Scalar.isFinite z = true) (hx : Scalar.isFinite x = true)
    (hy : Scalar.isFinite y = true) (le : x ≤ y) : z - y ≤ z - x := by
  rw [le_iff (number_sub (number_of_isFinite hz) hy) (number_sub (number_of_isFinite hz) hx),
    multiple_sub hz hx, multiple_sub hz hy]
  have exact := (le_iff (number_of_isFinite hx) (number_of_isFinite hy)).1 le
  exact cut_mono (nearestInt_mono (by omega))

end QubitTrace.Double
