import Mathlib
import QubitTrace.Scalar.Double

/-! # Finite doubles

A double is finite exactly if it cancels against itself, which is how scalars are asked
(`isFinite_iff`). Unpacked into a significand and an exponent, the finite ones have a significand
below `2 ^ 53` and an exponent of 971 at most (`bounded_unpack`), and whatever has such an exponent
is finite when it is packed again.
-/

namespace QubitTrace.Double
set_option autoImplicit false

open Float.Model (Format UnpackedFloat totalExponent)
open Float.Model.UnpackedFloat

/-- A number that is zero or has an exponent that fits a double. -/
def Bounded : UnpackedFloat → Prop
  | .zero _ => True
  | .finite _ _ e _ => e ≤ 971
  | .infinity _ | .notANumber => False

/-! ## Packing -/

theorem unpack_pack (f : UnpackedFloat) : (Float.Model.pack f).unpack =
    UnpackedFloat.unpack Format.binary64 (UnpackedFloat.pack Format.binary64 f) := rfl

/-- Bits whose exponent field is not all ones are those of a finite number. -/
theorem isFinite_unpack {b : BitVec Format.binary64.numBits}
    (field : unpackExponent b ≠ -1#_) : (UnpackedFloat.unpack Format.binary64 b).isFinite = true := by
  unfold UnpackedFloat.unpack
  simp only [if_neg field]
  split_ifs <;> rfl

theorem isFinite_pack {f : UnpackedFloat} (bounded : Bounded f) :
    (Float.Model.pack f).unpack.isFinite = true := by
  rw [unpack_pack]
  apply isFinite_unpack
  cases f with
  | infinity s => exact bounded.elim
  | notANumber => exact bounded.elim
  | zero s =>
    rw [UnpackedFloat.pack, packedZero, unpackExponent_packComponents]
    decide
  | finite s m e positive =>
    have small : e ≤ 971 := bounded
    have field : (e + Format.binary64.exponentBias +
        Format.binary64.mantissaBitsWithoutImplicit).toNat ≤ 2046 := by
      change (e + 1023 + 52).toNat ≤ 2046
      omega
    have inside : ¬ 2 ^ Format.binary64.exponentBits ≤ (e + Format.binary64.exponentBias +
        Format.binary64.mantissaBitsWithoutImplicit).toNat + 1 := by
      change ¬ 2048 ≤ _
      omega
    rw [UnpackedFloat.pack, if_neg inside]
    split_ifs
    · rw [unpackExponent_packComponents]
      intro full
      have number := congrArg BitVec.toNat full
      rw [BitVec.toNat_ofNat, Nat.mod_eq_of_lt (field.trans_lt (by decide))] at number
      exact absurd (number ▸ field) (by decide)
    · rw [unpackExponent_packComponents]
      decide

/-- An unpacked double has an exponent that fits one. -/
theorem bounded_unpack {x : Float.Model} (finite : x.unpack.isFinite = true) :
    Bounded x.unpack := by
  unfold Float.Model.unpack UnpackedFloat.unpack at finite ⊢
  have field := (unpackExponent x.toBits.toBitVec : BitVec Format.binary64.exponentBits).isLt
  dsimp only at finite ⊢
  split_ifs at finite ⊢ with full empty none blank
  · cases finite
  · cases finite
  · trivial
  · rw [none]
    change ((0 : Nat) : Int) - ((1023 : Nat) + (52 : Nat)) + 1 ≤ 971
    omega
  · have partly : (unpackExponent x.toBits.toBitVec :
        BitVec Format.binary64.exponentBits).toNat ≠ 2047 := fun same =>
      full (BitVec.eq_of_toNat_eq same)
    change (_ : Int) - ((1023 : Nat) + (52 : Nat)) ≤ 971
    change _ < 2048 at field
    omega

/-- An unpacked double has a significand of 53 bits at most. -/
theorem significand_lt {x : Float.Model} {s : Sign} {m : Nat} {e : Int} {positive : 0 < m}
    (unpacked : x.unpack = .finite s m e positive) : m < 2 ^ 53 := by
  unfold Float.Model.unpack UnpackedFloat.unpack at unpacked
  dsimp only at unpacked
  split_ifs at unpacked
  · cases unpacked
    exact (BitVec.isLt _).trans (by decide)
  · cases unpacked
    exact BitVec.isLt _

/-! ## Cancellation -/

/-- A scalar is asked to cancel against itself; finite doubles do, and only they. -/
theorem isFinite_iff (x : Float) : Scalar.isFinite x = true ↔ x.toModel.unpack.isFinite = true := by
  have zero : (0 : Float).toModel.unpack = .zero .positive := rfl
  have cancelled : Scalar.isFinite x = (Float.Model.pack
      (UnpackedFloat.sub Format.binary64 x.toModel.unpack x.toModel.unpack)).unpack.beq
        (.zero .positive) := by
    rw [← zero]
    rfl
  rw [cancelled]
  cases x.toModel.unpack with
  | infinity s => cases s <;> decide
  | notANumber => decide
  | zero s => cases s <;> decide
  | finite s m e positive =>
    have nothing : UnpackedFloat.sub Format.binary64 (.finite s m e positive)
        (.finite s m e positive) = .zero .positive := by
      unfold UnpackedFloat.sub
      dsimp only
      rw [sub_self]
      rfl
    rw [nothing]
    exact iff_of_true (by decide) rfl

theorem isFinite_ofModel {f : UnpackedFloat} (bounded : Bounded f) :
    Scalar.isFinite (Float.ofModel (Float.Model.pack f)) = true :=
  (isFinite_iff _).2 (isFinite_pack bounded)

/-- A finite double is zero, or it has a significand of 53 bits and an exponent that fits. -/
theorem unpack_of_isFinite {x : Float} (finite : Scalar.isFinite x = true) :
    (∃ s, x.toModel.unpack = .zero s) ∨ ∃ s m e positive,
      x.toModel.unpack = .finite s m e positive ∧ m < 2 ^ 53 ∧ e ≤ 971 := by
  have bounded := bounded_unpack ((isFinite_iff x).1 finite)
  cases unpacked : x.toModel.unpack with
  | infinity s => rw [unpacked] at bounded; exact bounded.elim
  | notANumber => rw [unpacked] at bounded; exact bounded.elim
  | zero s => exact Or.inl ⟨s, rfl⟩
  | finite s m e positive =>
    rw [unpacked] at bounded
    exact Or.inr ⟨s, m, e, positive, rfl, significand_lt unpacked, bounded⟩

/-- The negative of a finite double is finite. -/
theorem isFinite_neg {x : Float} (finite : Scalar.isFinite x = true) :
    Scalar.isFinite (-x) = true := by
  apply isFinite_ofModel
  rcases unpack_of_isFinite finite with ⟨s, none⟩ | ⟨s, m, e, positive, some, digits, small⟩
  · rw [none]
    trivial
  · rw [some]
    exact small

/-! ## Taken apart -/

theorem toNat_unpackExponent (x : Float) :
    (unpackExponent x.toModel.toBits.toBitVec : BitVec Format.binary64.exponentBits).toNat =
      (x.toBits.toNat >>> 52) % 1 <<< 11 := by
  unfold unpackExponent
  rw [BitVec.toNat_cast, BitVec.extractLsb_toNat]
  rfl

theorem exponent_ne_of_isFinite {x : Float} (finite : Scalar.isFinite x = true) :
    (x.toBits.toNat >>> 52) % 1 <<< 11 ≠ 2047 := by
  intro full
  rw [← toNat_unpackExponent] at full
  have ones : (unpackExponent x.toModel.toBits.toBitVec : BitVec Format.binary64.exponentBits) =
      -1#_ := BitVec.eq_of_toNat_eq full
  have kept := (isFinite_iff x).1 finite
  unfold Float.Model.unpack UnpackedFloat.unpack at kept
  dsimp only at kept
  rw [if_pos ones] at kept
  split_ifs at kept <;> exact Bool.false_ne_true kept

/-- A finite double is a significand of 53 bits times a power of two. -/
theorem exists_finite_of_isFinite {x : Float} (finite : Scalar.isFinite x = true) :
    ∃ negative m q, Dyadic.ofFloat x = .finite negative m q ∧ m < 2 ^ 53 ∧ q ≤ 971 := by
  have partly := exponent_ne_of_isFinite finite
  have field : (x.toBits.toNat >>> 52) % 1 <<< 11 < 2048 := Nat.mod_lt _ (by decide)
  have fraction : x.toBits.toNat % 1 <<< 52 < 2 ^ 52 := Nat.mod_lt _ (by decide)
  unfold Dyadic.ofFloat Dyadic.ofBits
  dsimp only
  rw [if_neg partly]
  split_ifs
  · exact ⟨_, _, _, rfl, by omega, by decide⟩
  · refine ⟨_, _, _, rfl, ?_, by omega⟩
    change 2 ^ 52 + _ < _
    omega

/-! ## Rounding -/

theorem mantissa_shiftRight (em : ExtendedMantissa) (k : Nat) :
    (em >>> k).mantissa = em.mantissa / 2 ^ k := by
  change (k.repeat ExtendedMantissa.shiftRightOne em).mantissa = _
  induction k with
  | zero => simp [Nat.repeat]
  | succ k ih =>
    rw [Nat.repeat, ExtendedMantissa.shiftRightOne, ih, Nat.div_div_eq_div_mul, pow_succ]

/-- A significand that ends in zeros loses nothing with them. -/
theorem shiftRight_exact (c k : Nat) :
    (⟨c * 2 ^ k, false, false⟩ : ExtendedMantissa) >>> k = ⟨c, false, false⟩ := by
  change k.repeat ExtendedMantissa.shiftRightOne _ = _
  induction k generalizing c with
  | zero => simp [Nat.repeat]
  | succ k ih =>
    have shifted : c * 2 ^ (k + 1) = 2 * c * 2 ^ k := by ring
    rw [Nat.repeat, shifted, ih, ExtendedMantissa.shiftRightOne]
    simp

theorem roundedMantissa_le (em : ExtendedMantissa) : em.roundedMantissa ≤ em.mantissa + 1 := by
  unfold ExtendedMantissa.roundedMantissa Accuracy.roundToNearestEven
  split <;> omega

theorem log2_le_of_le_two_pow {r n : Nat} (le : r ≤ 2 ^ n) : r.log2 ≤ n := by
  rcases Nat.eq_zero_or_pos r with rfl | positive
  · simp
  · have lt : r < 2 ^ (n + 1) := le.trans_lt (Nat.pow_lt_pow_right (by decide) (Nat.lt_succ_self n))
    exact Nat.lt_succ_iff.1 ((Nat.log2_lt positive.ne').2 lt)

theorem log2_mul_two_pow_le {c n : Nat} (lt : c < 2 ^ (n + 1)) (i : Nat) :
    (c * 2 ^ i).log2 ≤ n + i := by
  rcases Nat.eq_zero_or_pos c with rfl | positive
  · simp
  · have lt : c * 2 ^ i < 2 ^ (n + i + 1) := by
      rw [Nat.add_right_comm, pow_add]
      exact Nat.mul_lt_mul_of_pos_right lt (by positivity)
    exact Nat.lt_succ_iff.1 ((Nat.log2_lt (by positivity)).2 lt)

/-- Rounding a significand that lost its last `k` digits may carry, but by one digit at most. -/
theorem log2_of_le_div {r m k : Nat} (le : r ≤ m / 2 ^ k + 1) :
    r.log2 + k ≤ m.log2 + 1 ∨ r.log2 = 0 := by
  rcases Nat.lt_or_ge (m.log2 + 1) k with few | many
  · have gone : m / 2 ^ k = 0 := by
      refine Nat.div_eq_of_lt (Nat.lt_log2_self.trans ?_)
      exact Nat.pow_lt_pow_right (by decide) few
    rw [gone] at le
    exact Or.inr (Nat.le_zero.1 (log2_le_of_le_two_pow (n := 0) (by simpa using le)))
  · have digits : m / 2 ^ k < 2 ^ (m.log2 + 1 - k) := by
      rw [Nat.div_lt_iff_lt_mul (by positivity), ← pow_add, Nat.sub_add_cancel many]
      exact Nat.lt_log2_self
    have := log2_le_of_le_two_pow (le.trans digits)
    omega

/-- The exponent a significand is rounded at. -/
theorem targetExponent_eq (e : Int) :
    Format.binary64.targetExponent e = max (e - 53) (-1074) := rfl

theorem bounded_of_first {s : Sign} {m : Nat} {e : Int} {acc : Accuracy}
    (fits : (shiftToTargetExponent Format.binary64 m e acc).2 ≤ 971)
    (digits : ((shiftToTargetExponent Format.binary64 m e acc).1.roundedMantissa.log2 : Int) +
      (shiftToTargetExponent Format.binary64 m e acc).2 ≤ 1023) :
    Bounded (roundWithAccuracy Format.binary64 s m e acc) := by
  unfold roundWithAccuracy
  dsimp only
  split_ifs
  · trivial
  · change (shiftToTargetExponent Format.binary64 m e acc).2 + _ ≤ 971
    rw [targetExponent_eq, totalExponent]
    omega

theorem first_exponent (m : Nat) (e : Int) (acc : Accuracy) :
    (shiftToTargetExponent Format.binary64 m e acc).2 =
      e + ((max ((m.log2 : Int) + 1 + e - 53) (-1074) - e).toNat : Nat) := rfl

/-- Rounding a number below the largest power of two gives one that fits a double. -/
theorem bounded_roundWithAccuracy {s : Sign} {m : Nat} {e : Int} {acc : Accuracy}
    (exponent : e ≤ 971) (below : (m.log2 : Int) + e ≤ 1022) :
    Bounded (roundWithAccuracy Format.binary64 s m e acc) := by
  have kept : (shiftToTargetExponent Format.binary64 m e acc).1.mantissa =
      m / 2 ^ (max ((m.log2 : Int) + 1 + e - 53) (-1074) - e).toNat := by
    refine (mantissa_shiftRight _ _).trans ?_
    rw [targetExponent_eq, totalExponent]
    congr 1
    cases acc with
    | exact => rfl
    | inexact o => cases o <;> rfl
  have rounded := roundedMantissa_le (shiftToTargetExponent Format.binary64 m e acc).1
  rw [kept] at rounded
  have digits := log2_of_le_div rounded
  apply bounded_of_first <;> rw [first_exponent] <;> omega

/-- Nothing is lost of a number whose significand fits a double once its zeros are dropped. -/
theorem bounded_roundWithAccuracy_exact {s : Sign} {c j : Nat} {e : Int} (small : c < 2 ^ 53)
    (low : -1074 ≤ e + j) (high : e + j ≤ 971) :
    Bounded (roundWithAccuracy Format.binary64 s (c * 2 ^ j) e .exact) := by
  have digits := log2_mul_two_pow_le small j
  obtain ⟨k, dropped⟩ : ∃ k : Nat,
      (max (((c * 2 ^ j).log2 : Int) + 1 + e - 53) (-1074) - e).toNat = k := ⟨_, rfl⟩
  have few : k ≤ j := by omega
  have exponent : (shiftToTargetExponent Format.binary64 (c * 2 ^ j) e .exact).2 = e + k := by
    rw [first_exponent, dropped]
  have significand : (shiftToTargetExponent Format.binary64 (c * 2 ^ j) e .exact).1 =
      ⟨c * 2 ^ (j - k), false, false⟩ := by
    change (⟨c * 2 ^ j, false, false⟩ : ExtendedMantissa) >>>
      (Format.binary64.targetExponent (totalExponent (c * 2 ^ j) e) - e).toNat = _
    have split : c * 2 ^ j = c * 2 ^ (j - k) * 2 ^ k := by
      rw [mul_assoc, ← pow_add, Nat.sub_add_cancel few]
    rw [targetExponent_eq, totalExponent, dropped, split, shiftRight_exact]
  have rest := log2_mul_two_pow_le small (j - k)
  apply bounded_of_first
  · omega
  · rw [exponent, significand]
    change ((c * 2 ^ (j - k)).log2 : Int) + _ ≤ _
    omega

/-! ## Quotients -/

/-- The exponent a quotient is formed at, before it is rounded. -/
def quotientExponent (m₁ : Nat) (e₁ : Int) (m₂ : Nat) (e₂ : Int) : Int :=
  min (e₁ - e₂) (max ((m₁.log2 : Int) + 1 + e₁ - (m₂.log2 + 1 + e₂) - 53) (-1074))

/-- A quotient is a rounded quotient of naturals. -/
theorem div_finite {s₁ s₂ : Sign} {m₁ m₂ k : Nat} {e₁ e₂ t : Int} {pos₁ : 0 < m₁} {pos₂ : 0 < m₂}
    (formed : quotientExponent m₁ e₁ m₂ e₂ = t) (shift : (e₁ - e₂ - t).toNat = k) :
    UnpackedFloat.div Format.binary64 (.finite s₁ m₁ e₁ pos₁) (.finite s₂ m₂ e₂ pos₂) =
      roundWithAccuracy Format.binary64 (s₁ / s₂) (m₁ * 2 ^ k / m₂) t
        (accuracyOfFraction (m₁ * 2 ^ k % m₂) m₂) := by
  subst formed
  subst shift
  rw [← Nat.shiftLeft_eq]
  rfl

theorem log2_div_le (m₁ k : Nat) {m₂ : Nat} (positive : 0 < m₂) :
    (m₁ * 2 ^ k / m₂).log2 ≤ m₁.log2 + k - m₂.log2 := by
  rcases Nat.eq_zero_or_pos (m₁ * 2 ^ k / m₂) with none | some
  · simp [none]
  · have below : m₁ * 2 ^ k < 2 ^ (m₁.log2 + 1 + k) := by
      rw [pow_add]
      exact Nat.mul_lt_mul_of_pos_right Nat.lt_log2_self (by positivity)
    have above : 2 ^ m₂.log2 ≤ m₂ := Nat.log2_self_le positive.ne'
    have le : m₂ ≤ m₁ * 2 ^ k := ((Nat.div_pos_iff).1 some).2
    have few : m₂.log2 < m₁.log2 + 1 + k :=
      (Nat.pow_lt_pow_iff_right (by decide)).1 ((above.trans le).trans_lt below)
    have lt : m₁ * 2 ^ k / m₂ < 2 ^ (m₁.log2 + 1 + k - m₂.log2) := by
      rw [Nat.div_lt_iff_lt_mul positive]
      calc m₁ * 2 ^ k < 2 ^ (m₁.log2 + 1 + k) := below
        _ = 2 ^ (m₁.log2 + 1 + k - m₂.log2) * 2 ^ m₂.log2 := by
          rw [← pow_add, Nat.sub_add_cancel few.le]
        _ ≤ _ := Nat.mul_le_mul_left _ above
    have := (Nat.log2_lt some.ne').2 lt
    omega

/-- A quotient below the largest power of two fits a double. -/
theorem bounded_div {s₁ s₂ : Sign} {m₁ m₂ : Nat} {e₁ e₂ : Int} {pos₁ : 0 < m₁} {pos₂ : 0 < m₂}
    (below : (m₁.log2 : Int) + e₁ - m₂.log2 - e₂ ≤ 1022) :
    Bounded (UnpackedFloat.div Format.binary64 (.finite s₁ m₁ e₁ pos₁) (.finite s₂ m₂ e₂ pos₂)) := by
  obtain ⟨t, formed⟩ : ∃ t, quotientExponent m₁ e₁ m₂ e₂ = t := ⟨_, rfl⟩
  obtain ⟨k, shift⟩ : ∃ k : Nat, (e₁ - e₂ - t).toNat = k := ⟨_, rfl⟩
  have digits := log2_div_le m₁ k pos₂
  rw [div_finite formed shift]
  rw [quotientExponent] at formed
  apply bounded_roundWithAccuracy <;> omega

/-- A quotient that is a double fits one. -/
theorem bounded_div_exact {s₁ s₂ : Sign} {c q d : Nat} {pos₁ : 0 < c * 2 ^ q * d} {pos₂ : 0 < d}
    (small : c < 2 ^ 53) (high : q ≤ 971) :
    Bounded (UnpackedFloat.div Format.binary64 (.finite s₁ (c * 2 ^ q * d) 0 pos₁)
      (.finite s₂ d 0 pos₂)) := by
  obtain ⟨t, formed⟩ : ∃ t, quotientExponent (c * 2 ^ q * d) 0 d 0 = t := ⟨_, rfl⟩
  obtain ⟨k, shift⟩ : ∃ k : Nat, ((0 : Int) - 0 - t).toNat = k := ⟨_, rfl⟩
  have scaled : c * 2 ^ q * d * 2 ^ k = c * 2 ^ (q + k) * d := by ring
  rw [div_finite formed shift, scaled, Nat.mul_div_cancel _ pos₂, Nat.mul_mod_left]
  rw [quotientExponent] at formed
  exact bounded_roundWithAccuracy_exact small (by omega) (by omega)

/-! ## Decimals with four places -/

theorem bounded_round {s : Sign} {m : Nat} {e : Int} (below : (m.log2 : Int) + e ≤ 1022) :
    Bounded (UnpackedFloat.round Format.binary64 s m e) := by
  obtain ⟨k, shift⟩ : ∃ k : Nat,
      (e - Format.binary64.targetExponent (totalExponent m e)).toNat = k := ⟨_, rfl⟩
  have digits := log2_mul_two_pow_le (Nat.lt_log2_self (n := m)) k
  have rounded : UnpackedFloat.round Format.binary64 s m e =
      roundWithAccuracy Format.binary64 s (m * 2 ^ k) (e - k) .exact := by
    rw [← Nat.shiftLeft_eq, ← shift]
    rfl
  rw [targetExponent_eq, totalExponent] at shift
  rw [rounded]
  apply bounded_roundWithAccuracy <;> omega

theorem isFinite_toFloat (n : UInt64) : Scalar.isFinite n.toFloat = true := by
  apply isFinite_ofModel
  change Bounded (UnpackedFloat.normalize Format.binary64 (n.toNat : Int) 0 .positive)
  unfold UnpackedFloat.normalize
  have digits := log2_le_of_le_two_pow n.toNat_lt.le
  split
  · next negative => exact absurd (compare_lt_iff_lt.1 negative) (by omega)
  · trivial
  · apply bounded_round
    rw [Int.toNat_natCast]
    omega

/-- Ten to the fourth, as the double it is. -/
def tenThousand : Float := Float.exactlyRepresentablePowersOfTen[4]

theorem unpack_tenThousand :
    tenThousand.toModel.unpack = .finite .positive 5497558138880000 (-39) (by decide) := by
  rfl

theorem isFinite_div_tenThousand {x : Float} (finite : Scalar.isFinite x = true) :
    Scalar.isFinite (x / tenThousand) = true := by
  apply isFinite_ofModel
  rw [unpack_tenThousand]
  rcases unpack_of_isFinite finite with ⟨s, none⟩ | ⟨s, m, e, positive, some, digits, small⟩
  · rw [none]
    trivial
  · rw [some]
    have length := (Nat.log2_lt positive.ne').2 digits
    have known : Nat.log2 5497558138880000 = 52 := by decide
    apply bounded_div
    omega

/-- A decimal with four places is finite when it is small, or the double it stands for. -/
theorem isFinite_ofDecimal {n : Nat}
    (size : n.log2 ≤ 1000 ∨ ∃ c q, c < 2 ^ 53 ∧ q ≤ 971 ∧ n = c * 2 ^ q * 10 ^ 4) :
    Scalar.isFinite (ofDecimal n (-4)) = true := by
  unfold ofDecimal
  split_ifs with tiny huge
  · exact (isFinite_iff _).2 rfl
  · omega
  · have positive : 0 < n := Nat.pos_of_ne_zero fun none => tiny (Or.inl none)
    have known : Nat.log2 (10 ^ 4) = 13 := by decide
    change Scalar.isFinite (Float.ofScientific n true 4) = true
    unfold Float.ofScientific
    dsimp only
    simp only [if_true]
    split_ifs with short
    · exact isFinite_div_tenThousand (isFinite_toFloat _)
    · apply isFinite_ofModel
      change Bounded (UnpackedFloat.ofScientific Format.binary64 n (-4))
      unfold UnpackedFloat.ofScientific
      have near : ¬ (-4 : Int) < -(2 ^ Format.binary64.exponentBits + n.log2) := by
        change ¬ (-4 : Int) < -(2048 + n.log2)
        omega
      rw [dif_neg positive.ne', if_neg (by decide), if_neg near, if_neg (by decide)]
      rcases size with small | ⟨c, q, small, high, rfl⟩
      · apply bounded_div
        change (n.log2 : Int) + 0 - Nat.log2 (10 ^ 4) - 0 ≤ 1022
        omega
      · exact bounded_div_exact (d := 10 ^ 4) small high

/-! ## Sizes -/

/-- A product below the largest power of two fits a double. -/
theorem bounded_mul {s₁ s₂ : Sign} {m₁ m₂ : Nat} {e₁ e₂ : Int} {pos₁ : 0 < m₁} {pos₂ : 0 < m₂}
    (exponent : e₁ + e₂ ≤ 971) (below : ((m₁ * m₂).log2 : Int) + (e₁ + e₂) ≤ 1022) :
    Bounded (UnpackedFloat.mul Format.binary64 (.finite s₁ m₁ e₁ pos₁) (.finite s₂ m₂ e₂ pos₂)) :=
  bounded_roundWithAccuracy exponent below

/-- One, as the power of ten it is. -/
def one : Float := Float.exactlyRepresentablePowersOfTen[0]

theorem unpack_one : one.toModel.unpack = .finite .positive (2 ^ 52) (-52) (by decide) := by
  rfl

theorem isFinite_mul_one {x : Float} (finite : Scalar.isFinite x = true) :
    Scalar.isFinite (x * one) = true := by
  apply isFinite_ofModel
  rw [unpack_one]
  rcases unpack_of_isFinite finite with ⟨s, none⟩ | ⟨s, m, e, positive, some, digits, small⟩
  · rw [none]
    trivial
  · rw [some]
    -- A significand with 52 zeros behind it is too long for the bound by size at the top only.
    rcases le_or_gt e 900 with low | high
    · have length := log2_mul_two_pow_le digits 52
      apply bounded_mul <;> omega
    · exact bounded_roundWithAccuracy_exact digits (by omega) (by omega)

/-- A size is finite. -/
theorem isFinite_ofDecimal_size {n : Nat} (small : n < 2 ^ 64) :
    Scalar.isFinite (ofDecimal n 0) = true := by
  unfold ofDecimal
  split_ifs with tiny huge
  · exact (isFinite_iff _).2 rfl
  · omega
  · have positive : 0 < n := Nat.pos_of_ne_zero fun none => tiny (Or.inl none)
    change Scalar.isFinite (Float.ofScientific n false 0) = true
    unfold Float.ofScientific
    dsimp only
    simp only [Bool.false_eq_true, if_false]
    split_ifs with short
    · exact isFinite_mul_one (isFinite_toFloat _)
    · apply isFinite_ofModel
      change Bounded (UnpackedFloat.ofScientific Format.binary64 n 0)
      unfold UnpackedFloat.ofScientific
      have near : ¬ (0 : Int) < -(2 ^ Format.binary64.exponentBits + n.log2) := by
        change ¬ (0 : Int) < -(2048 + n.log2)
        omega
      rw [dif_neg positive.ne', if_neg (by decide), if_neg near, if_pos le_rfl]
      generalize_proofs longer unit
      generalize shifted : n <<< Format.binary64.mantissaBits = m at longer ⊢
      generalize power : 10 ^ (0 : Int).toNat = k at unit ⊢
      have length : (m * k).log2 ≤ 63 + 53 := by
        rw [← shifted, ← power, Int.toNat_zero, Nat.pow_zero, Nat.mul_one, Nat.shiftLeft_eq]
        exact log2_mul_two_pow_le small 53
      have bits : (Format.binary64.mantissaBits : Int) = 53 := rfl
      apply bounded_mul <;> omega

end QubitTrace.Double
