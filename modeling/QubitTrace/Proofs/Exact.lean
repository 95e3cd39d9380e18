import Mathlib
import QubitTrace.Complex

/-! # Exact arithmetic

The real numbers as scalars. Over them the complex numbers of the library form a
commutative ring in which conjugation is the star, so matrices of amplitudes are matrices
in Mathlib's sense; sums that run in list order are plain sums, and a squared modulus is a
number times its conjugate.
-/

namespace QubitTrace
set_option autoImplicit false

noncomputable instance : Scalar ℝ where
  decideLT := Real.decidableLT
  decideLE := Real.decidableLE
  beq x y := decide (x = y)
  ofDecimal m e := m * 10 ^ e
  pi := Real.pi
  sqrt := Real.sqrt
  hypot x y := √(x * x + y * y)
  sin := Real.sin
  cos := Real.cos
  log2 := Real.logb 2

namespace Scalar

theorem sin_real (x : ℝ) : sin x = Real.sin x := rfl

theorem cos_real (x : ℝ) : cos x = Real.cos x := rfl

theorem sqrt_real (x : ℝ) : sqrt x = √x := rfl

theorem half_real (x : ℝ) : half x = x / 2 := rfl

theorem ofDecimal_real (m : Nat) (e : Int) : (ofDecimal m e : ℝ) = m * 10 ^ e := rfl

end Scalar

namespace Complex

theorem ext {K : Type} {z w : Complex K} (re : z.re = w.re) (im : z.im = w.im) : z = w := by
  cases z
  cases w
  congr

section Parts

variable {K : Type} [Scalar K] (z w : Complex K)

@[simp] theorem re_zero : (0 : Complex K).re = 0 := rfl

@[simp] theorem im_zero : (0 : Complex K).im = 0 := rfl

@[simp] theorem re_one : (1 : Complex K).re = 1 := rfl

@[simp] theorem im_one : (1 : Complex K).im = 0 := rfl

@[simp] theorem re_add : (z + w).re = z.re + w.re := rfl

@[simp] theorem im_add : (z + w).im = z.im + w.im := rfl

@[simp] theorem re_sub : (z - w).re = z.re - w.re := rfl

@[simp] theorem im_sub : (z - w).im = z.im - w.im := rfl

@[simp] theorem re_neg : (-z).re = -z.re := rfl

@[simp] theorem im_neg : (-z).im = -z.im := rfl

@[simp] theorem re_mul : (z * w).re = z.re * w.re - z.im * w.im := rfl

@[simp] theorem im_mul : (z * w).im = z.re * w.im + z.im * w.re := rfl

@[simp] theorem re_conj : z.conj.re = z.re := rfl

@[simp] theorem im_conj : z.conj.im = -z.im := rfl

end Parts

noncomputable instance : CommRing (Complex ℝ) where
  nsmul := nsmulRec
  zsmul := zsmulRec
  add_assoc u v w := by apply ext <;> simp [add_assoc]
  zero_add z := by apply ext <;> simp
  add_zero z := by apply ext <;> simp
  add_comm z w := by apply ext <;> simp [add_comm]
  neg_add_cancel z := by apply ext <;> simp
  sub_eq_add_neg z w := by apply ext <;> simp [sub_eq_add_neg]
  left_distrib u v w := by apply ext <;> simp <;> ring
  right_distrib u v w := by apply ext <;> simp <;> ring
  zero_mul z := by apply ext <;> simp
  mul_zero z := by apply ext <;> simp
  mul_assoc u v w := by apply ext <;> simp <;> ring
  one_mul z := by apply ext <;> simp
  mul_one z := by apply ext <;> simp
  mul_comm z w := by apply ext <;> simp <;> ring

noncomputable instance : StarRing (Complex ℝ) where
  star := conj
  star_involutive z := by apply ext <;> simp
  star_mul z w := by apply ext <;> simp <;> ring
  star_add z w := by apply ext <;> simp [add_comm]

@[simp] theorem re_star (z : Complex ℝ) : (star z).re = z.re := rfl

@[simp] theorem im_star (z : Complex ℝ) : (star z).im = -z.im := rfl

/-- The real numbers inside the complex ones. -/
noncomputable def ofRealHom : ℝ →+* Complex ℝ where
  toFun := ofReal
  map_one' := rfl
  map_zero' := rfl
  map_mul' x y := by apply ext <;> simp [ofReal]
  map_add' x y := by apply ext <;> simp [ofReal]

@[simp] theorem re_ofRealHom (x : ℝ) : (ofRealHom x).re = x := rfl

@[simp] theorem im_ofRealHom (x : ℝ) : (ofRealHom x).im = 0 := rfl

theorem ofRealHom_injective : Function.Injective ofRealHom := fun _ _ same => congrArg re same

/-- A number times its conjugate is its squared modulus. -/
theorem star_mul_self (z : Complex ℝ) : star z * z = ofRealHom z.normSq := by
  apply ext
  · rw [re_ofRealHom]
    simp [normSq]
  · rw [im_ofRealHom]
    simp [mul_comm]

/-- Over exact numbers the order of a sum does not matter. -/
theorem sum_eq (zs : List (Complex ℝ)) : sum zs = zs.sum := List.sum_eq_foldl.symm

theorem sum_map_range (n : Nat) (f : Nat → Complex ℝ) :
    sum ((List.range n).map f) = ∑ i : Fin n, f i := by
  have listed : (List.range n).map f = List.ofFn fun i : Fin n => f i :=
    List.ext_getElem (by simp) (by simp)
  rw [sum_eq, listed, List.sum_ofFn]

end Complex

end QubitTrace
