/-! # Rounding quotients

`roundDiv` rounds a quotient of naturals to the nearest natural, a half to the even one. That is
one of the two naturals next to the quotient (`roundDiv_mem`), and the quotient itself where it is
a natural (`roundDiv_mul_self`). `ratio` writes a scaled power of two as such a quotient.
-/

namespace QubitTrace.Decimal
set_option autoImplicit false

/-- The natural nearest to `num / den`; of two equally near ones the even one. -/
def roundDiv (num den : Nat) : Nat :=
  let q := num / den
  let twice := 2 * (num % den)
  if twice < den then q
  else if den < twice then q + 1
  else if q % 2 = 0 then q else q + 1

def powerOfTen (n : Nat) : Nat := Nat.pow 10 n

/-- `m * 2 ^ q * 10 ^ k` as a quotient of naturals. -/
def ratio (m : Nat) (q k : Int) : Nat × Nat :=
  (m <<< q.toNat * powerOfTen k.toNat, powerOfTen (-k).toNat <<< (-q).toNat)

/-- A quotient is rounded down or up to the next natural. -/
theorem roundDiv_mem (num den : Nat) :
    num / den ≤ roundDiv num den ∧ roundDiv num den ≤ num / den + 1 := by
  unfold roundDiv
  dsimp only
  split
  · omega
  · split
    · omega
    · split <;> omega

/-- A quotient that is a natural is left as it is. -/
theorem roundDiv_mul_self (c : Nat) {den : Nat} (pos : 0 < den) : roundDiv (c * den) den = c := by
  unfold roundDiv
  rw [Nat.mul_div_cancel c pos, Nat.mul_mod_left]
  exact if_pos pos

end QubitTrace.Decimal
