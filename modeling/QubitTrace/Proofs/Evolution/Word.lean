import Mathlib
import QubitTrace.Basis.Word
import QubitTrace.Proofs.Evolution.Rounds

/-! # Gates on machine words

In words of 64 bits a zero bit is put into an index without loss as long as the topmost bit is
free (`exact_insertZeroBit`): bit by bit the word is the unbounded index. A register of fewer than
64 qubits leaves that bit free, before the first insertion and before the second, so the words a
gate goes through are the indices of its rounds, which are all of the register's, once each.
-/

namespace QubitTrace.Evolution
set_option autoImplicit false

open QubitTrace.Basis

section Insertion

variable {i : BitVec 64} {k : Nat}

theorem toNat_mask (lt : k < 64) : (Word.mask k).toNat = 1 <<< k := by
  have fits : 1 <<< k < 2 ^ 64 := by
    rw [Nat.shiftLeft_eq, Nat.one_mul]
    exact Nat.pow_lt_pow_right (by decide) lt
  rw [Word.mask, BitVec.toNat_shiftLeft]
  exact Nat.mod_eq_of_lt fits

theorem getLsbD_below (lt : k < 64) (q : Nat) : (Word.below k).getLsbD q = decide (q < k) := by
  have pos : 1 ≤ 2 ^ k := Nat.one_le_two_pow
  have mask : (Word.mask k).toNat = 2 ^ k := by rw [toNat_mask lt, Nat.shiftLeft_eq, Nat.one_mul]
  have value : (Word.below k).toNat = 2 ^ k - 1 := by
    rw [Word.below, BitVec.toNat_sub_of_le, mask]
    · rfl
    · rw [BitVec.le_def, mask]
      exact pos
  rw [← BitVec.testBit_toNat, value, Nat.testBit_two_pow_sub_one]

/-- The bits from `k` on move up, and the one that would leave the word is none of an index that
leaves it free. -/
theorem getLsbD_raised (lt : k < 64) (q : Nat) :
    (Word.raised i k).getLsbD q = (decide (k < q ∧ q < 64) && i.getLsbD (q - 1)) := by
  rw [Word.raised, BitVec.getLsbD_shiftLeft, BitVec.getLsbD_and, BitVec.getLsbD_not,
    getLsbD_below lt]
  rcases Nat.lt_or_ge k q with above | upTo
  · by_cases inside : q < 64
    · simp [above, inside, show ¬q < 1 by omega, show ¬q - 1 < k by omega,
        show q - 1 < 64 by omega]
    · simp [inside]
  · rcases Nat.eq_zero_or_pos q with rfl | pos
    · simp
    · simp [show ¬k < q by omega, show q - 1 < k by omega]

/-- A zero bit put into a word has gone in without loss: the mask is the power of two it stands for,
the shift drops no bit, the result is the index with the bit put in, and it is undone by taking
the bit out. -/
structure Exact (i : BitVec 64) (k : Nat) : Prop where
  mask : (Word.mask k).toNat = 2 ^ k
  raised : (Word.raised i k).toNat = 2 * (i &&& ~~~Word.below k).toNat
  inserted : (Word.insertZeroBit i k).toNat = insertZeroBit i.toNat k
  removed : dropBit (Word.insertZeroBit i k).toNat k = i.toNat

theorem toNat_insertZeroBit (lt : k < 64) (free : i.toNat < dimension 63) :
    (Word.insertZeroBit i k).toNat = insertZeroBit i.toNat k := by
  refine Nat.eq_of_testBit_eq fun q => ?_
  rw [BitVec.testBit_toNat, testBit_insertZeroBit, BitVec.testBit_toNat, BitVec.testBit_toNat,
    Word.insertZeroBit, BitVec.getLsbD_or, BitVec.getLsbD_and, getLsbD_raised lt,
    getLsbD_below lt]
  rcases Nat.lt_trichotomy q k with below | here | above
  · simp [below, show ¬k < q by omega]
  · simp [here]
  · rw [if_neg (by omega), if_neg (by omega)]
    by_cases inside : q < 64
    · simp [above, inside, show ¬q < k by omega]
    · have top : i.getLsbD (q - 1) = false := by
        rw [← BitVec.testBit_toNat]
        exact testBit_of_lt_dimension free (by omega)
      simp [top, show ¬q < k by omega]

/-- Taking out the bit that was put in leaves the index. -/
theorem dropBit_insertZeroBit (i k : Nat) : dropBit (insertZeroBit i k) k = i := by
  refine Nat.eq_of_testBit_eq fun q => ?_
  rw [testBit_dropBit, testBit_insertZeroBit, testBit_insertZeroBit]
  by_cases below : q < k
  · rw [if_pos below, if_pos below]
  · rw [if_neg below, if_neg (by omega), if_neg (by omega), Nat.add_sub_cancel]

/-- With the topmost bit free a zero bit goes in without loss. -/
theorem exact_insertZeroBit (lt : k < 64) (free : i.toNat < dimension 63) : Exact i k where
  mask := by rw [toNat_mask lt, Nat.shiftLeft_eq, Nat.one_mul]
  raised := by
    have le : (i &&& ~~~Word.below k).toNat ≤ i.toNat := by
      rw [BitVec.toNat_and]
      exact Nat.and_le_left
    rw [dimension_eq] at free
    rw [Word.raised, BitVec.toNat_shiftLeft, Nat.shiftLeft_eq]
    omega
  inserted := toNat_insertZeroBit lt free
  removed := by rw [toNat_insertZeroBit lt free, dropBit_insertZeroBit]

end Insertion

/-! ## The words of a round -/

theorem toNat_ofNat_of_lt {n i : Nat} (fits : n ≤ 64) (lt : i < dimension n) :
    (BitVec.ofNat 64 i).toNat = i := by
  rw [dimension_eq] at lt
  exact Nat.mod_eq_of_lt (lt_of_lt_of_le lt (Nat.pow_le_pow_right (by decide) fits))

theorem lt_dimension_of_le {m n i : Nat} (lt : i < dimension m) (le : m ≤ n) : i < dimension n :=
  lt_dimension_iff.2 fun _ above => testBit_of_lt_dimension lt (le.trans above)

/-- For a gate on one qubit: the bit goes in without loss, and the words are the indices of the
round. -/
theorem exact_pair {n target i : Nat} (fits : n < 64) (range : target < n)
    (lt : i < dimension (n - 1)) :
    Exact (.ofNat 64 i) target ∧
      (Word.pair target (.ofNat 64 i)).map BitVec.toNat = visited [target] i := by
  have value := toNat_ofNat_of_lt (show n - 1 ≤ 64 by omega) lt
  have free : (BitVec.ofNat 64 i).toNat < dimension 63 := by
    rw [value]
    exact lt_dimension_of_le lt (by omega)
  have exact := exact_insertZeroBit (k := target) (by omega) free
  refine ⟨exact, ?_⟩
  have inserted := exact.inserted
  rw [value] at inserted
  simp only [Word.pair, List.map_cons, List.map_nil, BitVec.toNat_or, inserted,
    toNat_mask (show target < 64 by omega), visited]

/-- For a gate on two qubits: both bits go in without loss, the lower one first, and the words are
the indices of the round. -/
theorem exact_group {n first second i : Nat} (fits : n < 64) (ne : first ≠ second)
    (range : first < n ∧ second < n) (lt : i < dimension (n - 2)) :
    Exact (.ofNat 64 i) (min first second) ∧
      Exact (Word.insertZeroBit (.ofNat 64 i) (min first second)) (max first second) ∧
      (Word.group first second (.ofNat 64 i)).map BitVec.toNat =
        (group first second i).toList := by
  have value := toNat_ofNat_of_lt (show n - 2 ≤ 64 by omega) lt
  have free : (BitVec.ofNat 64 i).toNat < dimension 63 := by
    rw [value]
    exact lt_dimension_of_le lt (by omega)
  have inner := exact_insertZeroBit (k := min first second) (by omega) free
  have inserted := inner.inserted
  rw [value] at inserted
  -- the index has grown by one bit, and one more is free for the second insertion
  have free' : (Word.insertZeroBit (.ofNat 64 i) (min first second)).toNat < dimension 63 := by
    rw [inserted]
    exact lt_dimension_of_le (insertZeroBit_lt lt (by omega)) (by omega)
  have outer := exact_insertZeroBit (k := max first second) (by omega) free'
  refine ⟨inner, outer, ?_⟩
  have base := outer.inserted
  rw [inserted] at base
  simp only [Word.group, List.map_cons, List.map_nil, BitVec.toNat_or, base,
    toNat_mask (show first < 64 by omega), toNat_mask (show second < 64 by omega)]
  rfl

/-- A register of fewer than 64 qubits, in words of 64 bits. As `i` runs over the settings of the
other qubits, the four words made of it for two different qubits go through every index of the
register exactly once, and so do the two words made of it for one qubit. They are the indices the
simulation goes through. No mask or shift on the way drops a bit, the inserted bits are taken out
again to leave `i`, and of two bits the lower one goes in first. -/
theorem words_perm {n : Nat} (fits : n < 64) :
    (∀ first second, first ≠ second → first < n → second < n →
      ((List.range (2 ^ (n - 2))).flatMap fun i =>
        (Word.group first second (.ofNat 64 i)).map BitVec.toNat).Perm (List.range (2 ^ n)) ∧
      ∀ i < 2 ^ (n - 2),
        (Word.group first second (.ofNat 64 i)).map BitVec.toNat = (group first second i).toList ∧
        Exact (.ofNat 64 i) (min first second) ∧
        Exact (Word.insertZeroBit (.ofNat 64 i) (min first second)) (max first second)) ∧
    ∀ target < n,
      ((List.range (2 ^ (n - 1))).flatMap fun i =>
        (Word.pair target (.ofNat 64 i)).map BitVec.toNat).Perm (List.range (2 ^ n)) ∧
      ∀ i < 2 ^ (n - 1),
        (Word.pair target (.ofNat 64 i)).map BitVec.toNat =
          [insertZeroBit i target, insertZeroBit i target ||| 1 <<< target] ∧
        Exact (.ofNat 64 i) target := by
  simp only [← dimension_eq]
  refine ⟨fun first second ne lt₁ lt₂ => ?_, fun target lt => ?_⟩
  · have words := fun i => exact_group (i := i) fits ne ⟨lt₁, lt₂⟩
    have all := visited_perm (.pair ne) (n := n) (by simp [lt₁, lt₂])
    refine ⟨?_, fun i hi => ⟨(words i hi).2.2, (words i hi).1, (words i hi).2.1⟩⟩
    rw [List.flatMap_congr fun i mem => (words i (List.mem_range.1 mem)).2.2]
    exact all
  · have words := fun i => exact_pair (i := i) fits lt
    have all := visited_perm (.single target) (n := n) (by simp [lt])
    refine ⟨?_, fun i hi => ⟨(words i hi).2, (words i hi).1⟩⟩
    rw [List.flatMap_congr fun i mem => (words i (List.mem_range.1 mem)).2]
    exact all

/-- The topmost qubits of the largest register: the last word of the last round is the last
index. -/
theorem words_perm_topmost :
    ((List.range (2 ^ 61)).flatMap fun i =>
      (Word.group 62 61 (.ofNat 64 i)).map BitVec.toNat).Perm (List.range (2 ^ 63)) ∧
    (Word.group 62 61 (.ofNat 64 (2 ^ 61 - 1))).map BitVec.toNat =
      (group 62 61 (2 ^ 61 - 1)).toList ∧
    (group 62 61 (2 ^ 61 - 1)).toList[3]? = some (2 ^ 63 - 1) := by
  obtain ⟨all, each⟩ := (words_perm (n := 63) (by decide)).1 62 61 (by decide) (by decide)
    (by decide)
  exact ⟨all, (each (2 ^ 61 - 1) (by decide)).1, by decide⟩

end QubitTrace.Evolution
