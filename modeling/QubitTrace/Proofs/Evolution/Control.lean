import Mathlib
import QubitTrace.Proofs.Evolution.Relabel

/-! # Controlled gates act under a condition

The row of a controlled gate reads one amplitude where the bit of the first qubit is clear, the one
in its own place, and is the row of the base gate where that bit is set
(`GateMatrix.row_controlled`). Where the bit is set, replacing both bits of the gate is replacing
that of the second qubit (`assign_of_set`), so this is what the base gate does there. Gates whose
matrix stays the same when the bits of its rows and columns are exchanged do not tell their qubits
apart.
-/

namespace QubitTrace
set_option autoImplicit false

open QubitTrace.Basis
open QubitTrace.Evolution (amplitude)

namespace Basis

theorem localIndex_pair (a b i : Nat) : localIndex [a, b] i = 2 * bit i a + bit i b := by
  simp [localIndex]

theorem assign_single {l : Nat} (hl : l < 2) (q i : Nat) : assign [q] l i = setBit i q l :=
  congrArg (setBit i q) (Nat.mod_eq_of_lt hl)

theorem setBit_bit (i q : Nat) : setBit i q (bit i q) = i := by
  refine Nat.eq_of_testBit_eq fun r => ?_
  rw [testBit_setBit_bit]
  split_ifs with here
  · rw [here]
  · rfl

/-- Where the first bit is set, the local indices with the first bit set replace the second only. -/
theorem assign_of_set {a b l i : Nat} (ne : a ≠ b) (hl : l < 2) (set : bit i a = 1) :
    assign [a, b] (2 + l) i = assign [b] l i := by
  have low : bit (2 + l) 0 = l := (Nat.add_mod_left 2 l).trans (Nat.mod_eq_of_lt hl)
  have high : bit (2 + l) 1 = 1 := by
    rw [bit, Nat.shiftRight_eq_div_pow]
    omega
  have kept : bit (setBit i b l) a = 1 := by rw [bit_setBit hl, if_neg ne, set]
  have both : assign [a, b] (2 + l) i = setBit (setBit i b (bit (2 + l) 0)) a (bit (2 + l) 1) := rfl
  rw [both, low, high, assign_single hl, ← kept, setBit_bit]

/-- The local index of two qubits with their bits exchanged. -/
def exchanged (l : Nat) : Nat := 2 * bit l 0 + bit l 1

theorem bit_exchanged (l : Nat) :
    bit (exchanged l) 0 = bit l 1 ∧ bit (exchanged l) 1 = bit l 0 := by
  have := bit_lt l 0
  have := bit_lt l 1
  unfold exchanged
  generalize bit l 0 = x at *
  generalize bit l 1 = y at *
  constructor
  · change (2 * x + y) % 2 = y
    omega
  · change (2 * x + y) / 2 % 2 = x
    omega

theorem localIndex_exchanged (a b i : Nat) :
    localIndex [b, a] i = exchanged (localIndex [a, b] i) := by
  have := bit_lt i a
  have := bit_lt i b
  rw [localIndex_pair, localIndex_pair, exchanged]
  generalize bit i a = x at *
  generalize bit i b = y at *
  change 2 * y + x = 2 * ((2 * x + y) % 2) + (2 * x + y) / 2 % 2
  omega

theorem assign_exchanged_local {a b : Nat} (ne : a ≠ b) (l i : Nat) :
    assign [b, a] (exchanged l) i = assign [a, b] l i := by
  obtain ⟨low, high⟩ := bit_exchanged l
  change setBit (setBit i a (bit (exchanged l) 0)) b (bit (exchanged l) 1) =
    setBit (setBit i b (bit l 0)) a (bit l 1)
  rw [low, high, setBit_comm ne (bit_lt l 1) (bit_lt l 0)]

end Basis

/-! ## Matrices -/

/-- Where the control is clear a controlled gate is the identity, where it is set its base gate. -/
theorem GateMatrix.row_controlled (m : SquareMatrix ℝ 2) {x y : Nat} (hx : x < 2) (hy : y < 2)
    (v : Nat → Complex ℝ) : (pair (Gate.controlled m)).row (2 * x + y) v =
      if x = 1 then (single m).row y fun l => v (2 + l) else v y := by
  obtain rfl | rfl : x = 0 ∨ x = 1 := by omega
  all_goals
    obtain rfl | rfl : y = 0 ∨ y = 1 := by omega
    all_goals
      simp [row, Gate.controlled, SquareMatrix.entry, Complex.sum_eq, List.range_succ]

/-- Reading the columns of a row in another order, with the entries in that order, changes
nothing. -/
theorem GateMatrix.row_exchanged {m : SquareMatrix ℝ 4}
    (symmetric : ∀ r < 4, ∀ c < 4, m.entry (exchanged r) (exchanged c) = m.entry r c) {r : Nat}
    (hr : r < 4) (v : Nat → Complex ℝ) :
    (pair m).row (exchanged r) v = (pair m).row r fun l => v (exchanged l) := by
  have order : ((List.range 4).map exchanged).Perm (List.range 4) := by decide
  rw [row, row, Complex.sum_eq, Complex.sum_eq, ← (order.map _).sum_eq, List.map_map]
  refine congrArg List.sum (List.map_congr_left fun c mem => ?_)
  rw [Function.comp_apply, symmetric r hr c (List.mem_range.1 mem)]

namespace Gate

/-- The matrix of a controlled gate is made of that of its base gate. -/
theorem Controls.matrix_eq {K : Type} [Scalar K] {g b : Gate K} (controls : g.Controls b) :
    ∃ m, b.matrix = .single m ∧ g.matrix = .pair (controlled m) := by
  cases controls <;> exact ⟨_, rfl, rfl⟩

/-- A controlled gate is called after its base gate, and takes the same angles. -/
theorem Controls.name_eq {K : Type} {g b : Gate K} (controls : g.Controls b) :
    g.name = "c" ++ b.name ∧ g.params = b.params := by
  cases controls <;> exact ⟨rfl, rfl⟩

/-- The gates on two qubits that do not tell them apart. -/
inductive Symmetric {K : Type} : Gate K → Prop
  | cz : Symmetric .cz
  | cphase (lam : K) : Symmetric (.cphase lam)
  | swap : Symmetric .swap

theorem Symmetric.matrix_eq {g : Gate ℝ} (symmetric : g.Symmetric) : ∃ m, g.matrix = .pair m ∧
    ∀ r < 4, ∀ c < 4, m.entry (exchanged r) (exchanged c) = m.entry r c := by
  cases symmetric with
  | cz | cphase lam | swap =>
    refine ⟨_, rfl, fun r hr c hc => ?_⟩
    interval_cases r <;> interval_cases c <;> rfl

end Gate

/-! ## States -/

namespace Evolution

/-- After a gate every place holds the row of the gate's matrix that its local index names. -/
theorem amplitude_of_apply {K : Type} [Scalar K] {ψ φ : StateVector K} {g : Gate K}
    {qubits : List Nat} (fits : g.Fits ψ.qubits qubits) (applied : apply ψ g qubits = .ok φ)
    {i : Nat} (hi : i < ψ.dim) : amplitude φ.amplitudes i =
      g.matrix.row (localIndex qubits i) fun l => amplitude ψ.amplitudes (assign qubits l i) := by
  cases applied.symm.trans (apply_eq fits)
  exact amplitude_ofFn _ hi

/-- Where the control is clear a controlled gate leaves the amplitude, where it is set it does what
its base gate does. -/
theorem amplitude_of_controlled {ψ φ χ : StateVector ℝ} {g b : Gate ℝ} {c t : Nat}
    (controls : g.Controls b) (fits : g.Fits ψ.qubits [c, t]) (fits' : b.Fits ψ.qubits [t])
    (controlled : apply ψ g [c, t] = .ok φ) (based : apply ψ b [t] = .ok χ) {i : Nat}
    (hi : i < ψ.dim) : amplitude φ.amplitudes i =
      if bit i c = 1 then amplitude χ.amplitudes i else amplitude ψ.amplitudes i := by
  obtain ⟨m, single, pair⟩ := controls.matrix_eq
  have ne : c ≠ t := by simpa using fits.distinct
  rw [amplitude_of_apply fits controlled hi, amplitude_of_apply fits' based hi, pair, single,
    localIndex_pair, GateMatrix.row_controlled m (bit_lt i c) (bit_lt i t)]
  split_ifs with set
  · have row : localIndex [t] i = bit i t := Nat.zero_add _
    rw [row]
    refine GateMatrix.row_congr _ _ fun l hl => ?_
    rw [assign_of_set ne hl set]
  · have clear : bit i c = 0 := by
      have := bit_lt i c
      omega
    have place : localIndex [c, t] i = bit i t := by rw [localIndex_pair, clear, Nat.zero_add]
    rw [← place, assign_localIndex fits.distinct]

/-- A gate that does not tell its qubits apart does the same when they are exchanged. -/
theorem apply_symmetric {ψ : StateVector ℝ} {g : Gate ℝ} {a b : Nat} (symmetric : g.Symmetric)
    (fits : g.Fits ψ.qubits [a, b]) (fits' : g.Fits ψ.qubits [b, a]) :
    apply ψ g [a, b] = apply ψ g [b, a] := by
  obtain ⟨m, pair, entries⟩ := symmetric.matrix_eq
  have ne : a ≠ b := by simpa using fits.distinct
  rw [apply_eq fits, apply_eq fits']
  congr 3
  funext i
  rw [pair, localIndex_exchanged a b, GateMatrix.row_exchanged entries (localIndex_lt [a, b] i)]
  simp only [assign_exchanged_local ne]

theorem fits_pair {K : Type} {g : Gate K} (two : g.arity = 2) {n a b : Nat} (ha : a < n)
    (hb : b < n) (ne : a ≠ b) : g.Fits n [a, b] :=
  ⟨two.symm, by simpa using ne, by simp [ha, hb]⟩

/-- **Controlled gates act under a condition.** A controlled gate belongs to a gate on one qubit,
its base gate (`Gate.Controls`), is called after it and takes the same angles. On any two different
qubits of a register it leaves the amplitudes at indices where the bit of the first qubit is clear
and puts at the others those that the base gate on the second qubit puts there. The controlled
shifts of the phase and the exchange do the same when their two qubits are exchanged. -/
theorem apply_conditional :
    (∀ g : Gate ℝ, g.isControlled = true → ∃ b : Gate ℝ, g.Controls b ∧ b.arity = 1 ∧
      g.name = "c" ++ b.name ∧ g.params = b.params ∧
      ∀ (ψ : StateVector ℝ) (c t : Nat), c < ψ.qubits → t < ψ.qubits → c ≠ t →
        ∃ φ χ, apply ψ g [c, t] = .ok φ ∧ apply ψ b [t] = .ok χ ∧ ∀ i < ψ.dim,
          (bit i c = 0 → amplitude φ.amplitudes i = amplitude ψ.amplitudes i) ∧
          (bit i c = 1 → amplitude φ.amplitudes i = amplitude χ.amplitudes i)) ∧
    ∀ g : Gate ℝ, g.Symmetric → ∀ (ψ : StateVector ℝ) (c t : Nat), c < ψ.qubits → t < ψ.qubits →
      c ≠ t → ∃ φ, apply ψ g [c, t] = .ok φ ∧ apply ψ g [t, c] = .ok φ := by
  constructor
  · intro g isControlled
    obtain ⟨b, controls⟩ := Gate.isControlled_iff.1 isControlled
    obtain ⟨m, single, pair⟩ := controls.matrix_eq
    have one : b.arity = 1 := Gate.arity_of_single single
    refine ⟨b, controls, one, controls.name_eq.1, controls.name_eq.2, fun ψ c t hc ht ne => ?_⟩
    have fits : g.Fits ψ.qubits [c, t] := fits_pair (Gate.arity_of_pair pair) hc ht ne
    have fits' : b.Fits ψ.qubits [t] := ⟨one.symm, List.nodup_singleton t, by simpa using ht⟩
    obtain ⟨φ, controlled, -⟩ := exists_apply fits
    obtain ⟨χ, based, -⟩ := exists_apply fits'
    refine ⟨φ, χ, controlled, based, fun i hi => ?_⟩
    have entry := amplitude_of_controlled controls fits fits' controlled based hi
    constructor
    · intro clear
      rw [entry, if_neg (by omega)]
    · intro set
      rw [entry, if_pos set]
  · intro g symmetric ψ c t hc ht ne
    obtain ⟨m, pair, -⟩ := symmetric.matrix_eq
    have two : g.arity = 2 := Gate.arity_of_pair pair
    have fits : g.Fits ψ.qubits [c, t] := fits_pair two hc ht ne
    have fits' : g.Fits ψ.qubits [t, c] := fits_pair two ht hc ne.symm
    obtain ⟨φ, applied, -⟩ := exists_apply fits
    exact ⟨φ, applied, (apply_symmetric symmetric fits fits').symm.trans applied⟩

/-- A controlled rotation with its control above its target, at an index on either side of the
condition, and a controlled shift of the phase with its qubits exchanged. -/
theorem apply_conditional_above :
    let ψ : StateVector ℝ := ⟨3, by decide, .ofFn fun i => ⟨i.val, 1⟩⟩
    (Gate.crx (1 : ℝ)).isControlled = true ∧ (Gate.cphase (1 : ℝ)).Symmetric ∧
      (∃ φ χ, apply ψ (.crx 1) [2, 0] = .ok φ ∧ apply ψ (.rx 1) [0] = .ok χ ∧
        amplitude φ.amplitudes 3 = ⟨3, 1⟩ ∧ amplitude φ.amplitudes 6 = amplitude χ.amplitudes 6) ∧
      ∃ φ, apply ψ (.cphase 1) [2, 0] = .ok φ ∧ apply ψ (.cphase 1) [0, 2] = .ok φ := by
  intro ψ
  have third : amplitude ψ.amplitudes 3 = ⟨3, 1⟩ := by
    rw [amplitude_ofFn _ (by decide)]
    rfl
  obtain ⟨b, controls, -, -, -, acts⟩ := apply_conditional.1 (.crx 1) rfl
  obtain rfl : b = .rx 1 := by cases controls; rfl
  obtain ⟨φ, χ, controlled, based, entries⟩ := acts ψ 2 0 (by decide) (by decide) (by decide)
  refine ⟨rfl, .cphase 1, ⟨φ, χ, controlled, based, ?_, ?_⟩, ?_⟩
  · rw [(entries 3 (by decide)).1 rfl, third]
  · exact (entries 6 (by decide)).2 rfl
  · exact apply_conditional.2 (.cphase 1) (.cphase 1) ψ 2 0 (by decide) (by decide) (by decide)

end Evolution

end QubitTrace
