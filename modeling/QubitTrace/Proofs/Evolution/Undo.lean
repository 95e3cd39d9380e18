import Mathlib
import QubitTrace.Proofs.Evolution.Composition
import QubitTrace.Proofs.Evolution.Relabel
import QubitTrace.Proofs.Gate.Inverse

/-! # Gates in turn, and gates undone

Each loop leaves in every place the row of its matrix that the local index there names, read from
the places with the other local indices (`rows`). A second loop over the same qubits reads those
rows, so the two are one loop with the product of the matrices (`rows_rows`). The operator of the
inverse of a gate is the adjoint of that of the gate (`lifted_inverse`), so the inverse leads back
to the state before, and the inverses of a list of gates in reverse order lead back through all
states of its run (`states_inverses`).
-/

namespace QubitTrace
set_option autoImplicit false

open QubitTrace.Basis
open QubitTrace.Evolution (amplitude apply states start)

/-! ## Products of matrices -/

/-- The product of two matrices. -/
noncomputable def SquareMatrix.times {d : Nat} (m m' : SquareMatrix ℝ d) : SquareMatrix ℝ d :=
  .ofFn fun r => .ofFn fun c => (m.toMatrix * m'.toMatrix) r c

theorem SquareMatrix.entry_times {d : Nat} (m m' : SquareMatrix ℝ d) (r c : Fin d) :
    (m.times m').entry r c = ∑ l : Fin d, m.entry r l * m'.entry l c := by
  simp [times, entry, Matrix.mul_apply, toMatrix]

namespace GateMatrix

/-- The matrix acts on as many qubits as two others, and is their product there. -/
structure IsProduct (p m m' : GateMatrix ℝ) : Prop where
  left : m.arity = p.arity
  right : m'.arity = p.arity
  entry : ∀ r c : Fin (dimension p.arity),
    p.entry r c = ∑ l : Fin (dimension p.arity), m.entry r l * m'.entry l c

theorem isProduct_single (m m' : SquareMatrix ℝ 2) :
    (single (m.times m')).IsProduct (single m) (single m') :=
  ⟨rfl, rfl, m.entry_times m'⟩

theorem isProduct_pair (m m' : SquareMatrix ℝ 4) :
    (pair (m.times m')).IsProduct (pair m) (pair m') :=
  ⟨rfl, rfl, m.entry_times m'⟩

/-- A row of a matrix over the rows of another is a row of their product. -/
theorem IsProduct.row_eq {p m m' : GateMatrix ℝ} (product : p.IsProduct m m') {r : Nat}
    (hr : r < dimension p.arity) (v : Nat → Complex ℝ) :
    m.row r (fun l => m'.row l v) = p.row r v := by
  obtain ⟨left, right, entry⟩ := product
  have inner (l : Nat) : m'.row l v = ∑ c : Fin (dimension p.arity), m'.entry l c * v c := by
    rw [row_eq_sum, right]
  rw [row_eq_sum, row_eq_sum, left]
  simp only [inner, Finset.mul_sum]
  rw [Finset.sum_comm]
  refine Finset.sum_congr rfl fun c _ => ?_
  rw [entry ⟨r, hr⟩ c, Finset.sum_mul]
  exact Finset.sum_congr rfl fun l _ => (mul_assoc _ _ _).symm

end GateMatrix

namespace Evolution

/-- In every place the row of a matrix that the local index there names. -/
def rows {K : Type} [Scalar K] {n : Nat} (m : GateMatrix K) (qubits : List Nat)
    (ψ : Vector (Complex K) (dimension n)) : Vector (Complex K) (dimension n) :=
  .ofFn fun i => m.row (localIndex qubits i) fun l => amplitude ψ (assign qubits l i)

theorem applySingle_eq_rows {K : Type} [Scalar K] {n target : Nat} (lt : target < n)
    (m : SquareMatrix K 2) (ψ : Vector (Complex K) (dimension n)) :
    applySingle m target ψ = rows (.single m) [target] ψ :=
  applySingle_of_some (loop?_eq (m := .single m) (.single target) rfl (by simpa using lt) ψ)

theorem applyPair_eq_rows {K : Type} [Scalar K] {n first second : Nat} (lt : first < n)
    (lt' : second < n) (ne : first ≠ second) (m : SquareMatrix K 4)
    (ψ : Vector (Complex K) (dimension n)) :
    applyPair m first second ψ = rows (.pair m) [first, second] ψ :=
  applyPair_of_some (loop?_eq (m := .pair m) (.pair ne) rfl (by simp [lt, lt']) ψ)

/-- The rows of a matrix over the rows of another are the rows of their product. -/
theorem rows_rows {n : Nat} {p m m' : GateMatrix ℝ} (product : p.IsProduct m m')
    {qubits : List Nat} (arity : p.arity = qubits.length) (distinct : qubits.Nodup)
    (range : ∀ q ∈ qubits, q < n) (ψ : Vector (Complex ℝ) (dimension n)) :
    rows m qubits (rows m' qubits ψ) = rows p qubits ψ := by
  refine congrArg Vector.ofFn (funext fun i => ?_)
  have bound : localIndex qubits i < dimension p.arity := arity ▸ localIndex_lt qubits i
  rw [← product.row_eq bound]
  refine m.row_congr _ fun l hl => ?_
  rw [product.left, arity] at hl
  rw [rows, amplitude_ofFn _ (assign_lt range l i.isLt), localIndex_assign distinct _ hl]
  refine m'.row_congr _ fun k _ => ?_
  rw [assign_assign distinct]

end Evolution

/-! ## Inverses -/

open scoped Matrix in
/-- The operator of the inverse of a gate is the adjoint of that of the gate. -/
theorem lifted_inverse (n : Nat) (g : Gate ℝ) (qubits : List Nat) :
    lifted n g.inverse qubits = (lifted n g qubits)ᴴ := by
  refine Matrix.ext fun i j => ?_
  rw [Matrix.conjTranspose_apply]
  simp only [lifted, Matrix.of_apply, g.entry_inverse]
  have mirrored : (∀ q < n, q ∉ qubits → bit i q = bit j q) ↔
      ∀ q < n, q ∉ qubits → bit j q = bit i q := by
    simp only [eq_comm]
  by_cases agree : ∀ q < n, q ∉ qubits → bit i q = bit j q
  · rw [if_pos agree, if_pos (mirrored.1 agree)]
  · rw [if_neg agree, if_neg fun same => agree (mirrored.2 same), star_zero]

namespace Evolution

variable {ψ : StateVector ℝ} {g : Gate ℝ} {qubits : List Nat}

/-- A gate and its inverse undo each other. -/
theorem apply_inverse (fits : g.Fits ψ.qubits qubits) :
    (apply ψ g qubits >>= fun χ => apply χ g.inverse qubits) = .ok ψ ∧
      (apply ψ g.inverse qubits >>= fun χ => apply χ g qubits) = .ok ψ := by
  have unitary := unitary_lifted fits
  have left := Matrix.mem_unitaryGroup_iff'.1 unitary
  have right := Matrix.mem_unitaryGroup_iff.1 unitary
  rw [Matrix.star_eq_conjTranspose, ← lifted_inverse] at left right
  constructor
  · rw [apply_twice fits fits.inverse, left, StateVector.image_one]
  · rw [apply_twice fits.inverse fits, right, StateVector.image_one]

end Evolution

/-! ## Runs -/

/-- The operation that undoes one that changes a state. -/
def Operation.inverse? {K : Type} [Scalar K] : Operation K → Option (Operation K)
  | gate g qubits => some (gate g.inverse qubits)
  | measure _ _ | barrier _ => none

/-- The inverses of the gates in a list of operations, the last one first. -/
def Operation.inverses {K : Type} [Scalar K] (ops : List (Operation K)) : List (Operation K) :=
  (ops.filterMap inverse?).reverse

theorem Operation.inverses_gate {K : Type} [Scalar K] (g : Gate K) (qubits : List Nat)
    (ops : List (Operation K)) :
    inverses (.gate g qubits :: ops) = inverses ops ++ [.gate g.inverse qubits] := by
  have first : inverse? (gate g qubits) = some (gate g.inverse qubits) := rfl
  rw [inverses, List.filterMap_cons_some first, List.reverse_cons]
  rfl

theorem Operation.fault?_of_mem_inverses {K : Type} [Scalar K] {n : Nat} {ops : List (Operation K)}
    (accepted : ∀ op ∈ ops, op.fault? n = none) : ∀ op ∈ inverses ops, op.fault? n = none := by
  intro op mem
  obtain ⟨undone, listed, made⟩ := List.mem_filterMap.1 (List.mem_reverse.1 mem)
  cases undone with
  | gate g qubits =>
    cases made
    exact fault?_gate_eq_none_iff.2 (fault?_gate_eq_none_iff.1 (accepted _ listed)).inverse
  | measure qubit clbit => cases made
  | barrier qubits => cases made

namespace Evolution

/-- The inverses of operations lead back through the states of their run. -/
theorem states_inverses {n : Nat} {ops : List (Operation ℝ)}
    (accepted : ∀ op ∈ ops, op.fault? n = none) {ψ : StateVector ℝ} (sized : ψ.qubits = n)
    {φs : List (StateVector ℝ)} (run : states ψ ops = .ok φs) {last : StateVector ℝ}
    (ends : φs.getLast? = some last) :
    states last (Operation.inverses ops) = .ok φs.reverse := by
  induction ops generalizing ψ φs with
  | nil =>
    cases run
    cases ends
    rfl
  | cons op ops ih =>
    obtain ⟨fine, rest⟩ := List.forall_mem_cons.1 accepted
    cases op with
    | gate g qubits =>
      have fits : g.Fits ψ.qubits qubits := sized ▸ Operation.fault?_gate_eq_none_iff.1 fine
      obtain ⟨next, others, applied, later, rfl⟩ := states_gate_eq_ok_iff.1 run
      obtain ⟨after, rfl⟩ := exists_cons_of_states later
      obtain ⟨next', applied', size⟩ := exists_apply fits
      cases applied.symm.trans applied'
      rw [List.getLast?_cons_cons] at ends
      have back := ih rest (size.trans sized) later ends
      have undone : apply next g.inverse qubits = .ok ψ := by
        have both := (apply_inverse fits).1
        rwa [applied, ok_bind] at both
      have step : states next [.gate g.inverse qubits] = .ok [next, ψ] :=
        states_gate_eq_ok_iff.2 ⟨ψ, [ψ], undone, rfl, rfl⟩
      rw [Operation.inverses_gate, List.reverse_cons]
      exact states_append back (by simp) step
    | measure qubit clbit => exact ih rest sized run ends
    | barrier qubits => exact ih rest sized run ends

/-- There and back again a run ends where it starts. -/
theorem getLast?_append_reverse {α : Type} (a : α) (rest : List α) :
    (a :: rest ++ (a :: rest).reverse.tail).getLast? = some a := by
  induction rest using List.reverseRecOn with
  | nil => rfl
  | append_singleton rest b _ =>
    have back : (a :: (rest ++ [b])).reverse.tail = rest.reverse ++ [a] := by simp
    rw [back, ← List.append_assoc, List.getLast?_concat]

/-- Operations and their inverses lead there and back. -/
theorem exists_states_inverses {n : Nat} {ops : List (Operation ℝ)}
    (accepted : ∀ op ∈ ops, op.fault? n = none) {ψ : StateVector ℝ} (sized : ψ.qubits = n) :
    ∃ φs, states ψ ops = .ok φs ∧
      states ψ (ops ++ Operation.inverses ops) = .ok (φs ++ φs.reverse.tail) ∧
      (φs ++ φs.reverse.tail).getLast? = some ψ := by
  obtain ⟨φs, run, -⟩ := exists_states accepted sized
  obtain ⟨rest, rfl⟩ := exists_cons_of_states run
  have ends := List.getLast?_eq_some_getLast (List.cons_ne_nil ψ rest)
  exact ⟨_, run, states_append run ends (states_inverses accepted sized run ends),
    getLast?_append_reverse ψ rest⟩

end Evolution

namespace Circuit

open QubitTrace.Evolution (applySingle applyPair)

/-- **Gates in turn are products, and every gate can be undone.** Two matrices in turn on the same
qubits do what their product does once, on one qubit and on two in either order. Every gate of the
catalogue has an inverse there that undoes it, and that it undoes. So a circuit that can be built
takes the inverses of its gates in reverse order as further operations, and the circuit with them
leads from every state through the states of the circuit and through them back, and ends exactly
where it starts. -/
theorem evolve_inverses :
    (∀ (n : Nat) (ψ : Vector (Complex ℝ) (dimension n)),
      (∀ (m m' : SquareMatrix ℝ 2) (q : Nat), q < n →
        applySingle m q (applySingle m' q ψ) = applySingle (m.times m') q ψ) ∧
      ∀ (m m' : SquareMatrix ℝ 4) (a b : Nat), a < n → b < n → a ≠ b →
        applyPair m a b (applyPair m' a b ψ) = applyPair (m.times m') a b ψ) ∧
    (∀ (ψ : StateVector ℝ) (g : Gate ℝ) (qubits : List Nat), g.Fits ψ.qubits qubits →
      (apply ψ g qubits >>= fun χ => apply χ g.inverse qubits) = .ok ψ ∧
      (apply ψ g.inverse qubits >>= fun χ => apply χ g qubits) = .ok ψ) ∧
    ∀ c : Circuit ℝ, c.Reachable →
      ∃ c', c.addAll (Operation.inverses c.operations) = .ok c' ∧
        (∀ ψ : StateVector ℝ, ψ.qubits = c.qubits → ∃ φs, states ψ c.operations = .ok φs ∧
          states ψ c'.operations = .ok (φs ++ φs.reverse.tail) ∧
          (φs ++ φs.reverse.tail).getLast? = some ψ) ∧
        ∀ (s : Simulator ℝ) (initial : Option (StateVector ℝ)) (ψ : StateVector ℝ),
          c.qubits ≤ s.config.maxQubits →
          start s.config.normTolerance c.qubits initial = .ok ψ →
            ∃ φs, s.evolve c initial = .ok φs ∧
              s.evolve c' initial = .ok (φs ++ φs.reverse.tail) ∧
              (φs ++ φs.reverse.tail).getLast? = some ψ := by
  refine ⟨fun n ψ => ⟨fun m m' q lt => ?_, fun m m' a b ha hb ne => ?_⟩,
    fun ψ g qubits fits => Evolution.apply_inverse fits, fun c reachable => ?_⟩
  · simp only [Evolution.applySingle_eq_rows lt]
    exact Evolution.rows_rows (GateMatrix.isProduct_single m m') rfl (List.nodup_singleton q)
      (by simpa using lt) ψ
  · simp only [Evolution.applyPair_eq_rows ha hb ne]
    exact Evolution.rows_rows (GateMatrix.isProduct_pair m m') rfl (by simpa using ne)
      (by simp [ha, hb]) ψ
  · have fine := reachable.fault?_eq_none
    have back := Operation.fault?_of_mem_inverses fine
    have added := addAll_eq_ok_iff.2 ⟨back, rfl⟩
    refine ⟨_, added, fun ψ sized => Evolution.exists_states_inverses fine sized,
      fun s initial ψ fits started => ?_⟩
    obtain ⟨φs, run, whole, ends⟩ :=
      Evolution.exists_states_inverses fine (Evolution.start_eq_ok started).1
    refine ⟨φs, ?_, ?_, ends⟩
    · rw [Simulator.evolve_eq_states reachable fits started, run]
    · rw [Simulator.evolve_eq_states (reachable.addAll added) fits started, whole]

/-- Matrices in turn on a pair whose first qubit is the upper one, a generic rotation undone, and a
circuit with a measurement in it undone by the inverses of its three gates. -/
theorem evolve_inverses_measured :
    let ψ : StateVector ℝ := ⟨3, by decide, .ofFn fun i => if i.val = 0 then 1 else 0⟩
    let c : Circuit ℝ := ⟨3, [.gate (.u 1 2 3) [1], .measure 1 0, .gate (.crx 5) [2, 0],
      .gate .sx [2]]⟩
    applySingle Gate.pauliX 1 (applySingle Gate.hadamard 1 ψ.amplitudes) =
        applySingle (Gate.pauliX.times Gate.hadamard) 1 ψ.amplitudes ∧
      applyPair Gate.swapMatrix 2 0 (applyPair (Gate.controlled Gate.pauliY) 2 0 ψ.amplitudes) =
        applyPair (Gate.swapMatrix.times (Gate.controlled Gate.pauliY)) 2 0 ψ.amplitudes ∧
      (apply ψ (.u 1 2 3) [1] >>= fun χ => apply χ (.u (-1) (-3) (-2)) [1]) = .ok ψ ∧
      ∃ c', c.addAll [.gate .sxdg [2], .gate (.crx (-5)) [2, 0], .gate (.u (-1) (-3) (-2)) [1]] =
          .ok c' ∧
        ∃ φs, (Simulator.default : Simulator ℝ).evolve c' none = .ok φs ∧
          φs.getLast? = some ψ := by
  intro ψ c
  have fits : (.u 1 2 3 : Gate ℝ).Fits ψ.qubits [1] := ⟨rfl, by decide, by decide⟩
  have built : Circuit.build 3 c.operations = .ok c := rfl
  have started : start (Simulator.default : Simulator ℝ).config.normTolerance 3 none = .ok ψ := rfl
  obtain ⟨products, undone, circuits⟩ := evolve_inverses
  obtain ⟨c', added, -, runs⟩ := circuits c (reachable_of_build built)
  obtain ⟨φs, -, whole, ends⟩ := runs .default none ψ (show 3 ≤ 10 by decide) started
  exact ⟨(products 3 ψ.amplitudes).1 _ _ 1 (by decide),
    (products 3 ψ.amplitudes).2 _ _ 2 0 (by decide) (by decide) (by decide),
    (undone ψ (.u 1 2 3) [1] fits).1, c', added, _, whole, ends⟩

end Circuit

end QubitTrace
