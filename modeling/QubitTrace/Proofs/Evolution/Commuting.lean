import Mathlib
import QubitTrace.Proofs.Evolution.Composition

/-! # Gates on disjoint qubits commute

Split a register in the qubits of one gate and all others. A second gate on other qubits is the
identity next to an operator there, and the first one an operator next to the identity
(`lifted_submatrix`, `lifted_submatrix_right`), so the two commute. The order of such neighbours in
a list of operations is lost in the final state (`Evolution.ending_reordered`), by induction on the
exchanges that lead from one order to the other.
-/

namespace QubitTrace
set_option autoImplicit false

open QubitTrace.Basis
open scoped Kronecker

/-- Two lists of operations are the same but for the order of gates on disjoint qubits: one becomes
the other when such gates change places while they are neighbours. -/
inductive Operation.Reordered {K : Type} : List (Operation K) → List (Operation K) → Prop
  | nil : Reordered [] []
  | cons (op : Operation K) {ops ops' : List (Operation K)} :
      Reordered ops ops' → Reordered (op :: ops) (op :: ops')
  | exchange (g g' : Gate K) {P Q : List Nat} (disjoint : P.Disjoint Q) (ops : List (Operation K)) :
      Reordered (.gate g P :: .gate g' Q :: ops) (.gate g' Q :: .gate g P :: ops)
  | trans {ops ops' ops'' : List (Operation K)} :
      Reordered ops ops' → Reordered ops' ops'' → Reordered ops ops''

namespace Operation.Reordered

variable {K : Type} {ops ops' : List (Operation K)}

/-- Neighbours change places anywhere in a list. -/
theorem within (before : List (Operation K)) (reordered : Reordered ops ops') :
    Reordered (before ++ ops) (before ++ ops') := by
  induction before with
  | nil => exact reordered
  | cons op before ih => exact .cons op ih

theorem perm (reordered : Reordered ops ops') : ops.Perm ops' := by
  induction reordered with
  | nil => exact .nil
  | cons op _ ih => exact ih.cons op
  | exchange g g' disjoint ops => exact .swap _ _ ops
  | trans _ _ first second => exact first.trans second

end Operation.Reordered

/-! ## Operators -/

/-- The operators of gates on disjoint qubits commute. -/
theorem lifted_commute {n : Nat} {g g' : Gate ℝ} {P Q : List Nat} (first : g.Fits n P)
    (second : g'.Fits n Q) (disjoint : P.Disjoint Q) :
    Commute (lifted n g P) (lifted n g' Q) := by
  have shares : Shares n P (others n P) := shares_others first.distinct first.range
  have beside : ∀ q ∈ Q, q ∈ others n P := fun q mem =>
    mem_others_iff.2 ⟨second.range q mem, fun shared => disjoint shared mem⟩
  have left := lifted_submatrix shares g fun q mem => mem
  have right := lifted_submatrix_right shares g' beside
  refine (Matrix.reindex shares.split shares.split).injective ?_
  rw [Matrix.reindex_apply, Matrix.reindex_apply]
  rw [← Matrix.submatrix_mul_equiv _ _ _ shares.split.symm,
    ← Matrix.submatrix_mul_equiv _ _ _ shares.split.symm, left, right]
  rw [← Matrix.mul_kronecker_mul, ← Matrix.mul_kronecker_mul, Matrix.one_mul, Matrix.mul_one,
    Matrix.mul_one, Matrix.one_mul]

namespace Evolution

/-- Of two gates on disjoint qubits either may be applied first. -/
theorem apply_comm {ψ : StateVector ℝ} {g g' : Gate ℝ} {P Q : List Nat}
    (first : g.Fits ψ.qubits P) (second : g'.Fits ψ.qubits Q) (disjoint : P.Disjoint Q) :
    ∃ φ, (apply ψ g P >>= fun χ => apply χ g' Q) = .ok φ ∧
      (apply ψ g' Q >>= fun χ => apply χ g P) = .ok φ := by
  refine ⟨_, apply_twice first second, ?_⟩
  rw [apply_twice second first, (lifted_commute first second disjoint).eq]

/-! ## Runs -/

section Ending

variable {K : Type} [Scalar K]

/-- The last state of a run. -/
def ending (ψ : StateVector K) (ops : List (Operation K)) :
    Except (Fault K) (Option (StateVector K)) :=
  (states ψ ops).map List.getLast?

/-- A run ends where it ends from the state after its first gate. -/
theorem ending_gate {ψ next : StateVector K} {g : Gate K} {qubits : List Nat}
    (applied : apply ψ g qubits = .ok next) (ops : List (Operation K)) :
    ending ψ (.gate g qubits :: ops) = ending next ops := by
  unfold ending
  rw [states, applied, mapError_ok, ok_bind]
  cases run : states next ops with
  | error fault => rfl
  | ok φs =>
    obtain ⟨rest, rfl⟩ := exists_cons_of_states run
    exact congrArg Except.ok List.getLast?_cons_cons

end Ending

/-- The order of neighbouring gates on disjoint qubits has no influence on how a run ends. -/
theorem ending_reordered {n : Nat} {ops ops' : List (Operation ℝ)}
    (reordered : Operation.Reordered ops ops') (accepted : ∀ op ∈ ops, op.fault? n = none)
    {ψ : StateVector ℝ} (sized : ψ.qubits = n) : ending ψ ops' = ending ψ ops := by
  induction reordered generalizing ψ with
  | nil => rfl
  | @cons op ops ops' _ ih =>
    obtain ⟨fine, rest⟩ := List.forall_mem_cons.1 accepted
    cases op with
    | gate g qubits =>
      have fits : g.Fits ψ.qubits qubits := sized ▸ Operation.fault?_gate_eq_none_iff.1 fine
      obtain ⟨next, applied, same⟩ := exists_apply fits
      rw [ending_gate applied, ending_gate applied, ih rest (same.trans sized)]
    | measure qubit clbit => exact ih rest sized
    | barrier qubits => exact ih rest sized
  | @exchange g g' P Q disjoint ops =>
    obtain ⟨fine, others⟩ := List.forall_mem_cons.1 accepted
    have first : g.Fits ψ.qubits P := sized ▸ Operation.fault?_gate_eq_none_iff.1 fine
    have second : g'.Fits ψ.qubits Q :=
      sized ▸ Operation.fault?_gate_eq_none_iff.1 (others _ List.mem_cons_self)
    obtain ⟨φ, there, back⟩ := apply_comm first second disjoint
    obtain ⟨χ, begun, ended⟩ := bind_eq_ok_iff.1 there
    obtain ⟨χ', begun', ended'⟩ := bind_eq_ok_iff.1 back
    rw [ending_gate begun, ending_gate ended, ending_gate begun', ending_gate ended']
  | trans before _ first second =>
    rw [second (fun op mem => accepted op (before.perm.mem_iff.2 mem)) sized,
      first accepted sized]

end Evolution

/-- The final state is the last one of the run from all bits zero. -/
theorem Simulator.finalState_eq {K : Type} [Scalar K] (s : Simulator K) (c : Circuit K) :
    s.finalState c = ((s.evolve c none).map List.getLast? >>= fun
      | some ψ => .ok ψ
      | none => .error (.missing .states)) := by
  unfold finalState
  cases s.evolve c none with
  | error fault => rfl
  | ok φs => rfl

namespace Circuit

open QubitTrace.Evolution

/-- The circuits have the same register, and their operations differ in the order of neighbouring
gates on disjoint qubits. -/
def Reordered {K : Type} (c c' : Circuit K) : Prop :=
  c'.qubits = c.qubits ∧ Operation.Reordered c.operations c'.operations

theorem Reordered.reachable {K : Type} {c c' : Circuit K} (reordered : c.Reordered c')
    (reachable : c.Reachable) : c'.Reachable := by
  obtain ⟨size, ops⟩ := reordered
  refine reachable_iff.2 fun op mem => ?_
  rw [size]
  exact reachable.fault?_eq_none op (ops.perm.mem_iff.2 mem)

/-- Reordered circuits end alike from every initial state: in the same state, or of the same
fault. -/
theorem evolve_of_reordered {c c' : Circuit ℝ} (reordered : c.Reordered c')
    (reachable : c.Reachable) (s : Simulator ℝ) (initial : Option (StateVector ℝ)) :
    (s.evolve c' initial).map List.getLast? = (s.evolve c initial).map List.getLast? := by
  obtain ⟨size, ops⟩ := reordered
  rw [Simulator.evolve, Simulator.evolve, size]
  split_ifs with large
  · rfl
  · rcases Nat.eq_zero_or_pos c.qubits with none | positive
    · have none' : c'.qubits = 0 := size.trans none
      rw [trajectory, trajectory, validate, validate, if_pos none, if_pos none']
      rfl
    · have positive' : 0 < c'.qubits := size ▸ positive
      have reachable' : c'.Reachable := Reordered.reachable ⟨size, ops⟩ reachable
      rw [trajectory, trajectory, validate_of_reachable reachable positive,
        validate_of_reachable reachable' positive', size]
      cases started : start s.config.normTolerance c.qubits initial with
      | error fault => rfl
      | ok ψ => exact ending_reordered ops reachable.fault?_eq_none (start_eq_ok started).1

/-- **Gates on disjoint qubits commute.** Two gates on qubits that fit and are not shared take a
state to the same state in either order, whatever qubits they are and however they lie between each
other. So when neighbouring gates on disjoint qubits change places in a circuit that can be built,
any number of times and anywhere, the result can be built, and every simulator takes both circuits
from the same initial state to the same final state. There is one whenever the register is not too
large and the initial state is accepted. -/
theorem evolve_reordered :
    (∀ (ψ : StateVector ℝ) (g g' : Gate ℝ) (P Q : List Nat), g.Fits ψ.qubits P →
      g'.Fits ψ.qubits Q → P.Disjoint Q →
        ∃ φ, (apply ψ g P >>= fun χ => apply χ g' Q) = .ok φ ∧
          (apply ψ g' Q >>= fun χ => apply χ g P) = .ok φ) ∧
    ∀ c c' : Circuit ℝ, c.Reachable → c.Reordered c' →
      c'.Reachable ∧ ∀ s : Simulator ℝ, s.finalState c' = s.finalState c ∧
        ∀ initial,
          (s.evolve c' initial).map List.getLast? = (s.evolve c initial).map List.getLast? ∧
          ∀ ψ, c.qubits ≤ s.config.maxQubits →
            start s.config.normTolerance c.qubits initial = .ok ψ →
              ∃ φ, (s.evolve c initial).map List.getLast? = .ok (some φ) := by
  constructor
  · intro ψ g g' P Q first second disjoint
    exact apply_comm first second disjoint
  · intro c c' reachable reordered
    refine ⟨reordered.reachable reachable, fun s => ⟨?_, fun initial =>
      ⟨evolve_of_reordered reordered reachable s initial, fun ψ fits started => ?_⟩⟩⟩
    · rw [s.finalState_eq, s.finalState_eq, evolve_of_reordered reordered reachable]
    · obtain ⟨φs, run, -⟩ := exists_states reachable.fault?_eq_none (start_eq_ok started).1
      obtain ⟨rest, rfl⟩ := exists_cons_of_states run
      rw [Simulator.evolve_eq_states reachable fits started, run]
      exact ⟨_, congrArg Except.ok (List.getLast?_eq_some_getLast (List.cons_ne_nil ψ rest))⟩

/-- A rotation of the qubit between the control and the target of another gate, and a circuit in
which the two change places behind a third gate. -/
theorem evolve_reordered_between :
    let c : Circuit ℝ := ⟨3, [.gate .h [2], .gate (.crx 5) [2, 0], .gate (.u 1 2 3) [1],
      .measure 1 0, .gate .swap [0, 1]]⟩
    let c' : Circuit ℝ := ⟨3, [.gate .h [2], .gate (.u 1 2 3) [1], .gate (.crx 5) [2, 0],
      .measure 1 0, .gate .swap [0, 1]]⟩
    let ψ : StateVector ℝ := ⟨3, by decide, .ofFn fun i => if i.val = 5 then 1 else 0⟩
    (∃ φ, (apply ψ (.crx 5) [2, 0] >>= fun χ => apply χ (.u 1 2 3) [1]) = .ok φ ∧
      (apply ψ (.u 1 2 3) [1] >>= fun χ => apply χ (.crx 5) [2, 0]) = .ok φ) ∧
    c'.Reachable ∧
    (Simulator.default : Simulator ℝ).finalState c' = Simulator.default.finalState c := by
  intro c c' ψ
  have first : (.crx 5 : Gate ℝ).Fits 3 [2, 0] := ⟨rfl, by decide, by decide⟩
  have second : (.u 1 2 3 : Gate ℝ).Fits 3 [1] := ⟨rfl, by decide, by decide⟩
  have disjoint : [2, 0].Disjoint [1] := by simp
  have built : Circuit.build 3 c.operations = .ok c := rfl
  have reordered : c.Reordered c' :=
    ⟨rfl, .within [.gate .h [2]] (.exchange (.crx 5) (.u 1 2 3) disjoint _)⟩
  obtain ⟨reachable, same⟩ := evolve_reordered.2 c c' (reachable_of_build built) reordered
  exact ⟨evolve_reordered.1 ψ (.crx 5) (.u 1 2 3) [2, 0] [1] first second disjoint, reachable,
    (same .default).1⟩

end Circuit

end QubitTrace
