import Mathlib
import QubitTrace.Proofs.Evolution.Composition

/-! # What a simulator refuses

A gate is applied to exactly the lists of qubits that a circuit takes it on, so no operation of a
circuit made by additions can fail on the way. What remains to be refused is seen before the first
gate: the size of the register, the size of the initial state, and its norm (`Simulator.Refusal`).
The reasons are looked for in this order, and one that is found is the fault of the run
(`evolve_of_refusal`); where there is none the run goes to its end (`exists_evolve`).
-/

namespace QubitTrace
set_option autoImplicit false

variable {K : Type} [Scalar K]

/-- The engine applies the gates that the circuit takes. -/
theorem Evolution.exists_apply_iff_exists_add (ψ : StateVector K) (g : Gate K)
    (qubits : List Nat) : (∃ φ, apply ψ g qubits = .ok φ) ↔
      ∃ c, (Circuit.empty ψ.qubits).add (.gate g qubits) = .ok c := by
  rw [exists_apply_iff, ← Operation.fault?_gate_eq_none_iff]
  constructor
  · intro fits
    exact ⟨_, Circuit.add_eq_ok_iff.2 ⟨fits, rfl⟩⟩
  · rintro ⟨c, added⟩
    exact (Circuit.add_eq_ok_iff.1 added).1

namespace Simulator

open QubitTrace.Evolution

/-- Why a run over `n` qubits does not begin, and the fault that is reported. -/
inductive Refusal (config : Config K) (n : Nat) : Option (StateVector K) → Fault K → Prop
  /-- The register is larger than the configuration allows. -/
  | large {initial : Option (StateVector K)} (more : config.maxQubits < n) :
    Refusal config n initial (.tooManyQubits n config.maxQubits)
  /-- The register has no qubits. -/
  | empty {initial : Option (StateVector K)} (fits : n ≤ config.maxQubits) (none : n = 0) :
    Refusal config n initial (.circuit .emptyRegister)
  /-- The initial state is that of another register. -/
  | size {ψ : StateVector K} (fits : n ≤ config.maxQubits) (some : n ≠ 0) (other : ψ.qubits ≠ n) :
    Refusal config n (.some ψ) (.initialState ψ.qubits n)
  /-- The initial state is not normalized. -/
  | norm {ψ : StateVector K} (fits : n ≤ config.maxQubits) (same : ψ.qubits = n)
    (far : config.normTolerance < Scalar.abs (ψ.normSq - 1)) :
    Refusal config n (.some ψ) (.invariant (.norm ψ.normSq config.normTolerance))

variable {s : Simulator K} {c : Circuit K} {initial : Option (StateVector K)} {fault : Fault K}

/-- A reason to refuse a run is the fault of the run. -/
theorem evolve_of_refusal (reachable : c.Reachable)
    (refused : Refusal s.config c.qubits initial fault) : s.evolve c initial = .error fault := by
  cases refused with
  | large more => exact if_pos more
  | empty fits none =>
    rw [evolve, if_neg (not_lt.2 fits), trajectory, Circuit.validate, if_pos none]
    rfl
  | size fits some other =>
    rw [evolve, if_neg (not_lt.2 fits), trajectory,
      Circuit.validate_of_reachable reachable (Nat.pos_of_ne_zero some), start, if_pos other]
    rfl
  | norm fits same far =>
    next ψ =>
    rw [evolve, if_neg (not_lt.2 fits), trajectory,
      Circuit.validate_of_reachable reachable (same ▸ ψ.positive), start,
      if_neg (not_not.2 same), Invariant.normalized, StateVector.deviates, decide_eq_true far]
    rfl

/-- A run that nothing speaks against begins. -/
theorem exists_start (valid : s.config.validate = .ok ())
    (free : ∀ fault, ¬ Refusal s.config c.qubits initial fault) :
    c.qubits ≤ s.config.maxQubits ∧
      ∃ ψ, start s.config.normTolerance c.qubits initial = .ok ψ := by
  have fits : c.qubits ≤ s.config.maxQubits := not_lt.1 fun more => free _ (.large more)
  have some : c.qubits ≠ 0 := fun none => free _ (.empty fits none)
  refine ⟨fits, ?_⟩
  cases initial with
  | none =>
    have ceiling : s.config.maxQubits ≤ 12 := (Timeline.bounds_of_validate valid).2.2.2
    have small : c.qubits ≤ StateVector.maxQubits := fits.trans (ceiling.trans (by decide))
    obtain ⟨ψ, zeroed⟩ := StateVector.exists_zero (K := K) (Nat.pos_of_ne_zero some) small
    exact ⟨ψ, start_of_zero zeroed⟩
  | some ψ =>
    have same : ψ.qubits = c.qubits := of_not_not fun other => free _ (.size fits some other)
    have near : ψ.deviates s.config.normTolerance = false :=
      decide_eq_false fun far => free _ (.norm fits same far)
    exact ⟨ψ, start_some_eq_ok_iff.2 ⟨same, near, rfl⟩⟩

/-- A run that nothing speaks against goes to its end. -/
theorem exists_evolve (valid : s.config.validate = .ok ()) (reachable : c.Reachable)
    (free : ∀ fault, ¬ Refusal s.config c.qubits initial fault) :
    ∃ φs, s.evolve c initial = .ok φs ∧ φs.length = c.gateCount + 1 ∧
      ∀ φ ∈ φs, φ.qubits = c.qubits := by
  obtain ⟨fits, ψ, started⟩ := exists_start valid free
  obtain ⟨φs, run, -, length, sized⟩ := states_invariant (P := fun _ => True)
    (fun _ _ _ _ _ _ _ _ => trivial) reachable.fault?_eq_none (start_eq_ok started).1 trivial
  exact ⟨φs, (evolve_eq_states reachable fits started).trans run, length,
    fun φ mem => (sized φ mem).1⟩

/-- A run fails exactly if something speaks against it, and with that fault. -/
theorem evolve_eq_error_iff (valid : s.config.validate = .ok ()) (reachable : c.Reachable) :
    s.evolve c initial = .error fault ↔ Refusal s.config c.qubits initial fault := by
  refine ⟨fun failed => ?_, evolve_of_refusal reachable⟩
  by_cases refused : ∃ reason, Refusal s.config c.qubits initial reason
  · obtain ⟨reason, refused⟩ := refused
    rw [evolve_of_refusal reachable refused] at failed
    cases failed
    exact refused
  · obtain ⟨φs, run, -⟩ := exists_evolve valid reachable (not_exists.1 refused)
    rw [run] at failed
    cases failed

/-! ## The reasons by kind -/

/-- The register has a size that is not simulated, or the initial state is that of another one. -/
def Misfit (config : Config K) (n : Nat) (initial : Option (StateVector K)) : Prop :=
  n = 0 ∨ config.maxQubits < n ∨ ∃ ψ, initial = some ψ ∧ ψ.qubits ≠ n

/-- The squared norm of the initial state deviates from one by more than the tolerance. -/
def OffNorm (config : Config K) (initial : Option (StateVector K)) : Prop :=
  ∃ ψ, initial = some ψ ∧ config.normTolerance < Scalar.abs (ψ.normSq - 1)

variable {config : Config K} {n : Nat}

theorem exists_refusal_iff : (∃ fault, Refusal config n initial fault) ↔
    Misfit config n initial ∨ OffNorm config initial := by
  constructor
  · rintro ⟨fault, refused⟩
    cases refused with
    | large more => exact .inl (.inr (.inl more))
    | empty fits none => exact .inl (.inl none)
    | size fits some other => exact .inl (.inr (.inr ⟨_, rfl, other⟩))
    | norm fits same far => exact .inr ⟨_, rfl, far⟩
  · intro cause
    by_cases fits : n ≤ config.maxQubits
    · by_cases none : n = 0
      · exact ⟨_, .empty fits none⟩
      · obtain (zero | more | ⟨ψ, rfl, other⟩) | ⟨ψ, rfl, far⟩ := cause
        · exact absurd zero none
        · exact absurd fits (not_le.2 more)
        · exact ⟨_, .size fits none other⟩
        · by_cases same : ψ.qubits = n
          · exact ⟨_, .norm fits same far⟩
          · exact ⟨_, .size fits none same⟩
    · exact ⟨_, .large (not_le.1 fits)⟩

theorem Refusal.kind (refused : Refusal config n initial fault) :
    (Misfit config n initial → fault.kind = .invalidCircuit) ∧
      (¬ Misfit config n initial → fault.kind = .numericAnomaly) := by
  cases refused with
  | large more => exact ⟨fun _ => rfl, fun fit => absurd (.inr (.inl more)) fit⟩
  | empty fits none => exact ⟨fun _ => rfl, fun fit => absurd (.inl none) fit⟩
  | size fits some other =>
    exact ⟨fun _ => rfl, fun fit => absurd (.inr (.inr ⟨_, rfl, other⟩)) fit⟩
  | norm fits same far =>
    next ψ =>
    refine ⟨?_, fun _ => rfl⟩
    rintro (none | more | ⟨φ, given, other⟩)
    · exact absurd (same.trans none) ψ.positive.ne'
    · exact absurd fits (not_le.2 more)
    · cases given
      exact absurd same other

/-- **The engine takes what the circuit takes, and refuses for the documented reasons only.** A gate
is applied to a state exactly if the circuit over its register takes it on the same list of qubits.
So a simulator with a valid configuration fails on a circuit made by additions exactly if the
register has no qubits or too many, if the initial state is that of another register (an invalid
circuit), or if its squared norm deviates by more than the tolerance (a numeric anomaly). Otherwise
there is a state for the start and for each gate, with an amplitude for each basis index. -/
theorem exists_evolve_eq_error_iff :
    (∀ (ψ : StateVector K) (g : Gate K) (qubits : List Nat),
      (∃ φ, apply ψ g qubits = .ok φ) ↔
        ∃ c, (Circuit.empty ψ.qubits).add (.gate g qubits) = .ok c) ∧
    ∀ (s : Simulator K) (c : Circuit K) (initial : Option (StateVector K)),
      s.config.validate = .ok () → c.Reachable →
      ((∃ fault, s.evolve c initial = .error fault) ↔
        Misfit s.config c.qubits initial ∨ OffNorm s.config initial) ∧
      (∀ fault, s.evolve c initial = .error fault →
        (Misfit s.config c.qubits initial → fault.kind = .invalidCircuit) ∧
        (¬ Misfit s.config c.qubits initial → fault.kind = .numericAnomaly)) ∧
      ∀ φs, s.evolve c initial = .ok φs → φs.length = c.gateCount + 1 ∧
        ∀ φ ∈ φs, φ.qubits = c.qubits ∧ φ.amplitudes.toArray.size = 2 ^ c.qubits := by
  refine ⟨exists_apply_iff_exists_add, fun s c initial valid reachable => ⟨?_, ?_, ?_⟩⟩
  · rw [← exists_refusal_iff]
    exact exists_congr fun fault => evolve_eq_error_iff valid reachable
  · intro fault failed
    exact ((evolve_eq_error_iff valid reachable).1 failed).kind
  · intro φs run
    have free (fault : Fault K) : ¬ Refusal s.config c.qubits initial fault := fun refused => by
      rw [evolve_of_refusal reachable refused] at run
      cases run
    obtain ⟨states, same, length, sized⟩ := exists_evolve valid reachable free
    rw [same] at run
    cases run
    refine ⟨length, fun φ mem => ⟨sized φ mem, ?_⟩⟩
    rw [φ.amplitudes.size_toArray, sized φ mem, Basis.dimension_eq]

/-- Over double-precision numbers: a circuit of two gates and a measurement is run by default, and
refused from a state of one qubit. -/
theorem exists_evolve_eq_error_iff_default :
    let s : Simulator Float := default
    let c : Circuit Float := ⟨2, [.gate .h [0], .measure 0 0, .gate .cx [0, 1]]⟩
    let ψ : StateVector Float := ⟨1, by decide, #v[1, 0]⟩
    s.config.validate = .ok () ∧ c.Reachable ∧
      (∃ φs, s.evolve c none = .ok φs ∧ φs.length = 3 ∧
        ∀ φ ∈ φs, φ.qubits = 2 ∧ φ.amplitudes.toArray.size = 4) ∧
      ∃ fault, s.evolve c (some ψ) = .error fault ∧ fault.kind = .invalidCircuit := by
  intro s c ψ
  have valid : s.config.validate = .ok () := validate_default_of (by decide +kernel)
  have built : Circuit.build 2 c.operations = .ok c := rfl
  have reachable : c.Reachable := Circuit.reachable_of_build built
  obtain ⟨fails, -, runs⟩ := exists_evolve_eq_error_iff.2 s c none valid reachable
  obtain ⟨fails', kinds', -⟩ := exists_evolve_eq_error_iff.2 s c (some ψ) valid reachable
  have misfit : Misfit s.config c.qubits (some ψ) := .inr (.inr ⟨ψ, rfl, by decide⟩)
  refine ⟨valid, reachable, ?_, ?_⟩
  · have fit : ¬ (Misfit s.config c.qubits none ∨ OffNorm s.config none) := by
      rintro ((none | more | ⟨φ, given, -⟩) | ⟨φ, given, -⟩)
      · exact absurd none (by decide)
      · exact absurd more (by decide)
      all_goals cases given
    cases outcome : s.evolve c none with
    | error fault => exact absurd (fails.1 ⟨fault, outcome⟩) fit
    | ok φs => exact ⟨φs, rfl, runs φs outcome⟩
  · obtain ⟨fault, failed⟩ := fails'.2 (.inl misfit)
    exact ⟨fault, failed, (kinds' fault failed).1 misfit⟩

end Simulator

end QubitTrace
