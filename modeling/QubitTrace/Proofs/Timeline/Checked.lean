import Mathlib
import QubitTrace.Density.Tridiagonal
import QubitTrace.Proofs.Evolution.Norm
import QubitTrace.Proofs.State.Deviation
import QubitTrace.Proofs.Timeline.Steps

/-! # What a checked timeline vouches for

A timeline under a configuration that asks for checks has reports of all its states, and each report
has passed the check of the norm (`deviates_of_report`). Over doubles this vouches for the norm of a
state of numbers (`deviation_of_checked`). A state with one amplitude that is no number has a squared
norm that is none either; it is above no tolerance and within none, so no check turns it away
(`not_forall_checked_normalized`).
-/

namespace QubitTrace
set_option autoImplicit false

namespace Timeline

section Generic

variable {K : Type} [Scalar K] [Spectral K] {config : Config K} {n number : Nat}
  {ψ : StateVector K}

/-- A report that is checked is that of a state which does not deviate. -/
theorem deviates_of_report (checked : config.validateSnapshots = true) {step : Step K}
    (reported : report config n number ψ = .ok step) :
    ψ.deviates config.normTolerance = false := by
  unfold report at reported
  split_ifs at reported
  obtain ⟨_, passed, -⟩ := bind_eq_ok_iff.1 reported
  exact Invariant.normalized_eq_ok_iff.1 (mapError_eq_ok_iff.1 passed)

theorem deviates_of_assemble (checked : config.validateSnapshots = true)
    {states : List (StateVector K)} {t : Timeline K}
    (assembled : assemble config n states = .ok t) :
    ∀ ψ ∈ states, ψ.deviates config.normTolerance = false := by
  intro ψ mem
  obtain ⟨k, step, reported⟩ := exists_report_of_state assembled mem
  exact deviates_of_report checked reported

end Generic

/-! ## Doubles -/

/-- **A passed check speaks of numbers only.** Amplitudes are let in exactly if, should all of them
be numbers, their squared norm is within the tolerance; and this much holds of every state of a
checked timeline or run. A state with an amplitude that is no number is let in as well, although its
squared norm is none and within no tolerance. -/
theorem deviation_of_checked [Spectral Float] {tolerance : Float}
    (number : tolerance.isNaN = false) :
    (∀ (amplitudes : Array (Complex Float)) (ψ : StateVector Float),
      StateVector.ofAmplitudes amplitudes tolerance = .ok ψ ↔
        ψ.amplitudes.toArray = amplitudes ∧
          (ψ.OfNumbers → Scalar.abs (ψ.normSq - 1) ≤ tolerance)) ∧
    (∀ ψ : StateVector Float, ¬ ψ.OfNumbers →
      ψ.normSq.isNaN = true ∧ ¬ Scalar.abs (ψ.normSq - 1) ≤ tolerance) ∧
    ∀ config : Config Float, config.normTolerance = tolerance → config.validateSnapshots = true →
      (∀ (n : Nat) (states : List (StateVector Float)) (t : Timeline Float),
        assemble config n states = .ok t →
        ∀ ψ ∈ states, ψ.OfNumbers → Scalar.abs (ψ.normSq - 1) ≤ tolerance) ∧
      ∀ (c : Circuit Float) (t : Timeline Float), (Simulator.mk config).run c = .ok t →
        ∃ states, (Simulator.mk config).evolve c none = .ok states ∧
          ∀ ψ ∈ states, ψ.OfNumbers → Scalar.abs (ψ.normSq - 1) ≤ tolerance := by
  have passes (ψ : StateVector Float) : ψ.deviates tolerance = false ↔
      (ψ.OfNumbers → Scalar.abs (ψ.normSq - 1) ≤ tolerance) := by
    rw [StateVector.deviates_eq_false_iff number, StateVector.isNaN_normSq_iff, imp_iff_not_or]
  refine ⟨fun amplitudes ψ => ?_, fun ψ broken => ?_, fun config same checked => ?_⟩
  · rw [StateVector.ofAmplitudes_eq_ok_iff, passes]
  · have norm := StateVector.isNaN_normSq_iff.2 broken
    exact ⟨norm, Double.not_le_of_isNaN (.inl (StateVector.isNaN_deviation_iff.2 norm))⟩
  · subst same
    have listed (n : Nat) (states : List (StateVector Float)) (t : Timeline Float)
        (assembled : assemble config n states = .ok t) :
        ∀ ψ ∈ states, ψ.OfNumbers → Scalar.abs (ψ.normSq - 1) ≤ config.normTolerance :=
      fun ψ mem => (passes ψ).1 (deviates_of_assemble checked assembled ψ mem)
    refine ⟨listed, fun c t ran => ?_⟩
    obtain ⟨states, evolved, assembled⟩ := bind_eq_ok_iff.1 ran
    exact ⟨states, evolved, listed c.qubits states t assembled⟩

/-- A state whose first amplitude is no number. -/
def spoiled : StateVector Float := ⟨1, by decide, #v[⟨Double.notANumber, 0⟩, ⟨1, 0⟩]⟩

/-- The default check vouches for every state that a flipped bit runs through, and it lets in
amplitudes with a squared norm within no tolerance. -/
theorem deviation_of_checked_default :
    (Config.default : Config Float).normTolerance.isNaN = false ∧
    (∃ states, (Simulator.mk Config.default).evolve (⟨1, [.gate .x [0]]⟩ : Circuit Float) none =
        .ok states ∧
      ∀ ψ ∈ states, Scalar.abs (ψ.normSq - 1) ≤ (Config.default : Config Float).normTolerance) ∧
    ∃ ψ, StateVector.ofAmplitudes spoiled.amplitudes.toArray
        (Config.default : Config Float).normTolerance = .ok ψ ∧
      ¬ Scalar.abs (ψ.normSq - 1) ≤ (Config.default : Config Float).normTolerance := by
  have number : (Config.default : Config Float).normTolerance.isNaN = false := by decide +kernel
  obtain ⟨made, outside, vouched⟩ := deviation_of_checked number
  have broken : ¬ spoiled.OfNumbers := StateVector.isNaN_normSq_iff.1 (by decide +kernel)
  refine ⟨number, ?_, spoiled, (made _ _).2 ⟨rfl, fun fine => absurd fine broken⟩,
    (outside spoiled broken).2⟩
  have passed : ((Simulator.mk Config.default).run
      (⟨1, [.gate .x [0]]⟩ : Circuit Float)).isOk = true := by decide +kernel
  have sound : ((Simulator.mk Config.default).evolve
      (⟨1, [.gate .x [0]]⟩ : Circuit Float) none).toOption.all
        (·.all fun ψ => !ψ.normSq.isNaN) = true := by decide +kernel
  cases ran : (Simulator.mk Config.default).run (⟨1, [.gate .x [0]]⟩ : Circuit Float) with
  | error fault =>
    rw [ran] at passed
    cases passed
  | ok t =>
    obtain ⟨states, evolved, within⟩ := (vouched Config.default rfl rfl).2 _ t ran
    rw [evolved] at sound
    refine ⟨states, evolved, fun ψ mem => within ψ mem ?_⟩
    have fine : ¬ ψ.normSq.isNaN = true := by simpa using List.all_eq_true.1 sound ψ mem
    exact not_not.1 (StateVector.isNaN_normSq_iff.not.1 fine)

/-- A passed check is no promise: there are amplitudes let in, and a timeline made with all checks
on, of a squared norm that is not within the tolerance. -/
theorem not_forall_checked_normalized :
    (¬ ∀ (amplitudes : Array (Complex Float)) (ψ : StateVector Float),
      StateVector.ofAmplitudes amplitudes StateVector.defaultTolerance = .ok ψ →
        Scalar.abs (ψ.normSq - 1) ≤ StateVector.defaultTolerance) ∧
    ¬ ∀ (n : Nat) (states : List (StateVector Float)) (t : Timeline Float),
      assemble Config.default n states = .ok t →
        ∀ ψ ∈ states, Scalar.abs (ψ.normSq - 1) ≤ (Config.default : Config Float).normTolerance := by
  have outside (tolerance : Float) : ¬ Scalar.abs (spoiled.normSq - 1) ≤ tolerance :=
    Double.not_le_of_isNaN (.inl (by decide +kernel))
  constructor
  · intro promise
    have made : StateVector.ofAmplitudes spoiled.amplitudes.toArray
        StateVector.defaultTolerance = .ok spoiled :=
      StateVector.ofAmplitudes_eq_ok_iff.2 ⟨rfl, by decide +kernel⟩
    exact outside _ (promise _ _ made)
  · intro promise
    have reported : (assemble (Config.default : Config Float) 1 [spoiled]).isOk = true := by
      decide +kernel
    cases assembled : assemble (Config.default : Config Float) 1 [spoiled] with
    | error fault =>
      rw [assembled] at reported
      cases reported
    | ok t => exact outside _ (promise 1 [spoiled] t assembled spoiled (List.mem_singleton_self _))

end Timeline

end QubitTrace
