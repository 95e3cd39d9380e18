import Mathlib
import QubitTrace.Density.Tridiagonal
import QubitTrace.Proofs.Scalar.Order
import QubitTrace.Proofs.Timeline.Report
import QubitTrace.Proofs.Timeline.Steps

/-! # Looser tolerances

Checks keep a report from being made and have no part in what it says, so a timeline that passes the
checks of one configuration is made, as it is, under every other one that turns nothing more away
(`Config.Looser`). Each check is carried over on its own, and with it everything that is built on it
(`Carries`). Over doubles larger tolerances turn away less: the bounds that are compared with are
sums and differences of doubles, and these are rounded monotonically (`looser_of_le`).
-/

namespace QubitTrace
set_option autoImplicit false

/-! ## Outcomes that carry over -/

/-- What the first outcome is, the second is too, unless the first is a fault. -/
def Carries {ε α : Type} (x y : Except ε α) : Prop := ∀ a, x = .ok a → y = .ok a

namespace Carries

variable {ε ε' α β : Type} {x y : Except ε α}

theorem refl (x : Except ε α) : Carries x x := fun _ => id

theorem bind {f g : α → Except ε β} (first : Carries x y)
    (rest : ∀ a, x = .ok a → Carries (f a) (g a)) : Carries (x >>= f) (y >>= g) := by
  intro b made
  obtain ⟨a, here, made⟩ := bind_eq_ok_iff.1 made
  exact bind_eq_ok_iff.2 ⟨a, first a here, rest a here b made⟩

theorem mapError (g : ε → ε') (carries : Carries x y) :
    Carries (x.mapError g) (y.mapError g) := fun a made =>
  mapError_eq_ok_iff.2 (carries a (mapError_eq_ok_iff.1 made))

theorem mapM {f g : α → Except ε β} (as : List α) (each : ∀ a ∈ as, Carries (f a) (g a)) :
    Carries (as.mapM f) (as.mapM g) := by
  induction as with
  | nil => exact refl _
  | cons a as ih =>
    obtain ⟨first, rest⟩ := List.forall_mem_cons.1 each
    rw [List.mapM_cons, List.mapM_cons]
    exact first.bind fun b _ => (ih rest).bind fun bs _ => refl _

/-- A guard that turns less away. -/
theorem guard {c c' : Prop} [Decidable c] [Decidable c'] (fewer : c' → c) (e e' : ε) (a : α) :
    Carries (if c then .error e else .ok a) (if c' then .error e' else .ok a) := by
  by_cases refused : c'
  · rw [if_pos (fewer refused)]
    exact nofun
  · rw [if_neg refused]
    split_ifs
    · exact nofun
    · exact refl _

/-- Two checks before the rest, which are made on the one side and need not be on the other. -/
theorem checks {asked asked' : Prop} [Decidable asked] [Decidable asked']
    {c c' d d' : Except ε Unit} {k k' : Unit → Except ε α} (fewer : asked' → asked)
    (first : Carries c c') (second : Carries d d') (rest : Carries (k ()) (k' ())) :
    Carries (if asked then c >>= fun _ => d >>= k else k ())
      (if asked' then c' >>= fun _ => d' >>= k' else k' ()) := by
  by_cases checked : asked'
  · rw [if_pos checked, if_pos (fewer checked)]
    exact first.bind fun _ _ => second.bind fun _ _ => rest
  · rw [if_neg checked]
    exact fun a made => rest a (eq_ok_of_checks made)

end Carries

variable {K : Type} [Scalar K]

/-! ## Checks -/

/-- The second configuration turns nothing away that the first lets pass. -/
structure Config.Looser (config config' : Config K) : Prop where
  norm : ∀ d, config'.normTolerance < d → config.normTolerance < d
  hermitian : ∀ d, config'.hermitianTolerance < d → config.hermitianTolerance < d
  negative : ∀ p, p < -config'.hermitianTolerance → p < -config.hermitianTolerance
  purity : ∀ p, Carries (Invariant.purityBounds p 2 config.normTolerance)
    (Invariant.purityBounds p 2 config'.normTolerance)
  checks : config'.validateSnapshots = true → config.validateSnapshots = true

namespace Config.Looser

variable {config config' : Config K} (looser : Config.Looser config config')
include looser

theorem normalized (ψ : StateVector K) : Carries (Invariant.normalized ψ config.normTolerance)
    (Invariant.normalized ψ config'.normTolerance) := by
  refine Carries.guard (fun refused => ?_) _ _ ()
  exact decide_eq_true (looser.norm _ (of_decide_eq_true refused))

theorem density (ρ : DensityOperator K) : Carries (Invariant.density ρ config.hermitianTolerance)
    (Invariant.density ρ config'.hermitianTolerance) := by
  refine Carries.bind (fun _ passed => ?_) fun _ _ => Carries.guard ?_ _ _ ()
  · exact Invariant.hermitian_eq_ok_iff.2 fun r row c col far =>
      Invariant.hermitian_eq_ok_iff.1 passed r row c col (looser.hermitian _ far)
  · exact Or.imp (looser.hermitian _) (looser.hermitian _)

theorem positive [Spectral K] (ρ : DensityOperator K) :
    Carries (Invariant.positive ρ config.hermitianTolerance)
      (Invariant.positive ρ config'.hermitianTolerance) := fun _ passed =>
  Invariant.positive_eq_ok_iff.2 fun p listed below =>
    Invariant.positive_eq_ok_iff.1 passed p listed (looser.negative p below)

theorem blochVector (ρ : DensityOperator K) :
    Carries (Observable.blochVector ρ config.hermitianTolerance)
      (Observable.blochVector ρ config'.hermitianTolerance) := by
  have real (axis : Axis) : Carries (Observable.realExpectation ρ config.hermitianTolerance axis)
      (Observable.realExpectation ρ config'.hermitianTolerance axis) :=
    Carries.guard (looser.hermitian _) _ _ _
  unfold Observable.blochVector
  split_ifs
  · exact Carries.refl _
  · exact (real .x).bind fun _ _ => (real .y).bind fun _ _ => (real .z).bind fun _ _ =>
      Carries.refl _

/-! ## Reports -/

variable [Spectral K]

theorem ofReduced (q : Nat) (ρ : DensityOperator K) :
    Carries (QubitObservables.ofReduced q ρ config.hermitianTolerance)
      (QubitObservables.ofReduced q ρ config'.hermitianTolerance) :=
  (looser.blochVector ρ).bind fun _ _ => Carries.refl _

theorem qubitReport (ρ : DensityOperator K) (q : Nat) :
    Carries (Timeline.qubitReport config ρ q) (Timeline.qubitReport config' ρ q) := by
  refine (Carries.refl _).bind fun σ _ => ((looser.ofReduced q σ).mapError _).bind fun o made => ?_
  -- there is a Bloch vector, so the operator is that of one qubit
  obtain ⟨-, located, -⟩ := QubitObservables.ofReduced_eq_ok (mapError_eq_ok_iff.1 made)
  have two : σ.dim = 2 := congrArg Basis.dimension (Observable.blochVector_eq_re located).1
  rw [two]
  exact Carries.checks looser.checks ((looser.positive σ).mapError _)
    ((looser.purity o.purity).mapError _) (Carries.refl _)

theorem report (n number : Nat) (ψ : StateVector K) :
    Carries (Timeline.report config n number ψ) (Timeline.report config' n number ψ) := by
  unfold Timeline.report
  by_cases other : ψ.qubits ≠ n
  · rw [if_pos other, if_pos other]
    exact Carries.refl _
  · rw [if_neg other, if_neg other]
    refine Carries.checks looser.checks ((looser.normalized ψ).mapError _)
      ((looser.density _).mapError _) ?_
    exact (Carries.mapM _ fun q _ => looser.qubitReport _ q).bind fun _ _ => Carries.refl _

/-- What is made under a configuration is made, as it is, under a looser one. -/
theorem assemble (n : Nat) (states : List (StateVector K)) :
    Carries (Timeline.assemble config n states) (Timeline.assemble config' n states) := by
  unfold Timeline.assemble
  split
  · exact Carries.refl _
  · exact (Carries.mapM _ fun _ _ => looser.report n _ _).bind fun _ _ => Carries.refl _

end Config.Looser

/-! ## Doubles -/

namespace Double

variable {x y floor : Float}

theorem le_of_lt (lt : x < y) : x ≤ y := by
  obtain ⟨hx, hy⟩ := numbers_of_lt lt
  exact (le_iff hx hy).2 ((lt_iff hx hy).1 lt).le

theorem le_self (number : sign x ≠ none) : x ≤ x := (le_iff number number).2 le_rfl

theorem atLeast_le_atLeast (number : sign floor ≠ none) (le : x ≤ y) :
    Scalar.atLeast floor x ≤ Scalar.atLeast floor y := by
  unfold Scalar.atLeast
  by_cases above : floor < x
  · rw [if_pos above, if_pos (lt_of_lt_le above le)]
    exact le
  · rw [if_neg above]
    split_ifs with above'
    · exact le_of_lt above'
    · exact le_self number

theorem isFinite_atLeast (finite : Scalar.isFinite floor = true)
    (finite' : Scalar.isFinite x = true) :
    Scalar.isFinite (Scalar.atLeast floor x) = true := by
  unfold Scalar.atLeast
  split_ifs
  · exact finite'
  · exact finite

end Double

/-- Larger tolerances turn less away. -/
theorem Config.looser_of_le {config config' : Config Float}
    (finite : Scalar.isFinite config.normTolerance = true)
    (finite' : Scalar.isFinite config'.normTolerance = true)
    (norm : config.normTolerance ≤ config'.normTolerance)
    (hermitian : config.hermitianTolerance ≤ config'.hermitianTolerance)
    (checks : config'.validateSnapshots = true → config.validateSnapshots = true) :
    config.Looser config' where
  norm _ far := Double.lt_of_le_lt norm far
  hermitian _ far := Double.lt_of_le_lt hermitian far
  negative _ below := Double.lt_of_lt_le below (Double.neg_le_neg_of_le hermitian)
  purity p := by
    have least : Scalar.isFinite (Invariant.leastPurityTolerance : Float) = true := by
      decide +kernel
    have one : Scalar.isFinite (1 : Float) = true := by decide +kernel
    have half : Scalar.isFinite (1 / (2 : Nat) : Float) = true := by decide +kernel
    have slack := Double.isFinite_atLeast least finite
    have slack' := Double.isFinite_atLeast least finite'
    have wider := Double.atLeast_le_atLeast (Double.number_of_isFinite least) norm
    refine Carries.guard (Or.imp (fun below => ?_) fun above => ?_) _ _ ()
    · exact Double.lt_of_lt_le below (Double.sub_le_sub_of_le half slack slack' wider)
    · exact Double.lt_of_le_lt (Double.add_le_add_of_le one slack slack' wider) above
  checks := checks

namespace Timeline

/-- **Checks only observe, and looser ones observe less.** Two configurations with tolerances that
are ordinary numbers, none of the second below that of the first, and with the checks of the second
as in the first or off: a timeline that the first lets be made of a list of states is made of it,
the same, under the second. -/
theorem assemble_of_le [Spectral Float] {config config' : Config Float}
    (finite : Scalar.isFinite config.normTolerance = true)
    (finite' : Scalar.isFinite config'.normTolerance = true)
    (norm : config.normTolerance ≤ config'.normTolerance)
    (hermitian : config.hermitianTolerance ≤ config'.hermitianTolerance)
    (checks : config'.validateSnapshots = config.validateSnapshots ∨
      config'.validateSnapshots = false) (n : Nat) (states : List (StateVector Float))
    {t : Timeline Float} (assembled : assemble config n states = .ok t) :
    assemble config' n states = .ok t := by
  have fewer (asked : config'.validateSnapshots = true) : config.validateSnapshots = true := by
    rcases checks with same | off
    · exact same.symm.trans asked
    · exact absurd asked (by rw [off]; decide)
  exact (Config.looser_of_le finite finite' norm hermitian fewer).assemble n states t assembled

/-- The timeline of a state that is a little off, under the default tolerances and larger ones. -/
theorem assemble_of_le_default :
    let config : Config Float := Config.default
    let config' : Config Float := { config with normTolerance := 1e-6, hermitianTolerance := 1e-3 }
    let ψ : StateVector Float := ⟨1, by decide, #v[⟨1, 1e-6⟩, 0]⟩
    config.normTolerance ≤ config'.normTolerance ∧
      config.hermitianTolerance ≤ config'.hermitianTolerance ∧
      ∃ t, assemble config 1 [ψ] = .ok t ∧ assemble config' 1 [ψ] = .ok t := by
  intro config config' ψ
  have norm : config.normTolerance ≤ config'.normTolerance := by decide +kernel
  have hermitian : config.hermitianTolerance ≤ config'.hermitianTolerance := by decide +kernel
  refine ⟨norm, hermitian, ?_⟩
  have made : (assemble config 1 [ψ]).isOk = true := by decide +kernel
  cases assembled : assemble config 1 [ψ] with
  | error fault =>
    rw [assembled] at made
    cases made
  | ok t =>
    exact ⟨t, rfl, assemble_of_le (by decide +kernel) (by decide +kernel) norm hermitian
      (.inl rfl) 1 [ψ] assembled⟩

end Timeline

end QubitTrace
