import Mathlib
import QubitTrace.Density.Tridiagonal
import QubitTrace.Proofs.Density.Locality
import QubitTrace.Proofs.Service.Shape
import QubitTrace.Proofs.Timeline.Shape

/-! # What remains after a trace, and the last step

The answer to a program can say the same thing twice: what remains when all qubits but one are
traced out, and the entry of this qubit in the last step. Both are figures of one operator, since
neither the order of a list of qubits (`DensityOperator.partialTrace_of_perm`) nor the tolerance of
a Bloch vector (`Observable.blochVector_eq_re`) shows in a result. So the figures are identical over
rounded numbers as well.
-/

namespace QubitTrace
set_option autoImplicit false

variable {K : Type} [Scalar K]

/-- Among `n` qubits the list leaves out `q` and no other. -/
def LeavesOnly (n : Nat) (traced : List Nat) (q : Nat) : Prop :=
  ∀ p, (p < n ∧ p ∉ traced) ↔ p = q

/-- Tracing out all qubits but one is reducing to that qubit. -/
theorem DensityOperator.reduceToQubit_of_partialTrace {ρ σ : DensityOperator K} {gone : List Nat}
    {q : Nat} (only : LeavesOnly ρ.qubits gone q) (traced : ρ.partialTrace gone = .ok σ) :
    ρ.reduceToQubit q = .ok σ := by
  have traceable := traceable_of_partialTrace traced
  have perm : gone.Perm ((List.range ρ.qubits).filter (· ≠ q)) := by
    refine (List.perm_ext_iff_of_nodup traceable.distinct (List.nodup_range.filter _)).2 fun p => ?_
    rw [List.mem_filter, List.mem_range, decide_eq_true_eq]
    constructor
    · intro listed
      exact ⟨traceable.range p listed, fun same => ((only p).2 same).2 listed⟩
    · rintro ⟨inside, other⟩
      by_contra free
      exact other ((only p).1 ⟨inside, free⟩)
  rw [reduceToQubit_eq ((only q).2 rfl).1]
  exact partialTrace_of_perm perm traced

/-- The qubits that remain and those that are traced out are those of the register. -/
theorem DensityOperator.shares_kept_of_traceable {n : Nat} {gone : List Nat}
    (traceable : Traceable n gone) : Basis.Shares n (kept n gone) gone := by
  have same : kept n gone = Basis.others n gone := List.filter_congr fun q _ => by simp
  rw [same]
  exact (Basis.shares_others traceable.distinct traceable.range).symm

variable [Spectral K]

/-- What remains says of qubit `q` what the last of the steps says of it. -/
def SubsystemObservables.Repeats (steps : List (Step K)) (q : Nat) (r : SubsystemObservables K) :
    Prop :=
  r.remaining = [q] ∧ ∃ step o, steps.getLast? = some step ∧ step.qubits[q]? = some o ∧
    o.qubit = q ∧ r.purity = o.purity ∧ r.entropy = o.entropy ∧ r.isPure = o.isPure ∧
    r.bloch = some o.bloch

theorem SubsystemObservables.afterTrace_eq_ok {ρ : DensityOperator K} {gone : List Nat}
    {r : SubsystemObservables K} (observed : afterTrace ρ gone = .ok r) :
    ∃ σ, ρ.partialTrace gone = .ok σ ∧ r.remaining = DensityOperator.kept ρ.qubits gone ∧
      r.purity = Observable.purity σ ∧ r.entropy = Observable.entropy σ ∧
      r.isPure = Observable.isPure (Observable.purity σ) ∧
      (σ.qubits = 1 → ∃ v, Observable.blochVector σ Observable.defaultTolerance = .ok v ∧
        r.bloch = some v) := by
  obtain ⟨σ, traced, observed⟩ := bind_eq_ok_iff.1 observed
  rw [mapError_eq_ok_iff] at traced
  by_cases one : σ.qubits = 1
  · simp only [if_pos one] at observed
    obtain ⟨bloch, located, made⟩ := bind_eq_ok_iff.1 observed
    cases made
    cases point : Observable.blochVector σ Observable.defaultTolerance with
    | ok v =>
      rw [point] at located
      cases located
      exact ⟨σ, traced, rfl, rfl, rfl, rfl, fun _ => ⟨v, point, rfl⟩⟩
    | error fault =>
      rw [point] at located
      cases located
  · simp only [if_neg one] at observed
    cases observed
    exact ⟨σ, traced, rfl, rfl, rfl, rfl, fun same => absurd same one⟩

/-- The last step of a timeline is the report of its final state. -/
theorem Timeline.exists_report_of_final {config : Config K} {n : Nat} {φs : List (StateVector K)}
    {t : Timeline K} (assembled : assemble config n φs = .ok t) {ψ : StateVector K}
    (final : t.finalState = some ψ) :
    ∃ k step, t.steps.getLast? = some step ∧ report config n k ψ = .ok step := by
  obtain ⟨-, ⟨-, ends⟩, -⟩ := assemble_eq_ok_iff.1 assembled
  have length := length_steps assembled
  have last : φs[φs.length - 1]? = some ψ := by
    rw [← List.getLast?_eq_getElem?, ← ends, final]
  obtain ⟨lt, -⟩ := List.getElem?_eq_some_iff.1 last
  obtain ⟨step, here⟩ : ∃ step, t.steps[φs.length - 1]? = some step :=
    ⟨_, List.getElem?_eq_getElem (lt.trans_eq length.symm)⟩
  obtain ⟨φ, listed, reported⟩ := (getElem?_steps assembled).1 here
  cases last.symm.trans listed
  exact ⟨_, step, by rw [List.getLast?_eq_getElem?, length, here], reported⟩

/-- What remains when all qubits but one are traced out of the final state says of this qubit what
the last step says of it. -/
theorem SubsystemObservables.repeats_of_afterTrace {s : Simulator K} {c : Circuit K}
    {t : Timeline K} (ran : s.run c = .ok t) {ψ : StateVector K} (final : t.finalState = some ψ)
    {gone : List Nat} {r : SubsystemObservables K}
    (observed : afterTrace (.ofState ψ) gone = .ok r) {q : Nat}
    (only : LeavesOnly ψ.qubits gone q) : r.Repeats t.steps q := by
  obtain ⟨φs, -, assembled⟩ := Simulator.run_eq_ok ran
  obtain ⟨k, step, last, reported⟩ := Timeline.exists_report_of_final assembled final
  obtain ⟨σ, traced, remaining, purity, entropy, isPure, bloch⟩ := afterTrace_eq_ok observed
  have reduced := DensityOperator.reduceToQubit_of_partialTrace only traced
  have sized := (Timeline.report_eq_ok reported).1
  obtain ⟨-, entries⟩ := Timeline.readOff_of_report reported
  obtain ⟨σ', o, reduced', figures, here, label⟩ := entries q (sized ▸ ((only q).2 rfl).1)
  cases reduced.symm.trans reduced'
  obtain ⟨-, located, purity', isPure', entropy'⟩ := QubitObservables.ofReduced_eq_ok figures
  obtain ⟨one, point⟩ := Observable.blochVector_eq_re located
  obtain ⟨v, located', shown⟩ := bloch one
  obtain ⟨-, point'⟩ := Observable.blochVector_eq_re located'
  have single : DensityOperator.kept ψ.qubits gone = [q] :=
    DensityOperator.kept_eq_singleton only
  refine ⟨remaining.trans single, step, o, last, here, label, purity.trans purity'.symm,
    entropy.trans entropy'.symm, isPure.trans isPure'.symm, ?_⟩
  rw [shown, point', ← point]

namespace Service

/-- **What remains agrees with the last step.** A program is answered with the steps of its run.
Without a list of qubits to trace out nothing is said of what remains. With a list, in whatever
order, the remaining qubits are in ascending order and share out the register with those listed;
their purity and entropy are those of the operator of as many qubits that tracing the list out of
the final state leaves. If a single qubit remains, all that is said of it is said of it in the last
step as well. -/
theorem reduced_of_handle {s : Simulator K} {source : String} {qubits : Option Nat}
    {traced : List Nat} {response : Response K}
    (answered : handle s (.program source qubits traced) = .ok response) :
    ∃ steps n reduced, response = .timeline steps n reduced ∧ (traced = [] → reduced = none) ∧
      (traced ≠ [] → ∃ c t ψ σ r, reduced = some r ∧
        s.readProgram qubits source.toList = .ok c ∧ s.run c = .ok t ∧ t.steps = steps ∧
        t.finalState = some ψ ∧ ψ.qubits = n ∧
        (DensityOperator.ofState ψ).partialTrace traced = .ok σ ∧
        r.purity = Observable.purity σ ∧ r.entropy = Observable.entropy σ ∧
        r.remaining.Pairwise (· < ·) ∧ (r.remaining ++ traced).Perm (List.range n) ∧
        r.remaining.length = σ.qubits ∧ ∀ q, LeavesOnly n traced q → r.Repeats steps q) := by
  obtain ⟨c, t, reduced, read, ran, rfl, without, listed⟩ := runProgram_eq_ok answered
  refine ⟨t.steps, t.qubits, reduced, rfl, without, fun some => ?_⟩
  obtain ⟨ψ, r, final, observed, rfl⟩ := listed some
  obtain ⟨σ, removed, remaining, purity, entropy, -⟩ :=
    SubsystemObservables.afterTrace_eq_ok observed
  obtain ⟨φs, -, assembled⟩ := Simulator.run_eq_ok ran
  obtain ⟨k, step, -, reported⟩ := Timeline.exists_report_of_final assembled final
  have size : ψ.qubits = t.qubits :=
    (Timeline.report_eq_ok reported).1.trans (Timeline.shape_of_assemble assembled).1.symm
  have traceable := DensityOperator.traceable_of_partialTrace removed
  rw [← size]
  refine ⟨c, t, ψ, σ, r, rfl, read, ran, rfl, final, rfl, removed, purity, entropy, ?_, ?_, ?_,
    fun q only => SubsystemObservables.repeats_of_afterTrace ran final observed only⟩
  · rw [remaining]
    exact List.pairwise_lt_range.filter _
  · rw [remaining]
    exact DensityOperator.shares_kept_of_traceable traceable
  · rw [remaining, DensityOperator.qubits_of_partialTrace removed]

/-- Two qubits of which the second, flipped one is traced out, in double precision. -/
theorem reduced_of_handle_first :
    let s : Simulator Float := .default
    ∃ steps r, handle s (.program "qreg q[2]; x q[1];" none [1]) =
        .ok (.timeline steps 2 (some r)) ∧ r.remaining.length = 1 ∧ r.Repeats steps 0 := by
  intro s
  have passed : ((handle s (.program "qreg q[2]; x q[1];" none [1])).toOption.any
      fun | .timeline _ n _ => n == 2 | .state .. => false) = true := by decide +kernel
  cases answered : handle s (.program "qreg q[2]; x q[1];" none [1]) with
  | error fault =>
    rw [answered] at passed
    cases passed
  | ok response =>
    obtain ⟨steps, n, reduced, rfl, -, listed⟩ := reduced_of_handle answered
    rw [answered] at passed
    have two : n = 2 := eq_of_beq passed
    subst two
    obtain ⟨c, t, ψ, σ, r, rfl, -, -, -, -, -, -, -, -, -, -, -, last⟩ := listed nofun
    have only : LeavesOnly 2 [1] 0 := fun p => by
      rw [List.mem_singleton]
      omega
    obtain ⟨single, entry⟩ := last 0 only
    exact ⟨steps, r, rfl, congrArg List.length single, single, entry⟩

/-- A program on one qubit leaves one qubit without a list, and nothing is said of what remains. -/
theorem not_forall_leavesOnly_repeats :
    ¬ ∀ (s : Simulator Float) (source : String) (qubits : Option Nat) (traced : List Nat)
      (steps : List (Step Float)) (n : Nat) (reduced : Option (SubsystemObservables Float)),
      handle s (.program source qubits traced) = .ok (.timeline steps n reduced) →
        ∀ q, LeavesOnly n traced q → ∃ r, reduced = some r ∧ r.Repeats steps q := by
  intro claimed
  have passed : ((handle (.default : Simulator Float)
      (.program "qreg q[1]; x q[0];" none [])).toOption.any
        fun | .timeline _ n reduced => n == 1 && reduced.isNone | .state .. => false) = true := by
    decide +kernel
  cases answered : handle (.default : Simulator Float) (.program "qreg q[1]; x q[0];" none []) with
  | error fault =>
    rw [answered] at passed
    cases passed
  | ok response =>
    rw [answered] at passed
    cases response with
    | state ψ bloch source gates => cases passed
    | timeline steps n reduced =>
      obtain ⟨one, without⟩ := (Bool.and_eq_true_iff ..).1 passed
      have only : LeavesOnly n [] 0 := fun p => by
        rw [eq_of_beq one]
        simp
      obtain ⟨r, some, -⟩ := claimed _ _ _ _ _ _ _ answered 0 only
      rw [some] at without
      cases without

end Service

end QubitTrace
