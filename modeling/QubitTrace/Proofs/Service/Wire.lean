import Mathlib
import QubitTrace.Decimal.Places
import QubitTrace.Proofs.Json.Documents
import QubitTrace.Proofs.Scalar.Finite
import QubitTrace.Proofs.Service.Shape
import QubitTrace.Timeline.Json

/-! # The formats on the wire

A request is read back from what it is written as, as the kind of request that it is, although
nothing in the text names the kind (`Request.decode_render`). The steps of a timeline are read back
from the array they are written as (`Timeline.exists_parse_render`), as far as the texts of its
scalars restore them (`Json.Restores`). A document is followed through both directions at once
(`Json.ReadsBack`), from its numbers up to the records that hold them.
-/

namespace QubitTrace
set_option autoImplicit false

open Literal (sizeLimit)

variable {K : Type} {real : K → String}

/-! ## Numbers -/

namespace Json

/-- A number in writing. The texts of scalars are supplied by the caller. -/
def Number.text (real : K → String) : Number K → String
  | .size n => Decimal.natText n
  | .real x => real x

/-- The literal that a number is written as. -/
def Number.literal (real : K → String) : Number K → Literal
  | .size n => ⟨false, n, 0, true⟩
  | .real x => (Literal.ofText? (real x).toList).getD ⟨false, 0, 0, false⟩

/-- The text of a scalar is a number, and the scalar is what it is worth. -/
def Restores [Scalar K] (real : K → String) (x : K) : Prop :=
  ∃ n, Literal.ofText? (real x).toList = some n ∧ n.real? = some x

/-- The text of a document is one, and `read?` finds `a` in it. -/
structure ReadsBack {α : Type} (real : K → String) (read? : Json Literal → Option α)
    (j : Json (Number K)) (a : α) : Prop where
  spelled : j.wellFormed (spells (Number.text real) (Number.literal real)) = true
  back : read? (j.map (Number.literal real)) = some a

theorem spells_size (n : Nat) :
    spells (Number.text real) (Number.literal real) (.size n) = true := by
  refine decide_eq_true ?_
  rw [Number.text, Decimal.natText, String.toList_ofList, Literal.ofText?_digits, Number.literal]

theorem readsBack_size {n : Nat} (small : n < sizeLimit) :
    ReadsBack real Json.size? (size n) n where
  spelled := spells_size n
  back := if_pos (by simp [Number.literal, small])

theorem readsBack_real [Scalar K] {x : K} (restores : Restores real x) :
    ReadsBack real (real? : Json Literal → Option K) (Json.real x) x := by
  obtain ⟨n, own, worth⟩ := restores
  have finite : Scalar.isFinite x = true := (Option.filter_eq_some_iff.1 worth).2
  have literal : Number.literal real (.real x) = n := by
    rw [Number.literal, own, Option.getD_some]
  rw [Json.real, if_pos finite]
  refine ⟨decide_eq_true ?_, ?_⟩
  · rw [literal]
    exact own
  · change (Number.literal real (.real x)).real? = some x
    rw [literal]
    exact worth

theorem wellFormedItems_iff {N : Type} {p : N → Bool} {items : List (Json N)} :
    wellFormedItems p items = true ↔ ∀ item ∈ items, item.wellFormed p = true := by
  induction items with
  | nil => simp [wellFormedItems]
  | cons item items ih => simp [wellFormedItems, ih]

/-- The items of an array are read back when each of them is. -/
theorem readsBack_array {α : Type} {write : α → Json (Number K)} {read? : Json Literal → Option α}
    {as : List α} (each : ∀ a ∈ as, ReadsBack real read? (write a) a) :
    ReadsBack real (fun j => j.array?.bind (List.mapM read?)) (.array (as.map write)) as := by
  constructor
  · refine wellFormedItems_iff.2 fun item mem => ?_
    obtain ⟨a, member, rfl⟩ := List.mem_map.1 mem
    exact (each a member).spelled
  · change (mapItems _ (as.map write)).mapM read? = some as
    rw [mapItems_eq, List.map_map, List.mapM_map, mapM_eq_some (g := id), List.map_id]
    exact fun a mem => (each a mem).back

end Json

open Json (Restores ReadsBack readsBack_size readsBack_real readsBack_array)

/-! ## Timelines -/

section Timelines

variable [Scalar K]

theorem BlochVector.readsBack {v : BlochVector K} (restores : ∀ x ∈ v.toList, Restores real x) :
    ReadsBack real BlochVector.ofJson? v.toJson v := by
  have x := readsBack_real (restores v.x (by simp [toList]))
  have y := readsBack_real (restores v.y (by simp [toList]))
  have z := readsBack_real (restores v.z (by simp [toList]))
  constructor
  · simp [toJson, toList, Json.wellFormed, Json.wellFormedItems, x.spelled, y.spelled, z.spelled]
  · have items : (v.toJson.map (Json.Number.literal real)).array? = some
        [(Json.real v.x).map _, (Json.real v.y).map _, (Json.real v.z).map _] := rfl
    rw [ofJson?, items]
    simp [x.back, y.back, z.back]

/-- The scalars of a qubit's report. -/
def QubitObservables.reals (q : QubitObservables K) : List K :=
  [q.entropy, q.purity] ++ q.bloch.toList

theorem QubitObservables.readsBack {q : QubitObservables K} (sized : q.qubit < sizeLimit)
    (restores : ∀ x ∈ q.reals, Restores real x) :
    ReadsBack real QubitObservables.ofJson? q.toJson q := by
  have qubit : ReadsBack real _ _ q.qubit := readsBack_size sized
  have bloch := BlochVector.readsBack fun x mem => restores x (List.mem_append_right _ mem)
  have entropy := readsBack_real (restores q.entropy (by simp [reals]))
  have purity := readsBack_real (restores q.purity (by simp [reals]))
  constructor
  · simp [toJson, Json.wellFormed, Json.wellFormedMembers, qubit.spelled, bloch.spelled,
      entropy.spelled, purity.spelled]
  · have fields : (q.toJson.map (Json.Number.literal real)).record? keys = some
        [(Json.size q.qubit).map _, q.bloch.toJson.map _, (Json.real q.entropy).map _,
          (Json.real q.purity).map _, .bool q.isPure] := rfl
    rw [ofJson?, fields]
    simp [qubit.back, bloch.back, entropy.back, purity.back, Json.bool?]

/-- The scalars among the figures of a register. -/
def SystemMetrics.reals (m : SystemMetrics K) : List K :=
  [m.entropy, m.purity, m.fidelity, m.maxQubitEntropy]

theorem SystemMetrics.readsBack {m : SystemMetrics K} (restores : ∀ x ∈ m.reals, Restores real x) :
    ReadsBack real SystemMetrics.ofJson? m.toJson m := by
  have entropy := readsBack_real (restores m.entropy (by simp [reals]))
  have purity := readsBack_real (restores m.purity (by simp [reals]))
  have fidelity := readsBack_real (restores m.fidelity (by simp [reals]))
  have most := readsBack_real (restores m.maxQubitEntropy (by simp [reals]))
  constructor
  · simp [toJson, Json.wellFormed, Json.wellFormedMembers, entropy.spelled, purity.spelled,
      fidelity.spelled, most.spelled]
  · have fields : (m.toJson.map (Json.Number.literal real)).record? keys = some
        [(Json.real m.entropy).map _, (Json.real m.purity).map _, (Json.real m.fidelity).map _,
          .bool m.isEntangled, (Json.real m.maxQubitEntropy).map _] := rfl
    rw [ofJson?, fields]
    simp [entropy.back, purity.back, fidelity.back, most.back, Json.bool?]

/-- The scalars of a step. -/
def Step.reals (s : Step K) : List K := s.qubits.flatMap QubitObservables.reals ++ s.metrics.reals

/-- The number of a step, and those of the qubits it reports on. -/
def Step.sizes (s : Step K) : List Nat := s.number :: s.qubits.map QubitObservables.qubit

theorem Step.readsBack {s : Step K} (sized : ∀ n ∈ s.sizes, n < sizeLimit)
    (restores : ∀ x ∈ s.reals, Restores real x) : ReadsBack real Step.ofJson? s.toJson s := by
  have number : ReadsBack real _ _ s.number := readsBack_size (sized s.number (by simp [sizes]))
  have qubits : ReadsBack real _ _ s.qubits := readsBack_array fun q mem =>
    QubitObservables.readsBack
      (sized q.qubit (List.mem_cons_of_mem _ (List.mem_map_of_mem mem)))
      fun x inside => restores x (List.mem_append_left _ (List.mem_flatMap.2 ⟨q, mem, inside⟩))
  have metrics := SystemMetrics.readsBack fun x mem => restores x (List.mem_append_right _ mem)
  obtain ⟨items, array, read⟩ := Option.bind_eq_some_iff.1 qubits.back
  have list : Json.wellFormedItems _ (s.qubits.map QubitObservables.toJson) = true := qubits.spelled
  constructor
  · simp [toJson, Json.wellFormed, Json.wellFormedMembers, number.spelled, list, metrics.spelled]
  · have fields : (s.toJson.map (Json.Number.literal real)).record? keys = some
        [(Json.size s.number).map _, (Json.array (s.qubits.map QubitObservables.toJson)).map _,
          s.metrics.toJson.map _] := rfl
    rw [ofJson?, fields]
    simp [number.back, array, read, metrics.back]

/-- The scalars of a timeline. -/
def Timeline.reals (t : Timeline K) : List K := t.steps.flatMap Step.reals

/-- The numbers of the steps and qubits of a timeline. -/
def Timeline.sizes (t : Timeline K) : List Nat := t.steps.flatMap Step.sizes

theorem Timeline.readsBack {t : Timeline K} (sized : ∀ n ∈ t.sizes, n < sizeLimit)
    (restores : ∀ x ∈ t.reals, Restores real x) :
    ReadsBack real Timeline.ofJson? t.toJson ⟨0, t.steps, none⟩ := by
  have steps : ReadsBack real _ _ t.steps := readsBack_array fun s mem =>
    Step.readsBack (fun n inside => sized n (List.mem_flatMap.2 ⟨s, mem, inside⟩))
      fun x inside => restores x (List.mem_flatMap.2 ⟨s, mem, inside⟩)
  obtain ⟨items, array, read⟩ := Option.bind_eq_some_iff.1 steps.back
  refine ⟨steps.spelled, ?_⟩
  rw [toJson, ofJson?, array]
  simp [read]

/-- A timeline in writing is read as its steps. -/
theorem Timeline.exists_parse_render {t : Timeline K} (sized : ∀ n ∈ t.sizes, n < sizeLimit)
    (restores : ∀ x ∈ t.reals, Restores real x) :
    ∃ document, Json.parse (Json.render (Json.Number.text real) t.toJson).toList = some document ∧
      Timeline.ofJson? document = some (⟨0, t.steps, none⟩ : Timeline K) := by
  have read := Timeline.readsBack sized restores
  obtain ⟨_, whole⟩ := Json.read_render read.spelled
  refine ⟨_, ?_, read.back⟩
  rw [Json.parse, whole]
  rfl

end Timelines

/-! ## Requests -/

namespace Request

/-- The expected number of qubits of a request, and the qubits to be traced out. -/
def sizes : Request → List Nat
  | program _ qubits traced => qubits.toList ++ traced
  | words _ => []

theorem wellFormed_toJson {p : Json.Number K → Bool} {r : Request}
    (each : ∀ n ∈ r.sizes, p (.size n) = true) : (toJson r).wellFormed p = true := by
  cases r with
  | words source => rfl
  | program source qubits traced =>
    have list : Json.wellFormedItems p (traced.map Json.size) = true := by
      refine Json.wellFormedItems_iff.2 fun item mem => ?_
      obtain ⟨n, member, rfl⟩ := List.mem_map.1 mem
      exact each n (List.mem_append_right _ member)
    cases qubits with
    | none => simp [toJson, Json.wellFormed, Json.wellFormedMembers, list]
    | some n =>
      have size : (Json.size n).wellFormed p = true := each n (by simp [sizes])
      simp [toJson, Json.wellFormed, Json.wellFormedMembers, list, size]

/-- A request in writing is read as the kind of request it is. -/
theorem readsBack {r : Request} (sized : ∀ n ∈ r.sizes, n < sizeLimit) :
    ReadsBack real ofJson? r.toJson r := by
  refine ⟨wellFormed_toJson fun n _ => Json.spells_size n, ?_⟩
  cases r with
  | words source =>
    have form : WordsForm [("circuit", (.string source : Json Json.Literal))] source := Or.inr rfl
    exact wordsOfMembers?_eq_some_iff.2 ⟨source, form, rfl⟩
  | program source qubits traced =>
    have list : ReadsBack real _ _ traced := readsBack_array fun n mem =>
      readsBack_size (sized n (List.mem_append_right _ mem))
    obtain ⟨items, array, read⟩ := Option.bind_eq_some_iff.1 list.back
    have listed := array?_eq_some_iff.1 array
    obtain ⟨members, object⟩ : ∃ members, (toJson (program source qubits traced)).map
        (Json.Number.literal real) = .object members := ⟨_, rfl⟩
    have form : ProgramForm members source qubits traced := by
      cases object
      constructor
      · rfl
      · cases qubits with
        | none => exact Or.inl ⟨Or.inr rfl, rfl⟩
        | some n =>
          have size : ReadsBack real _ _ n := readsBack_size (sized n (by simp [sizes]))
          exact Or.inr ⟨_, n, rfl, size.back, rfl⟩
      · refine Or.inr ⟨items, ?_, read⟩
        rw [← listed]
        rfl
    rw [object, ofJson?, programOfMembers?_eq_some_iff.2 ⟨source, qubits, traced, form, rfl⟩]
    rfl

theorem depth_toJson_le (r : Request) : (toJson r : Json (Json.Number K)).depth ≤ 2 := by
  cases r with
  | words source => simp [toJson, Json.depth, Json.depthMembers]
  | program source qubits traced =>
    have flat : Json.depthItems (traced.map (Json.size (K := K))) = 0 := by
      induction traced with
      | nil => rfl
      | cons n traced ih => simp [Json.depthItems, ih, Json.size, Json.depth]
    cases qubits <;> simp [toJson, Json.depth, Json.depthMembers, flat, Json.size]

theorem acceptable_toJson {r : Request} (sized : ∀ n ∈ r.sizes, n < sizeLimit) :
    acceptable ((toJson r).map (Json.Number.literal real)) = true := by
  rw [acceptable, Json.depth_map, Json.wellFormed_map, Bool.and_eq_true, decide_eq_true_eq]
  refine ⟨(depth_toJson_le r).trans (by decide), wellFormed_toJson fun n mem => ?_⟩
  have small : n < 2 ^ 64 := sized n mem
  have finite : Scalar.isFinite (Double.ofDecimal n 0) = true :=
    Double.isFinite_ofDecimal_size small
  change ((some (Double.ofDecimal n 0)).filter Scalar.isFinite).isSome = true
  rw [Option.filter_some, if_pos finite]
  rfl

/-- A request in writing is decoded as itself. -/
theorem decode_render {r : Request} (sized : ∀ n ∈ r.sizes, n < sizeLimit) :
    decode (Json.render (Json.Number.text real) r.toJson) = .ok r := by
  have read : ReadsBack real _ r.toJson r := readsBack sized
  obtain ⟨_, whole⟩ := Json.read_render read.spelled
  rw [decode, whole]
  dsimp only
  rw [if_pos (acceptable_toJson sized), read.back]
  rfl

end Request

/-! ## Both formats -/

/-- **What is written is read back.** A request of either kind, with sizes that are ones, is decoded
as itself. A timeline of finite scalars, whose texts restore them, is decoded as a timeline with the
same steps, which is written in the same way again. -/
theorem decode_and_parse_render [Scalar K] (real : K → String) :
    (∀ r : Request, (∀ n ∈ r.sizes, n < sizeLimit) →
        Request.decode (Json.render (Json.Number.text real) r.toJson) = .ok r) ∧
      ∀ t : Timeline K, (∀ n ∈ t.sizes, n < sizeLimit) →
        (∀ x ∈ t.reals, Scalar.isFinite x = true) →
        (∀ x ∈ t.reals, Scalar.isFinite x = true → Restores real x) →
          ∃ document t',
            Json.parse (Json.render (Json.Number.text real) t.toJson).toList = some document ∧
              Timeline.ofJson? document = some t' ∧ t'.steps = t.steps ∧
              Json.render (Json.Number.text real) t'.toJson =
                Json.render (Json.Number.text real) t.toJson := by
  refine ⟨fun r sized => Request.decode_render sized, fun t sized finite restores => ?_⟩
  obtain ⟨document, parsed, read⟩ :=
    Timeline.exists_parse_render sized fun x mem => restores x mem (finite x mem)
  exact ⟨document, ⟨0, t.steps, none⟩, parsed, read, rfl, rfl⟩

/-- The steps of a run that entangles two qubits. -/
def entangling : Timeline Float where
  qubits := 2
  steps := [
    { number := 0
      qubits := [⟨0, ⟨0, 0, 1⟩, 0, 1, true⟩, ⟨1, ⟨0, 0, 1⟩, 0, 1, true⟩]
      metrics := ⟨0, 1, 1, false, 0⟩ },
    { number := 1
      qubits := [⟨0, ⟨-1, 0, 0⟩, 0, 1, true⟩, ⟨1, ⟨0, 0, 1⟩, 0, 1, true⟩]
      metrics := ⟨0, 1, 1, false, 0⟩ },
    { number := 2
      qubits := [⟨0, ⟨0, 0, 0⟩, 1, 0.5, false⟩, ⟨1, ⟨0, 0, 0⟩, 1, 0.5, false⟩]
      metrics := ⟨0, 1, 1, true, 1⟩ }]
  finalState := none

/-- One place behind the point is enough for the scalars of this run. -/
theorem decode_and_parse_render_entangling :
    let real := Decimal.fixed .minus 1
    let r : Request := .program "qreg q[2]; // \"two\"\n" (some 2) [1]
    Request.decode (Json.render (Json.Number.text real) r.toJson) = .ok r ∧
      ∃ document t',
        Json.parse (Json.render (Json.Number.text real) entangling.toJson).toList = some document ∧
          Timeline.ofJson? document = some t' ∧ t'.steps = entangling.steps ∧
          Json.render (Json.Number.text real) t'.toJson =
            Json.render (Json.Number.text real) entangling.toJson := by
  intro real r
  obtain ⟨requests, timelines⟩ := decode_and_parse_render real
  have zero : Restores real (0 : Float) := ⟨⟨false, 0, -1, false⟩, by decide +kernel, rfl⟩
  have one : Restores real (1 : Float) := ⟨⟨false, 10, -1, false⟩, by decide +kernel, rfl⟩
  have minus : Restores real (-1 : Float) := ⟨⟨true, 10, -1, false⟩, by decide +kernel, rfl⟩
  have half : Restores real (0.5 : Float) := ⟨⟨false, 5, -1, false⟩, by decide +kernel, rfl⟩
  have restores : ∀ x ∈ entangling.reals, Restores real x := by
    simp [entangling, Timeline.reals, Step.reals, QubitObservables.reals, SystemMetrics.reals,
      BlochVector.toList, zero, one, minus, half]
  refine ⟨requests r (by decide), timelines entangling (by decide) ?_ fun x mem _ => restores x mem⟩
  intro x mem
  obtain ⟨n, -, worth⟩ := restores x mem
  exact (Option.filter_eq_some_iff.1 worth).2

end QubitTrace
