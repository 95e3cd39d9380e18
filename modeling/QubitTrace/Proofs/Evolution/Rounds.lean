import Mathlib
import QubitTrace.Evolution
import QubitTrace.Proofs.Basis.Bits
import QubitTrace.Proofs.Circuit.Reachable

/-! # The rounds of a gate

A gate is applied in rounds. Each one reads the amplitudes at the indices of a group and
then writes a row of the gate's matrix to each of them. Both loops check every access and carry
out one list of writes (`loop?_eq_store?`), so they have a result exactly if no round visits an
index outside the vector (`exists_loop?_iff`). On a register the rounds visit every index once
and no other (`visited_perm`), and an entry of the result is the row that its own local index
names (`loop?_eq`, `apply_eq`).
-/

namespace QubitTrace
set_option autoImplicit false

variable {K : Type} [Scalar K]

namespace Evolution
open QubitTrace.Basis

/-- The amplitude at an index; it is zero outside the vector. -/
def amplitude {d : Nat} (ψ : Vector (Complex K) d) (i : Nat) : Complex K := ψ[i]?.getD 0

/-- The indices of a round of a gate on the listed qubits, in the order of the local basis. -/
def visited : (qubits : List Nat) → (i : Nat) → List Nat
  | [target], i => [insertZeroBit i target, insertZeroBit i target ||| 1 <<< target]
  | [first, second], i => (group first second i).toList
  | _, _ => []

/-- The writes of a round in order: each of its indices with its new amplitude. -/
def roundWrites (m : GateMatrix K) (indices : List Nat) (ψ : Nat → Complex K) :
    List (Nat × Complex K) :=
  indices.mapIdx fun r index => (index, m.row r fun l => ψ (indices[l]?.getD 0))

/-- The writes of a number of rounds in order. -/
def writes (m : GateMatrix K) (qubits : List Nat) (ψ : Nat → Complex K) (rounds : Nat) :
    List (Nat × Complex K) :=
  (List.range rounds).flatMap fun i => roundWrites m (visited qubits i) ψ

/-- Carries out writes in order, if there is a place for each of them. -/
def store? {α : Type} {d : Nat} (out : Vector α d) (ws : List (Nat × α)) : Option (Vector α d) :=
  ws.foldlM (fun out w => put? out w.1 w.2) out

/-- The loop of a gate for its matrix on the listed qubits. There is none for a list of another
length. -/
def loop? {d : Nat} (m : GateMatrix K) (qubits : List Nat) (ψ : Vector (Complex K) d) :
    Option (Vector (Complex K) d) :=
  match m, qubits with
  | .single m, [target] => applySingle? m target ψ
  | .pair m, [first, second] => applyPair? m first second ψ
  | _, _ => none

section Store

variable {α : Type} {d : Nat} {ws : List (Nat × α)}

theorem put?_of_lt (out : Vector α d) {i : Nat} (inside : i < d) (x : α) :
    put? out i x = some (out.set i x inside) :=
  dif_pos inside

/-- With a write outside the vector there is no result. -/
theorem store?_eq_none (out : Vector α d) {i : Nat} (mem : i ∈ ws.map Prod.fst)
    (outside : d ≤ i) : store? out ws = none := by
  induction ws generalizing out with
  | nil => cases mem
  | cons w ws ih =>
    rw [store?, List.foldlM_cons]
    by_cases inside : w.1 < d
    · rw [put?_of_lt out inside]
      rcases List.mem_cons.1 mem with rfl | later
      · omega
      · exact ih _ later
    · rw [put?, dif_neg inside]
      rfl

/-- Writes inside the vector are all carried out. Where they agree on the value at an index, one
of them to it, they leave that value there. -/
theorem exists_store? (out : Vector α d) (inside : ∀ i ∈ ws.map Prod.fst, i < d) :
    ∃ after, store? out ws = some after ∧ ∀ j (hj : j < d) (x : α),
      (∀ w ∈ ws, w.1 = j → w.2 = x) → (out[j] = x ∨ ∃ w ∈ ws, w.1 = j) → after[j] = x := by
  induction ws generalizing out with
  | nil =>
    refine ⟨out, rfl, fun j hj x _ hit => ?_⟩
    obtain done | ⟨w, mem, _⟩ := hit
    · exact done
    · cases mem
  | cons w ws ih =>
    rw [List.map_cons, List.forall_mem_cons] at inside
    obtain ⟨first, rest⟩ := inside
    obtain ⟨after, stored, left⟩ := ih (out.set w.1 w.2 first) rest
    refine ⟨after, ?_, fun j hj x agree hit => ?_⟩
    · rw [store?, List.foldlM_cons, put?_of_lt out first]
      exact stored
    · refine left j hj x (fun v mem => agree v (List.mem_cons_of_mem w mem)) ?_
      rw [Vector.getElem_set]
      by_cases here : w.1 = j
      · rw [if_pos here]
        exact Or.inl (agree w List.mem_cons_self here)
      · rw [if_neg here]
        obtain done | ⟨v, mem, there⟩ := hit
        · exact Or.inl done
        · rcases List.mem_cons.1 mem with rfl | later
          · exact absurd there here
          · exact Or.inr ⟨v, later, there⟩

theorem store?_flatMap {β : Type} (out : Vector α d) (items : List β) (f : β → List (Nat × α)) :
    store? out (items.flatMap f) = items.foldlM (fun out item => store? out (f item)) out := by
  induction items generalizing out with
  | nil => rfl
  | cons item items ih =>
    rw [List.flatMap_cons, store?, List.foldlM_append, List.foldlM_cons]
    exact congrArg _ (funext fun after => ih after)

end Store

variable {d : Nat}

theorem getElem?_eq_amplitude (ψ : Vector (Complex K) d) {i : Nat} (inside : i < d) :
    ψ[i]? = some (amplitude ψ i) := by
  simp [amplitude, inside]

theorem map_fst_roundWrites (m : GateMatrix K) (indices : List Nat) (ψ : Nat → Complex K) :
    (roundWrites m indices ψ).map Prod.fst = indices :=
  List.ext_getElem (by simp [roundWrites]) (by simp [roundWrites])

/-- The writes go to the indices that the rounds visit. -/
theorem map_fst_writes (m : GateMatrix K) (qubits : List Nat) (ψ : Nat → Complex K)
    (rounds : Nat) :
    (writes m qubits ψ rounds).map Prod.fst = (List.range rounds).flatMap (visited qubits) := by
  simp only [writes, List.map_flatMap, map_fst_roundWrites]

/-- The loop on one bit carries out its writes, and has no result if one of them is outside. -/
theorem applySingle?_eq_store? (m : SquareMatrix K 2) (target : Nat) (ψ : Vector (Complex K) d) :
    applySingle? m target ψ =
      store? (.replicate d 0) (writes (.single m) [target] (amplitude ψ) (d / 2)) := by
  rw [writes, store?_flatMap, applySingle?]
  congr 1
  funext out i
  dsimp only [visited]
  generalize insertZeroBit i target = i₀
  generalize i₀ ||| 1 <<< target = i₁
  have places := map_fst_roundWrites (.single m) [i₀, i₁] (amplitude ψ)
  rcases Nat.lt_or_ge i₀ d with inside₀ | outside
  · rcases Nat.lt_or_ge i₁ d with inside₁ | outside
    · rw [getElem?_eq_amplitude ψ inside₀, getElem?_eq_amplitude ψ inside₁]
      simp [roundWrites, store?, GateMatrix.row]
    · rw [store?_eq_none out (by simp [places]) outside, Vector.getElem?_eq_none outside]
      simp
  · rw [store?_eq_none out (by simp [places]) outside, Vector.getElem?_eq_none outside]
    rfl

/-- The loop on two bits carries out its writes, and has no result if one of them is outside. -/
theorem applyPair?_eq_store? (m : SquareMatrix K 4) (first second : Nat)
    (ψ : Vector (Complex K) d) :
    applyPair? m first second ψ =
      store? (.replicate d 0) (writes (.pair m) [first, second] (amplitude ψ) (d / 4)) := by
  rw [writes, store?_flatMap, applyPair?]
  congr 1
  funext out i
  dsimp only [visited]
  have places := map_fst_roundWrites (.pair m) (group first second i).toList (amplitude ψ)
  by_cases inside : ∀ slot, (group first second i).get slot < d
  · rw [getElem?_eq_amplitude ψ (inside 0), getElem?_eq_amplitude ψ (inside 1),
      getElem?_eq_amplitude ψ (inside 2), getElem?_eq_amplitude ψ (inside 3)]
    rfl
  · simp only [not_forall, Nat.not_lt] at inside
    obtain ⟨slot, outside⟩ := inside
    have mem : (group first second i).get slot ∈ (group first second i).toList :=
      List.getElem_mem (by simp)
    have unread : ψ[(group first second i).get slot]? = none :=
      Vector.getElem?_eq_none outside
    rw [store?_eq_none out (places.symm ▸ mem) outside]
    match slot with
    | 0 | 1 | 2 | 3 => simp [unread]

/-- The loop of a gate on as many qubits as its matrix has carries out its writes. -/
theorem loop?_eq_store? {m : GateMatrix K} {qubits : List Nat} (arity : m.arity = qubits.length)
    (ψ : Vector (Complex K) d) :
    loop? m qubits ψ =
      store? (.replicate d 0) (writes m qubits (amplitude ψ) (d / dimension qubits.length)) := by
  cases m with
  | single m =>
    obtain ⟨target, rfl⟩ := List.length_eq_one_iff.1 arity.symm
    exact applySingle?_eq_store? m target ψ
  | pair m =>
    obtain ⟨first, second, rfl⟩ := List.length_eq_two.1 arity.symm
    exact applyPair?_eq_store? m first second ψ

theorem arity_of_loop? {m : GateMatrix K} {qubits : List Nat} {ψ after : Vector (Complex K) d}
    (changed : loop? m qubits ψ = some after) : m.arity = qubits.length := by
  unfold loop? at changed
  split at changed
  · rfl
  · rfl
  · cases changed

/-- A loop has a result exactly if none of its rounds visits an index outside the vector. -/
theorem exists_loop?_iff {m : GateMatrix K} {qubits : List Nat} {ψ : Vector (Complex K) d} :
    (∃ after, loop? m qubits ψ = some after) ↔
      m.arity = qubits.length ∧
        ∀ i < d / dimension qubits.length, ∀ j ∈ visited qubits i, j < d := by
  constructor
  · rintro ⟨after, changed⟩
    have arity := arity_of_loop? changed
    refine ⟨arity, fun i hi j mem => ?_⟩
    have place : j ∈ (writes m qubits (amplitude ψ) (d / dimension qubits.length)).map Prod.fst := by
      rw [map_fst_writes]
      exact List.mem_flatMap.2 ⟨i, List.mem_range.2 hi, mem⟩
    by_contra outside
    rw [loop?_eq_store? arity, store?_eq_none _ place (Nat.le_of_not_lt outside)] at changed
    cases changed
  · rintro ⟨arity, inside⟩
    rw [loop?_eq_store? arity]
    refine (exists_store? (.replicate d 0) fun j place => ?_).imp fun after stored => stored.1
    rw [map_fst_writes] at place
    obtain ⟨i, round, mem⟩ := List.mem_flatMap.1 place
    exact inside i (List.mem_range.1 round) j mem

/-! ## What the rounds visit -/

/-- The first index of a round: the bits of the gate's qubits are zero in it. -/
def base : (qubits : List Nat) → (i : Nat) → Nat
  | [target], i => insertZeroBit i target
  | [first, second], i => insertZeroBit (insertZeroBit i (min first second)) (max first second)
  | _, i => i

/-- One qubit, or two different ones. -/
inductive Targets : List Nat → Prop where
  | single (target : Nat) : Targets [target]
  | pair {first second : Nat} (ne : first ≠ second) : Targets [first, second]

theorem Targets.distinct {qubits : List Nat} (targets : Targets qubits) : qubits.Nodup := by
  cases targets with
  | single target => exact List.nodup_singleton target
  | pair ne => simpa using ne

theorem targets_of_fits {g : Gate K} {n : Nat} {qubits : List Nat} (fits : g.Fits n qubits) :
    Targets qubits := by
  have length := fits.length
  rw [← g.arity_matrix] at length
  have distinct := fits.distinct
  cases matrix : g.matrix with
  | single m =>
    rw [matrix] at length
    obtain ⟨target, rfl⟩ := List.length_eq_one_iff.1 length
    exact .single target
  | pair m =>
    rw [matrix] at length
    obtain ⟨first, second, rfl⟩ := List.length_eq_two.1 length
    exact .pair (by simpa using distinct)

theorem testBit_base {qubits : List Nat} (targets : Targets qubits) {q : Nat} (mem : q ∈ qubits)
    (i : Nat) : (base qubits i).testBit q = false := by
  cases targets with
  | single target => simp [base, testBit_insertZeroBit, List.mem_singleton.1 mem]
  | @pair first second ne =>
    simp only [base, testBit_insertZeroBit]
    rcases Nat.lt_or_gt_of_ne ne with lt | gt
    · rw [Nat.min_eq_left lt.le, Nat.max_eq_right lt.le]
      rcases List.mem_pair.1 mem with rfl | rfl <;> simp [lt]
    · rw [Nat.min_eq_right gt.le, Nat.max_eq_left gt.le]
      rcases List.mem_pair.1 mem with rfl | rfl <;> simp [gt]

/-- A round visits the base index under every setting of the gate's bits. -/
theorem visited_eq {qubits : List Nat} (targets : Targets qubits) (i : Nat) :
    visited qubits i =
      (List.range (dimension qubits.length)).map fun l => assign qubits l (base qubits i) := by
  cases targets with
  | single target =>
    generalize start : base [target] i = x
    have clear : x.testBit target = false := start ▸ testBit_base (.single target) (by simp) i
    have shape : visited [target] i = [x, setBit x target 1] := by
      rw [← or_one_shiftLeft, ← start]
      rfl
    have local₀ : assign [target] 0 x = x := setBit_zero clear
    have local₁ : assign [target] 1 x = setBit x target 1 := rfl
    rw [shape]
    exact congrArg₂ (fun a b => [a, b]) local₀.symm local₁.symm
  | @pair first second ne =>
    generalize start : base [first, second] i = x
    have clear₁ : x.testBit first = false := start ▸ testBit_base (.pair ne) (by simp) i
    have clear₂ : x.testBit second = false := start ▸ testBit_base (.pair ne) (by simp) i
    have shape : visited [first, second] i =
        [x, setBit x second 1, setBit x first 1, setBit (setBit x first 1) second 1] := by
      rw [← or_one_shiftLeft, ← or_one_shiftLeft, ← or_one_shiftLeft, ← start]
      rfl
    have local₀ : assign [first, second] 0 x = x := by
      change setBit (setBit x second 0) first 0 = x
      rw [setBit_zero clear₂, setBit_zero clear₁]
    have local₁ : assign [first, second] 1 x = setBit x second 1 := by
      refine setBit_zero ?_
      change (setBit x second 1).testBit first = false
      rw [testBit_setBit (by decide), if_neg ne, clear₁]
    have local₂ : assign [first, second] 2 x = setBit x first 1 := by
      change setBit (setBit x second 0) first 1 = setBit x first 1
      rw [setBit_zero clear₂]
    have local₃ : assign [first, second] 3 x = setBit (setBit x first 1) second 1 :=
      setBit_comm ne.symm (bit_lt 3 0) (bit_lt 3 1) x
    rw [shape, show List.range (dimension [first, second].length) = [0, 1, 2, 3] from rfl]
    simp only [List.map_cons, List.map_nil, local₀, local₁, local₂, local₃]

/-- Every index is in a round: the one that starts where the gate's bits are cleared in it. -/
theorem exists_base_eq {qubits : List Nat} (targets : Targets qubits) {n j : Nat}
    (range : ∀ q ∈ qubits, q < n) (hj : j < dimension n) :
    ∃ i, i < dimension (n - qubits.length) ∧ base qubits i = assign qubits 0 j := by
  cases targets with
  | single target =>
    have lt := range target (by simp)
    obtain ⟨n, rfl⟩ := Nat.exists_eq_add_one_of_ne_zero (show n ≠ 0 by omega)
    have bound : dropBit j target < dimension n := dropBit_lt hj (by omega)
    exact ⟨dropBit j target, bound, insertZeroBit_dropBit j target⟩
  | @pair first second ne =>
    have lt₁ := range first (by simp)
    have lt₂ := range second (by simp)
    obtain ⟨n, rfl⟩ : ∃ m, n = m + 2 := ⟨n - 2, by omega⟩
    generalize low : min first second = a
    generalize high : max first second = b
    have outer : dropBit j b < dimension (n + 1) := dropBit_lt hj (by omega)
    have inner : dropBit (dropBit j b) a < dimension n := dropBit_lt outer (by omega)
    refine ⟨dropBit (dropBit j b) a, inner, ?_⟩
    change insertZeroBit (insertZeroBit _ (min first second)) (max first second) =
      setBit (setBit j second 0) first 0
    rw [low, high, insertZeroBit_dropBit, insertZeroBit_setBit (by omega) (by decide),
      insertZeroBit_dropBit]
    rcases Nat.lt_or_gt_of_ne ne with lt | gt
    · rw [show a = first by omega, show b = second by omega]
    · rw [show a = second by omega, show b = first by omega, setBit_comm ne (by decide) (by decide)]

/-- The rounds of a gate visit every index of the register once and no other. -/
theorem visited_perm {qubits : List Nat} (targets : Targets qubits) {n : Nat}
    (range : ∀ q ∈ qubits, q < n) :
    ((List.range (dimension (n - qubits.length))).flatMap (visited qubits)).Perm
      (List.range (dimension n)) := by
  have covered : List.range (dimension n) ⊆
      (List.range (dimension (n - qubits.length))).flatMap (visited qubits) := by
    intro j mem
    obtain ⟨i, hi, start⟩ := exists_base_eq targets range (List.mem_range.1 mem)
    refine List.mem_flatMap.2 ⟨i, List.mem_range.2 hi, ?_⟩
    rw [visited_eq targets, start]
    refine List.mem_map.2 ⟨localIndex qubits j, List.mem_range.2 (localIndex_lt _ _), ?_⟩
    rw [assign_assign targets.distinct, assign_localIndex targets.distinct]
  have sized : ((List.range (dimension (n - qubits.length))).flatMap (visited qubits)).length =
      dimension n := by
    have le := length_le_of_distinct targets.distinct range
    simp [List.length_flatMap, visited_eq targets, dimension_mul_sub le]
  -- there are as many visits as indices and every index has one, so no two rounds need comparing
  refine ((List.nodup_range.subperm covered).perm_of_length_le ?_).symm
  rw [sized, List.length_range]

/-! ## What the rounds write -/

/-- The writes of a gate go to every index of the register once and to no other. -/
theorem map_fst_writes_perm {qubits : List Nat} (targets : Targets qubits) {n : Nat}
    (range : ∀ q ∈ qubits, q < n) (m : GateMatrix K) (ψ : Nat → Complex K) :
    ((writes m qubits ψ (dimension (n - qubits.length))).map Prod.fst).Perm
      (List.range (dimension n)) := by
  rw [map_fst_writes]
  exact visited_perm targets range

theorem mem_writes_iff {m : GateMatrix K} {qubits : List Nat} {ψ : Nat → Complex K} {rounds : Nat}
    (targets : Targets qubits) (arity : m.arity = qubits.length) {w : Nat × Complex K} :
    w ∈ writes m qubits ψ rounds ↔
      ∃ i < rounds, ∃ r < dimension qubits.length,
        w = (assign qubits r (base qubits i),
          m.row r fun l => ψ (assign qubits l (base qubits i))) := by
  have read : ∀ i r, (m.row r fun l => ψ ((visited qubits i)[l]?.getD 0)) =
      m.row r fun l => ψ (assign qubits l (base qubits i)) := by
    intro i r
    refine m.row_congr r fun l hl => ?_
    rw [arity] at hl
    simp [visited_eq targets, List.getElem?_range hl]
  simp only [writes, roundWrites, List.mem_flatMap, List.mem_range, read, List.mem_mapIdx]
  refine exists_congr fun i => and_congr_right fun _ => ?_
  simp only [visited_eq targets, List.length_map, List.length_range, List.getElem_map,
    List.getElem_range, exists_prop, eq_comm]

/-- The loop of a gate stays inside the register, and leaves in every place the row that its own
local index names. -/
theorem loop?_eq {m : GateMatrix K} {qubits : List Nat} {n : Nat} (targets : Targets qubits)
    (arity : m.arity = qubits.length) (range : ∀ q ∈ qubits, q < n)
    (ψ : Vector (Complex K) (dimension n)) :
    loop? m qubits ψ = some
      (.ofFn fun j => m.row (localIndex qubits j) fun l => amplitude ψ (assign qubits l j)) := by
  have distinct := targets.distinct
  have le := length_le_of_distinct distinct range
  have places := map_fst_writes_perm targets range m (amplitude ψ)
  obtain ⟨after, stored, left⟩ := exists_store? (.replicate (dimension n) 0) fun j mem =>
    List.mem_range.1 (places.subset mem)
  rw [loop?_eq_store? arity, dimension_div le, stored]
  refine congrArg some (Vector.ext fun j hj => ?_)
  rw [Vector.getElem_ofFn]
  refine left j hj _ (fun w mem here => ?_) (Or.inr ?_)
  · obtain ⟨i, _, r, hr, rfl⟩ := (mem_writes_iff targets arity).1 mem
    subst here
    simp only [localIndex_assign distinct _ hr, assign_assign distinct]
  · obtain ⟨i, hi, start⟩ := exists_base_eq targets range hj
    have hr : localIndex qubits j < dimension qubits.length := localIndex_lt _ _
    refine ⟨_, (mem_writes_iff targets arity).2 ⟨i, hi, localIndex qubits j, hr, rfl⟩, ?_⟩
    change assign qubits (localIndex qubits j) (base qubits i) = j
    rw [start, assign_assign distinct, assign_localIndex distinct]

theorem applySingle_of_some {m : SquareMatrix K 2} {target : Nat} {ψ after : Vector (Complex K) d}
    (changed : applySingle? m target ψ = some after) : applySingle m target ψ = after := by
  rw [applySingle, changed, Option.getD_some]

theorem applyPair_of_some {m : SquareMatrix K 4} {first second : Nat}
    {ψ after : Vector (Complex K) d} (changed : applyPair? m first second ψ = some after) :
    applyPair m first second ψ = after := by
  rw [applyPair, changed, Option.getD_some]

/-- Applying a gate to qubits that fit is its loop. -/
theorem apply_eq_loop? {ψ : StateVector K} {g : Gate K} {qubits : List Nat}
    (fits : g.Fits ψ.qubits qubits) {after : Vector (Complex K) ψ.dim}
    (changed : loop? g.matrix qubits ψ.amplitudes = some after) :
    apply ψ g qubits = .ok { ψ with amplitudes := after } := by
  have length := fits.length
  unfold apply
  rw [find?_le_eq_none_iff.2 fits.range]
  cases matrix : g.matrix with
  | single m =>
    rw [matrix] at changed
    rw [Gate.arity_of_single matrix] at length
    obtain ⟨target, rfl⟩ := List.length_eq_one_iff.1 length
    exact congrArg _ (congrArg _ (applySingle_of_some changed))
  | pair m =>
    rw [matrix] at changed
    rw [Gate.arity_of_pair matrix] at length
    obtain ⟨first, second, rfl⟩ := List.length_eq_two.1 length
    have ne : first ≠ second := by simpa using fits.distinct
    refine (if_neg ne).trans ?_
    exact congrArg _ (congrArg _ (applyPair_of_some changed))

/-- The state after a gate: in every place the row of the gate's matrix for its local index. -/
theorem apply_eq {ψ : StateVector K} {g : Gate K} {qubits : List Nat}
    (fits : g.Fits ψ.qubits qubits) :
    apply ψ g qubits = .ok { ψ with
      amplitudes := .ofFn fun i => g.matrix.row (localIndex qubits i) fun l =>
        amplitude ψ.amplitudes (assign qubits l i) } := by
  have arity : g.matrix.arity = qubits.length := by rw [g.arity_matrix, fits.length]
  exact apply_eq_loop? fits (loop?_eq (targets_of_fits fits) arity fits.range ψ.amplitudes)

/-- A gate is applied to the lists of qubits that fit and to no other. -/
theorem exists_apply_iff {ψ : StateVector K} {g : Gate K} {qubits : List Nat} :
    (∃ φ, apply ψ g qubits = .ok φ) ↔ g.Fits ψ.qubits qubits := by
  constructor
  · rintro ⟨φ, applied⟩
    unfold apply at applied
    split at applied
    · cases applied
    · next inside =>
      have range := find?_le_eq_none_iff.1 inside
      split at applied
      · next m target matrix =>
        exact ⟨(Gate.arity_of_single matrix).symm, List.nodup_singleton target, range⟩
      · next m first second matrix =>
        split_ifs at applied with same
        exact ⟨(Gate.arity_of_pair matrix).symm, by simpa using same, range⟩
      · cases applied
  · intro fits
    exact ⟨_, apply_eq fits⟩

end Evolution

end QubitTrace
