/-! # Chains of fallible steps

A chain of steps goes well when each step does, and goes wrong at the first one that does.
-/

namespace QubitTrace
set_option autoImplicit false

instance decidableEqExcept {ε α : Type} [DecidableEq ε] [DecidableEq α] :
    DecidableEq (Except ε α) := fun x y =>
  match x, y with
  | .ok _, .ok _ => decidable_of_iff _ (Except.ok.injEq ..).symm.to_iff
  | .error _, .error _ => decidable_of_iff _ (Except.error.injEq ..).symm.to_iff
  | .ok _, .error _ => .isFalse fun same => by cases same
  | .error _, .ok _ => .isFalse fun same => by cases same

section Chain

variable {ε ε' α β : Type} {x : Except ε α} {f : α → Except ε β}

@[simp] theorem ok_bind (a : α) (f : α → Except ε β) : (Except.ok a >>= f) = f a := rfl

@[simp] theorem error_bind (e : ε) (f : α → Except ε β) : (Except.error e >>= f) = .error e := rfl

@[simp] theorem mapError_ok (g : ε → ε') (a : α) : (Except.ok a).mapError g = .ok a := rfl

@[simp] theorem mapError_error (g : ε → ε') (e : ε) :
    (Except.error e : Except ε α).mapError g = .error (g e) := rfl

theorem bind_eq_ok_iff {b : β} : (x >>= f) = .ok b ↔ ∃ a, x = .ok a ∧ f a = .ok b := by
  cases x <;> simp

theorem bind_eq_error_iff {e : ε} :
    (x >>= f) = .error e ↔ x = .error e ∨ ∃ a, x = .ok a ∧ f a = .error e := by
  cases x <;> simp

theorem mapError_eq_ok_iff {g : ε → ε'} {a : α} : x.mapError g = .ok a ↔ x = .ok a := by
  cases x <;> simp

theorem mapError_eq_error_iff {g : ε → ε'} {e : ε'} :
    x.mapError g = .error e ↔ ∃ reason, x = .error reason ∧ g reason = e := by
  cases x <;> simp

theorem toOption_bind (x : Except ε α) (f : α → Except ε β) :
    (x >>= f).toOption = x.toOption >>= fun a => (f a).toOption := by
  cases x <;> rfl

theorem toOption_mapError (g : ε → ε') (x : Except ε α) : (x.mapError g).toOption = x.toOption := by
  cases x <;> rfl

/-- Guards that let the same pass have the same outcome, but for which fault it is. -/
theorem toOption_guard_congr {c d : Prop} [Decidable c] [Decidable d] (same : c ↔ d) (a : α)
    (e e' : ε) : (if c then Except.ok a else .error e).toOption =
      (if d then Except.ok a else .error e').toOption := by
  by_cases pass : c
  · rw [if_pos pass, if_pos (same.1 pass)]
  · rw [if_neg pass, if_neg (pass ∘ same.2)]
    rfl

/-- Two outcomes are the same, but for which fault it is, when they are the same without one. -/
theorem toOption_eq_iff {x y : Except ε α} :
    x.toOption = y.toOption ↔ ∀ a, x = .ok a ↔ y = .ok a := by
  cases x with
  | ok a =>
    cases y with
    | ok b => exact ⟨fun same c => by cases same; rfl, fun same => by rw [(same b).2 rfl]⟩
    | error e => exact iff_of_false nofun fun same => nomatch (same a).1 rfl
  | error e =>
    cases y with
    | ok b => exact iff_of_false nofun fun same => nomatch (same b).2 rfl
    | error e' => exact iff_of_true rfl fun a => iff_of_false nofun nofun

end Chain

/-- A list is mapped to the end when each of its members is. -/
theorem exists_mapM {ε α β : Type} {f : α → Except ε β} {P : β → Prop} {as : List α}
    (each : ∀ a ∈ as, ∃ b, f a = .ok b ∧ P b) :
    ∃ bs, as.mapM f = .ok bs ∧ bs.length = as.length ∧ ∀ b ∈ bs, P b := by
  induction as with
  | nil => exact ⟨[], rfl, rfl, fun b mem => absurd mem List.not_mem_nil⟩
  | cons a as ih =>
    obtain ⟨b, made, first⟩ := each a List.mem_cons_self
    obtain ⟨bs, rest, length, all⟩ := ih fun a mem => each a (List.mem_cons_of_mem _ mem)
    refine ⟨b :: bs, ?_, congrArg (· + 1) length, List.forall_mem_cons.2 ⟨first, all⟩⟩
    rw [List.mapM_cons, made, rest]
    rfl

/-- A list is mapped to what its members are mapped to, each of them without a fault. -/
theorem mapM_eq_ok_iff {ε α β : Type} {f : α → Except ε β} {as : List α} {bs : List β} :
    as.mapM f = .ok bs ↔ as.map f = bs.map .ok := by
  induction as generalizing bs with
  | nil =>
    cases bs with
    | nil => exact ⟨fun _ => rfl, fun _ => rfl⟩
    | cons b bs => exact iff_of_false nofun nofun
  | cons a as ih =>
    rw [List.mapM_cons]
    constructor
    · intro made
      obtain ⟨b, first, made⟩ := bind_eq_ok_iff.1 made
      obtain ⟨rest, others, made⟩ := bind_eq_ok_iff.1 made
      cases made
      rw [List.map_cons, List.map_cons, first, ih.1 others]
    · intro same
      cases bs with
      | nil => cases same
      | cons b bs =>
        obtain ⟨first, rest⟩ := List.cons.inj same
        rw [first, ih.2 rest]
        rfl

theorem exists_of_mem_mapM {ε α β : Type} {f : α → Except ε β} {as : List α} {bs : List β}
    (made : as.mapM f = .ok bs) {a : α} (mem : a ∈ as) : ∃ b ∈ bs, f a = .ok b := by
  have listed := List.mem_map_of_mem (f := f) mem
  rw [mapM_eq_ok_iff.1 made] at listed
  obtain ⟨b, mem, value⟩ := List.mem_map.1 listed
  exact ⟨b, mem, value.symm⟩

/-- A list is not mapped to the end only if one of its members is not. -/
theorem exists_of_mapM_eq_error {ε α β : Type} {f : α → Except ε β} {as : List α} {e : ε}
    (failed : as.mapM f = .error e) : ∃ a ∈ as, f a = .error e := by
  induction as with
  | nil => cases failed
  | cons a as ih =>
    rw [List.mapM_cons] at failed
    rcases bind_eq_error_iff.1 failed with first | ⟨b, -, failed⟩
    · exact ⟨a, List.mem_cons_self, first⟩
    · rcases bind_eq_error_iff.1 failed with rest | ⟨bs, -, made⟩
      · obtain ⟨a', mem, here⟩ := ih rest
        exact ⟨a', List.mem_cons_of_mem a mem, here⟩
      · cases made

/-- A list with other members is mapped to what its members are mapped to. -/
theorem mapM_map_of_mapM {ε ε' α β γ δ : Type} {f : α → Except ε β} {f' : γ → Except ε' δ}
    {t : α → γ} {g : β → δ} {as : List α} {bs : List β} (made : as.mapM f = .ok bs)
    (each : ∀ a, ∀ b ∈ bs, f a = .ok b → f' (t a) = .ok (g b)) :
    (as.map t).mapM f' = .ok (bs.map g) := by
  rw [mapM_eq_ok_iff] at made ⊢
  induction as generalizing bs with
  | nil =>
    rw [List.map_nil, eq_comm, List.map_eq_nil_iff] at made
    subst made
    rfl
  | cons a as ih =>
    obtain ⟨b, bs', rfl, value, rest⟩ := List.map_eq_cons_iff.1 made.symm
    rw [List.map_cons, List.map_cons, List.map_cons, List.map_cons,
      each a b List.mem_cons_self value.symm,
      ih rest.symm fun a b mem => each a b (List.mem_cons_of_mem _ mem)]

/-- Lists whose members are mapped to the same, but for faults, are mapped to the same. -/
theorem toOption_mapM_map {ε α β : Type} {f : α → Except ε β} {t : α → α} {as : List α}
    (each : ∀ a ∈ as, (f (t a)).toOption = (f a).toOption) :
    ((as.map t).mapM f).toOption = (as.mapM f).toOption := by
  induction as with
  | nil => rfl
  | cons a as ih =>
    obtain ⟨first, rest⟩ := List.forall_mem_cons.1 each
    rw [List.map_cons, List.mapM_cons, List.mapM_cons, toOption_bind, toOption_bind, first]
    simp only [toOption_bind, ih rest]

/-- The entries of a mapped list are what those of the list are mapped to. -/
theorem getElem?_of_mapM {ε α β : Type} {f : α → Except ε β} {as : List α} {bs : List β}
    (made : as.mapM f = .ok bs) {k : Nat} {b : β} :
    bs[k]? = some b ↔ ∃ a, as[k]? = some a ∧ f a = .ok b := by
  have entry : as[k]?.map f = bs[k]?.map .ok := by
    rw [← List.getElem?_map, mapM_eq_ok_iff.1 made, List.getElem?_map]
  constructor
  · intro here
    rw [here] at entry
    exact Option.map_eq_some_iff.1 entry
  · rintro ⟨a, listed, value⟩
    rw [listed, Option.map_some, value] at entry
    obtain ⟨b', here, same⟩ := Option.map_eq_some_iff.1 entry.symm
    cases same
    exact here

theorem mapM_eq_some {α β : Type} {f : α → Option β} {g : α → β} {as : List α}
    (each : ∀ a ∈ as, f a = some (g a)) : as.mapM f = some (as.map g) := by
  induction as with
  | nil => rfl
  | cons a as ih =>
    obtain ⟨first, rest⟩ := List.forall_mem_cons.1 each
    rw [List.mapM_cons, first, ih rest]
    rfl

/-- What a list was turned into is read back when each of its members is. -/
theorem mapM_map_eq_ok {ε α β γ : Type} {t : α → β} {f : β → Except ε γ} {g : α → γ} {as : List α}
    (each : ∀ a ∈ as, f (t a) = .ok (g a)) : (as.map t).mapM f = .ok (as.map g) := by
  induction as with
  | nil => rfl
  | cons a as ih =>
    obtain ⟨first, rest⟩ := List.forall_mem_cons.1 each
    rw [List.map_cons, List.mapM_cons, first, ih rest]
    rfl

end QubitTrace
