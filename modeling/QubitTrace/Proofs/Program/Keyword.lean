import Mathlib
import QubitTrace.Proofs.Program.Printed

/-! # Keywords

The first word of a statement decides what it does. One of the keywords of the language makes it
the statement of that kind (`step_of_measure`, `step_of_barrier`), and any other word makes it a
gate statement (`step_of_free`).
-/

namespace QubitTrace.Program
set_option autoImplicit false

/-! ## The first word -/

section Keywords

variable {keyword rest : Text}

theorem splitKeyword_append (visible : ∀ c ∈ keyword, Text.isBlank c = false) (rest : Text) :
    splitKeyword (keyword ++ ' ' :: rest) = (keyword, ' ' :: rest) := by
  have stays : ∀ c ∈ keyword, (!Text.isBlank c) = true := fun c mem => by rw [visible c mem]; rfl
  have stops : Text.isBlank ' ' = true := rfl
  rw [splitKeyword, List.takeWhile_append_of_pos stays, List.dropWhile_append_of_pos stays]
  simp [stops]

theorem splitKeyword_eq_self (visible : ∀ c ∈ keyword, Text.isBlank c = false) :
    splitKeyword keyword = (keyword, []) := by
  have stays : ∀ c ∈ keyword, (!Text.isBlank c) = true := fun c mem => by rw [visible c mem]; rfl
  rw [splitKeyword, List.takeWhile_eq_self_iff.2 stays, List.dropWhile_eq_nil_iff.2 stays]

/-- A keyword and operands that end visibly are not trimmed. -/
theorem trim_statement (visible : ∀ c ∈ keyword, Text.isBlank c = false) (nonempty : keyword ≠ [])
    (some : rest ≠ []) (last : ∀ c ∈ rest.getLast?, Text.isBlank c = false) :
    Text.trim (keyword ++ ' ' :: rest) = keyword ++ ' ' :: rest := by
  apply Text.trim_of_ends
  · rw [List.head?_append_of_ne_nil _ nonempty]
    exact fun c mem => visible c (List.mem_of_mem_head? mem)
  · rwa [List.getLast?_append_of_ne_nil _ (List.cons_ne_nil _ _), List.getLast?_cons_of_ne_nil some]

end Keywords

/-! ## What it decides -/

section Step

variable {K : Type} [Scalar K] {rules : Rules} {p : Program K} {statement keyword : Text}

/-- A statement that begins with no keyword applies a gate. -/
theorem step_of_free (free : String.ofList (splitKeyword statement).1 ∉ reserved) :
    p.step rules statement = p.application rules statement := by
  unfold step
  split
  next keyword rest split =>
    rw [split] at free
    split
    all_goals first
      | rfl
      | next same => exact absurd (by rw [same]; decide) free

/-- A statement that begins with a keyword is treated the same in both modes. -/
theorem step_of_reserved (keyword : String.ofList (splitKeyword statement).1 ∈ reserved) :
    p.step rules statement = p.step { rules with mode := .strict } statement := by
  unfold step
  split
  next word rest split =>
    rw [split] at keyword
    dsimp only at keyword ⊢
    generalize String.ofList word = key at keyword ⊢
    simp only [reserved, List.mem_cons, List.not_mem_nil, or_false] at keyword
    rcases keyword with rfl | rfl | rfl | rfl | rfl | rfl | rfl | rfl | rfl | rfl <;> rfl

theorem step_of_measure (keyword : String.ofList (splitKeyword statement).1 = "measure") :
    p.step rules statement = p.measure (splitKeyword statement).2 := by
  unfold step
  split
  next word rest split =>
    rw [split] at keyword ⊢
    dsimp only at keyword ⊢
    rw [keyword]
    rfl

theorem step_of_barrier (keyword : String.ofList (splitKeyword statement).1 = "barrier") :
    p.step rules statement = p.barrier (splitKeyword statement).2 := by
  unfold step
  split
  next word rest split =>
    rw [split] at keyword ⊢
    dsimp only at keyword ⊢
    rw [keyword]
    rfl

/-! ## Statements made of a keyword and operands -/

theorem step_eq_application (visible : ∀ c ∈ keyword, Text.isBlank c = false)
    (free : String.ofList keyword ∉ reserved) (rest : Text) :
    step rules p (keyword ++ ' ' :: rest) = application rules p (keyword ++ ' ' :: rest) :=
  step_of_free (by rwa [splitKeyword_append visible])

theorem step_measure (rest : Text) :
    step rules p ("measure".toList ++ ' ' :: rest) = p.measure (' ' :: rest) := by
  have visible : ∀ c ∈ "measure".toList, Text.isBlank c = false := visible_of_reserved (by decide)
  have split := splitKeyword_append visible rest
  rw [step_of_measure (by rw [split, String.ofList_toList]), split]

theorem step_barrier (rest : Text) :
    step rules p ("barrier".toList ++ ' ' :: rest) = p.barrier (' ' :: rest) := by
  have visible : ∀ c ∈ "barrier".toList, Text.isBlank c = false := visible_of_reserved (by decide)
  have split := splitKeyword_append visible rest
  rw [step_of_barrier (by rw [split, String.ofList_toList]), split]

theorem step_barrier_nil : step rules p "barrier".toList = p.barrier [] := by
  have visible : ∀ c ∈ "barrier".toList, Text.isBlank c = false := visible_of_reserved (by decide)
  have split := splitKeyword_eq_self visible
  rw [step_of_barrier (by rw [split, String.ofList_toList]), split]

end Step

end QubitTrace.Program
