import Mathlib
import QubitTrace.Proofs.Service.Status

/-! # Which request an object is

An object is a request for a program when all fields of one have the right form
(`ProgramForm`). Else it is a request for gate words if it can be read as one (`WordsForm`), even
with a program in it, and it is refused if it cannot.
-/

namespace QubitTrace
set_option autoImplicit false

namespace Request

open Json (Sizes valuesOf)

section Forms

variable {N : Type}

/-- The only field of a request for gate words, which may be missing. -/
def WordsForm (members : List (String × Json N)) (source : String) : Prop :=
  valuesOf "circuit" members = [] ∧ source = "" ∨ valuesOf "circuit" members = [.string source]

theorem optional_eq_some_iff {α : Type} {members : List (String × Json N)} {key : String}
    {absent a : α} {read : Json N → Option α} :
    optional members key absent read = some a ↔
      valuesOf key members = [] ∧ a = absent ∨
        ∃ value, valuesOf key members = [value] ∧ read value = some a := by
  unfold optional
  split
  · next none => simp [none, eq_comm]
  · next value one => simp [one]
  · next none several =>
    refine iff_of_false (by simp) ?_
    rintro (⟨empty, -⟩ | ⟨value, one, -⟩)
    · exact none empty
    · exact several value one

theorem string?_eq_some_iff {j : Json N} {s : String} : j.string? = some s ↔ j = .string s := by
  cases j <;> simp [Json.string?]

theorem array?_eq_some_iff {j : Json N} {items : List (Json N)} :
    j.array? = some items ↔ j = .array items := by
  cases j <;> simp [Json.array?]

theorem wordsOfMembers?_eq_some_iff {members : List (String × Json N)} {request : Request} :
    wordsOfMembers? members = some request ↔
      ∃ source, WordsForm members source ∧ request = .words source := by
  rw [wordsOfMembers?, Option.map_eq_some_iff]
  refine exists_congr fun source => and_congr ?_ eq_comm
  rw [optional_eq_some_iff, WordsForm]
  refine or_congr_right ⟨?_, fun one => ⟨.string source, one, rfl⟩⟩
  rintro ⟨value, one, read⟩
  rwa [string?_eq_some_iff.1 read] at one

variable [Sizes N]

/-- The fields of a request for a program. -/
structure ProgramForm (members : List (String × Json N)) (source : String) (qubits : Option Nat)
    (traced : List Nat) : Prop where
  source : valuesOf "qasm_code" members = [.string source]
  /-- The expected size may be missing or null. -/
  qubits : (valuesOf "num_qubits" members = [] ∨ valuesOf "num_qubits" members = [.null]) ∧
      qubits = none ∨
    ∃ value n, valuesOf "num_qubits" members = [value] ∧ value.size? = some n ∧ qubits = some n
  /-- The list may be missing. -/
  traced : valuesOf "qubits_to_trace_out" members = [] ∧ traced = [] ∨
    ∃ items, valuesOf "qubits_to_trace_out" members = [.array items] ∧
      items.mapM Json.size? = some traced

theorem sizeOrNull_eq_some_iff {j : Json N} {qubits : Option Nat} :
    sizeOrNull j = some qubits ↔
      j = .null ∧ qubits = none ∨ ∃ n, j.size? = some n ∧ qubits = some n := by
  cases j <;> simp [sizeOrNull, Json.size?, eq_comm]

theorem optional_qubits_iff {members : List (String × Json N)} {qubits : Option Nat} :
    optional members "num_qubits" none sizeOrNull = some qubits ↔
      (valuesOf "num_qubits" members = [] ∨ valuesOf "num_qubits" members = [.null]) ∧
          qubits = none ∨
        ∃ value n, valuesOf "num_qubits" members = [value] ∧ value.size? = some n ∧
          qubits = some n := by
  rw [optional_eq_some_iff]
  constructor
  · rintro (⟨absent, none⟩ | ⟨value, one, read⟩)
    · exact Or.inl ⟨Or.inl absent, none⟩
    · rcases sizeOrNull_eq_some_iff.1 read with ⟨rfl, none⟩ | ⟨n, size, some⟩
      · exact Or.inl ⟨Or.inr one, none⟩
      · exact Or.inr ⟨value, n, one, size, some⟩
  · rintro (⟨absent | null, none⟩ | ⟨value, n, one, size, some⟩)
    · exact Or.inl ⟨absent, none⟩
    · exact Or.inr ⟨.null, null, sizeOrNull_eq_some_iff.2 (Or.inl ⟨rfl, none⟩)⟩
    · exact Or.inr ⟨value, one, sizeOrNull_eq_some_iff.2 (Or.inr ⟨n, size, some⟩)⟩

theorem optional_traced_iff {members : List (String × Json N)} {traced : List Nat} :
    optional members "qubits_to_trace_out" []
        (fun j => do (← j.array?).mapM Json.size?) = some traced ↔
      valuesOf "qubits_to_trace_out" members = [] ∧ traced = [] ∨
        ∃ items, valuesOf "qubits_to_trace_out" members = [.array items] ∧
          items.mapM Json.size? = some traced := by
  rw [optional_eq_some_iff]
  refine or_congr_right ⟨?_, ?_⟩
  · rintro ⟨value, one, read⟩
    obtain ⟨items, array, sizes⟩ := Option.bind_eq_some_iff.1 read
    cases array?_eq_some_iff.1 array
    exact ⟨items, one, sizes⟩
  · rintro ⟨items, one, sizes⟩
    exact ⟨.array items, one, Option.bind_eq_some_iff.2 ⟨items, rfl, sizes⟩⟩

/-- An object is read as a program request exactly if its fields have the right form. -/
theorem programOfMembers?_eq_some_iff {members : List (String × Json N)} {request : Request} :
    programOfMembers? members = some request ↔
      ∃ source qubits traced, ProgramForm members source qubits traced ∧
        request = .program source qubits traced := by
  unfold programOfMembers?
  split
  · next value one =>
    constructor
    · intro read
      obtain ⟨source, text, read⟩ := Option.bind_eq_some_iff.1 read
      obtain ⟨qubits, size, read⟩ := Option.bind_eq_some_iff.1 read
      obtain ⟨traced, list, read⟩ := Option.bind_eq_some_iff.1 read
      cases read
      cases string?_eq_some_iff.1 text
      exact ⟨source, qubits, traced,
        ⟨one, optional_qubits_iff.1 size, optional_traced_iff.1 list⟩, rfl⟩
    · rintro ⟨source, qubits, traced, form, rfl⟩
      cases one.symm.trans form.source
      simp only [string?_eq_some_iff.2 rfl, optional_qubits_iff.2 form.qubits,
        optional_traced_iff.2 form.traced]
      rfl
  · next several =>
    refine iff_of_false (by simp) ?_
    rintro ⟨source, qubits, traced, form, -⟩
    exact several _ form.source

end Forms

end Request

namespace Service

open Request

variable {K : Type} [Scalar K] [Spectral K]

theorem handleBody_eq (s : Simulator K) {body : String} {document : Json Json.Literal}
    (parsed : Json.parse body.toList = some document) :
    handleBody s body =
      if acceptable document then
        match ofJson? document with
        | some request => handle s request
        | none => .error (.request .unknownShape)
      else .error (.request .malformed) := by
  obtain ⟨front, read, whole⟩ := Option.bind_eq_some_iff.1 parsed
  split_ifs at whole with blank
  cases whole
  unfold handleBody decode
  rw [read]
  dsimp only
  split_ifs
  · cases ofJson? front.value with
    | none => rfl
    | some request => simp
  · rfl

/-- A program is answered with the steps of its run; what remains after a trace is there exactly
when qubits are listed. -/
theorem runProgram_eq_ok {s : Simulator K} {source : String} {qubits : Option Nat}
    {traced : List Nat} {response : Response K}
    (ran : runProgram s source qubits traced = .ok response) :
    ∃ c t reduced, s.readProgram qubits source.toList = .ok c ∧ s.run c = .ok t ∧
      response = .timeline t.steps t.qubits reduced ∧ (traced = [] → reduced = none) ∧
      (traced ≠ [] → ∃ ψ r, t.finalState = some ψ ∧
        SubsystemObservables.afterTrace (.ofState ψ) traced = .ok r ∧ reduced = some r) := by
  obtain ⟨c, read, ran⟩ := bind_eq_ok_iff.1 ran
  obtain ⟨t, run, ran⟩ := bind_eq_ok_iff.1 ran
  split_ifs at ran with none
  · cases ran
    exact ⟨c, t, .none, read, run, rfl, fun _ => rfl,
      fun some => absurd (List.isEmpty_iff.1 none) some⟩
  · obtain ⟨ψ, final, ran⟩ := bind_eq_ok_iff.1 ran
    obtain ⟨reduced, observed, ran⟩ := bind_eq_ok_iff.1 ran
    cases ran
    refine ⟨c, t, reduced, read, run, rfl, fun empty => absurd (List.isEmpty_iff.2 empty) none,
      fun _ => ?_⟩
    unfold finalState at final
    split at final
    · next φ ends =>
      cases final
      cases remains : SubsystemObservables.afterTrace (DensityOperator.ofState ψ) traced with
      | ok r =>
        rw [remains] at observed
        cases observed
        exact ⟨ψ, r, ends, remains, rfl⟩
      | error fault =>
        rw [remains] at observed
        cases observed
    · cases final

/-- **Requests go by their fields.** An object whose fields make a program request is handled as one,
and never answered with the state of gate words. Any other object is handled as gate words if its
only field for them is missing or a text, whatever else it holds, and refused if it is not. -/
theorem handleBody_of_object (s : Simulator K) {body : String}
    {members : List (String × Json Json.Literal)}
    (parsed : Json.parse body.toList = some (.object members))
    (accepted : acceptable (.object members) = true) :
    (∀ source qubits traced, ProgramForm members source qubits traced →
        handleBody s body = runProgram s source qubits traced ∧
          ∀ ψ bloch shown gates, handleBody s body ≠ .ok (.state ψ bloch shown gates)) ∧
      ((∀ source qubits traced, ¬ ProgramForm members source qubits traced) →
        (∀ words, WordsForm members words → handleBody s body = runWords s words) ∧
          ((∀ words, ¬ WordsForm members words) →
            handleBody s body = .error (.request .unknownShape))) := by
  have handled := handleBody_eq s parsed
  rw [if_pos accepted, ofJson?] at handled
  refine ⟨fun source qubits traced form => ?_, fun unfit => ?_⟩
  · rw [programOfMembers?_eq_some_iff.2 ⟨source, qubits, traced, form, rfl⟩] at handled
    refine ⟨handled, fun ψ bloch shown gates state => ?_⟩
    obtain ⟨c, t, reduced, -, -, other, -⟩ := runProgram_eq_ok (handled.symm.trans state)
    cases other
  · have program : programOfMembers? members = none := by
      refine Option.eq_none_iff_forall_ne_some.2 fun request read => ?_
      obtain ⟨source, qubits, traced, form, -⟩ := programOfMembers?_eq_some_iff.1 read
      exact unfit source qubits traced form
    rw [program, Option.orElse_eq_orElse, Option.orElse_eq_or, Option.none_or] at handled
    refine ⟨fun words form => ?_, fun none => ?_⟩
    · rwa [wordsOfMembers?_eq_some_iff.2 ⟨words, form, rfl⟩] at handled
    · have refused : wordsOfMembers? members = .none := by
        refine Option.eq_none_iff_forall_ne_some.2 fun request read => ?_
        obtain ⟨words, form, -⟩ := wordsOfMembers?_eq_some_iff.1 read
        exact none words form
      rwa [refused] at handled

/-- A program with its expected size as a text. -/
def misplaced : String := "\x7b\"qasm_code\": \"qreg q[2]; h q[0];\", \"num_qubits\": \"2\"\x7d"

def misplacedMembers : List (String × Json Json.Literal) :=
  [("qasm_code", .string "qreg q[2]; h q[0];"), ("num_qubits", .string "2")]

theorem parse_misplaced : Json.parse misplaced.toList = some (.object misplacedMembers) := by
  cbv

theorem not_programForm_misplaced (source : String) (qubits : Option Nat) (traced : List Nat) :
    ¬ ProgramForm misplacedMembers source qubits traced := by
  intro form
  have text : Json.valuesOf "num_qubits" misplacedMembers = [.string "2"] := rfl
  rcases form.qubits with ⟨absent | null, -⟩ | ⟨value, n, one, size, -⟩
  · cases text.symm.trans absent
  · cases text.symm.trans null
  · cases text.symm.trans one
    cases size

/-- The default words run in place of a program whose expected size is a text. -/
theorem handleBody_of_object_misplaced :
    let _ := Spectral.ofRoots
    let s : Simulator ℝ := .default
    ∃ ψ bloch, (respond s misplaced).outcome = .ok (.state ψ bloch defaultWords 1) ∧
      (respond s misplaced).status = 200 := by
  intro _ s
  obtain ⟨-, other⟩ := handleBody_of_object s parse_misplaced (by decide)
  obtain ⟨words, -⟩ := other not_programForm_misplaced
  have handled : handleBody s misplaced = runWords s "" := words "" (Or.inl ⟨rfl, rfl⟩)
  have read : s.readWords (if Text.isBlankText "".toList then defaultWords else "").toList =
      .ok ⟨1, [.gate .h [0]]⟩ := rfl
  obtain ⟨ψ, bloch, ran⟩ := exists_runWords Spectral.exact_ofRoots validate_default read
  have outcome : (respond s misplaced).outcome = .ok (.state ψ bloch defaultWords 1) :=
    handled.trans ran
  refine ⟨ψ, bloch, outcome, ?_⟩
  rw [Reply.status, outcome]

/-- Not every object with a program in it is read as a request for one or refused. -/
theorem not_forall_program_or_refused :
    ¬ ∀ (body : String) (members : List (String × Json Json.Literal)),
      Json.parse body.toList = some (.object members) →
        "qasm_code" ∈ members.map Prod.fst →
          (∃ source qubits traced, decode body = .ok (.program source qubits traced)) ∨
            ∃ fault, decode body = .error fault := by
  intro claimed
  have words : decode misplaced = .ok (.words "") := by decide +kernel
  rcases claimed misplaced _ parse_misplaced (by decide) with ⟨source, qubits, traced, read⟩ | read
  · rw [words] at read
    cases read
  · obtain ⟨fault, refused⟩ := read
    rw [words] at refused
    cases refused

end Service

end QubitTrace
