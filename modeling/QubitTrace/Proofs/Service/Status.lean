import Mathlib
import QubitTrace.Proofs.Circuit.Words
import QubitTrace.Proofs.Program.Run
import QubitTrace.Proofs.Timeline.Report
import QubitTrace.Service

/-! # No server errors

Both notations yield circuits the simulator runs, and over exact numbers its runs never fail. So
what goes wrong with a request that was understood is always an unreadable text or a list of
qubits that cannot be traced out (`ClientFault`), and the client is told so.
-/

namespace QubitTrace
set_option autoImplicit false

/-! ## Circuits of requests -/

/-- A program makes a circuit that takes its operations, within the limit of the rules. -/
theorem Program.reachable_of_parse {K : Type} [Scalar K] {rules : Rules} {expected : Option Nat}
    {source : Text} {c : Circuit K} (parsed : parse rules expected source = .ok c) :
    c.Reachable ∧ 0 < c.qubits ∧ ∀ max, rules.maxQubits = some max → c.qubits ≤ max := by
  obtain ⟨p, ran, finished⟩ := bind_eq_ok_iff.1 parsed
  obtain ⟨sound, -, -⟩ := sound_of_run (sound_empty rules) ran
  obtain ⟨positive, -, accepted, rfl⟩ := finish_eq_ok finished
  exact ⟨Circuit.reachable_of_accepted positive accepted, positive, sound.bounded⟩

/-! ## Handling requests -/

/-- The faults of an understood request that are the client's. -/
inductive ClientFault {K : Type} : Fault K → Prop where
  | words (fault : WordFault) : ClientFault (.words fault)
  | program (fault : ProgramFault K) : ClientFault (.program fault)
  | trace (fault : TraceFault) : ClientFault (.trace fault)

namespace Service

theorem finalState_eq_ok {t : Timeline ℝ} {ψ : StateVector ℝ} (final : t.finalState = some ψ) :
    finalState t = .ok ψ := by
  rw [finalState, final]

theorem finalBloch_eq_ok {t : Timeline ℝ} {step : Step ℝ} {q : QubitObservables ℝ}
    (final : t.finalStep = some step) (first : step.qubits.head? = some q) :
    finalBloch t = .ok q.bloch := by
  rw [finalBloch, final, Option.bind_some, first]

variable [Spectral ℝ] {s : Simulator ℝ}

/-- Gate words run whenever they can be read. -/
theorem exists_runWords (exact : Spectral.Exact) (valid : s.config.validate = .ok ())
    {source : String} {c : Circuit ℝ}
    (read : s.readWords
      (if Text.isBlankText source.toList then defaultWords else source).toList = .ok c) :
    ∃ ψ bloch, runWords s source =
      .ok (.state ψ bloch (if Text.isBlankText source.toList then defaultWords else source)
        c.gateCount) := by
  obtain ⟨reachable, one⟩ := Words.reachable_of_parse (mapError_eq_ok_iff.1 read)
  obtain ⟨-, -, some, -⟩ := Timeline.bounds_of_validate valid
  obtain ⟨t, run, ⟨ψ, final, -⟩, step, q, last, first⟩ :=
    Simulator.exists_run exact valid reachable (by omega) (by omega)
  rw [runWords, read, ok_bind, run, ok_bind, finalState_eq_ok final, ok_bind,
    finalBloch_eq_ok last first]
  exact ⟨_, _, rfl⟩

theorem fault_of_runWords (exact : Spectral.Exact) (valid : s.config.validate = .ok ())
    {source : String} {fault : Fault ℝ} (failed : runWords s source = .error fault) :
    ClientFault fault := by
  rcases bind_eq_error_iff.1 failed with unread | ⟨c, read, -⟩
  · obtain ⟨reason, -, rfl⟩ := mapError_eq_error_iff.1 unread
    exact .words reason
  · obtain ⟨ψ, bloch, answered⟩ := exists_runWords exact valid read
    rw [answered] at failed
    cases failed

/-- Programs run whenever they can be read and what they list can be traced out. -/
theorem fault_of_runProgram (exact : Spectral.Exact) (valid : s.config.validate = .ok ())
    {source : String} {qubits : Option Nat} {traced : List Nat} {fault : Fault ℝ}
    (failed : runProgram s source qubits traced = .error fault) : ClientFault fault := by
  rcases bind_eq_error_iff.1 failed with unread | ⟨c, read, failed⟩
  · obtain ⟨reason, -, rfl⟩ := mapError_eq_error_iff.1 unread
    exact .program reason
  · obtain ⟨reachable, positive, fits⟩ := Program.reachable_of_parse (mapError_eq_ok_iff.1 read)
    obtain ⟨t, run, ⟨ψ, final, unit⟩, -⟩ :=
      Simulator.exists_run exact valid reachable positive (fits _ rfl)
    rw [run, ok_bind] at failed
    split_ifs at failed with none
    · cases failed
    · rw [finalState_eq_ok final, ok_bind] at failed
      have physical := DensityOperator.physical_ofState unit
      cases observed : SubsystemObservables.afterTrace (.ofState ψ) traced with
      | error observable =>
        obtain ⟨reason, -, rfl⟩ := SubsystemObservables.fault_of_afterTrace physical observed
        rw [observed] at failed
        cases failed
        exact .trace reason
      | ok reduced =>
        rw [observed] at failed
        cases failed

theorem fault_of_handle (exact : Spectral.Exact) (valid : s.config.validate = .ok ())
    {request : Request} {fault : Fault ℝ} (failed : handle s request = .error fault) :
    ClientFault fault := by
  cases request with
  | program source qubits traced => exact fault_of_runProgram exact valid failed
  | words source => exact fault_of_runWords exact valid failed

end Service

/-! ## Main result -/

theorem ClientFault.isClient {K : Type} {fault : Fault K} (client : ClientFault fault) :
    fault.isClient = true := by
  cases client <;> rfl

/-- The body of a reply says once whether the request went well. -/
theorem Reply.valuesOf_success (r : Reply Float) :
    ∃ members, r.body = .object members ∧
      Json.valuesOf "success" members = [.bool r.success] := by
  obtain ⟨outcome⟩ := r
  cases outcome with
  | error fault => exact ⟨_, rfl, rfl⟩
  | ok response =>
    cases response with
    | state ψ bloch source gates => exact ⟨_, rfl, rfl⟩
    | timeline steps qubits reduced => cases reduced <;> exact ⟨_, rfl, rfl⟩

namespace Service

theorem handleBody_eq_ok_iff {K : Type} [Scalar K] [Spectral K] {s : Simulator K} {body : String}
    {response : Response K} : handleBody s body = .ok response ↔
      ∃ request, Request.decode body = .ok request ∧ handle s request = .ok response := by
  simp only [handleBody, bind_eq_ok_iff, mapError_eq_ok_iff]

theorem isClient_of_handleBody [Spectral ℝ] (exact : Spectral.Exact) {s : Simulator ℝ}
    (valid : s.config.validate = .ok ()) {body : String} {fault : Fault ℝ}
    (failed : handleBody s body = .error fault) : fault.isClient = true := by
  rcases bind_eq_error_iff.1 failed with unread | ⟨request, -, failed⟩
  · obtain ⟨reason, -, rfl⟩ := mapError_eq_error_iff.1 unread
    rfl
  · exact (fault_of_handle exact valid failed).isClient

/-- **No server errors.** Over exact numbers and with an exact solver the service never answers 500.
It answers 200 and reports success if the body is understood and its request handled, and
otherwise 400 and no success; an understood request fails only by its text or by the qubits it
asks to trace out, never by a check of the run or for want of its results. -/
theorem status_respond [Spectral ℝ] (exact : Spectral.Exact) {s : Simulator ℝ}
    (valid : s.config.validate = .ok ()) (body : String) :
    (respond s body).status ≠ 500 ∧
      ((∃ request response, Request.decode body = .ok request ∧ handle s request = .ok response) →
        (respond s body).status = 200 ∧ (respond s body).success = true) ∧
      ((¬ ∃ request response, Request.decode body = .ok request ∧ handle s request = .ok response) →
        (respond s body).status = 400 ∧ (respond s body).success = false) ∧
      (∀ request fault, Request.decode body = .ok request → handle s request = .error fault →
        ClientFault fault) ∧
      ∀ r : Reply Float, ∃ members, r.body = .object members ∧
        Json.valuesOf "success" members = [.bool r.success] := by
  have faults : ∀ request fault, Request.decode body = .ok request →
      handle s request = .error fault → ClientFault fault :=
    fun request fault _ failed => fault_of_handle exact valid failed
  cases handled : handleBody s body with
  | ok response =>
    obtain ⟨request, decoded, answered⟩ := handleBody_eq_ok_iff.1 handled
    have reply : respond s body = ⟨.ok response⟩ := congrArg Reply.mk handled
    have status : (respond s body).status = 200 := by rw [reply]; rfl
    exact ⟨by rw [status]; decide, fun _ => ⟨status, by rw [reply]; rfl⟩,
      fun none => absurd ⟨request, response, decoded, answered⟩ none, faults,
      Reply.valuesOf_success⟩
  | error fault =>
    have reply : respond s body = ⟨.error fault⟩ := congrArg Reply.mk handled
    have status : (respond s body).status = 400 := by
      rw [reply]
      exact if_pos (isClient_of_handleBody exact valid handled)
    refine ⟨by rw [status]; decide, ?_, fun _ => ⟨status, by rw [reply]; rfl⟩, faults,
      Reply.valuesOf_success⟩
    rintro ⟨request, response, decoded, answered⟩
    rw [handleBody_eq_ok_iff.2 ⟨request, decoded, answered⟩] at handled
    cases handled

/-- A request for a circuit of two words. -/
def twoWords : String := "\x7b\"circuit\": \"H T\"\x7d"

/-- A request for a program without statements. -/
def emptyProgram : String := "\x7b\"qasm_code\": \"\"\x7d"

/-- Two words and an empty program, under the default configuration and a solver that is exact. -/
theorem status_respond_default :
    let _ := Spectral.ofRoots
    let s : Simulator ℝ := .default
    (respond s twoWords).status = 200 ∧
      (respond s emptyProgram).status = 400 := by
  intro _ s
  obtain ⟨-, answered, -⟩ :=
    status_respond (s := s) Spectral.exact_ofRoots validate_default twoWords
  obtain ⟨-, -, refused, -⟩ :=
    status_respond (s := s) Spectral.exact_ofRoots validate_default emptyProgram
  have words : Request.decode twoWords = .ok (.words "H T") := by decide +kernel
  have program : Request.decode emptyProgram = .ok (.program "" none []) := by
    decide +kernel
  refine ⟨(answered ?_).1, (refused ?_).1⟩
  · have read : s.readWords "H T".toList = .ok ⟨1, [.gate .h [0], .gate .t [0]]⟩ := rfl
    obtain ⟨ψ, bloch, ran⟩ := exists_runWords Spectral.exact_ofRoots validate_default
      (show s.readWords (if Text.isBlankText "H T".toList then defaultWords else "H T").toList = _
        from read)
    exact ⟨_, _, words, ran⟩
  · rintro ⟨request, response, decoded, ran⟩
    rw [program] at decoded
    cases decoded
    have empty : handle s (.program "" none []) = .error (.program .noQubits) := rfl
    rw [empty] at ran
    cases ran

end Service

end QubitTrace
