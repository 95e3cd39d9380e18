import QubitTrace.Timeline

/-! # Timelines in writing

A line per step: its number, the point of the Bloch ball and the entropy of each qubit, and
a mark on steps that show entanglement.
-/

namespace QubitTrace
set_option autoImplicit false

/-- The figures of one qubit. -/
def QubitObservables.text (q : QubitObservables Float) : String :=
  s!" q{Decimal.natText q.qubit} {q.bloch.text} S={Decimal.fixed .minus 3 q.entropy}"

/-- A number right-aligned in at least three places. -/
def Step.numberText (n : Nat) : String :=
  let digits := Decimal.digits n
  String.ofList (List.replicate (3 - digits.length) ' ' ++ digits)

def Step.text (s : Step Float) : String :=
  let mark := if s.metrics.isEntangled then " [entangled]" else ""
  s!"  step {Step.numberText s.number}:{String.join (s.qubits.map QubitObservables.text)}{mark}\n"

/-- A heading, then a line per step. -/
def Timeline.text (t : Timeline Float) : String :=
  s!"Timeline ({Decimal.natText t.qubits} qubit(s), {Decimal.natText t.steps.length} step(s)):\n"
    ++ String.join (t.steps.map Step.text)

end QubitTrace
