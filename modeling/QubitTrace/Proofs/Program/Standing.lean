import Mathlib
import QubitTrace.Proofs.Program.Statements

/-! # Statements that stand by themselves

A statement of a program is trimmed and holds no semicolon, no line feed and no comment
(`standing_of_mem_statements`). Texts of this kind, each ended by a semicolon, make a program of
which they are the statements (`statements_join`). So any list of statements, taken from programs
or put together anew, is that of a program.
-/

namespace QubitTrace.Program
set_option autoImplicit false

/-- A text that can be a statement of a program. -/
structure Standing (t : Text) : Prop where
  nonempty : t ≠ []
  trimmed : Text.trim t = t
  plain : ∀ c ∈ t, c ≠ ';' ∧ c ≠ '\n'
  uncommented : Uncommented t

/-- Statements that are joined with semicolons are those of the program. -/
theorem statements_join {texts : List Text} (all : ∀ t ∈ texts, Standing t) :
    statements (texts.flatMap (· ++ [';'])) = texts.map fun t => ⟨1, t⟩ := by
  rw [statements_pieces (fun t mem => (all t mem).plain) (fun t mem => (all t mem).uncommented)
    fun t mem => (all t mem).trimmed.symm ▸ (all t mem).nonempty]
  exact List.map_congr_left fun t mem => by rw [(all t mem).trimmed]

/-! ## The code of a program -/

/-- Lines hold no line feed. -/
theorem lineFeed_notMem_lines {s line : Text} (mem : line ∈ Text.lines s) : '\n' ∉ line := by
  have pieces {piece : Text} (mem : piece ∈ Text.splitWhere (· == '\n') s) : '\n' ∉ piece :=
    fun inside => by
      rw [Text.splitWhere_eq_splitOnP] at mem
      exact absurd (Text.not_of_mem_splitOnP mem '\n' inside) (by decide)
  have ended : ∀ line ∈ (Text.splitWhere (· == '\n') s).dropLast.map fun line =>
      (Text.withoutLast? '\r' line).getD line, '\n' ∉ line := by
    intro line mem inside
    obtain ⟨piece, listed, rfl⟩ := List.mem_map.1 mem
    refine pieces (List.mem_of_mem_dropLast listed) ?_
    unfold Text.withoutLast? at inside
    split_ifs at inside
    · exact List.mem_of_mem_dropLast inside
    · exact inside
  unfold Text.lines at mem
  dsimp only at mem
  split at mem
  · exact ended line mem
  · exact ended line mem
  · next last _ ends =>
    rcases List.mem_append.1 mem with before | rest
    · exact ended line before
    · rw [List.mem_singleton.1 rest]
      exact pieces (List.mem_of_getLast? ends)

/-- The code of a program holds no line feed and no comment: behind each line stands a blank, so
that no comment begins across two of them. -/
theorem plain_joined (source : Text) : '\n' ∉ joined source ∧ Uncommented (joined source) := by
  constructor
  · intro mem
    obtain ⟨line, listed, inside⟩ := List.mem_flatMap.1 mem
    obtain ⟨whole, of, rfl⟩ := List.mem_map.1 listed
    rcases List.mem_append.1 inside with here | blank
    · exact lineFeed_notMem_lines of ((prefix_before whole).subset here)
    · exact absurd blank (by decide)
  · refine uncommented_pieces (by decide) fun line listed => ?_
    obtain ⟨whole, -, rfl⟩ := List.mem_map.1 listed
    exact uncommented_before whole

/-- The statements of a program can stand by themselves: they are pieces of its code, trimmed. -/
theorem standing_of_mem_statements {source : Text} {s : Statement} (mem : s ∈ statements source) :
    Standing s.text := by
  have listed := List.mem_map_of_mem (f := Statement.text) mem
  rw [texts_eq, List.mem_filter] at listed
  obtain ⟨piece, cut, text⟩ := List.mem_map.1 listed.1
  have inside : s.text <:+: piece := text ▸ Text.infix_trim piece
  have within : s.text <:+: joined source := inside.trans (Text.infix_of_mem_splitOnP cut)
  obtain ⟨lineFeed, uncommented⟩ := plain_joined source
  refine ⟨by simpa using listed.2, text ▸ Text.trim_trim piece, fun c mem => ⟨?_, ?_⟩,
    uncommented.infix within⟩
  · simpa using Text.not_of_mem_splitOnP cut c (inside.subset mem)
  · rintro rfl
    exact lineFeed (within.subset mem)

end QubitTrace.Program
