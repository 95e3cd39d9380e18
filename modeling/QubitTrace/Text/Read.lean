import QubitTrace.Text.Cut

/-! # Readings

What a reader makes of the front of a text, with the rest. A reading leaves a shorter
text, a continued one may leave all of it; both carry the proof, so that readers that call
each other end by the length of the text. Readings are put together one behind the other
(`andThen`, `behind`), and no reader has to mention the proofs.
-/

namespace QubitTrace.Text
set_option autoImplicit false

/-- A value read from the front of `s`, and the rest, which is shorter. -/
structure Read (α : Type) (s : Text) where
  value : α
  rest : Text
  shorter : rest.length < s.length

/-- A value whose reading may have gone on into `s`, and what is left of `s`. -/
structure Continued (α : Type) (s : Text) where
  value : α
  rest : Text
  noLonger : rest.length ≤ s.length

/-- Passing over characters leaves no more than there was. -/
theorem length_dropWhile_le (p : Char → Bool) (s : Text) : (s.dropWhile p).length ≤ s.length :=
  (List.dropWhile_sublist p : (s.dropWhile p).Sublist s).length_le

/-- What follows a pattern is no longer than the text. -/
theorem length_le_of_after? {pattern s rest : Text} (h : after? pattern s = some rest) :
    rest.length ≤ s.length := by
  induction pattern generalizing s with
  | nil => simp_all [after?]
  | cons p pattern ih =>
    cases s with
    | nil => simp [after?] at h
    | cons c s =>
      by_cases same : p = c
      · have := ih (by simpa [after?, same] using h)
        simp only [List.length_cons]; omega
      · simp [after?, same] at h

variable {α β : Type} {s : Text}

namespace Continued

/-- Nothing is read. -/
def nothing (value : α) (s : Text) : Continued α s := ⟨value, s, Nat.le_refl s.length⟩

def map (f : α → β) (r : Continued α s) : Continued β s := ⟨f r.value, r.rest, r.noLonger⟩

/-- The longest front that consists of characters with `p`. -/
def span (p : Char → Bool) (s : Text) : Continued Text s :=
  ⟨s.takeWhile p, s.dropWhile p, length_dropWhile_le p s⟩

/-- The first `n` characters, if there are so many. -/
def take? (n : Nat) (s : Text) : Option (Continued Text s) :=
  if (s.take n).length = n then some ⟨s.take n, s.drop n, by simp⟩ else none

/-- Passes over a pattern. -/
def after? (pattern s : Text) : Option (Continued Unit s) :=
  match h : Text.after? pattern s with
  | some rest => some ⟨(), rest, length_le_of_after? h⟩
  | none => none

/-- The reading of a text that stands behind `c`. -/
def behind (c : Char) (r : Continued α s) : Read α (c :: s) :=
  ⟨r.value, r.rest, Nat.lt_succ_of_le r.noLonger⟩

/-- A reading of what this one left. -/
def andThen (first : Continued α s) (next : Read β first.rest) : Read β s :=
  ⟨next.value, next.rest, Nat.lt_of_lt_of_le next.shorter first.noLonger⟩

/-- A continued reading of what this one left. -/
def andContinue (first : Continued α s) (next : Continued β first.rest) : Continued β s :=
  ⟨next.value, next.rest, Nat.le_trans next.noLonger first.noLonger⟩

end Continued

namespace Read

def map (f : α → β) (r : Read α s) : Read β s := ⟨f r.value, r.rest, r.shorter⟩

/-- The reading of a single character. -/
def one (value : α) (c : Char) (s : Text) : Read α (c :: s) := (Continued.nothing value s).behind c

/-- Passes over the character `c`. -/
def char? (c : Char) (s : Text) : Option (Read Unit s) :=
  match s with
  | [] => none
  | d :: t => if d = c then some (one () d t) else none

/-- A reading, with its rest no longer known to be shorter. -/
def weaken (r : Read α s) : Continued α s := ⟨r.value, r.rest, Nat.le_of_lt r.shorter⟩

/-- The reading of a text that stands behind `c`. -/
def behind (c : Char) (r : Read α s) : Read α (c :: s) := r.weaken.behind c

/-- A reading of what this one left. -/
def andThen (first : Read α s) (next : Read β first.rest) : Read β s :=
  first.weaken.andThen next

/-- A continued reading of what this one left. -/
def andContinue (first : Read α s) (next : Continued β first.rest) : Read β s :=
  ⟨next.value, next.rest, Nat.lt_of_le_of_lt next.noLonger first.shorter⟩

end Read

end QubitTrace.Text
