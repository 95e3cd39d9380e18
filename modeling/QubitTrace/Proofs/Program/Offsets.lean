import Mathlib
import QubitTrace.Proofs.Program.Parentheses
import QubitTrace.Proofs.Text.Words

/-! # Parentheses by bytes

The two scanners over a text whose places are bytes, with a counter of open parentheses that must
not be taken below zero and pieces that are sliced out between two bytes. The counter stays above
zero until the closing parenthesis is found (`scan_counts`), and every slice falls between two
characters, so the pieces are the parts of the list (`partsByBytes?_eq`). What the two scanners
find is then said of any text in `parentheses_delimit`.
-/

namespace QubitTrace.Program
set_option autoImplicit false

variable {depth i offset : Nat} {sep : Char} {s : Text}

/-! ## Bytes -/

/-- How many bytes a text takes. -/
def byteLength (s : Text) : Nat := (String.ofList s).utf8ByteSize

theorem byteLength_append (s t : Text) : byteLength (s ++ t) = byteLength s + byteLength t := by
  rw [byteLength, String.ofList_append, String.utf8ByteSize_append]
  rfl

theorem byteLength_cons (c : Char) (s : Text) :
    byteLength (c :: s) = c.utf8Size + byteLength s := by
  rw [byteLength, String.ofList_cons, String.utf8ByteSize_append, String.utf8ByteSize_singleton]
  rfl

/-- The characters of a text that begins on byte `offset`, each with the byte it begins on. -/
def charOffsets : (offset : Nat) → Text → List (Nat × Char)
  | _, [] => []
  | offset, c :: s => (offset, c) :: charOffsets (offset + c.utf8Size) s

/-- The text from byte `first` up to byte `last`, if no character is cut. -/
def slice? (first last : Nat) (s : Text) : Option Text :=
  (Text.cutBytes? last s).bind fun front => (Text.cutBytes? first front.1).map Prod.snd

theorem cutBytes?_byteLength (s t : Text) :
    Text.cutBytes? (byteLength s) (s ++ t) = some (s, t) :=
  Text.cutBytes?_eq_some_iff.2 ⟨rfl, rfl⟩

/-- A slice between two characters is the text between them. -/
theorem slice?_eq {s t u whole : Text} {first last : Nat} (cut : whole = s ++ t ++ u)
    (begins : first = byteLength s) (ends : last = byteLength (s ++ t)) :
    slice? first last whole = some t := by
  rw [cut, begins, ends, slice?, cutBytes?_byteLength, Option.bind_some, cutBytes?_byteLength,
    Option.map_some]

/-! ## The parenthesis that closes -/

section Scan

/-- What the scan for a closing parenthesis has come to. -/
inductive Scan where
  /-- It goes on, with `depth` parentheses open. -/
  | counting (depth : Nat)
  /-- The parenthesis stands on byte `offset`. -/
  | found (offset : Nat)
  /-- One was to be taken from a counter at zero. -/
  | underflow
  deriving DecidableEq, Repr

/-- Reads a character; once the scan has come to its end nothing changes. -/
def Scan.read : Scan → Nat × Char → Scan
  | counting depth, (offset, c) =>
    if c = '(' then counting (depth + 1)
    else if c = ')' then
      match depth with
      | 0 => underflow
      | depth + 1 => if depth = 0 then found offset else counting depth
    else counting depth
  | ended, _ => ended

/-- The scan through a text behind an opened parenthesis. -/
def scan (s : Text) : Scan := (charOffsets 0 s).foldl Scan.read (.counting 1)

theorem Scan.foldl_found (chars : List (Nat × Char)) :
    chars.foldl Scan.read (.found offset) = .found offset := by
  induction chars with
  | nil => rfl
  | cons _ _ ih => exact ih

theorem Scan.read_other {c : Char} (opens : c ≠ '(') (closes : c ≠ ')') :
    Scan.read (.counting depth) (offset, c) = .counting depth := by
  simp [Scan.read, opens, closes]

/-- With its counter one above the parentheses open before the text, the scan finds what
`closingFrom` finds. -/
theorem foldl_read_of_some (closed : closingFrom depth s = some i) :
    (charOffsets offset s).foldl Scan.read (.counting (depth + 1)) =
      .found (offset + byteLength (s.take i)) := by
  fun_induction closingFrom depth s generalizing offset i with
  | case1 => cases closed
  | case2 depth s ih | case4 depth s ih =>
    obtain ⟨j, later, rfl⟩ := Option.map_eq_some_iff.1 closed
    rw [List.take_succ_cons, byteLength_cons, ← Nat.add_assoc, ← ih later]
    rfl
  | case3 s =>
    cases closed
    exact Scan.foldl_found _
  | case5 depth c s opens outer inner ih =>
    obtain ⟨j, later, rfl⟩ := Option.map_eq_some_iff.1 closed
    rw [List.take_succ_cons, byteLength_cons, ← Nat.add_assoc, ← ih later, charOffsets,
      List.foldl_cons, Scan.read_other opens (ne_close outer inner)]

/-- Where no parenthesis is found the counter is left above zero, and has gone up by no more than
one for each character. -/
theorem foldl_read_of_none (unclosed : closingFrom depth s = none) : ∃ n ≤ depth + s.length,
    (charOffsets offset s).foldl Scan.read (.counting (depth + 1)) = .counting (n + 1) := by
  fun_induction closingFrom depth s generalizing offset with
  | case1 depth => exact ⟨depth, Nat.le_refl depth, rfl⟩
  | case2 depth s ih | case4 depth s ih =>
    obtain ⟨n, le, goesOn⟩ := ih (Option.map_eq_none_iff.1 unclosed)
    exact ⟨n, by rw [List.length_cons]; omega, goesOn⟩
  | case3 => cases unclosed
  | case5 depth c s opens outer inner ih =>
    obtain ⟨n, le, goesOn⟩ := ih (Option.map_eq_none_iff.1 unclosed)
    rw [charOffsets, List.foldl_cons, Scan.read_other opens (ne_close outer inner)]
    exact ⟨n, by rw [List.length_cons]; omega, goesOn⟩

/-- The scan ends on the byte of the parenthesis that closes, or goes on to the end of a text
without one. -/
theorem scan_cases (s : Text) :
    (∃ i, ClosedAt s i ∧ scan s = .found (byteLength (s.take i))) ∨
      (∀ i, ¬ClosedAt s i) ∧ ∃ n ≤ s.length, scan s = .counting (n + 1) := by
  cases closed : closing? s with
  | some i =>
    refine Or.inl ⟨i, closing?_eq_some_iff.1 closed, ?_⟩
    rw [scan, foldl_read_of_some closed, Nat.zero_add]
  | none =>
    obtain ⟨n, le, goesOn⟩ := foldl_read_of_none closed
    exact Or.inr ⟨closing?_eq_none_iff.1 closed, n, by rwa [Nat.zero_add] at le, goesOn⟩

/-- The byte that is found is that of the closing parenthesis, and the text is cut there. -/
theorem scan_eq_found_iff : scan s = .found offset ↔
    ∃ i, ClosedAt s i ∧ Text.cutBytes? offset s = some (s.take i, s.drop i) := by
  rcases scan_cases s with ⟨i, closed, ended⟩ | ⟨unclosed, n, -, goesOn⟩
  · rw [ended]
    constructor
    · rintro ⟨⟩
      exact ⟨i, closed, Text.cutBytes?_eq_some_iff.2 ⟨List.take_append_drop i s, rfl⟩⟩
    · rintro ⟨j, closed', cut⟩
      obtain ⟨-, place⟩ := Text.cutBytes?_eq_some_iff.1 cut
      rw [closed.unique closed', byteLength, place]
  · rw [goesOn]
    exact iff_of_false nofun fun ⟨i, closed, _⟩ => unclosed i closed

/-- The scan goes on to the end of a text where no parenthesis closes one opened before it. -/
theorem exists_scan_eq_counting_iff : (∃ depth, scan s = .counting depth) ↔ ∀ i, ¬ClosedAt s i := by
  rcases scan_cases s with ⟨i, closed, ended⟩ | ⟨unclosed, n, -, goesOn⟩
  · rw [ended]
    exact iff_of_false nofun fun unclosed => unclosed i closed
  · exact iff_of_true ⟨n + 1, goesOn⟩ unclosed

/-- The counter is never taken below zero; while the scan goes on it stands above, by no more than
there are characters read. -/
theorem scan_counts (s : Text) : scan s ≠ .underflow ∧
    ∀ depth, scan s = .counting depth → 0 < depth ∧ depth ≤ s.length + 1 := by
  rcases scan_cases s with ⟨i, -, ended⟩ | ⟨-, n, le, goesOn⟩
  · rw [ended]
    exact ⟨nofun, nofun⟩
  · rw [goesOn]
    refine ⟨nofun, ?_⟩
    rintro _ ⟨⟩
    exact ⟨n.succ_pos, Nat.succ_le_succ le⟩

end Scan

/-! ## The parts of a list -/

section Parts

/-- The parts found so far, how many parentheses count as open, and the byte on which the next part
starts. -/
structure Cutter where
  parts : List Text
  depth : Nat
  start : Nat

/-- Reads a character of `whole`; a part is sliced out of it where a separator ends one. -/
def Cutter.read (sep : Char) (whole : Text) (r : Cutter) : Nat × Char → Option Cutter
  | (offset, c) =>
    if c = '(' then some { r with depth := r.depth + 1 }
    else if c = ')' then some { r with depth := r.depth - 1 }
    else if c = sep ∧ r.depth = 0 then
      (slice? r.start offset whole).map fun part =>
        { r with parts := r.parts ++ [part], start := offset + c.utf8Size }
    else some r

/-- The parts, with the last one sliced out of `whole` up to its end. -/
def Cutter.close (whole : Text) (r : Cutter) : Option (List Text) :=
  (slice? r.start (byteLength whole) whole).map fun part => r.parts ++ [part]

/-- The parts of a list, sliced out of it; a blank text has none. -/
def partsByBytes? (sep : Char) (s : Text) : Option (List Text) :=
  if Text.isBlankText s then some []
  else ((charOffsets 0 s).foldlM (Cutter.read sep s) ⟨[], 0, 0⟩).bind (Cutter.close s)

/-- With `pending` read behind the parts found so far, the scan ends with the pieces of what
follows, the first of them behind `pending`. -/
theorem foldlM_read {whole front pending : Text} {start : Nat} (parts : List Text)
    (cut : whole = front ++ pending ++ s) (begins : start = byteLength front)
    (ends : offset = byteLength (front ++ pending)) :
    ((charOffsets offset s).foldlM (Cutter.read sep whole) ⟨parts, depth, start⟩).bind
        (Cutter.close whole) =
      some (parts ++ (cutAtDepth sep depth s).modifyHead (pending ++ ·)) := by
  induction s generalizing depth offset start front pending parts with
  | nil =>
    have stops : byteLength whole = byteLength (front ++ pending) := by rw [cut, List.append_nil]
    have last : Cutter.close whole ⟨parts, depth, start⟩ = some (parts ++ [pending]) := by
      rw [Cutter.close, slice?_eq cut begins stops]
      rfl
    rw [cutAtDepth, List.modifyHead_cons, List.append_nil]
    exact last
  | cons c s ih =>
    have goesOn : offset + c.utf8Size = byteLength (front ++ pending ++ [c]) := by
      rw [ends, byteLength_append (front ++ pending), byteLength_cons]
      rfl
    have cut' : whole = front ++ pending ++ [c] ++ s := by rw [cut, List.append_assoc _ [c]]; rfl
    -- a character that is no cut joins what is pending
    have joins (next : Nat) : ((charOffsets (offset + c.utf8Size) s).foldlM
          (Cutter.read sep whole) ⟨parts, next, start⟩).bind (Cutter.close whole) =
        some (parts ++ (intoFirst c (cutAtDepth sep next s)).modifyHead (pending ++ ·)) := by
      rw [List.append_assoc front] at cut' goesOn
      rw [ih parts cut' begins goesOn, intoFirst_cutAtDepth, List.modifyHead_modifyHead]
      refine congrArg (fun f => some (parts ++ List.modifyHead f _)) (funext fun piece => ?_)
      rw [List.append_assoc]
      rfl
    rw [charOffsets, List.foldlM_cons, Cutter.read, cutAtDepth]
    split_ifs with opens closes atTop
    · exact joins (depth + 1)
    · exact joins (depth - 1)
    · -- what is pending becomes a part, and the next one starts behind the separator
      obtain rfl : depth = 0 := atTop.2
      have empty := List.append_nil (front ++ pending ++ [c])
      have opened : ((charOffsets (offset + c.utf8Size) s).foldlM (Cutter.read sep whole)
            ⟨parts ++ [pending], 0, offset + c.utf8Size⟩).bind (Cutter.close whole) =
          some (parts ++ [pending] ++ (cutAtDepth sep 0 s).modifyHead ([] ++ ·)) :=
        ih (parts ++ [pending]) (cut'.trans (by rw [empty])) goesOn (goesOn.trans (by rw [empty]))
      have same : (cutAtDepth sep 0 s).modifyHead ([] ++ ·) = cutAtDepth sep 0 s :=
        congrFun List.modifyHead_id _
      rw [same, List.append_assoc, List.singleton_append] at opened
      rw [slice?_eq cut begins ends, List.modifyHead_cons, List.append_nil]
      exact opened
    · exact joins depth

/-- Every slice falls between characters, and the slices are the parts. -/
theorem partsByBytes?_eq (sep : Char) (s : Text) :
    partsByBytes? sep s = some (splitTopLevel sep s) := by
  rw [partsByBytes?, splitTopLevel]
  split_ifs
  · rfl
  · have cut : s = [] ++ [] ++ s := rfl
    have read : ((charOffsets 0 s).foldlM (Cutter.read sep s) ⟨[], 0, 0⟩).bind (Cutter.close s) =
        some ([] ++ (cutAtDepth sep 0 s).modifyHead ([] ++ ·)) :=
      foldlM_read [] cut rfl rfl
    rw [read]
    exact congrArg some (congrFun List.modifyHead_id _)

end Parts

/-- For every text, the parenthesis found to close one opened before it is the only one with a
balanced text before it, none is found where there is none, and the counter of the scan is never
taken below zero, whatever part of the text has been read. For every text that is not blank and
every separator other than a parenthesis, the parts joined by the separator are the text, and those
of a balanced text are cut at exactly the separators outside all parentheses. On bytes both scanners
do the same: the text is cut between two characters, where the parenthesis or the separators are. -/
theorem parentheses_delimit :
    (∀ s : Text,
      (∀ i, closing? s = some i ↔ ClosedAt s i) ∧
      (∀ i j, ClosedAt s i → ClosedAt s j → i = j) ∧
      (closing? s = none ↔ ∀ i, ¬ClosedAt s i) ∧
      (∀ b, scan s = .found b ↔
        ∃ i, ClosedAt s i ∧ Text.cutBytes? b s = some (s.take i, s.drop i)) ∧
      ((∃ depth, scan s = .counting depth) ↔ ∀ i, ¬ClosedAt s i) ∧
      ∀ p, p <+: s → scan p ≠ .underflow ∧
        ∀ depth, scan p = .counting depth → 0 < depth ∧ depth ≤ p.length + 1) ∧
    ∀ (s : Text) (sep : Char), Text.isBlankText s = false → sep ≠ '(' → sep ≠ ')' →
      List.intercalate [sep] (splitTopLevel sep s) = s ∧
      partsByBytes? sep s = some (splitTopLevel sep s) ∧
      (Balanced s → ∀ i, i ∈ cuts (splitTopLevel sep s) ↔ s[i]? = some sep ∧ ¬Enclosed s i) := by
  constructor
  · intro s
    exact ⟨fun _ => closing?_eq_some_iff, fun _ _ => ClosedAt.unique, closing?_eq_none_iff,
      fun _ => scan_eq_found_iff, exists_scan_eq_counting_iff, fun p _ => scan_counts p⟩
  · intro s sep visible opens closes
    exact ⟨intercalate_splitTopLevel visible, partsByBytes?_eq sep s,
      fun balanced _ => mem_cuts_splitTopLevel_of_balanced ⟨opens, closes⟩ visible balanced⟩

/-- Behind a character of two bytes: the inner parenthesis is passed over, and so is the comma in
it. -/
theorem parentheses_delimit_nested :
    closing? "π,(é)),b".toList = some 5 ∧ scan "π,(é)),b".toList = .found 7 ∧
    (∀ i, ClosedAt "π,(é)),b".toList i → i = 5) ∧
    List.intercalate [','] (splitTopLevel ',' "π,(é,b),c".toList) = "π,(é,b),c".toList ∧
    7 ∈ cuts (splitTopLevel ',' "π,(é,b),c".toList) ∧ ¬Enclosed "π,(é,b),c".toList 7 ∧
    4 ∉ cuts (splitTopLevel ',' "π,(é,b),c".toList) := by
  have closed : ClosedAt "π,(é)),b".toList 5 := by decide
  obtain ⟨found, only, -, byte, -, -⟩ := parentheses_delimit.1 "π,(é)),b".toList
  obtain ⟨joined, -, cut⟩ := parentheses_delimit.2 "π,(é,b),c".toList ',' (by decide) (by decide)
    (by decide)
  have at7 : 7 ∈ cuts (splitTopLevel ',' "π,(é,b),c".toList) := by decide
  have enclosed : Enclosed "π,(é,b),c".toList 4 :=
    ⟨"π,".toList, "é,b".toList, ",c".toList, by decide, by decide, by decide, by decide⟩
  have balanced : Balanced "π,(é,b),c".toList := by decide
  exact ⟨(found 5).2 closed, (byte 7).2 ⟨5, closed, by decide⟩, fun i other => only i 5 other closed,
    joined, at7, ((cut balanced 7).1 at7).2, fun at4 => ((cut balanced 4).1 at4).2 enclosed⟩

end QubitTrace.Program
