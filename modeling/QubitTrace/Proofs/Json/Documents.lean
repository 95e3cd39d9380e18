import Mathlib
import QubitTrace.Json.Writer
import QubitTrace.Proofs.Except
import QubitTrace.Proofs.Json.Numbers

/-! # Written documents read back

What `render` writes for a document is read as the document (`read_render`), with the literals that
its numbers are written as in their place (`map`). A document is read in front of any text that a
number at its end cannot go on with, so the induction is over documents, lists of items and lists
of members, and each of the readers has a lemma for what it takes.
-/

namespace QubitTrace.Json
set_option autoImplicit false

open Text (Read Continued Takes takes_some)
open QubitTrace.Literal.Unsigned (Stops)

variable {s t rest : Text} {c : Char}

/-! ## White space and marks -/

/-- The white space of JSON. -/
def isSpace (c : Char) : Bool := c == ' ' || c == '\n' || c == '\t' || c == '\r'

theorem blanks_of_solid (solid : isSpace c = false) (s : Text) :
    blanks (c :: s) = .nothing () (c :: s) := by
  have left : (blanks (c :: s)).rest = c :: s := by
    change (c :: s).dropWhile isSpace = c :: s
    exact List.dropWhile_cons_of_neg (by simp [solid])
  generalize blanks (c :: s) = front at left ⊢
  obtain ⟨_, t, _⟩ := front
  cases left
  rfl

theorem takes_read {document : Json Literal} (solid : isSpace c = false)
    (here : Takes (readHere (c :: s)) document rest) : Takes (read (c :: s)) document rest := by
  obtain ⟨_, here⟩ := here
  rw [read, blanks_of_solid solid]
  change Takes ((readHere (c :: s)).map _) _ _
  rw [here]
  exact takes_some rfl rfl

theorem takes_mark (solid : isSpace c = false) (s : Text) : Takes (mark? c (c :: s)) () s := by
  rw [mark?, blanks_of_solid solid]
  change Takes ((Read.char? c (c :: s)).map _) _ _
  rw [Read.char?, if_pos rfl]
  exact takes_some rfl rfl

theorem mark?_of_ne {d : Char} (solid : isSpace d = false) (other : d ≠ c) (s : Text) :
    mark? c (d :: s) = none := by
  rw [mark?, blanks_of_solid solid]
  change (Read.char? c (d :: s)).map _ = none
  rw [Read.char?, if_neg other]
  rfl

theorem mark?_of_takes {d : Char} (here : Takes (mark? c s) () rest) (other : c ≠ d) :
    mark? d s = none := by
  obtain ⟨_, here⟩ := here
  rw [mark?] at here ⊢
  generalize blanks s = front at here ⊢
  obtain ⟨_, t, _⟩ := front
  obtain ⟨read, first, -⟩ := Option.map_eq_some_iff.1 here
  cases t with
  | nil => cases first
  | cons b t =>
    obtain ⟨rfl, -⟩ := Option.ite_none_right_eq_some.1 first
    change (Read.char? d (b :: t)).map _ = none
    rw [Read.char?, if_neg other]
    rfl

/-- No document begins with the mark that closes an array. -/
theorem mark?_bracket_of_takes {document : Json Literal} (here : Takes (read s) document rest) :
    mark? ']' s = none := by
  obtain ⟨_, here⟩ := here
  rw [mark?, Option.map_eq_none_iff]
  rw [read] at here
  generalize blanks s = front at here ⊢
  obtain ⟨_, t, _⟩ := front
  cases t with
  | nil => rfl
  | cons c t =>
    refine if_neg ?_
    rintro rfl
    change (readHere (']' :: t)).map _ = _ at here
    have refused : readHere (']' :: t) = none := by
      rw [readHere]
      · rfl
      all_goals simp
    rw [refused] at here
    cases here

/-! ## Strings -/

theorem takes_escaped {text : Text} {shorter : rest.length < s.length}
    (escaped : readEscape s = some ⟨some c, rest, shorter⟩)
    (more : Takes (readString rest) (some text) t) :
    Takes (readString ('\\' :: s)) (some (c :: text)) t := by
  obtain ⟨_, more⟩ := more
  rw [readString, escaped]
  change Takes ((readString rest).bind _) _ _
  rw [more]
  exact takes_some rfl rfl

/-- A character of a string is written with the letter of its escape, by its number, or as it
is. -/
theorem escape_cases (c : Char) :
    (∃ letter, escape c = ['\\', letter] ∧ letter ≠ 'u' ∧ escape? letter = some c) ∨
      (escape c = ['\\', 'u', '0', '0', hexDigit (c.toNat / 16), hexDigit (c.toNat % 16)] ∧
        c.toNat < 0x20) ∨
      escape c = [c] ∧ c ≠ '"' ∧ c ≠ '\\' ∧ ¬ c.toNat < 0x20 := by
  unfold escape
  split_ifs with quote backslash newline ret tab backspace feed control
  · exact Or.inl ⟨_, rfl, by decide, by rw [quote]; rfl⟩
  · exact Or.inl ⟨_, rfl, by decide, by rw [backslash]; rfl⟩
  · exact Or.inl ⟨_, rfl, by decide, by rw [newline]; rfl⟩
  · exact Or.inl ⟨_, rfl, by decide, by rw [ret]; rfl⟩
  · exact Or.inl ⟨_, rfl, by decide, by rw [tab]; rfl⟩
  · exact Or.inl ⟨_, rfl, by decide, by rw [backspace]; rfl⟩
  · exact Or.inl ⟨_, rfl, by decide, by rw [feed]; rfl⟩
  · exact Or.inr (Or.inl ⟨rfl, control⟩)
  · exact Or.inr (Or.inr ⟨rfl, quote, backslash, control⟩)

theorem hex?_control (control : c.toNat < 0x20) :
    hex? ['0', '0', hexDigit (c.toNat / 16), hexDigit (c.toNat % 16)] = some c.toNat := by
  have all : ∀ n < 0x20, hex? ['0', '0', hexDigit (n / 16), hexDigit (n % 16)] = some n := by
    decide
  exact all _ control

/-- The number of a control character is no surrogate, and the character is read back by it. -/
theorem takes_control (control : c.toNat < 0x20) (s : Text) :
    Takes (readEscape ('u' :: '0' :: '0' :: hexDigit (c.toNat / 16) :: hexDigit (c.toNat % 16) :: s))
      (some c) s := by
  have unit : Text.Leaves (readUnit ('0' :: '0' :: hexDigit (c.toNat / 16) ::
      hexDigit (c.toNat % 16) :: s)) c.toNat s := by
    change Text.Leaves ((hex? ['0', '0', hexDigit (c.toNat / 16), hexDigit (c.toNat % 16)]).bind _)
      _ _
    rw [hex?_control control]
    exact Text.leaves_some rfl rfl
  obtain ⟨_, unit⟩ := unit
  have high : ¬ isHighSurrogate c.toNat = true := by
    simp only [isHighSurrogate, Bool.and_eq_true, decide_eq_true_eq]
    omega
  have low : ¬ isLowSurrogate c.toNat = true := by
    simp only [isLowSurrogate, Bool.and_eq_true, decide_eq_true_eq]
    omega
  have numbered : Text.Leaves (readNumbered ('0' :: '0' :: hexDigit (c.toNat / 16) ::
      hexDigit (c.toNat % 16) :: s)) (some c) s := by
    rw [readNumbered, unit]
    change Text.Leaves (if isHighSurrogate c.toNat then _ else _) _ _
    rw [if_neg high, if_neg low]
    exact Text.leaves_some (congrArg some (Char.ofNat_toNat c)) rfl
  obtain ⟨_, numbered⟩ := numbered
  rw [readEscape, numbered]
  exact takes_some rfl rfl

/-- A character of a string is read back. -/
theorem takes_escape {text : Text} (more : Takes (readString s) (some text) rest) :
    Takes (readString (escape c ++ s)) (some (c :: text)) rest := by
  rcases escape_cases c with
    ⟨letter, shape, other, lettered⟩ | ⟨shape, control⟩ | ⟨shape, quote, backslash, control⟩
  · have escaped : readEscape (letter :: s) = some (.one (some c) letter s) := by
      rw [readEscape, lettered]
      · rfl
      · exact other
    rw [shape]
    exact takes_escaped escaped more
  · obtain ⟨_, escaped⟩ := takes_control control s
    rw [shape]
    exact takes_escaped escaped more
  · obtain ⟨_, more⟩ := more
    rw [shape, List.singleton_append, readString, if_neg control, more]
    · exact takes_some rfl rfl
    · exact quote
    · exact backslash

/-- The text of a string is read back from between its quotes. -/
theorem takes_string (text rest : Text) :
    Takes (readString (text.flatMap escape ++ '"' :: rest)) (some text) rest := by
  induction text with
  | nil =>
    change Takes (readString ('"' :: rest)) _ _
    rw [readString]
    exact takes_some rfl rfl
  | cons c text ih =>
    rw [List.flatMap_cons, List.append_assoc]
    exact takes_escape ih

theorem toList_quoted (s : String) :
    (quoted s).toList = '"' :: (s.toList.flatMap escape ++ ['"']) := by
  simp [quoted]

/-! ## Documents with other numbers -/

variable {N M : Type}

mutual

/-- A document with other numbers in place of its own. -/
def map (f : N → M) : Json N → Json M
  | null => null
  | bool b => bool b
  | number n => number (f n)
  | string s => string s
  | array items => array (mapItems f items)
  | object members => object (mapMembers f members)
  | illFormed => illFormed

def mapItems (f : N → M) : List (Json N) → List (Json M)
  | [] => []
  | item :: items => item.map f :: mapItems f items

def mapMembers (f : N → M) : List (String × Json N) → List (String × Json M)
  | [] => []
  | (key, value) :: members => (key, value.map f) :: mapMembers f members

end

variable {f : N → M}

theorem mapItems_eq (items : List (Json N)) : mapItems f items = items.map (map f) := by
  induction items with
  | nil => rfl
  | cons item items ih => rw [mapItems, ih, List.map_cons]

mutual

theorem depth_map : ∀ j : Json N, (j.map f).depth = j.depth
  | null | bool _ | number _ | string _ | illFormed => rfl
  | array items => congrArg (· + 1) (depthItems_map items)
  | object members => congrArg (· + 1) (depthMembers_map members)

theorem depthItems_map : ∀ items : List (Json N), depthItems (mapItems f items) = depthItems items
  | [] => rfl
  | item :: items => congrArg₂ max (depth_map item) (depthItems_map items)

theorem depthMembers_map :
    ∀ members : List (String × Json N), depthMembers (mapMembers f members) = depthMembers members
  | [] => rfl
  | (_, value) :: members => congrArg₂ max (depth_map value) (depthMembers_map members)

end

mutual

theorem wellFormed_map (p : M → Bool) :
    ∀ j : Json N, (j.map f).wellFormed p = j.wellFormed (p ∘ f)
  | null | bool _ | number _ | string _ | illFormed => rfl
  | array items => wellFormedItems_map p items
  | object members => wellFormedMembers_map p members

theorem wellFormedItems_map (p : M → Bool) : ∀ items : List (Json N),
    wellFormedItems p (mapItems f items) = wellFormedItems (p ∘ f) items
  | [] => rfl
  | item :: items => congrArg₂ and (wellFormed_map p item) (wellFormedItems_map p items)

theorem wellFormedMembers_map (p : M → Bool) : ∀ members : List (String × Json N),
    wellFormedMembers p (mapMembers f members) = wellFormedMembers (p ∘ f) members
  | [] => rfl
  | (_, value) :: members =>
    congrArg₂ and (wellFormed_map p value) (wellFormedMembers_map p members)

end

/-! ## Documents -/

variable {number : N → String} {literal : N → Literal}

/-- The text of a number is a literal by itself, and the one it should be. -/
def spells (number : N → String) (literal : N → Literal) (n : N) : Bool :=
  decide (Literal.ofText? (number n).toList = some (literal n))

/-- What stands between the brackets of an array. -/
def itemsText (number : N → String) (items : List (Json N)) : Text :=
  (String.intercalate "," (renderItems number items)).toList

/-- What stands between the braces of an object. -/
def membersText (number : N → String) (members : List (String × Json N)) : Text :=
  (String.intercalate "," (renderMembers number members)).toList

theorem toList_array (items : List (Json N)) :
    (render number (.array items)).toList = '[' :: (itemsText number items ++ [']']) := by
  simp [render, itemsText]

theorem toList_object (members : List (String × Json N)) :
    (render number (.object members)).toList =
      '\x7b' :: (membersText number members ++ ['\x7d']) := by
  simp [render, membersText]

theorem itemsText_singleton (item : Json N) (rest : Text) :
    itemsText number [item] ++ rest = (render number item).toList ++ rest := by
  simp [itemsText, renderItems]

theorem itemsText_cons_cons (item next : Json N) (items : List (Json N)) (rest : Text) :
    itemsText number (item :: next :: items) ++ rest =
      (render number item).toList ++ ',' :: (itemsText number (next :: items) ++ rest) := by
  simp [itemsText, renderItems]

theorem membersText_singleton (key : String) (value : Json N) (rest : Text) :
    membersText number [(key, value)] ++ rest = '"' :: (key.toList.flatMap escape ++
      '"' :: ':' :: ((render number value).toList ++ rest)) := by
  simp [membersText, renderMembers, toList_quoted]

theorem membersText_cons_cons (key : String) (value : Json N) (next : String × Json N)
    (members : List (String × Json N)) (rest : Text) :
    membersText number ((key, value) :: next :: members) ++ rest =
      '"' :: (key.toList.flatMap escape ++ '"' :: ':' :: ((render number value).toList ++
        ',' :: (membersText number (next :: members) ++ rest))) := by
  simp [membersText, renderMembers, toList_quoted]

section Steps

variable {document : Json Literal} {documents : List (Json Literal)} {key : Option Text}
  {members : List (Option Text × Json Literal)}

theorem takes_lastItem (first : Takes (read s) document (']' :: rest)) :
    Takes (readItems s) [document] rest := by
  obtain ⟨_, first⟩ := first
  obtain ⟨_, close⟩ := takes_mark (c := ']') rfl rest
  rw [readItems]
  simp only [first, close, Option.bind_eq_bind, Option.bind_some]
  exact takes_some rfl rfl

theorem takes_nextItem (first : Takes (read s) document (',' :: t))
    (more : Takes (readItems t) documents rest) :
    Takes (readItems s) (document :: documents) rest := by
  obtain ⟨_, first⟩ := first
  obtain ⟨_, comma⟩ := takes_mark (c := ',') rfl t
  obtain ⟨_, more⟩ := more
  have unclosed : mark? ']' (',' :: t) = none := mark?_of_ne rfl (by decide) t
  rw [readItems]
  simp only [first, unclosed, comma, more, Option.bind_eq_bind, Option.bind_some]
  exact takes_some rfl rfl

theorem takes_lastMember (name : Takes (readString s) key (':' :: t))
    (first : Takes (read t) document ('\x7d' :: rest)) :
    Takes (readMembers ('"' :: s)) [(key, document)] rest := by
  obtain ⟨_, quote⟩ := takes_mark (c := '"') rfl s
  obtain ⟨_, name⟩ := name
  obtain ⟨_, colon⟩ := takes_mark (c := ':') rfl t
  obtain ⟨_, first⟩ := first
  obtain ⟨_, close⟩ := takes_mark (c := '\x7d') rfl rest
  rw [readMembers]
  simp only [quote, name, colon, first, close, Option.bind_eq_bind, Option.bind_some]
  exact takes_some rfl rfl

theorem takes_nextMember {u : Text} (name : Takes (readString s) key (':' :: t))
    (first : Takes (read t) document (',' :: u)) (more : Takes (readMembers u) members rest) :
    Takes (readMembers ('"' :: s)) ((key, document) :: members) rest := by
  obtain ⟨_, quote⟩ := takes_mark (c := '"') rfl s
  obtain ⟨_, name⟩ := name
  obtain ⟨_, colon⟩ := takes_mark (c := ':') rfl t
  obtain ⟨_, first⟩ := first
  obtain ⟨_, comma⟩ := takes_mark (c := ',') rfl u
  obtain ⟨_, more⟩ := more
  have unclosed : mark? '\x7d' (',' :: u) = none := mark?_of_ne rfl (by decide) u
  rw [readMembers]
  simp only [quote, name, colon, first, unclosed, comma, more, Option.bind_eq_bind,
    Option.bind_some]
  exact takes_some rfl rfl

theorem takes_array (inside : Takes (readItems s) documents rest) :
    Takes (readHere ('[' :: s)) (.array documents) rest := by
  obtain ⟨_, inside⟩ := inside
  have filled : mark? ']' s = none := by
    obtain ⟨first, here, -⟩ := Option.bind_eq_some_iff.1 ((readItems.eq_1 s).symm.trans inside)
    have begins : Takes (read s) first.value first.rest := ⟨_, here⟩
    exact mark?_bracket_of_takes begins
  rw [readHere, filled, inside]
  exact takes_some rfl rfl

theorem takes_object (inside : Takes (readMembers s) members rest) :
    Takes (readHere ('\x7b' :: s)) (ofMembers members) rest := by
  obtain ⟨_, inside⟩ := inside
  have filled : mark? '\x7d' s = none := by
    obtain ⟨quote, here, -⟩ := Option.bind_eq_some_iff.1 ((readMembers.eq_1 s).symm.trans inside)
    have begins : Takes (mark? '"' s) () quote.rest := ⟨_, here⟩
    exact mark?_of_takes begins (by decide)
  rw [readHere, filled, inside]
  exact takes_some rfl rfl

end Steps

theorem ofMembers_some (members : List (String × Json Literal)) :
    ofMembers (members.map fun m => (some m.1.toList, m.2)) = .object members := by
  have all : (members.map fun m => (some m.1.toList, m.2)).mapM
      (fun (key, value) => key.map fun text => (String.ofList text, value)) = some members := by
    rw [List.mapM_map, mapM_eq_some (g := id) (fun m _ => by simp), List.map_id]
  rw [ofMembers, all]

theorem takes_null (rest : Text) : Takes (read ('n' :: 'u' :: 'l' :: 'l' :: rest)) .null rest := by
  refine takes_read rfl ?_
  rw [readHere]
  exact takes_some rfl rfl

theorem takes_bool (b : Bool) (rest : Text) :
    Takes (read ((if b then ['t', 'r', 'u', 'e'] else ['f', 'a', 'l', 's', 'e']) ++ rest))
      (.bool b) rest := by
  cases b with
  | true =>
    refine takes_read (c := 't') rfl ?_
    rw [readHere]
    exact takes_some rfl rfl
  | false =>
    refine takes_read (c := 'f') rfl ?_
    rw [readHere]
    exact takes_some rfl rfl

theorem takes_quoted (s : String) (rest : Text) :
    Takes (read ((quoted s).toList ++ rest)) (.string s) rest := by
  obtain ⟨_, text⟩ := takes_string s.toList rest
  rw [toList_quoted, List.cons_append, List.append_assoc, List.singleton_append]
  refine takes_read rfl ?_
  rw [readHere, text]
  exact takes_some (congrArg Json.string String.ofList_toList) rfl

theorem takes_emptyArray (rest : Text) : Takes (read ('[' :: ']' :: rest)) (.array []) rest := by
  obtain ⟨_, close⟩ := takes_mark (c := ']') rfl rest
  refine takes_read rfl ?_
  rw [readHere, close]
  exact takes_some rfl rfl

theorem takes_emptyObject (rest : Text) :
    Takes (read ('\x7b' :: '\x7d' :: rest)) (.object []) rest := by
  obtain ⟨_, close⟩ := takes_mark (c := '\x7d') rfl rest
  refine takes_read rfl ?_
  rw [readHere, close]
  exact takes_some rfl rfl

/-- A number is told from other documents by its first character. -/
theorem takes_number {n : Literal} (stops : Stops rest) (own : Literal.ofText? s = some n) :
    Takes (read (s ++ rest)) (.number n) rest := by
  obtain ⟨c, t, rfl, begins⟩ := Literal.exists_cons_of_ofText? own
  have ne {d : Char} (other : d.isDigit = false ∧ d ≠ '-') : c ≠ d := by
    rintro rfl
    rcases begins with digital | sign
    · rw [digital] at other
      cases other.1
    · exact other.2 sign
  have solid : isSpace c = false := by
    simp [isSpace, ne]
  have whole := Literal.takes_of_ofText? stops own
  rw [List.cons_append] at whole ⊢
  obtain ⟨_, whole⟩ := whole
  refine takes_read solid ?_
  rw [readHere, whole]
  · exact takes_some rfl rfl
  · exact List.cons_ne_nil c (t ++ rest)
  all_goals
    intro u shape
    exact ne (by decide) (List.cons.inj shape).1

/-- No number goes on with a mark. -/
theorem stops_mark (mark : c ∈ [',', ']', '\x7d']) (s : Text) : Stops (c :: s) := by
  rintro d here
  cases here
  fin_cases mark <;> decide

-- A number may end where its document does, so what follows must stop it. Inside an array or an
-- object that is the mark behind each item or value.
mutual

theorem takes_render : ∀ (j : Json N) (rest : Text),
    j.wellFormed (spells number literal) = true → Stops rest →
      Takes (read ((render number j).toList ++ rest)) (j.map literal) rest
  | null, rest, _, _ => by
    rw [render]
    exact takes_null rest
  | bool true, rest, _, _ => by
    rw [render]
    exact takes_bool true rest
  | bool false, rest, _, _ => by
    rw [render]
    exact takes_bool false rest
  | .number n, rest, spelled, stops => by
    rw [render]
    exact takes_number stops (of_decide_eq_true spelled)
  | string s, rest, _, _ => by
    rw [render]
    exact takes_quoted s rest
  | array [], rest, _, _ => by
    rw [toList_array]
    exact takes_emptyArray rest
  | array (item :: items), rest, spelled, _ => by
    have inside := takes_items (item :: items) rest spelled (List.cons_ne_nil _ _)
    rw [toList_array, List.cons_append, List.append_assoc]
    exact takes_read rfl (takes_array inside)
  | object [], rest, _, _ => by
    rw [toList_object]
    exact takes_emptyObject rest
  | object (m :: members), rest, spelled, _ => by
    have inside := takes_members (m :: members) rest spelled (List.cons_ne_nil _ _)
    rw [toList_object, List.cons_append, List.append_assoc]
    refine takes_read rfl ?_
    have whole := takes_object inside
    rwa [ofMembers_some] at whole
  | illFormed, rest, spelled, _ => nomatch spelled

theorem takes_items : ∀ (items : List (Json N)) (rest : Text),
    wellFormedItems (spells number literal) items = true → items ≠ [] →
      Takes (readItems (itemsText number items ++ ']' :: rest)) (mapItems literal items) rest
  | [], _, _, nonempty => absurd rfl nonempty
  | [item], rest, spelled, _ => by
    obtain ⟨spelled, -⟩ := Bool.and_eq_true_iff.1 spelled
    rw [itemsText_singleton]
    exact takes_lastItem (takes_render item _ spelled (stops_mark (by decide) rest))
  | item :: next :: items, rest, spelled, _ => by
    obtain ⟨first, more⟩ := Bool.and_eq_true_iff.1 spelled
    rw [itemsText_cons_cons]
    exact takes_nextItem (takes_render item _ first (stops_mark (by decide) _))
      (takes_items (next :: items) rest more (List.cons_ne_nil _ _))

theorem takes_members : ∀ (members : List (String × Json N)) (rest : Text),
    wellFormedMembers (spells number literal) members = true → members ≠ [] →
      Takes (readMembers (membersText number members ++ '\x7d' :: rest))
        ((mapMembers literal members).map fun m => (some m.1.toList, m.2)) rest
  | [], _, _, nonempty => absurd rfl nonempty
  | [(key, value)], rest, spelled, _ => by
    obtain ⟨spelled, -⟩ := Bool.and_eq_true_iff.1 spelled
    have first := takes_render value ('\x7d' :: rest) spelled (stops_mark (by decide) rest)
    rw [membersText_singleton]
    exact takes_lastMember (takes_string key.toList _) first
  | (key, value) :: next :: members, rest, spelled, _ => by
    obtain ⟨spelled, others⟩ := Bool.and_eq_true_iff.1 spelled
    have first := takes_render value
      (',' :: (membersText number (next :: members) ++ '\x7d' :: rest)) spelled
      (stops_mark (by decide) _)
    have more := takes_members (next :: members) rest others (List.cons_ne_nil _ _)
    rw [membersText_cons_cons]
    exact takes_nextMember (takes_string key.toList _) first more

end

/-- **A written document is read back**, with the literals its numbers are written as. -/
theorem read_render {j : Json N} (spelled : j.wellFormed (spells number literal) = true) :
    Takes (read (render number j).toList) (j.map literal) [] := by
  have whole := takes_render j [] spelled QubitTrace.Literal.Unsigned.stops_nil
  rwa [List.append_nil] at whole

end QubitTrace.Json
