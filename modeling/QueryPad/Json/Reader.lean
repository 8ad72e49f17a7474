import QueryPad.Json.Number
import QueryPad.Text.Width

namespace QueryPad

open Text

namespace JsonReader

-- Why reading stopped, before lines and columns are counted.
inductive Stop where
  | fault (fault : JsonFault)
  -- A bracket nested too deeply, with the text from it on.
  | tooDeep (rest : List Char)

-- Something read, and a text that is shorter than the one before.
abbrev Result (α : Type) (cs : List Char) :=
  Except Stop (α × { rest : List Char // rest.length < cs.length })

def malformed {α : Type} : Except Stop α := throw (.fault .malformed)

def isBlank (c : Char) : Bool := c = ' ' || c = '\n' || c = '\t' || c = '\r'

def skipBlank (cs : List Char) : List Char := cs.dropWhile isBlank

theorem skipBlank_length (cs : List Char) : (skipBlank cs).length ≤ cs.length :=
  (List.dropWhile_suffix isBlank).length_le

def hexValue? (c : Char) : Option Nat :=
  if '0' ≤ c && c ≤ '9' then some (c.toNat - 48)
  else if 'a' ≤ c && c ≤ 'f' then some (c.toNat - 87)
  else if 'A' ≤ c && c ≤ 'F' then some (c.toNat - 55)
  else none

def hex4? (a b c d : Char) : Option Nat := do
  return ((← hexValue? a) * 16 + (← hexValue? b)) * 256 + (← hexValue? c) * 16 + (← hexValue? d)

def escaped? : Char → Option Char
  | '"' => some '"'
  | '\\' => some '\\'
  | '/' => some '/'
  | 'b' => some '\x08'
  | 'f' => some '\x0c'
  | 'n' => some '\n'
  | 'r' => some '\r'
  | 't' => some '\t'
  | _ => none

def isHighSurrogate (unit : Nat) : Bool := 0xD800 ≤ unit && unit ≤ 0xDBFF
def isLowSurrogate (unit : Nat) : Bool := 0xDC00 ≤ unit && unit ≤ 0xDFFF

def withChar (c : Char) (read : Option (List Char × List Char)) :
    Option (List Char × List Char) :=
  read.map fun (chars, rest) => (c :: chars, rest)

theorem withChar_eq_some {c : Char} {read : Option (List Char × List Char)}
    {chars rest : List Char} (h : withChar c read = some (chars, rest)) :
    ∃ tail, read = some (tail, rest) := by
  obtain ⟨⟨tail, after⟩, hr, he⟩ := Option.map_eq_some_iff.mp h
  simp only [Prod.mk.injEq] at he
  exact ⟨tail, he.2 ▸ hr⟩

-- A string after its opening quote. A high surrogate waits for the low one
-- that must come next.
def stringBody (high : Option Nat) : List Char → Option (List Char × List Char)
  | '"' :: rest => if high.isSome then none else some ([], rest)
  | '\\' :: 'u' :: a :: b :: c :: d :: rest =>
    match hex4? a b c d, high with
    | none, _ => none
    | some unit, some high =>
      if isLowSurrogate unit then
        withChar (.ofNat (0x10000 + (high - 0xD800) * 0x400 + (unit - 0xDC00)))
          (stringBody none rest)
      else none
    | some unit, none =>
      if isHighSurrogate unit then stringBody (some unit) rest
      else if isLowSurrogate unit then none
      else withChar (.ofNat unit) (stringBody none rest)
  | '\\' :: e :: rest =>
    match escaped? e, high with
    | some c, none => withChar c (stringBody none rest)
    | _, _ => none
  | c :: rest =>
    if high.isSome || c.toNat < 32 || c = '\\' then none
    else withChar c (stringBody none rest)
  | [] => none

theorem stringBody_length {high : Option Nat} {cs chars rest : List Char}
    (h : stringBody high cs = some (chars, rest)) : rest.length < cs.length := by
  fun_induction stringBody high cs generalizing chars
  all_goals grind [withChar_eq_some, List.length_cons]

-- What stands after a word at the start of a text.
def afterWord? (word : List Char) (cs : List Char) : Option (List Char) :=
  if word.isPrefixOf cs then some (cs.drop word.length) else none

theorem afterWord?_length {word cs rest : List Char} (h : afterWord? word cs = some rest) :
    rest.length ≤ cs.length := by
  unfold afterWord? at h
  split at h
  · cases h
    simp
  · cases h

-- A value that is neither a string nor in brackets.
def plain (cs : List Char) : Option (Json × List Char) :=
  match cs with
  | 'n' :: rest => (afterWord? "ull".toList rest).map fun rest => (.null, rest)
  | 't' :: rest => (afterWord? "rue".toList rest).map fun rest => (.bool true, rest)
  | 'f' :: rest => (afterWord? "alse".toList rest).map fun rest => (.bool false, rest)
  | cs => do
    let (number, rest) ← NumberText.split? cs
    return (.number (← number.value?), rest)

theorem plain_length {cs rest : List Char} {json : Json} (h : plain cs = some (json, rest)) :
    rest.length < cs.length := by
  unfold plain at h
  split at h
  · obtain ⟨r, hr, he⟩ := Option.map_eq_some_iff.mp h
    obtain ⟨_, rfl⟩ := Prod.mk.inj he
    exact Nat.lt_succ_of_le (afterWord?_length hr)
  · obtain ⟨r, hr, he⟩ := Option.map_eq_some_iff.mp h
    obtain ⟨_, rfl⟩ := Prod.mk.inj he
    exact Nat.lt_succ_of_le (afterWord?_length hr)
  · obtain ⟨r, hr, he⟩ := Option.map_eq_some_iff.mp h
    obtain ⟨_, rfl⟩ := Prod.mk.inj he
    exact Nat.lt_succ_of_le (afterWord?_length hr)
  · simp only [Option.bind_eq_bind, Option.bind_eq_some_iff] at h
    obtain ⟨⟨number, r⟩, hr, v, _, he⟩ := h
    simp only [pure, Option.some.injEq, Prod.mk.injEq] at he
    obtain ⟨_, rfl⟩ := he
    exact NumberText.split?_length hr

-- The first character that is not blank, which what follows depends on.
def skipTo (cs : List Char) : Option (Char × { rest : List Char // rest.length < cs.length }) :=
  match h : skipBlank cs with
  | [] => none
  | c :: rest =>
    some (c, ⟨rest, by
      have := skipBlank_length cs
      rw [h, List.length_cons] at this
      omega⟩)

def key (cs : List Char) : Result String cs :=
  match skipTo cs with
  | some ('"', ⟨rest, _⟩) =>
    match h : stringBody none rest with
    | some (chars, after) =>
      have := stringBody_length h
      match skipTo after with
      | some (':', ⟨rest, _⟩) => .ok (.ofList chars, ⟨rest, by omega⟩)
      | _ => malformed
    | none => malformed
  | _ => malformed

mutual

-- A value, with room for so many levels of brackets.
def value (room : Nat) (cs : List Char) : Result Json cs :=
  match skipTo cs with
  | none => malformed
  | some (c, ⟨rest, _⟩) =>
    if c = '"' then
      match h : stringBody none rest with
      | some (chars, after) =>
        have := stringBody_length h
        .ok (.string (.ofList chars), ⟨after, by omega⟩)
      | none => malformed
    else if c = '[' || c = '{' then
      match room with
      | 0 => throw (.tooDeep (c :: rest))
      | room + 1 =>
        if c = '[' then
          match skipTo rest with
          | some (']', ⟨after, _⟩) => .ok (.array [], ⟨after, by omega⟩)
          | _ => do
            let (items, ⟨after, _⟩) ← items room rest
            .ok (.array items, ⟨after, by omega⟩)
        else
          match skipTo rest with
          | some ('}', ⟨after, _⟩) => .ok (.object [], ⟨after, by omega⟩)
          | _ => do
            let (fields, ⟨after, _⟩) ← fields room rest
            .ok (.object (mergeFields fields), ⟨after, by omega⟩)
    else
      match h : plain (c :: rest) with
      | some (json, after) =>
        have := plain_length h
        .ok (json, ⟨after, by simp only [List.length_cons] at this; omega⟩)
      | none => malformed
termination_by 2 * cs.length

-- The items of an array that has one, up to its closing bracket.
def items (room : Nat) (cs : List Char) : Result (List Json) cs := do
  let (item, ⟨rest, _⟩) ← value room cs
  match skipTo rest with
  | some (',', ⟨rest, _⟩) =>
    let (more, ⟨after, _⟩) ← items room rest
    .ok (item :: more, ⟨after, by omega⟩)
  | some (']', ⟨after, _⟩) => .ok ([item], ⟨after, by omega⟩)
  | _ => malformed
termination_by 2 * cs.length + 1

-- The fields of an object that has one, up to its closing brace.
def fields (room : Nat) (cs : List Char) : Result (List (String × Json)) cs := do
  let (name, ⟨rest, _⟩) ← key cs
  let (field, ⟨rest, _⟩) ← value room rest
  match skipTo rest with
  | some (',', ⟨rest, _⟩) =>
    let (more, ⟨after, _⟩) ← fields room rest
    .ok ((name, field) :: more, ⟨after, by omega⟩)
  | some ('}', ⟨after, _⟩) => .ok ([(name, field)], ⟨after, by omega⟩)
  | _ => malformed
termination_by 2 * cs.length

end

-- Brackets nest at most this deep.
def levels : Nat := 127

end JsonReader

namespace Json

-- A text that holds one value and blanks around it.
def ofChars (cs : List Char) : Except JsonFault Json :=
  match JsonReader.value JsonReader.levels cs with
  | .ok (json, rest) =>
    if (JsonReader.skipBlank rest.1).isEmpty then .ok json else .error .malformed
  | .error (.fault fault) => .error fault
  | .error (.tooDeep rest) =>
    let before := cs.take (cs.length - rest.length)
    let line := before.reverse.takeWhile (· ≠ '\n')
    .error (.tooDeep (before.count '\n' + 1) (byteSize line + 1))

def ofText (text : String) : Except JsonFault Json := ofChars text.toList

end Json

end QueryPad
