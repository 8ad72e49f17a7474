import Mathlib.Data.List.TakeWhile
import Mathlib.Data.Option.Basic
import QueryPad.Proofs.Text.Position

-- What the lines of a text hold: every one but the last is ended, and no line
-- holds an end before its own.
namespace QueryPad.Text

-- What is dropped of a list stops before the first that need not be.
theorem not_of_mem_head?_dropWhile {α : Type} {p : α → Bool} {xs : List α} {x : α}
    (h : x ∈ (xs.dropWhile p).head?) : ¬ p x := by
  have hstop := List.head?_dropWhile_not p xs
  rw [Option.mem_def.mp h] at hstop
  simpa using hstop

section Sizes

variable {chars : List Char}

@[simp] theorem unitSize_append (a b : List Char) :
    unitSize (a ++ b) = unitSize a + unitSize b := by
  induction a with
  | nil => simp [unitSize]
  | cons c rest ih =>
    rw [List.cons_append, unitSize, unitSize, ih]
    omega

theorem takeBytes_append (before after : List Char) :
    takeBytes (before ++ after) (byteSize before) = before := by
  induction before with
  | nil =>
    cases after with
    | nil => rfl
    | cons c rest =>
      have hc := c.utf8Size_pos
      rw [List.nil_append, takeBytes, byteSize_nil, if_neg (by omega)]
  | cons c rest ih =>
    rw [List.cons_append, byteSize_cons, takeBytes, if_pos (Nat.le_add_right _ _),
      Nat.add_sub_cancel_left, ih]

theorem takeUnits_prefix (chars : List Char) (room : Nat) : takeUnits chars room <+: chars := by
  induction chars generalizing room with
  | nil => exact List.nil_prefix
  | cons c rest ih =>
    rw [takeUnits]
    split
    · obtain ⟨tail, htail⟩ := ih (room - units16 c)
      exact ⟨tail, by rw [List.cons_append, htail]⟩
    · exact List.nil_prefix

theorem byteSize_takeUnits_le (chars : List Char) (room : Nat) :
    byteSize (takeUnits chars room) ≤ byteSize chars := by
  obtain ⟨tail, htail⟩ := takeUnits_prefix chars room
  have hsize := congrArg byteSize htail
  rw [byteSize_append] at hsize
  omega

-- What fits into a number of units, measured in bytes.
theorem byteSize_le_takeUnits_iff (before after : List Char) (room : Nat) :
    byteSize before ≤ byteSize (takeUnits (before ++ after) room) ↔ unitSize before ≤ room := by
  induction before generalizing room with
  | nil => simp [unitSize]
  | cons c rest ih =>
    have hc := c.utf8Size_pos
    have hrest := ih (room - units16 c)
    rw [List.cons_append, takeUnits, byteSize_cons, unitSize]
    by_cases hfits : units16 c ≤ room
    · rw [if_pos hfits, byteSize_cons]
      omega
    · rw [if_neg hfits, byteSize_nil]
      omega

end Sizes

namespace Line

def IsPlain (line : Line) : Prop := ∀ c ∈ line.content, c ≠ '\n' ∧ c ≠ '\r'

-- CR before LF is no end of its own.
def IsEndedBefore (line : Line) (rest : List Char) : Prop :=
  line.ending = ['\n'] ∨ line.ending = ['\r', '\n'] ∨
    line.ending = ['\r'] ∧ rest.head? ≠ some '\n'

theorem IsEndedBefore.byteSize_lt {line : Line} {rest : List Char}
    (h : line.IsEndedBefore rest) : byteSize line.content < byteSize line.chars := by
  have hending : 0 < byteSize line.ending := by
    rcases h with h | h | ⟨h, _⟩ <;> rw [h] <;> decide
  rw [chars, byteSize_append]
  omega

theorem IsEndedBefore.exists_last {line : Line} {rest : List Char}
    (h : line.IsEndedBefore rest) : ∃ c, line.chars.getLast? = some c ∧ (c = '\n' ∨ c = '\r') := by
  rcases h with h | h | ⟨h, _⟩ <;> simp [chars, h]

end Line

-- Every line but the last one is ended, and holds no other end.
def Parted : Line → List Line → Prop
  | line, [] => line.IsPlain ∧ line.ending = []
  | line, next :: more =>
    line.IsPlain ∧ line.IsEndedBefore ((next :: more).flatMap Line.chars) ∧ Parted next more

theorem linesFrom_parted (start : Nat) (text : List Char) :
    Parted (linesFrom start text).1 (linesFrom start text).2 := by
  fun_induction linesFrom start text with
  | case1 start => exact ⟨by simp [Line.IsPlain], rfl⟩
  | case2 start rest ih => exact ⟨by simp [Line.IsPlain], .inr (.inl rfl), ih⟩
  | case3 start rest hrest ih =>
    refine ⟨by simp [Line.IsPlain], .inr (.inr ⟨rfl, fun hhead => ?_⟩), ih⟩
    rw [linesFrom_join] at hhead
    obtain ⟨tail, rfl⟩ := List.head?_eq_some_iff.mp hhead
    exact hrest tail rfl
  | case4 start rest ih => exact ⟨by simp [Line.IsPlain], .inl rfl, ih⟩
  | case5 start c rest hcr hlf hcrlf line more hlines ih =>
    rw [hlines] at ih
    have hplain : line.IsPlain → (line.extend c start).IsPlain := by
      intro hline
      refine List.forall_mem_cons.mpr ⟨⟨fun hc => ?_, fun hc => ?_⟩, hline⟩
      · exact hcrlf hc
      · exact hlf hc
    cases more with
    | nil => exact ⟨hplain ih.1, ih.2⟩
    | cons next more => exact ⟨hplain ih.1, ih.2⟩

namespace LineIndex

variable {number : Nat} {line : Line} {more : List Line} {before after : List Char}

-- No line starts between two offsets with no line end between them.
theorem lineAt_append {mid : List Char} (hadjacent : Adjacent line more)
    (hparted : Parted line more)
    (hjoin : (line :: more).flatMap Line.chars = before ++ (mid ++ after))
    (hmid : ∀ c ∈ mid, c ≠ '\n' ∧ c ≠ '\r') :
    lineAt (line.start + byteSize (before ++ mid)) number line more =
      lineAt (line.start + byteSize before) number line more := by
  induction more generalizing line number before with
  | nil => rfl
  | cons next more ih =>
    obtain ⟨_, hended, hmore⟩ := hparted
    obtain ⟨hnext, hlater⟩ := hadjacent
    by_cases hbehind : byteSize line.chars ≤ byteSize before
    · obtain ⟨inside, rfl, hrest⟩ := exists_append_of_byteSize_le hjoin hbehind
      have hshift : ∀ rest, line.start + byteSize (line.chars ++ rest) =
          next.start + byteSize rest := by
        intro rest
        rw [byteSize_append]
        omega
      rw [List.append_assoc, hshift, hshift, lineAt, lineAt, if_pos (Nat.le_add_right _ _),
        if_pos (Nat.le_add_right _ _)]
      exact @ih (number + 1) next inside hlater hmore hrest
    · obtain ⟨tail, hchars, hrest⟩ := exists_append_of_byteSize_le hjoin.symm (by omega)
      have hshort : ¬ next.start ≤ line.start + byteSize (before ++ mid) := by
        intro hle
        have hsize := congrArg byteSize hchars
        rw [byteSize_append] at hle hsize
        -- the end of the line would stand between the offsets
        obtain ⟨_, hinside, _⟩ := exists_append_of_byteSize_le hrest.symm (by omega)
        obtain ⟨c, hlast, hbreak⟩ := hended.exists_last
        have htail : c ∈ tail := by
          rw [hchars, List.getLast?_append] at hlast
          cases hfound : tail.getLast? with
          | some d =>
            rw [hfound] at hlast
            exact Option.some.inj hlast ▸ List.mem_of_getLast? hfound
          | none =>
            obtain rfl := List.getLast?_eq_none_iff.mp hfound
            rw [byteSize_nil] at hsize
            omega
        have hc := hmid c (hinside ▸ List.mem_append_left _ htail)
        exact hbreak.elim hc.1 hc.2
      rw [lineAt, lineAt, if_neg hshort, if_neg (by omega)]

theorem ofChars_parted (text : List Char) : Parted (ofChars text).first (ofChars text).more :=
  linesFrom_parted 0 text

-- Places on one line, with no line end between their offsets.
theorem line_positionAt_append {text mid : List Char}
    (htext : text = before ++ (mid ++ after)) (hmid : ∀ c ∈ mid, c ≠ '\n' ∧ c ≠ '\r') :
    ((ofChars text).positionAt (byteSize (before ++ mid))).line =
      ((ofChars text).positionAt (byteSize before)).line := by
  have hsame := @lineAt_append 0 _ _ before after mid (ofChars_adjacent text)
    (ofChars_parted text) ((ofChars_join text).trans htext) hmid
  rw [ofChars_start, Nat.zero_add, Nat.zero_add] at hsame
  rw [positionAt_eq, positionAt_eq, hsame]

end LineIndex

end QueryPad.Text

-- The characters between two offsets of a text.
namespace QueryPad.Text

theorem slice?_append (before inside after : List Char) :
    slice? (before ++ (inside ++ after)) (byteSize before) (byteSize (before ++ inside)) =
      some inside := by
  have hle : byteSize before ≤ byteSize (before ++ inside) := by
    rw [byteSize_append]
    omega
  have hsize : byteSize (before ++ inside) - byteSize before = byteSize inside := by
    rw [byteSize_append]
    omega
  have hguard : (guard (byteSize before ≤ byteSize (before ++ inside)) : Option Unit) = some () :=
    if_pos hle
  rw [slice?, hguard, splitAtByte?_append, hsize]
  dsimp only [Option.bind_eq_bind, Option.bind_some]
  rw [splitAtByte?_append]
  rfl

theorem slice?_eq_some_iff {text inside : List Char} {start stop : Nat} :
    slice? text start stop = some inside ↔
      ∃ before after, text = before ++ (inside ++ after) ∧ start = byteSize before ∧
        stop = byteSize (before ++ inside) := by
  constructor
  · intro h
    simp only [slice?, Option.bind_eq_bind, Option.bind_eq_some_iff] at h
    obtain ⟨_, hguard, ⟨before, rest⟩, hrest, ⟨inside', after⟩, hinside, hself⟩ := h
    have hle : start ≤ stop := by
      by_cases hle : start ≤ stop
      · exact hle
      · have hnone : (guard (start ≤ stop) : Option Unit) = none := if_neg hle
        rw [hnone] at hguard
        contradiction
    obtain rfl : inside' = inside := Option.some.inj hself
    obtain ⟨htext, hstart⟩ := splitAtByte?_eq_some hrest
    obtain ⟨hrest, hstop⟩ := splitAtByte?_eq_some hinside
    refine ⟨before, after, ?_, hstart.symm, ?_⟩
    · rw [hrest, htext]
    · rw [byteSize_append]
      omega
  · rintro ⟨before, after, rfl, rfl, rfl⟩
    exact slice?_append before inside after

-- An offset between two characters of a text, or at one of its ends.
def IsCut (text : List Char) (offset : Nat) : Prop :=
  ∃ before after, text = before ++ after ∧ offset = byteSize before

namespace IsCut

variable {text : List Char} {start stop : Nat}

theorem zero (text : List Char) : IsCut text 0 := ⟨[], text, rfl, rfl⟩

theorem le_size (h : IsCut text stop) : stop ≤ byteSize text := by
  obtain ⟨before, after, rfl, rfl⟩ := h
  rw [byteSize_append]
  omega

theorem min (h : IsCut text start) (hother : IsCut text stop) : IsCut text (min start stop) := by
  rcases Nat.le_total start stop with hle | hle
  · rwa [Nat.min_eq_left hle]
  · rwa [Nat.min_eq_right hle]

theorem max (h : IsCut text start) (hother : IsCut text stop) : IsCut text (max start stop) := by
  rcases Nat.le_total start stop with hle | hle
  · rwa [Nat.max_eq_right hle]
  · rwa [Nat.max_eq_left hle]

-- What stands between two cuts.
theorem exists_split (h : IsCut text start) (hstop : IsCut text stop) (hle : start ≤ stop) :
    ∃ before inside after, text = before ++ (inside ++ after) ∧ start = byteSize before ∧
      stop = byteSize (before ++ inside) := by
  obtain ⟨before, after, htext, rfl⟩ := h
  obtain ⟨front, back, hfront, rfl⟩ := hstop
  obtain ⟨inside, rfl, rfl⟩ :=
    LineIndex.exists_append_of_byteSize_le (htext.symm.trans hfront) hle
  exact ⟨before, inside, back, htext, rfl, rfl⟩

theorem exists_slice? (h : IsCut text start) (hstop : IsCut text stop) (hle : start ≤ stop) :
    ∃ inside, slice? text start stop = some inside := by
  obtain ⟨before, inside, after, rfl, rfl, rfl⟩ := h.exists_split hstop hle
  exact ⟨inside, slice?_append before inside after⟩

end IsCut

theorem slice?_self (text : List Char) (offset : Nat) :
    (slice? text offset offset).getD [] = [] := by
  cases hslice : slice? text offset offset with
  | none => rfl
  | some inside =>
    obtain ⟨before, _, _, hstart, hstop⟩ := slice?_eq_some_iff.mp hslice
    rw [byteSize_append] at hstop
    have hinside : byteSize inside = 0 := by omega
    exact eq_nil_of_byteSize hinside

theorem byteSize_le_of_prefix {a b : List Char} (h : a <+: b) : byteSize a ≤ byteSize b := by
  obtain ⟨rest, rfl⟩ := h
  rw [byteSize_append]
  omega

end QueryPad.Text

-- Texts that stand on one line, and texts that are made of such lines.
namespace QueryPad.Text

def IsOneLine (text : String) : Prop := '\n' ∉ text.toList

instance : DecidablePred IsOneLine := fun text =>
  inferInstanceAs (Decidable ('\n' ∉ text.toList))

section Parts

variable {chars : List Char} {first second : String}

@[simp] theorem isOneLine_append :
    IsOneLine (first ++ second) ↔ IsOneLine first ∧ IsOneLine second := by
  simp [IsOneLine, not_or]

@[simp] theorem isOneLine_ofList : IsOneLine (.ofList chars) ↔ '\n' ∉ chars := by
  rw [IsOneLine, String.toList_ofList]

@[simp] theorem isOneLine_push {c : Char} :
    IsOneLine (first.push c) ↔ IsOneLine first ∧ c ≠ '\n' := by
  simp [IsOneLine, not_or, eq_comm]

@[simp] theorem isOneLine_repr (n : Nat) : IsOneLine n.repr := by
  rw [Nat.repr_eq_ofList_toDigits, isOneLine_ofList]
  exact fun hmem => absurd (Nat.isDigit_of_mem_toDigits (by decide) (by decide) hmem) (by decide)

end Parts

theorem mem_of_mem_trimBlanks {c : Char} (h : c ∈ trimBlanks chars) : c ∈ chars := by
  have hfront := List.mem_reverse.mp ((List.dropWhile_suffix isBlank).subset (List.mem_reverse.mp h))
  exact (List.dropWhile_suffix isBlank).subset hfront

theorem isOneLine_lastLine (text : String) : IsOneLine (lastLine text) := by
  rw [lastLine, isOneLine_ofList]
  intro hmem
  have htaken := List.mem_reverse.mp (mem_of_mem_trimBlanks hmem)
  exact absurd (List.mem_takeWhile_imp htaken) (by decide)

section Lines

variable {lines : List (List Char)}

-- A line that is cut in two loses its rest at the first cut.
theorem splitOn_lines_iff :
    (lines.flatMap (· ++ ['\n'])).splitOn '\n' = lines ++ [[]] ↔ ∀ line ∈ lines, '\n' ∉ line := by
  induction lines with
  | nil => simp
  | cons line lines ih =>
    rw [List.flatMap_cons, List.append_assoc, List.singleton_append, List.forall_mem_cons]
    by_cases hline : '\n' ∈ line
    · obtain ⟨before, after, rfl, hbefore⟩ := List.eq_append_cons_of_mem hline
      rw [List.append_assoc, List.cons_append, List.splitOn_append_cons_self_of_not_mem hbefore]
      refine iff_of_false (fun heq => ?_) fun h => h.1 hline
      have hlength := congrArg List.length (List.cons.inj heq).1
      simp at hlength
    · rw [List.splitOn_append_cons_self_of_not_mem hline, List.cons_append, List.cons.injEq]
      simp [hline, ih]

theorem splitOn_join_iff {lines : List String} :
    (String.join (lines.map (· ++ "\n"))).toList.splitOn '\n' = lines.map String.toList ++ [[]] ↔
      ∀ line ∈ lines, IsOneLine line := by
  have hchars : (String.join (lines.map (· ++ "\n"))).toList =
      (lines.map String.toList).flatMap (· ++ ['\n']) := by
    rw [String.toList_join, List.flatMap_map, List.flatMap_map]
    simp [String.toList_append]
  rw [hchars, splitOn_lines_iff, List.forall_mem_map]
  rfl

end Lines

end QueryPad.Text
