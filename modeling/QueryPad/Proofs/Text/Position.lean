import QueryPad.Text.Lines

-- Places of a text come in the order of its bytes.
namespace QueryPad.Text

namespace Position

variable {a b c : Position}

theorem le_refl (a : Position) : a ≤ a := by
  rw [le_iff]
  omega

theorem le_trans (hab : a ≤ b) (hbc : b ≤ c) : a ≤ c := by
  rw [le_iff] at *
  omega

theorem lt_of_lt_of_le (hab : a < b) (hbc : b ≤ c) : a < c := by
  rw [le_iff] at hbc
  rw [lt_iff] at *
  omega

theorem le_of_lt (h : a < b) : a ≤ b := by
  rw [le_iff]
  rw [lt_iff] at h
  omega

theorem not_le : ¬ a ≤ b ↔ b < a := by
  rw [le_iff, lt_iff]
  omega

theorem lt_irrefl (a : Position) : ¬ a < a := by
  rw [lt_iff]
  omega

theorem le_antisymm (hab : a ≤ b) (hba : b ≤ a) : a = b := by
  obtain ⟨line, character⟩ := a
  obtain ⟨line', character'⟩ := b
  simp only [le_iff] at hab hba
  simp only [mk.injEq]
  omega

theorem line_le (h : a ≤ b) : a.line ≤ b.line := by
  rw [le_iff] at h
  omega

end Position

namespace Range

variable {range : Range} {p q : Position}

theorem holds_iff : range.holds p ↔ range.start ≤ p ∧ p ≤ range.stop := by
  simp [holds]

theorem holds_emptyAt : (emptyAt q).holds p ↔ q = p := by
  rw [holds_iff]
  constructor
  · exact fun h => Position.le_antisymm h.1 h.2
  · rintro rfl
    exact ⟨Position.le_refl q, Position.le_refl q⟩

-- What starts before a place and does not reach it ends before it.
theorem stop_le_of_not_holds (hstart : range.start ≤ p) (h : ¬ range.holds p) :
    range.stop ≤ p := by
  rw [holds_iff] at h
  exact Position.le_of_lt (Position.not_le.mp fun hstop => h ⟨hstart, hstop⟩)

end Range

section Cut

variable {chars : List Char} {room room' : Nat}

theorem unitSize_takeBytes_mono (chars : List Char) (h : room ≤ room') :
    unitSize (takeBytes chars room) ≤ unitSize (takeBytes chars room') := by
  induction chars generalizing room room' with
  | nil => simp [takeBytes]
  | cons c rest ih =>
    rw [takeBytes, takeBytes]
    by_cases hfits : c.utf8Size ≤ room
    · have hrest := @ih (room - c.utf8Size) (room' - c.utf8Size) (by omega)
      rw [if_pos hfits, if_pos (by omega), unitSize, unitSize]
      omega
    · simp [hfits, unitSize]

theorem eq_nil_of_byteSize (h : byteSize chars = 0) : chars = [] := by
  cases chars with
  | nil => rfl
  | cons c rest =>
    have hc := c.utf8Size_pos
    rw [byteSize_cons] at h
    omega

theorem takeBytes_eq_self (h : byteSize chars ≤ room) : takeBytes chars room = chars := by
  induction chars generalizing room with
  | nil => rfl
  | cons c rest ih =>
    rw [byteSize_cons] at h
    rw [takeBytes, if_pos (by omega), ih (by omega)]

theorem units16_pos (c : Char) : 0 < units16 c := by
  unfold units16
  split <;> omega

-- A cut at the end of a character takes more than any cut before it.
theorem unitSize_takeBytes_lt (before after : List Char) (h : room < byteSize before) :
    unitSize (takeBytes (before ++ after) room) <
      unitSize (takeBytes (before ++ after) (byteSize before)) := by
  induction before generalizing room with
  | nil => simp at h
  | cons c rest ih =>
    rw [byteSize_cons] at h
    have hc := units16_pos c
    rw [List.cons_append, byteSize_cons, takeBytes, takeBytes, if_pos (Nat.le_add_right _ _),
      Nat.add_sub_cancel_left, unitSize]
    by_cases hfits : c.utf8Size ≤ room
    · have hrest := @ih (room - c.utf8Size) (by omega)
      rw [if_pos hfits, unitSize]
      omega
    · rw [if_neg hfits, unitSize]
      omega

end Cut

-- The lines of a text follow each other without a gap.
def Adjacent : Line → List Line → Prop
  | _, [] => True
  | line, next :: more => next.start = line.start + byteSize line.chars ∧ Adjacent next more

theorem linesFrom_start (start : Nat) (text : List Char) :
    (linesFrom start text).1.start = start := by
  fun_induction linesFrom start text <;> simp_all [Line.extend]

theorem linesFrom_adjacent (start : Nat) (text : List Char) :
    Adjacent (linesFrom start text).1 (linesFrom start text).2 := by
  fun_induction linesFrom start text with
  | case1 => trivial
  | case2 start rest ih =>
    exact ⟨linesFrom_start (start + 2) rest, ih⟩
  | case3 start rest hrest ih =>
    exact ⟨linesFrom_start (start + 1) rest, ih⟩
  | case4 start rest ih =>
    exact ⟨linesFrom_start (start + 1) rest, ih⟩
  | case5 start c rest hcr hlf hcrlf line more hlines ih =>
    have hstart := linesFrom_start (start + c.utf8Size) rest
    rw [hlines] at ih hstart
    cases more with
    | nil => trivial
    | cons next more =>
      refine ⟨?_, ih.2⟩
      have hnext := ih.1
      simp only [Line.extend, Line.chars, List.cons_append, byteSize_cons] at hnext hstart ⊢
      omega

namespace LineIndex

variable {offset offset' number : Nat} {line : Line} {more : List Line}

-- A later offset lies on the same line or on a later one.
theorem lineAt_mono (h : offset ≤ offset') (number : Nat) (line : Line) (more : List Line) :
    (lineAt offset number line more).1 < (lineAt offset' number line more).1 ∨
      lineAt offset number line more = lineAt offset' number line more := by
  have hlater : ∀ offset number line more, number ≤ (lineAt offset number line more).1 := by
    intro offset number line more
    fun_induction lineAt offset number line more <;> omega
  induction more generalizing number line with
  | nil => exact .inr rfl
  | cons next more ih =>
    rw [lineAt, lineAt]
    by_cases hnext : next.start ≤ offset
    · rw [if_pos hnext, if_pos (by omega)]
      exact ih (number + 1) next
    · rw [if_neg hnext]
      split
      · exact .inl (hlater offset' (number + 1) next more)
      · exact .inr rfl

-- The line of an offset, with the text before it and behind it.
theorem lineAt_split (hadjacent : Adjacent line more) (hstart : line.start ≤ offset) :
    ∃ before after, (line :: more).flatMap Line.chars =
        before ++ (lineAt offset number line more).2.chars ++ after ∧
      (lineAt offset number line more).2.start = line.start + byteSize before ∧
      (lineAt offset number line more).2.start ≤ offset ∧
      (after = [] ∨ offset < (lineAt offset number line more).2.start +
        byteSize (lineAt offset number line more).2.chars) := by
  induction more generalizing number line with
  | nil => exact ⟨[], [], by simp [lineAt], by simp [lineAt], hstart, .inl rfl⟩
  | cons next more ih =>
    obtain ⟨hnext, hmore⟩ := hadjacent
    rw [lineAt]
    by_cases hinside : next.start ≤ offset
    · obtain ⟨before, after, hchars, hbefore, hle, hend⟩ := @ih (number + 1) next hmore hinside
      rw [if_pos hinside]
      refine ⟨line.chars ++ before, after, ?_, ?_, hle, hend⟩
      · rw [List.flatMap_cons, hchars]
        simp only [List.append_assoc]
      · rw [hbefore, hnext, byteSize_append]
        omega
    · rw [if_neg hinside]
      have hbelow : offset < line.start + byteSize line.chars := by omega
      exact ⟨[], (next :: more).flatMap Line.chars, by simp, by simp, hstart, .inr hbelow⟩

-- Past the end of the text lies its last line.
theorem lineAt_past (hadjacent : Adjacent line more)
    (hend : line.start + byteSize ((line :: more).flatMap Line.chars) ≤ offset) :
    lineAt offset number line more =
      lineAt (line.start + byteSize ((line :: more).flatMap Line.chars)) number line more := by
  induction more generalizing number line with
  | nil => rfl
  | cons next more ih =>
    obtain ⟨hnext, hmore⟩ := hadjacent
    rw [List.flatMap_cons, byteSize_append, ← Nat.add_assoc, ← hnext] at hend ⊢
    rw [lineAt, lineAt, if_pos (by omega), if_pos (by omega)]
    exact ih hmore hend

theorem positionAt_eq (index : LineIndex) (offset : Nat) :
    index.positionAt offset =
      ⟨(lineAt offset 0 index.first index.more).1,
        unitSize (takeBytes (lineAt offset 0 index.first index.more).2.chars
          (offset - (lineAt offset 0 index.first index.more).2.start))⟩ := rfl

theorem positionAt_mono (index : LineIndex) (h : offset ≤ offset') :
    index.positionAt offset ≤ index.positionAt offset' := by
  rw [positionAt_eq, positionAt_eq, Position.le_iff]
  rcases lineAt_mono h 0 index.first index.more with hlater | hsame
  · exact .inl hlater
  · right
    rw [hsame]
    exact ⟨rfl, unitSize_takeBytes_mono _ (by omega)⟩

section Text

variable (text : List Char)

theorem ofChars_start : (ofChars text).first.start = 0 := linesFrom_start 0 text

theorem ofChars_adjacent : Adjacent (ofChars text).first (ofChars text).more :=
  linesFrom_adjacent 0 text

theorem ofChars_join : (ofChars text).lines.flatMap Line.chars = text := linesFrom_join 0 text

end Text

theorem exists_append_of_byteSize_le {a b c d : List Char} (h : a ++ b = c ++ d)
    (hle : byteSize a ≤ byteSize c) : ∃ m, c = a ++ m ∧ b = m ++ d := by
  rcases List.append_eq_append_iff.mp h with hsplit | ⟨m, rfl, rfl⟩
  · exact hsplit
  · -- the first part cannot be the longer one
    cases m with
    | nil => exact ⟨[], by simp, by simp⟩
    | cons x m =>
      have hx := x.utf8Size_pos
      rw [byteSize_append, byteSize_cons] at hle
      omega

-- Two offsets of which the later one lies between two characters.
theorem positionAt_lt {text before after : List Char} (htext : text = before ++ after)
    (h : offset < byteSize before) :
    (ofChars text).positionAt offset < (ofChars text).positionAt (byteSize before) := by
  rw [positionAt_eq, positionAt_eq, Position.lt_iff]
  have hmono := lineAt_mono (Nat.le_of_lt h) 0 (ofChars text).first (ofChars text).more
  rcases hmono with hlater | hsame
  · exact .inl hlater
  · right
    have hstart := ofChars_start text
    obtain ⟨_, _, _, _, hle, _⟩ := @lineAt_split offset 0 _ _ (ofChars_adjacent text) (by omega)
    obtain ⟨above, below, hjoin, habove, _, hend⟩ :=
      @lineAt_split (byteSize before) 0 _ _ (ofChars_adjacent text) (by omega)
    rw [hsame] at hle ⊢
    generalize lineAt (byteSize before) 0 (ofChars text).first (ofChars text).more = found at *
    have hchars : text = above ++ found.2.chars ++ below := (ofChars_join text).symm.trans hjoin
    rw [hstart, Nat.zero_add] at habove
    rw [htext, List.append_assoc] at hchars
    obtain ⟨inside, rfl, hrest⟩ := exists_append_of_byteSize_le hchars.symm (by omega)
    rw [byteSize_append] at h hend ⊢
    -- the later offset lies inside this line, or at its end
    have hinside : byteSize inside ≤ byteSize found.2.chars := by
      rcases hend with rfl | hlt
      · rw [List.append_nil] at hrest
        rw [hrest, byteSize_append]
        omega
      · omega
    obtain ⟨tail, hline, _⟩ := exists_append_of_byteSize_le hrest.symm hinside
    refine ⟨rfl, ?_⟩
    rw [hline, habove, Nat.add_sub_cancel_left]
    exact unitSize_takeBytes_lt inside tail (by omega)

theorem positionAt_past (text : List Char) (h : byteSize text ≤ offset) :
    (ofChars text).positionAt offset = (ofChars text).positionAt (byteSize text) := by
  have hstart := ofChars_start text
  have hsize : byteSize ((ofChars text).lines.flatMap Line.chars) = byteSize text :=
    congrArg byteSize (ofChars_join text)
  have hpast := @lineAt_past offset 0 _ _ (ofChars_adjacent text) (by
    rw [hstart, Nat.zero_add]
    exact hsize ▸ h)
  rw [hstart, Nat.zero_add, show (ofChars text).first :: (ofChars text).more =
    (ofChars text).lines from rfl, hsize] at hpast
  obtain ⟨above, below, hjoin, habove, _, _⟩ :=
    @lineAt_split (byteSize text) 0 _ _ (ofChars_adjacent text) (by omega)
  rw [positionAt_eq, positionAt_eq, hpast]
  generalize lineAt (byteSize text) 0 (ofChars text).first (ofChars text).more = found at *
  have hchars := congrArg byteSize ((ofChars_join text).symm.trans hjoin)
  simp only [byteSize_append] at hchars
  rw [takeBytes_eq_self (by omega), takeBytes_eq_self (by omega)]

-- No place lies behind the end of a text.
theorem positionAt_le_end (text : List Char) (offset : Nat) :
    (ofChars text).positionAt offset ≤ (ofChars text).positionAt (byteSize text) := by
  by_cases h : offset ≤ byteSize text
  · exact positionAt_mono _ h
  · rw [positionAt_past text (by omega)]
    exact Position.le_refl _

end LineIndex

end QueryPad.Text
