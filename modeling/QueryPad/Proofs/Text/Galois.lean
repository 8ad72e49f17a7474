import Mathlib.Algebra.Ring.Nat
import QueryPad.Proofs.Text.Lines

-- Offsets between characters and places of an editor form a Galois connection:
-- a place lies at or behind that of an offset just if its own offset does.
namespace QueryPad.Text

-- The offset between two parts of a text that do not part the two characters
-- of one line end.
def IsBoundary (text : List Char) (offset : Nat) : Prop :=
  ∃ before after, text = before ++ after ∧ offset = byteSize before ∧
    ¬ (before.getLast? = some '\r' ∧ after.head? = some '\n')

namespace LineIndex

variable {number : Nat} {line : Line} {more : List Line} {before after : List Char}

-- The offset of a column on the line of a number, counted from the first of these lines.
def offsetFrom : Line → List Line → Nat → Nat → Nat
  | line, _, 0, character => line.start + byteSize (takeUnits line.content character)
  | line, [], _ + 1, _ => line.start + byteSize line.chars
  | _, next :: more, number + 1, character => offsetFrom next more number character

theorem getElem?_offsetFrom (hadjacent : Adjacent line more) (number character : Nat) :
    (match (line :: more)[number]? with
      | some found => found.start + byteSize (takeUnits found.content character)
      | none => line.start + byteSize ((line :: more).flatMap Line.chars)) =
        offsetFrom line more number character := by
  induction more generalizing line number with
  | nil =>
    cases number with
    | zero => rfl
    | succ number => simp [offsetFrom]
  | cons next more ih =>
    cases number with
    | zero => rfl
    | succ number =>
      rw [offsetFrom, ← ih hadjacent.2, List.getElem?_cons_succ, List.flatMap_cons,
        byteSize_append, ← Nat.add_assoc, ← hadjacent.1]

-- The place of an offset, if the first of these lines has the number.
def placeFrom (number : Nat) (line : Line) (more : List Line) (offset : Nat) : Position :=
  ⟨(lineAt offset number line more).1,
    unitSize (takeBytes (lineAt offset number line more).2.chars
      (offset - (lineAt offset number line more).2.start))⟩

-- A boundary on a line that is ended lies in what the line holds.
theorem exists_content {rest : List Char} (hended : line.IsEndedBefore rest)
    (hjoin : line.chars ++ rest = before ++ after)
    (hbetween : ¬ (before.getLast? = some '\r' ∧ after.head? = some '\n'))
    (hinside : byteSize before < byteSize line.chars) : ∃ tail, line.content = before ++ tail := by
  obtain ⟨behind, hchars, hafter⟩ := exists_append_of_byteSize_le hjoin.symm (by omega)
  have hbehind : behind ≠ [] := by
    rintro rfl
    rw [List.append_nil] at hchars
    rw [hchars] at hinside
    omega
  rcases List.append_eq_append_iff.mp hchars with ⟨inside, rfl, hending⟩ | ⟨tail, hcontent, _⟩
  · cases inside with
    | nil => exact ⟨[], by simp⟩
    | cons c inside =>
      -- only an end of two characters can be parted
      exfalso
      rcases hended with hlf | hcrlf | ⟨hcr, _⟩
      · rw [hlf] at hending
        simp [hbehind] at hending
      · rw [hcrlf] at hending
        cases inside with
        | nil =>
          obtain ⟨rfl, rfl⟩ : '\r' = c ∧ ['\n'] = behind := by simpa using hending
          exact hbetween ⟨List.getLast?_concat, by rw [hafter]; rfl⟩
        | cons d inside => simp [hbehind] at hending
      · rw [hcr] at hending
        simp [hbehind] at hending
  · exact ⟨tail, hcontent⟩

theorem start_le_offsetFrom (hadjacent : Adjacent line more) (number character : Nat) :
    line.start ≤ offsetFrom line more number character := by
  induction more generalizing line number with
  | nil => cases number <;> exact Nat.le_add_right _ _
  | cons next more ih =>
    cases number with
    | zero => exact Nat.le_add_right _ _
    | succ number =>
      have hnext := hadjacent.1
      have hlater := ih hadjacent.2 number
      rw [offsetFrom]
      omega

theorem le_lineAt (offset number : Nat) (line : Line) (more : List Line) :
    number ≤ (lineAt offset number line more).1 := by
  fun_induction lineAt offset number line more <;> omega

-- A boundary in what the first line holds.
theorem placeFrom_of_content {tail : List Char} (hcontent : line.content = before ++ tail)
    (hline : lineAt (line.start + byteSize before) number line more = (number, line)) :
    placeFrom number line more (line.start + byteSize before) = ⟨number, unitSize before⟩ := by
  rw [placeFrom, hline, Line.chars, hcontent, List.append_assoc, Nat.add_sub_cancel_left,
    takeBytes_append]

-- Of two lines and more, a boundary lies on the first or behind it.
theorem boundary_cases {next : Line} (number : Nat) (hadjacent : Adjacent line (next :: more))
    (hended : line.IsEndedBefore ((next :: more).flatMap Line.chars))
    (hjoin : (line :: next :: more).flatMap Line.chars = before ++ after)
    (hbetween : ¬ (before.getLast? = some '\r' ∧ after.head? = some '\n')) :
    (∃ tail, line.content = before ++ tail ∧ line.start + byteSize before < next.start ∧
        placeFrom number line (next :: more) (line.start + byteSize before) =
          ⟨number, unitSize before⟩) ∨
      ∃ inside, (next :: more).flatMap Line.chars = inside ++ after ∧
        ¬ (inside.getLast? = some '\r' ∧ after.head? = some '\n') ∧
        line.start + byteSize before = next.start + byteSize inside ∧
        placeFrom number line (next :: more) (line.start + byteSize before) =
          placeFrom (number + 1) next more (next.start + byteSize inside) := by
  have hnext := hadjacent.1
  by_cases hinside : byteSize before < byteSize line.chars
  · obtain ⟨tail, hcontent⟩ := exists_content hended hjoin hbetween hinside
    refine .inl ⟨tail, hcontent, by omega, placeFrom_of_content hcontent ?_⟩
    rw [lineAt, if_neg (by omega)]
  · obtain ⟨inside, rfl, hrest⟩ := exists_append_of_byteSize_le hjoin (by omega)
    have hshift : line.start + byteSize (line.chars ++ inside) = next.start + byteSize inside := by
      rw [byteSize_append]
      omega
    refine .inr ⟨inside, hrest, ?_, hshift, ?_⟩
    · rintro ⟨hcr, hlf⟩
      exact hbetween ⟨by simp [hcr], hlf⟩
    · rw [hshift, placeFrom, placeFrom, lineAt, if_pos (Nat.le_add_right _ _)]

-- The connection on the lines from one on, by the lines that follow.
theorem placeFrom_le_iff (hadjacent : Adjacent line more) (hparted : Parted line more)
    (hjoin : (line :: more).flatMap Line.chars = before ++ after)
    (hbetween : ¬ (before.getLast? = some '\r' ∧ after.head? = some '\n'))
    (behind character : Nat) :
    placeFrom number line more (line.start + byteSize before) ≤ ⟨number + behind, character⟩ ↔
      line.start + byteSize before ≤ offsetFrom line more behind character := by
  induction more generalizing line number before behind with
  | nil =>
    have hcontent : line.content = before ++ after := by
      simpa [Line.chars, hparted.2] using hjoin
    rw [placeFrom_of_content hcontent rfl, Position.le_iff]
    dsimp only
    cases behind with
    | zero =>
      have hfits := byteSize_le_takeUnits_iff before after character
      rw [offsetFrom, hcontent]
      omega
    | succ behind =>
      rw [offsetFrom, Line.chars, hcontent, byteSize_append, byteSize_append]
      omega
  | cons next more ih =>
    obtain ⟨_, hended, hmore⟩ := hparted
    rcases boundary_cases number hadjacent hended hjoin hbetween with
      ⟨tail, hcontent, hlt, hplace⟩ | ⟨inside, hrest, hlast, hshift, hplace⟩
    · rw [hplace, Position.le_iff]
      dsimp only
      cases behind with
      | zero =>
        have hfits := byteSize_le_takeUnits_iff before tail character
        rw [offsetFrom, hcontent]
        omega
      | succ behind =>
        have hbelow := start_le_offsetFrom hadjacent.2 behind character
        rw [offsetFrom]
        omega
    · rw [hplace, hshift]
      cases behind with
      | zero =>
        have hnext := hadjacent.1
        have hline := le_lineAt (next.start + byteSize inside) (number + 1) next more
        have hcolumn := byteSize_takeUnits_le line.content character
        have hend := hended.byteSize_lt
        rw [offsetFrom, Position.le_iff, placeFrom]
        dsimp only
        omega
      | succ behind =>
        have hthere := @ih (number + 1) next inside hadjacent.2 hmore hrest hlast behind
        rwa [Nat.add_assoc, Nat.add_comm 1 behind] at hthere

-- A boundary has a line, and a column that this line reaches.
theorem exists_line (hadjacent : Adjacent line more) (hparted : Parted line more)
    (hjoin : (line :: more).flatMap Line.chars = before ++ after)
    (hbetween : ¬ (before.getLast? = some '\r' ∧ after.head? = some '\n')) :
    ∃ behind character found, (line :: more)[behind]? = some found ∧
      placeFrom number line more (line.start + byteSize before) =
        ⟨number + behind, character⟩ ∧ character ≤ unitSize found.content := by
  induction more generalizing line number before with
  | nil =>
    have hcontent : line.content = before ++ after := by
      simpa [Line.chars, hparted.2] using hjoin
    refine ⟨0, unitSize before, line, rfl, placeFrom_of_content hcontent rfl, ?_⟩
    rw [hcontent, unitSize_append]
    omega
  | cons next more ih =>
    obtain ⟨_, hended, hmore⟩ := hparted
    rcases boundary_cases number hadjacent hended hjoin hbetween with
      ⟨tail, hcontent, _, hplace⟩ | ⟨inside, hrest, hlast, _, hplace⟩
    · refine ⟨0, unitSize before, line, rfl, hplace, ?_⟩
      rw [hcontent, unitSize_append]
      omega
    · obtain ⟨behind, character, found, hfound, hthere, hreaches⟩ :=
        @ih (number + 1) next inside hadjacent.2 hmore hrest hlast
      refine ⟨behind + 1, character, found, hfound, ?_, hreaches⟩
      rw [hplace, hthere, Nat.add_assoc, Nat.add_comm 1 behind]

-- A column of the first line does not part a line end.
theorem exists_column (hplain : line.IsPlain) (character : Nat) (rest : List Char) :
    ∃ before after, line.chars ++ rest = before ++ after ∧
      byteSize (takeUnits line.content character) = byteSize before ∧
      ¬ (before.getLast? = some '\r' ∧ after.head? = some '\n') := by
  obtain ⟨tail, htail⟩ := takeUnits_prefix line.content character
  refine ⟨takeUnits line.content character, tail ++ (line.ending ++ rest), ?_, rfl, ?_⟩
  · rw [← List.append_assoc, htail, Line.chars, List.append_assoc]
  · rintro ⟨hcr, _⟩
    have hmem := List.mem_of_getLast? hcr
    exact (hplain '\r' (htail ▸ List.mem_append_left tail hmem)).2 rfl

theorem exists_offsetFrom (hadjacent : Adjacent line more) (hparted : Parted line more)
    (number character : Nat) :
    ∃ before after, (line :: more).flatMap Line.chars = before ++ after ∧
      offsetFrom line more number character = line.start + byteSize before ∧
      ¬ (before.getLast? = some '\r' ∧ after.head? = some '\n') := by
  induction more generalizing line number with
  | nil =>
    cases number with
    | zero =>
      obtain ⟨before, after, hjoin, hsize, hbetween⟩ := exists_column hparted.1 character []
      exact ⟨before, after, hjoin, by rw [offsetFrom, hsize], hbetween⟩
    | succ number => exact ⟨line.chars, [], rfl, rfl, by simp⟩
  | cons next more ih =>
    obtain ⟨hplain, hended, hmore⟩ := hparted
    obtain ⟨hnext, hlater⟩ := hadjacent
    cases number with
    | zero =>
      obtain ⟨before, after, hjoin, hsize, hbetween⟩ := exists_column hplain character
        ((next :: more).flatMap Line.chars)
      exact ⟨before, after, hjoin, by rw [offsetFrom, hsize], hbetween⟩
    | succ number =>
      obtain ⟨before, after, hjoin, hoffset, hbetween⟩ := ih hlater hmore number
      refine ⟨line.chars ++ before, after, ?_, ?_, ?_⟩
      · rw [List.flatMap_cons, hjoin, List.append_assoc]
      · rw [offsetFrom, hoffset, hnext, byteSize_append, Nat.add_assoc]
      · rintro ⟨hcr, hlf⟩
        rw [List.getLast?_append, Line.chars] at hcr
        cases hlast : before.getLast? with
        | some c => exact hbetween ⟨by simpa [hlast] using hcr, hlf⟩
        | none =>
          -- the line end just before is CR, and no LF stands behind it
          obtain rfl := List.getLast?_eq_none_iff.mp hlast
          rcases hended with hend | hend | ⟨_, hrest⟩
          · simp [hend] at hcr
          · simp [hend] at hcr
          · exact hrest (hjoin ▸ hlf)

section Text

variable {text : List Char} {offset : Nat} {p q : Position}

theorem positionAt_eq_placeFrom (index : LineIndex) (offset : Nat) :
    index.positionAt offset = placeFrom 0 index.first index.more offset := rfl

theorem offsetAt_eq_offsetFrom (text : List Char) (p : Position) :
    (ofChars text).offsetAt p =
      offsetFrom (ofChars text).first (ofChars text).more p.line p.character := by
  have hsize : (ofChars text).size = (ofChars text).first.start +
      byteSize ((ofChars text).lines.flatMap Line.chars) := by
    rw [ofChars_start, ofChars_join, Nat.zero_add]
    rfl
  rw [offsetAt, hsize]
  exact getElem?_offsetFrom (ofChars_adjacent text) p.line p.character

theorem positionAt_le_iff (h : IsBoundary text offset) (p : Position) :
    (ofChars text).positionAt offset ≤ p ↔ offset ≤ (ofChars text).offsetAt p := by
  obtain ⟨before, after, htext, rfl, hbetween⟩ := h
  have hjoin := (ofChars_join text).trans htext
  have hconnection := @placeFrom_le_iff 0 _ _ before after (ofChars_adjacent text)
    (ofChars_parted text) hjoin hbetween p.line p.character
  rw [ofChars_start, Nat.zero_add, Nat.zero_add] at hconnection
  rw [positionAt_eq_placeFrom, offsetAt_eq_offsetFrom]
  exact hconnection

theorem offsetAt_isBoundary (text : List Char) (p : Position) :
    IsBoundary text ((ofChars text).offsetAt p) := by
  obtain ⟨before, after, hjoin, hoffset, hbetween⟩ := exists_offsetFrom (ofChars_adjacent text)
    (ofChars_parted text) p.line p.character
  rw [ofChars_start, Nat.zero_add] at hoffset
  rw [offsetAt_eq_offsetFrom]
  exact ⟨before, after, (ofChars_join text).symm.trans hjoin, hoffset, hbetween⟩

theorem positionAt_offsetAt_le (text : List Char) (p : Position) :
    (ofChars text).positionAt ((ofChars text).offsetAt p) ≤ p :=
  (positionAt_le_iff (offsetAt_isBoundary text p) p).mpr (Nat.le_refl _)

theorem offsetAt_mono (h : p ≤ q) : (ofChars text).offsetAt p ≤ (ofChars text).offsetAt q :=
  (positionAt_le_iff (offsetAt_isBoundary text p) q).mp
    (Position.le_trans (positionAt_offsetAt_le text p) h)

theorem offsetAt_positionAt (h : IsBoundary text offset) :
    (ofChars text).offsetAt ((ofChars text).positionAt offset) = offset := by
  have hle := (positionAt_le_iff h ((ofChars text).positionAt offset)).mp (Position.le_refl _)
  obtain ⟨before, after, htext, hoffset, _⟩ :=
    offsetAt_isBoundary text ((ofChars text).positionAt offset)
  by_cases hlt : offset < byteSize before
  · -- a later boundary would have a later place
    have hlater := positionAt_lt htext hlt
    rw [← hoffset] at hlater
    exact absurd (positionAt_offsetAt_le text _) (Position.not_le.mpr hlater)
  · omega

-- A place that the text has.
def IsPlace (index : LineIndex) (p : Position) : Prop :=
  index.positionAt (index.offsetAt p) = p

theorem isPlace_iff :
    (ofChars text).IsPlace p ↔
      ∃ offset, IsBoundary text offset ∧ (ofChars text).positionAt offset = p := by
  constructor
  · exact fun h => ⟨_, offsetAt_isBoundary text p, h⟩
  · rintro ⟨offset, hboundary, rfl⟩
    rw [IsPlace, offsetAt_positionAt hboundary]

-- Lines and columns that can be counted in 32 bits are counted right in them.
theorem positionAt_lt_words (h : IsBoundary text offset)
    (hlines : (ofChars text).lines.length < 2 ^ 32)
    (hunits : ∀ line ∈ (ofChars text).lines, unitSize line.content < 2 ^ 32) :
    ((ofChars text).positionAt offset).line < 2 ^ 32 ∧
      ((ofChars text).positionAt offset).character < 2 ^ 32 := by
  obtain ⟨before, after, htext, rfl, hbetween⟩ := h
  obtain ⟨behind, character, found, hfound, hplace, hreaches⟩ :=
    @exists_line 0 _ _ before after (ofChars_adjacent text) (ofChars_parted text)
      ((ofChars_join text).trans htext) hbetween
  rw [ofChars_start, Nat.zero_add, Nat.zero_add] at hplace
  rw [positionAt_eq_placeFrom, hplace]
  obtain ⟨hbehind, rfl⟩ := List.getElem?_eq_some_iff.mp hfound
  exact ⟨Nat.lt_trans hbehind hlines,
    Nat.lt_of_le_of_lt hreaches (hunits _ (List.getElem_mem hbehind))⟩

end Text

-- Offsets between characters and places: the place of an offset and the offset
-- of a place are the two sides of a Galois connection.
theorem galois_positionAt_offsetAt (text : String) :
    (∀ offset, IsBoundary text.toList offset → ∀ p,
      (ofText text).positionAt offset ≤ p ↔ offset ≤ (ofText text).offsetAt p) ∧
    (∀ offset, IsBoundary text.toList offset →
      (ofText text).offsetAt ((ofText text).positionAt offset) = offset) ∧
    (∀ offset offset', offset ≤ offset' →
      (ofText text).positionAt offset ≤ (ofText text).positionAt offset') ∧
    (∀ p q, p ≤ q → (ofText text).offsetAt p ≤ (ofText text).offsetAt q) ∧
    (∀ p, (ofText text).IsPlace ((ofText text).positionAt ((ofText text).offsetAt p)) ∧
      (ofText text).positionAt ((ofText text).offsetAt p) ≤ p ∧
      ∀ q, (ofText text).IsPlace q → q ≤ p →
        q ≤ (ofText text).positionAt ((ofText text).offsetAt p)) ∧
    ((ofText text).lines.length < 2 ^ 32 →
      (∀ line ∈ (ofText text).lines, unitSize line.content < 2 ^ 32) →
      ∀ offset, IsBoundary text.toList offset →
        ((ofText text).positionAt offset).line < 2 ^ 32 ∧
          ((ofText text).positionAt offset).character < 2 ^ 32) := by
  refine ⟨fun offset h p => positionAt_le_iff h p, fun offset h => offsetAt_positionAt h,
    fun offset offset' h => positionAt_mono _ h, fun p q h => offsetAt_mono h,
    fun p => ⟨?_, positionAt_offsetAt_le text.toList p, fun q hq hle => ?_⟩,
    fun hlines hunits offset h => positionAt_lt_words h hlines hunits⟩
  · exact isPlace_iff.mpr ⟨_, offsetAt_isBoundary text.toList p, rfl⟩
  · obtain ⟨offset, hoffset, rfl⟩ := isPlace_iff.mp hq
    exact positionAt_mono _ ((positionAt_le_iff hoffset p).mp hle)

-- A column inside a pair of units, and one behind the end of its line.
theorem galois_pairedUnits :
    IsBoundary "a😀\r\nb".toList 5 ∧
      ((ofText "a😀\r\nb").positionAt 5 ≤ ⟨0, 2⟩ ↔ 5 ≤ (ofText "a😀\r\nb").offsetAt ⟨0, 2⟩) ∧
      ((ofText "a😀\r\nb").positionAt 5 ≤ ⟨0, 9⟩ ↔ 5 ≤ (ofText "a😀\r\nb").offsetAt ⟨0, 9⟩) ∧
      (ofText "a😀\r\nb").offsetAt ((ofText "a😀\r\nb").positionAt 5) = 5 := by
  have hboundary : IsBoundary "a😀\r\nb".toList 5 :=
    ⟨['a', '😀'], ['\r', '\n', 'b'], by decide, by decide, by decide⟩
  obtain ⟨hconnects, hreturns, _⟩ := galois_positionAt_offsetAt "a😀\r\nb"
  exact ⟨hboundary, hconnects 5 hboundary _, hconnects 5 hboundary _, hreturns 5 hboundary⟩

end LineIndex

end QueryPad.Text
