import Mathlib.Data.List.Basic
import QueryPad.Checked.Lines
import QueryPad.Proofs.Text.Lines

-- Looking a place up in a text breaks nothing, whatever the offset and
-- whatever the line and column, and it finds what reading by lines finds.
namespace QueryPad

open Text

namespace Text

section Bytes

variable {c : Char} {text : List Char}

theorem utf8EncodeChar_of_lt (h : c.toNat < 128) :
    String.utf8EncodeChar c = [UInt8.ofNat c.toNat] := by
  have hval : c.val.toNat ≤ 127 := Nat.le_of_lt_succ h
  rw [String.utf8EncodeChar, if_pos hval]
  rfl

-- A character that is more than one byte has no byte of ASCII.
theorem le_of_mem_utf8EncodeChar (h : 128 ≤ c.toNat) :
    ∀ byte ∈ String.utf8EncodeChar c, 128 ≤ byte.toNat := by
  have hval : ¬ c.val.toNat ≤ 127 := Nat.not_le.mpr h
  intro byte hbyte
  simp only [String.utf8EncodeChar, if_neg hval] at hbyte
  split at hbyte
  · simp only [List.mem_cons, List.not_mem_nil, or_false] at hbyte
    rcases hbyte with rfl | rfl <;> simp only [UInt8.toNat_ofNat'] <;> omega
  · split at hbyte
    · simp only [List.mem_cons, List.not_mem_nil, or_false] at hbyte
      rcases hbyte with rfl | rfl | rfl <;> simp only [UInt8.toNat_ofNat'] <;> omega
    · simp only [List.mem_cons, List.not_mem_nil, or_false] at hbyte
      rcases hbyte with rfl | rfl | rfl | rfl <;> simp only [UInt8.toNat_ofNat'] <;> omega

theorem eq_of_mem_utf8EncodeChar {byte : UInt8} (hbyte : byte.toNat < 128)
    (h : byte ∈ String.utf8EncodeChar c) : c.toNat = byte.toNat := by
  by_cases hc : c.toNat < 128
  · rw [utf8EncodeChar_of_lt hc, List.mem_singleton] at h
    rw [h, UInt8.toNat_ofNat']
    omega
  · have := le_of_mem_utf8EncodeChar (Nat.not_lt.mp hc) byte h
    omega

theorem length_utf8 (text : List Char) :
    (text.flatMap String.utf8EncodeChar).length = byteSize text := by
  induction text with
  | nil => rfl
  | cons c text ih =>
    rw [List.flatMap_cons, List.length_append, ih, String.length_utf8EncodeChar, byteSize_cons]

end Bytes

section Cut

variable {text : List Char} {room : Nat}

theorem takeBytes_prefix (chars : List Char) (room : Nat) : takeBytes chars room <+: chars := by
  induction chars generalizing room with
  | nil => exact List.nil_prefix
  | cons c rest ih =>
    rw [takeBytes]
    split
    · exact (List.prefix_cons_inj c).mpr (ih _)
    · exact List.nil_prefix

theorem byteSize_takeBytes_le (chars : List Char) (room : Nat) :
    byteSize (takeBytes chars room) ≤ room := by
  induction chars generalizing room with
  | nil => exact Nat.zero_le _
  | cons c rest ih =>
    rw [takeBytes]
    split
    · have := ih (room - c.utf8Size)
      rw [byteSize_cons]
      omega
    · exact Nat.zero_le _

theorem byteSize_le_takeBytes_iff (before after : List Char) (room : Nat) :
    byteSize before ≤ byteSize (takeBytes (before ++ after) room) ↔ byteSize before ≤ room := by
  induction before generalizing room with
  | nil => simp
  | cons c rest ih =>
    have hc := c.utf8Size_pos
    rw [List.cons_append, takeBytes, byteSize_cons]
    split
    · have := ih (room - c.utf8Size)
      rw [byteSize_cons]
      omega
    · rw [byteSize_nil]
      omega

theorem takeBytes_append_of_le {before : List Char} (h : byteSize before ≤ room)
    (after : List Char) :
    takeBytes (before ++ after) room = before ++ takeBytes after (room - byteSize before) := by
  induction before generalizing room with
  | nil => rfl
  | cons c rest ih =>
    rw [byteSize_cons] at h
    rw [List.cons_append, takeBytes, if_pos (by omega), ih (by omega), byteSize_cons,
      Nat.sub_sub]
    rfl

theorem takeBytes_append_of_lt {before : List Char} (h : room < byteSize before)
    (after : List Char) : takeBytes (before ++ after) room = takeBytes before room := by
  induction before generalizing room with
  | nil => simp at h
  | cons c rest ih =>
    rw [byteSize_cons] at h
    rw [List.cons_append, takeBytes, takeBytes]
    split
    · rw [ih (by omega)]
    · rfl

end Cut

end Text

namespace LineTable

section Starts

variable {bytes : List UInt8} {byte : UInt8} {found : List Nat} {i : Nat}

theorem startsFrom_pair (hcr : bytes[i]? = some 13) (hlf : bytes[i + 1]? = some 10)
    (h : startsFrom bytes (i + 2) = .ok found) : startsFrom bytes i = .ok ((i + 2) :: found) := by
  obtain ⟨hlt, _⟩ := List.getElem?_eq_some_iff.mp hcr
  rw [startsFrom, if_pos hlt, Checked.item_eq hcr, Checked.ok_bind, if_pos ⟨rfl, hlf⟩, h]
  rfl

theorem startsFrom_break (hbyte : bytes[i]? = some byte) (hbreak : byte = 13 ∨ byte = 10)
    (hpair : byte = 13 → bytes[i + 1]? ≠ some 10) (h : startsFrom bytes (i + 1) = .ok found) :
    startsFrom bytes i = .ok ((i + 1) :: found) := by
  obtain ⟨hlt, _⟩ := List.getElem?_eq_some_iff.mp hbyte
  rw [startsFrom, if_pos hlt, Checked.item_eq hbyte, Checked.ok_bind,
    if_neg (fun hboth => hpair hboth.1 hboth.2), if_pos hbreak, h]
  rfl

-- Bytes that end no line are passed over.
theorem startsFrom_run {before run after : List UInt8}
    (h : ∀ byte ∈ run, byte ≠ 13 ∧ byte ≠ 10) :
    startsFrom (before ++ (run ++ after)) before.length =
      startsFrom (before ++ (run ++ after)) (before.length + run.length) := by
  induction run generalizing before with
  | nil => rfl
  | cons byte run ih =>
    obtain ⟨hbyte, hrun⟩ := List.forall_mem_cons.mp h
    have hitem : Checked.item (before ++ (byte :: run ++ after)) before.length = .ok byte :=
      Checked.item_eq (by simp)
    have hmore := @ih (before ++ [byte]) hrun
    simp only [List.append_assoc, List.singleton_append, List.length_append,
      List.length_singleton] at hmore
    rw [startsFrom, if_pos (by simp), hitem, Checked.ok_bind, if_neg (by simp [hbyte.1]),
      if_neg (by simp [hbyte.1, hbyte.2])]
    rw [List.cons_append, hmore, List.length_cons, Nat.add_assoc, Nat.add_comm 1]

-- A text that does not begin with LF has no such byte in front.
theorem head?_utf8_ne {rest : List Char} (h : ∀ tail, rest ≠ '\n' :: tail) :
    (rest.flatMap String.utf8EncodeChar).head? ≠ some 10 := by
  cases rest with
  | nil => simp
  | cons c rest =>
    intro hhead
    have hc : c.toNat = (10 : UInt8).toNat := by
      apply eq_of_mem_utf8EncodeChar (by decide)
      have hne : String.utf8EncodeChar c ≠ [] := by
        have hlength := String.length_utf8EncodeChar c
        have hpos := c.utf8Size_pos
        intro hnil
        rw [hnil, List.length_nil] at hlength
        omega
      rw [List.flatMap_cons, List.head?_append_of_ne_nil _ hne] at hhead
      exact List.mem_of_head? hhead
    exact h rest (congrArg (· :: rest) (Char.toNat_inj.mp hc))

-- The bytes of a text are gone through line by line.
theorem startsFrom_linesFrom (start : Nat) (text : List Char) (before : List UInt8)
    (hbefore : before.length = start) :
    startsFrom (before ++ text.flatMap String.utf8EncodeChar) start =
      .ok ((linesFrom start text).2.map Line.start) := by
  have hcr : String.utf8EncodeChar '\r' = [13] := rfl
  have hlf : String.utf8EncodeChar '\n' = [10] := rfl
  fun_induction linesFrom start text generalizing before with
  | case1 start =>
    rw [startsFrom, if_neg (by simp [hbefore])]
    rfl
  | case2 start rest ih =>
    have hmore := ih (before ++ [13, 10]) (by simp [hbefore])
    rw [List.append_assoc] at hmore
    rw [linesFrom.below, List.map_cons, linesFrom_start]
    exact startsFrom_pair (by simp [hcr, ← hbefore]) (by simp [hcr, hlf, ← hbefore]) hmore
  | case3 start rest hrest ih =>
    have hmore := ih (before ++ [13]) (by simp [hbefore])
    have hhead := head?_utf8_ne hrest
    rw [List.append_assoc] at hmore
    rw [linesFrom.below, List.map_cons, linesFrom_start]
    refine startsFrom_break (by simp [hcr, ← hbefore]) (.inl rfl) (fun _ => ?_) hmore
    rw [List.flatMap_cons, hcr, ← hbefore, List.getElem?_append_right (by omega),
      Nat.add_sub_cancel_left, List.singleton_append, List.getElem?_cons_succ,
      ← List.head?_eq_getElem?]
    exact hhead
  | case4 start rest ih =>
    have hmore := ih (before ++ [10]) (by simp [hbefore])
    rw [List.append_assoc] at hmore
    rw [linesFrom.below, List.map_cons, linesFrom_start]
    exact startsFrom_break (by simp [hlf, ← hbefore]) (.inr rfl)
      (fun h => absurd h (by decide)) hmore
  | case5 start c rest _ hcr' hlf' line more hlines ih =>
    have hrun : ∀ byte ∈ String.utf8EncodeChar c, byte ≠ 13 ∧ byte ≠ 10 := by
      intro byte hbyte
      constructor
      · rintro rfl
        exact hcr' (Char.toNat_inj.mp (eq_of_mem_utf8EncodeChar (by decide) hbyte))
      · rintro rfl
        exact hlf' (Char.toNat_inj.mp (eq_of_mem_utf8EncodeChar (by decide) hbyte))
    have hmore := ih (before ++ String.utf8EncodeChar c)
      (by rw [List.length_append, String.length_utf8EncodeChar, hbefore])
    rw [hlines, List.append_assoc] at hmore
    rw [List.flatMap_cons, ← hbefore, startsFrom_run hrun, String.length_utf8EncodeChar, hbefore]
    exact hmore

end Starts

section Clamp

variable {text : List Char} {offset : Nat}

theorem isCut_append (before after : List Char) : isCut (before ++ after) (byteSize before) := by
  rw [isCut, splitAtByte?_append]
  rfl

-- Going down from an offset leads to the end of the characters that fit.
theorem clamp_eq (h : offset ≤ byteSize text) :
    clamp text offset = .ok (byteSize (takeBytes text offset)) := by
  induction offset with
  | zero =>
    have hcut : isCut text 0 := isCut_append [] text
    have hsize := byteSize_takeBytes_le text 0
    rw [clamp, if_pos hcut, Nat.le_zero.mp hsize]
  | succ offset ih =>
    obtain ⟨after, hafter⟩ := takeBytes_prefix text (offset + 1)
    have hle := byteSize_takeBytes_le text (offset + 1)
    rw [clamp]
    split
    · next hcut =>
      obtain ⟨⟨before, behind⟩, hsplit⟩ := Option.isSome_iff_exists.mp hcut
      obtain ⟨rfl, hbefore⟩ := splitAtByte?_eq_some hsplit
      rw [← hbefore, takeBytes_append]
    · next hcut =>
      -- what fits does not reach the offset, or there would be a cut
      have hlt : byteSize (takeBytes text (offset + 1)) ≠ offset + 1 := by
        intro hself
        have hown := isCut_append (takeBytes text (offset + 1)) after
        rw [hafter, hself] at hown
        exact hcut hown
      obtain ⟨rest, hrest⟩ := takeBytes_prefix text offset
      have hmore := byteSize_le_takeBytes_iff (takeBytes text (offset + 1)) after offset
      have hless := byteSize_le_takeBytes_iff (takeBytes text offset) rest (offset + 1)
      rw [hafter] at hmore
      rw [hrest] at hless
      have hfits := byteSize_takeBytes_le text offset
      rw [ih (by omega)]
      congr 1
      omega

end Clamp

end LineTable

namespace Text.LineIndex

-- The same text with the offsets at which its lines begin.
def table (index : LineIndex) : LineTable := ⟨index.text, index.lines.map Line.start⟩

section Lookup

variable {line found : Line} {more : List Line} {offset number k : Nat}

-- A line of a text, with what stands before and behind it.
theorem getElem?_split (hadjacent : Adjacent line more) (hparted : Parted line more)
    (h : (line :: more)[k]? = some found) :
    ∃ before after, (line :: more).flatMap Line.chars = before ++ (found.chars ++ after) ∧
      found.start = line.start + byteSize before ∧
      (((line :: more)[k + 1]?.map Line.start).getD
          (line.start + byteSize ((line :: more).flatMap Line.chars)) =
        found.start + byteSize found.chars) ∧
      found.IsPlain ∧ (found.ending = [] ∨ found.IsEndedBefore after) := by
  induction more generalizing line k with
  | nil =>
    cases k with
    | succ k => simp at h
    | zero =>
      obtain rfl := Option.some.inj h
      exact ⟨[], [], by simp, by simp, by simp, hparted.1, .inl hparted.2⟩
  | cons next more ih =>
    obtain ⟨hnext, hlater⟩ := hadjacent
    obtain ⟨hplain, hended, hmore⟩ := hparted
    cases k with
    | zero =>
      obtain rfl := Option.some.inj h
      exact ⟨[], _, rfl, rfl, hnext, hplain, .inr hended⟩
    | succ k =>
      obtain ⟨before, after, hjoin, hstart, hbehind, hkind⟩ := ih hlater hmore h
      refine ⟨line.chars ++ before, after, ?_, ?_, ?_, hkind⟩
      · rw [List.flatMap_cons, hjoin, List.append_assoc]
      · rw [hstart, hnext, byteSize_append, Nat.add_assoc]
      · rw [← hbehind, List.flatMap_cons, byteSize_append, hnext, ← Nat.add_assoc]
        rfl

-- The line of an offset is the last of those that begin at or before it.
theorem lineAt_starts {last : Nat} (hstart : line.start ≤ offset)
    (h : ∀ other ∈ line :: more, other.start ≤ last ↔ other.start ≤ offset) :
    ∃ k found, lineAt offset number line more = (number + k, found) ∧
      (line :: more)[k]? = some found ∧
      (((line :: more).map Line.start).takeWhile (· ≤ last)).length = k + 1 := by
  obtain ⟨hline, hmore⟩ := List.forall_mem_cons.mp h
  induction more generalizing line number with
  | nil => exact ⟨0, line, rfl, rfl, by simp [hline.mpr hstart]⟩
  | cons next more ih =>
    obtain ⟨hnext, hlater⟩ := List.forall_mem_cons.mp hmore
    rw [lineAt]
    by_cases hinside : next.start ≤ offset
    · obtain ⟨k, found, hfound, hitem, hcount⟩ := @ih next (number + 1) hinside hmore hnext hlater
      refine ⟨k + 1, found, ?_, hitem, ?_⟩
      · rw [if_pos hinside, hfound, Nat.add_assoc, Nat.add_comm 1]
      · rw [List.map_cons, List.takeWhile_cons_of_pos (by simpa using hline.mpr hstart),
          List.length_cons, hcount]
    · have hbehind : ¬ next.start ≤ last := fun hle => hinside (hnext.mp hle)
      refine ⟨0, line, if_neg hinside, rfl, ?_⟩
      rw [List.map_cons, List.map_cons,
        List.takeWhile_cons_of_pos (by simpa using hline.mpr hstart),
        List.takeWhile_cons_of_neg (by simpa using hbehind)]
      rfl

end Lookup

section Table

variable (text : List Char)

theorem ofChars_table : LineTable.ofChars text = .ok (ofChars text).table := by
  have hstarts := LineTable.startsFrom_linesFrom 0 text [] rfl
  rw [LineTable.ofChars, ← List.nil_append (text.flatMap _), hstarts, Checked.ok_bind]
  have hfirst := ofChars_start text
  rw [table, lines, List.map_cons, hfirst]
  rfl

theorem clamp_min (offset : Nat) : LineTable.clamp text (min offset (byteSize text)) =
    .ok (byteSize (takeBytes text offset)) := by
  have hfits : takeBytes text (min offset (byteSize text)) = takeBytes text offset := by
    by_cases hle : offset ≤ byteSize text
    · rw [Nat.min_eq_left hle]
    · rw [Nat.min_eq_right (by omega), takeBytes_eq_self (Nat.le_refl _),
        takeBytes_eq_self (by omega)]
  rw [LineTable.clamp_eq (Nat.min_le_right _ _), hfits]

-- No line begins within a character, so moving an offset back to the start of its character
-- passes no start of a line.
theorem start_le_takeBytes_iff {line : Line} (offset : Nat) (hline : line ∈ (ofChars text).lines) :
    line.start ≤ byteSize (takeBytes text offset) ↔ line.start ≤ offset := by
  obtain ⟨k, hk⟩ := List.mem_iff_getElem?.mp hline
  obtain ⟨before, after, htext, hstart, _⟩ :=
    getElem?_split (ofChars_adjacent text) (ofChars_parted text) hk
  have hiff := byteSize_le_takeBytes_iff before (line.chars ++ after) offset
  rw [← htext, show (ofChars text).first :: (ofChars text).more = (ofChars text).lines from rfl,
    ofChars_join text] at hiff
  rw [hstart, ofChars_start text, Nat.zero_add]
  exact hiff

-- What fits is the text above the line, and what fits of the line.
theorem slice?_of_line {text above below : List Char} {line : Line} {offset : Nat}
    (htext : text = above ++ (line.chars ++ below)) (habove : line.start = byteSize above)
    (hle : line.start ≤ offset)
    (hend : below = [] ∨ offset < line.start + byteSize line.chars) :
    slice? text line.start (byteSize (takeBytes text offset)) =
      some (takeBytes line.chars (offset - line.start)) := by
  have hinside : takeBytes text offset =
      above ++ takeBytes line.chars (offset - line.start) := by
    rw [htext, takeBytes_append_of_le (by omega), ← habove]
    rcases hend with rfl | hlt
    · rw [List.append_nil]
    · rw [takeBytes_append_of_lt (by omega)]
  obtain ⟨rest, hrest⟩ := takeBytes_prefix line.chars (offset - line.start)
  rw [slice?_eq_some_iff, hinside]
  refine ⟨above, rest ++ below, ?_, habove, rfl⟩
  rw [htext, ← List.append_assoc (takeBytes _ _), hrest]

theorem table_positionAt (offset : Nat) :
    (ofChars text).table.positionAt offset = .ok ((ofChars text).positionAt offset) := by
  have hzero := ofChars_start text
  have hlines : (ofChars text).first :: (ofChars text).more = (ofChars text).lines := rfl
  obtain ⟨k, found, hline, hitem, hcount⟩ :=
    @lineAt_starts _ (ofChars text).more offset 0 _ (by omega)
      fun _ => start_le_takeBytes_iff text offset
  obtain ⟨above, below, htext, habove, hle, hend⟩ :=
    @lineAt_split offset 0 _ _ (ofChars_adjacent text) (by omega)
  rw [hline, hlines, ofChars_join text, List.append_assoc] at htext
  rw [hline] at habove hle hend
  dsimp only at htext habove hle hend
  rw [hzero, Nat.zero_add] at habove
  have hslice := slice?_of_line htext habove hle hend
  have hstart : ((ofChars text).lines.map Line.start)[k]? = some found.start := by
    rw [List.getElem?_map, ← hlines, hitem]
    rfl
  rw [LineTable.positionAt, LineTable.size, table]
  dsimp only
  rw [show (ofChars text).text = text from rfl, clamp_min, Checked.ok_bind, ← hlines, hcount,
    Checked.minus_eq (Nat.le_add_left _ _), Checked.ok_bind, Nat.add_sub_cancel, hlines,
    Checked.item_eq hstart, Checked.ok_bind, Checked.cut_eq hslice, Checked.ok_bind,
    positionAt_eq, hline, Nat.zero_add]
  rfl

-- No character of a line is cut off with its end.
theorem withoutEnding_chars {line : Line} {rest : List Char} (hplain : line.IsPlain)
    (h : line.ending = [] ∨ line.IsEndedBefore rest) :
    LineTable.withoutEnding line.chars = line.content := by
  have hcontent : (line.content.reverse.dropWhile fun c => c = '\n' || c = '\r') =
      line.content.reverse := by
    cases hreverse : line.content.reverse with
    | nil => rfl
    | cons c rest =>
      have hc := hplain c (List.mem_reverse.mp (hreverse ▸ List.mem_cons_self))
      rw [List.dropWhile_cons_of_neg (by simpa using hc)]
  have hending : ∀ c ∈ line.ending.reverse, c = '\n' || c = '\r' := by
    rcases h with h | h | h | ⟨h, -⟩ <;> rw [h] <;> simp
  rw [LineTable.withoutEnding, Line.chars, List.reverse_append,
    List.dropWhile_append_of_pos hending, hcontent, List.reverse_reverse]

theorem advance_eq (offset units : Nat) (chars : List Char) :
    LineTable.advance offset units chars = .ok (offset + byteSize (takeUnits chars units)) := by
  induction chars generalizing offset units with
  | nil => rfl
  | cons c rest ih =>
    have hc := units16_pos c
    rw [LineTable.advance, takeUnits]
    by_cases hfits : units16 c ≤ units
    · rw [if_neg (by omega), if_pos hfits, Checked.minus_eq hfits, Checked.ok_bind, ih,
        byteSize_cons, Nat.add_assoc]
    · rw [if_pos (by omega), if_neg hfits]
      rfl

theorem table_offsetAt (p : Position) :
    (ofChars text).table.offsetAt p = .ok ((ofChars text).offsetAt p) := by
  have hzero := ofChars_start text
  have hlines : (ofChars text).first :: (ofChars text).more = (ofChars text).lines := rfl
  have hlength : (ofChars text).table.starts.length = (ofChars text).lines.length := by
    rw [table, List.length_map]
  rw [LineTable.offsetAt, offsetAt, hlength]
  cases hline : (ofChars text).lines[p.line]? with
  | none =>
    rw [if_pos (List.getElem?_eq_none_iff.mp hline)]
    rfl
  | some found =>
    obtain ⟨hlt, _⟩ := List.getElem?_eq_some_iff.mp hline
    obtain ⟨before, after, htext, hstart, hbehind, hplain, hending⟩ :=
      getElem?_split (ofChars_adjacent text) (ofChars_parted text) (hlines ▸ hline)
    rw [hlines, ofChars_join] at htext hbehind
    rw [hzero, Nat.zero_add] at hstart hbehind
    have hfound : (ofChars text).table.starts[p.line]? = some found.start := by
      rw [table, List.getElem?_map, hline]
      rfl
    have hnext : ((ofChars text).table.starts[p.line + 1]?).getD (ofChars text).table.size =
        found.start + byteSize found.chars := by
      rw [← hbehind, table, List.getElem?_map]
      rfl
    have hwhole : slice? text found.start (found.start + byteSize found.chars) =
        some found.chars := by
      rw [slice?_eq_some_iff]
      exact ⟨before, after, htext, hstart, by rw [byteSize_append, hstart]⟩
    have hcontent : slice? text found.start (found.start + byteSize found.content) =
        some found.content := by
      rw [slice?_eq_some_iff]
      refine ⟨before, found.ending ++ after, ?_, hstart, by rw [byteSize_append, hstart]⟩
      rw [htext, Line.chars, List.append_assoc]
    have hstop : (ofChars text).table.lineEnd p.line =
        .ok (found.start + byteSize found.content) := by
      rw [LineTable.lineEnd, hnext, Checked.item_eq hfound, Checked.ok_bind]
      rw [show (ofChars text).table.text = text from rfl, Checked.cut_eq hwhole, Checked.ok_bind,
        withoutEnding_chars hplain hending]
      rfl
    rw [if_neg (Nat.not_le.mpr hlt), Checked.item_eq hfound, Checked.ok_bind, hstop,
      Checked.ok_bind, show (ofChars text).table.text = text from rfl, Checked.cut_eq hcontent,
      Checked.ok_bind, advance_eq]

theorem table_range (span : Span) :
    (ofChars text).table.range span = .ok ((ofChars text).range span) := by
  rw [LineTable.range, table_positionAt, Checked.ok_bind, table_positionAt, Checked.ok_bind]
  rfl

theorem table_emptyRange (offset : Nat) :
    (ofChars text).table.emptyRange offset = .ok ((ofChars text).emptyRange offset) := by
  rw [LineTable.emptyRange, table_positionAt, Checked.ok_bind]
  rfl

end Table

end Text.LineIndex

end QueryPad
