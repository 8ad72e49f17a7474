import QueryPad.Proofs.Text.Galois

-- A text with other line ends: each LF with a CR before it. No place changes.
namespace QueryPad.Text

def crlf (text : List Char) : List Char :=
  text.flatMap fun c => if c = '\n' then ['\r', '\n'] else [c]

section Crlf

variable {text cs : List Char} {c : Char} {p : Char → Bool}

@[simp] theorem crlf_nil : crlf [] = [] := rfl

@[simp] theorem crlf_lf : crlf ('\n' :: text) = '\r' :: '\n' :: crlf text := rfl

theorem crlf_cons (h : c ≠ '\n') : crlf (c :: text) = c :: crlf text := by
  rw [crlf, List.flatMap_cons, if_neg h]
  rfl

theorem crlf_append (before after : List Char) :
    crlf (before ++ after) = crlf before ++ crlf after := List.flatMap_append

theorem crlf_of_notMem (h : '\n' ∉ text) : crlf text = text := by
  induction text with
  | nil => rfl
  | cons c text ih =>
    obtain ⟨hc, hmore⟩ := not_or.mp (List.mem_cons.not.mp h)
    rw [crlf_cons (Ne.symm hc), ih hmore]

theorem forall_head?_crlf {P : Char → Prop} (hcr : P '\r') (h : ∀ c ∈ text.head?, P c) :
    ∀ c ∈ (crlf text).head?, P c := by
  rcases text with _ | ⟨d, text⟩
  · exact h
  by_cases hd : d = '\n'
  · subst hd
    simpa using hcr
  · rw [crlf_cons hd]
    exact h

theorem head?_crlf_eq_iff (hcr : c ≠ '\r') (hlf : c ≠ '\n') :
    (crlf text).head? = some c ↔ text.head? = some c := by
  rcases text with _ | ⟨d, text⟩
  · rfl
  by_cases hd : d = '\n'
  · subst hd
    simp [Ne.symm hcr, Ne.symm hlf]
  · rw [crlf_cons hd]
    rfl

-- What does not tell CR from LF stops at the same place.
theorem takeWhile_crlf (hp : p '\r' = p '\n') (text : List Char) :
    (crlf text).takeWhile p = crlf (text.takeWhile p) := by
  induction text with
  | nil => rfl
  | cons c text ih =>
    by_cases hc : c = '\n'
    · subst hc
      by_cases hlf : p '\n' <;> simp [hp, hlf, ih]
    · rw [crlf_cons hc, List.takeWhile_cons, List.takeWhile_cons]
      split
      · rw [ih, crlf_cons hc]
      · rfl

theorem dropWhile_crlf (hp : p '\r' = p '\n') (text : List Char) :
    (crlf text).dropWhile p = crlf (text.dropWhile p) := by
  induction text with
  | nil => rfl
  | cons c text ih =>
    by_cases hc : c = '\n'
    · subst hc
      by_cases hlf : p '\n' <;> simp [hp, hlf, ih]
    · rw [crlf_cons hc, List.dropWhile_cons, List.dropWhile_cons]
      split
      · exact ih
      · rw [crlf_cons hc]

def crlfText (text : String) : String := .ofList (crlf text.toList)

@[simp] theorem toList_crlfText (text : String) : (crlfText text).toList = crlf text.toList :=
  String.toList_ofList

theorem crlfText_append (a b : String) : crlfText (a ++ b) = crlfText a ++ crlfText b := by
  apply String.toList_injective
  simp [crlf_append]

theorem crlfText_of_notMem {text : String} (h : '\n' ∉ text.toList) : crlfText text = text := by
  rw [crlfText, crlf_of_notMem h, String.ofList_toList]

end Crlf

section Lines

variable (start : Nat) (rest : List Char)

theorem linesFrom_lf : linesFrom start ('\n' :: rest) =
    (⟨start, [], ['\n']⟩,
      (linesFrom (start + 1) rest).1 :: (linesFrom (start + 1) rest).2) := by
  rw [linesFrom]
  rfl

theorem linesFrom_crlf : linesFrom start ('\r' :: '\n' :: rest) =
    (⟨start, [], ['\r', '\n']⟩,
      (linesFrom (start + 2) rest).1 :: (linesFrom (start + 2) rest).2) := by
  rw [linesFrom]
  rfl

theorem linesFrom_cons {c : Char} (hcr : c ≠ '\r') (hlf : c ≠ '\n') :
    linesFrom start (c :: rest) =
      ((linesFrom (start + c.utf8Size) rest).1.extend c start,
        (linesFrom (start + c.utf8Size) rest).2) := by
  rw [linesFrom]
  · intro _ h
    exact absurd h hcr
  · exact hcr
  · exact hlf

end Lines

namespace LineIndex

variable {number : Nat} {line : Line} {more : List Line}

theorem placeFrom_start (hadjacent : Adjacent line more) (hparted : Parted line more) :
    placeFrom number line more line.start = ⟨number, 0⟩ := by
  have hnone : takeBytes line.chars 0 = [] := by
    cases line.chars with
    | nil => rfl
    | cons c chars => rw [takeBytes, if_neg (by have := c.utf8Size_pos; omega)]
  have hline : lineAt line.start number line more = (number, line) := by
    cases more with
    | nil => rfl
    | cons next more =>
      have hnext := hadjacent.1
      have hended := hparted.2.1.byteSize_lt
      rw [lineAt, if_neg (by omega)]
  rw [placeFrom, hline, Nat.sub_self, hnone]
  rfl

-- Behind the end of a line the next one counts.
theorem placeFrom_below {next : Line} {offset : Nat} (h : next.start ≤ offset) :
    placeFrom number line (next :: more) offset = placeFrom (number + 1) next more offset := by
  rw [placeFrom, placeFrom, lineAt, if_pos h]

-- A character before a line moves the places on it, and none on a later one.
theorem placeFrom_extend (c : Char) {start room : Nat} (hstart : line.start = start + c.utf8Size) :
    placeFrom number (line.extend c start) more (line.start + room) =
      if (placeFrom number line more (line.start + room)).line = number then
        ⟨number, units16 c + (placeFrom number line more (line.start + room)).character⟩
      else placeFrom number line more (line.start + room) := by
  have hfirst : ∀ more, lineAt (line.start + room) number line more = (number, line) →
      lineAt (line.start + room) number (line.extend c start) more =
        (number, line.extend c start) →
      placeFrom number (line.extend c start) more (line.start + room) =
        if (placeFrom number line more (line.start + room)).line = number then
          ⟨number, units16 c + (placeFrom number line more (line.start + room)).character⟩
        else placeFrom number line more (line.start + room) := by
    intro more hline hextended
    have hroom : line.start + room - start = c.utf8Size + room := by omega
    have htaken : c.utf8Size + room - c.utf8Size = room := by omega
    rw [placeFrom, placeFrom, hline, hextended, if_pos rfl, Nat.add_sub_cancel_left]
    simp only [Line.extend, Line.chars, List.cons_append, hroom, takeBytes, Nat.le_add_right,
      if_true, htaken, unitSize]
  cases more with
  | nil => exact hfirst [] rfl rfl
  | cons next more =>
    by_cases hnext : next.start ≤ line.start + room
    · have hlater := le_lineAt (line.start + room) (number + 1) next more
      rw [placeFrom_below hnext, placeFrom_below hnext, if_neg]
      rw [placeFrom]
      dsimp only
      omega
    · exact hfirst _ (by rw [lineAt, if_neg hnext]) (by rw [lineAt, if_neg hnext])

theorem placeFrom_crlf {before after : List Char} (hcr : '\r' ∉ before ++ after)
    (number start start' : Nat) :
    placeFrom number (linesFrom start' (crlf (before ++ after))).1
        (linesFrom start' (crlf (before ++ after))).2 (start' + byteSize (crlf before)) =
      placeFrom number (linesFrom start (before ++ after)).1
        (linesFrom start (before ++ after)).2 (start + byteSize before) := by
  induction before generalizing number start start' with
  | nil =>
    have hfirst (start : Nat) (text : List Char) :=
      @placeFrom_start number _ _ (linesFrom_adjacent start text) (linesFrom_parted start text)
    have h := hfirst start after
    have h' := hfirst start' (crlf after)
    rw [linesFrom_start] at h h'
    exact h'.trans h.symm
  | cons c before ih =>
    rw [List.cons_append] at hcr ⊢
    obtain ⟨hc, hmore⟩ := not_or.mp (List.mem_cons.not.mp hcr)
    by_cases hlf : c = '\n'
    · subst hlf
      have hbelow {start width : Nat} {text ending : List Char} (room : Nat) :=
        @placeFrom_below number ⟨start, [], ending⟩ (linesFrom (start + width) text).2
          (linesFrom (start + width) text).1 (start + width + room)
            (by rw [linesFrom_start]; omega)
      have hrest := ih hmore (number + 1) (start + 1) (start' + 2)
      have hone : '\n'.utf8Size = 1 := rfl
      have htwo : start' + byteSize (crlf ('\n' :: before)) = start' + 2 + byteSize (crlf before) := by
        rw [crlf_lf, byteSize_cons, byteSize_cons, show '\r'.utf8Size = 1 from rfl, hone]
        omega
      rw [crlf_lf, linesFrom_crlf, linesFrom_lf, htwo, byteSize_cons, hone,
        ← Nat.add_assoc, hbelow, hbelow]
      exact hrest
    · have hrest := ih hmore number (start + c.utf8Size) (start' + c.utf8Size)
      have hextend (start : Nat) (text : List Char) (room : Nat) :=
        @placeFrom_extend number (linesFrom (start + c.utf8Size) text).1
          (linesFrom (start + c.utf8Size) text).2 c start room (linesFrom_start _ _)
      simp only [linesFrom_start] at hextend
      rw [crlf_cons hlf, crlf_cons hlf, linesFrom_cons _ _ (Ne.symm hc) hlf,
        linesFrom_cons _ _ (Ne.symm hc) hlf, byteSize_cons, byteSize_cons, ← Nat.add_assoc,
        ← Nat.add_assoc, hextend, hextend, hrest]

-- Every character keeps its place.
theorem positionAt_crlf {before after : List Char} (hcr : '\r' ∉ before ++ after) :
    (ofChars (crlf (before ++ after))).positionAt (byteSize (crlf before)) =
      (ofChars (before ++ after)).positionAt (byteSize before) := by
  have h := placeFrom_crlf hcr 0 0 0
  rw [Nat.zero_add, Nat.zero_add] at h
  exact h

end LineIndex

end QueryPad.Text
