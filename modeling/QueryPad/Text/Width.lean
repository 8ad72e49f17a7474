namespace QueryPad.Text

-- Offsets count UTF-8 bytes, columns count UTF-16 units.
def units16 (c : Char) : Nat := if c.toNat < 0x10000 then 1 else 2

def byteSize : List Char → Nat
  | [] => 0
  | c :: rest => c.utf8Size + byteSize rest

def unitSize : List Char → Nat
  | [] => 0
  | c :: rest => units16 c + unitSize rest

-- The longest run of leading characters that fits into a number of bytes.
def takeBytes : List Char → Nat → List Char
  | [], _ => []
  | c :: rest, room =>
    if c.utf8Size ≤ room then c :: takeBytes rest (room - c.utf8Size) else []

-- The longest run of leading characters that fits into a number of UTF-16 units.
def takeUnits : List Char → Nat → List Char
  | [], _ => []
  | c :: rest, room =>
    if units16 c ≤ room then c :: takeUnits rest (room - units16 c) else []

-- Cutting succeeds at character boundaries only.
def splitAtByte? : List Char → Nat → Option (List Char × List Char)
  | cs, 0 => some ([], cs)
  | [], _ + 1 => none
  | c :: rest, n + 1 =>
    if c.utf8Size ≤ n + 1 then
      (splitAtByte? rest (n + 1 - c.utf8Size)).map fun (before, after) => (c :: before, after)
    else none

-- The characters between two byte offsets.
def slice? (cs : List Char) (start stop : Nat) : Option (List Char) := do
  guard (start ≤ stop)
  let (_, after) ← splitAtByte? cs start
  let (inside, _) ← splitAtByte? after (stop - start)
  return inside

@[simp] theorem byteSize_nil : byteSize [] = 0 := rfl

@[simp] theorem byteSize_cons (c : Char) (cs : List Char) :
    byteSize (c :: cs) = c.utf8Size + byteSize cs := rfl

@[simp] theorem byteSize_append (a b : List Char) :
    byteSize (a ++ b) = byteSize a + byteSize b := by
  induction a with
  | nil => simp
  | cons c rest ih => simp [ih, Nat.add_assoc]

theorem splitAtByte?_zero (cs : List Char) : splitAtByte? cs 0 = some ([], cs) := by
  cases cs <;> rfl

-- A cut loses nothing and falls exactly at the offset.
theorem splitAtByte?_eq_some {cs before after : List Char} {n : Nat}
    (h : splitAtByte? cs n = some (before, after)) :
    before ++ after = cs ∧ byteSize before = n := by
  induction cs generalizing before after n with
  | nil => cases n <;> simp_all [splitAtByte?]
  | cons c rest ih =>
      cases n with
      | zero => simp_all [splitAtByte?]
      | succ n =>
          simp only [splitAtByte?] at h
          split at h
          · obtain ⟨⟨b, a⟩, hb, he⟩ := Option.map_eq_some_iff.mp h
            obtain ⟨h1, h2⟩ := ih hb
            simp only [Prod.mk.injEq] at he
            obtain ⟨rfl, rfl⟩ := he
            simp [h1, h2]
            omega
          · simp at h

theorem splitAtByte?_append (before after : List Char) :
    splitAtByte? (before ++ after) (byteSize before) = some (before, after) := by
  induction before with
  | nil => simp [splitAtByte?_zero]
  | cons c rest ih =>
      have hc : 0 < c.utf8Size := c.utf8Size_pos
      obtain ⟨n, hn⟩ : ∃ n, byteSize (c :: rest) = n + 1 :=
        ⟨byteSize (c :: rest) - 1, by simp; omega⟩
      rw [hn, List.cons_append, splitAtByte?, if_pos (by simp at hn; omega)]
      have : n + 1 - c.utf8Size = byteSize rest := by simp at hn; omega
      simp [this, ih]

end QueryPad.Text
