import Mathlib.Algebra.Ring.Nat
import Mathlib.Data.List.Basic

-- Texts are ordered by their bytes as they are by their characters.
namespace QueryPad.Text

-- How many bytes of a character stand behind its first one.
def behind (v : Nat) : Nat :=
  if v ≤ 0x7f then 0 else if v ≤ 0x7ff then 1 else if v ≤ 0xffff then 2 else 3

-- What the first byte says of those behind it.
def tag : Nat → Nat
  | 0 => 0
  | 1 => 0xc0
  | 2 => 0xe0
  | _ => 0xf0

-- The bytes behind the first one, six bits in each.
def trail : Nat → Nat → List UInt8
  | 0, _ => []
  | n + 1, v => trail n (v / 64) ++ [UInt8.ofNat (v % 64 + 0x80)]

section Bytes

variable {v w n : Nat}

theorem toNat_lt (c : Char) : c.toNat < 0x110000 := by
  have h := c.valid
  rw [UInt32.isValidChar, Nat.isValidChar] at h
  rw [Char.toNat]
  omega

theorem utf8EncodeChar_eq (c : Char) : String.utf8EncodeChar c =
    UInt8.ofNat (tag (behind c.toNat) + c.toNat / 64 ^ behind c.toNat) ::
      trail (behind c.toNat) c.toNat := by
  have hlast := toNat_lt c
  rw [Char.toNat] at hlast ⊢
  generalize hv : c.val.toNat = v at hlast ⊢
  rw [String.utf8EncodeChar, hv, behind]
  split_ifs with h7 h11 h16
  · simp [tag, trail]
  · have hlead : v / 64 % 32 = v / 64 := by omega
    simp [tag, trail, hlead, Nat.add_comm]
  · have hlead : v / 4096 % 16 = v / 4096 := by omega
    simp [tag, trail, hlead, Nat.add_comm]
  · have hlead : v / 262144 % 8 = v / 262144 := by omega
    simp [tag, trail, hlead, Nat.add_comm, Nat.div_div_eq_div_mul]

theorem ofNat_lt_ofNat (hv : v < w) (hw : w < 256) : UInt8.ofNat v < UInt8.ofNat w := by
  rw [UInt8.lt_iff_toNat_lt, UInt8.toNat_ofNat', UInt8.toNat_ofNat', Nat.mod_eq_of_lt (by omega),
    Nat.mod_eq_of_lt hw]
  exact hv

theorem cons_lt_cons_of_lt {a b : UInt8} {x y : List UInt8} (h : a < b) : a :: x < b :: y :=
  List.cons_lt_cons_iff.mpr (.inl h)

-- The first byte tells longer characters from shorter ones.
theorem lead_lt (hwidth : behind v < behind w) :
    tag (behind v) + v / 64 ^ behind v < tag (behind w) + w / 64 ^ behind w := by
  unfold behind at *
  split_ifs at * <;> simp only [tag] <;> omega

-- Those of one length are compared digit by digit.
theorem lead_trail_lt {t : Nat} (h : v < w) (hlead : t + w / 64 ^ n < 256) (x y : List UInt8) :
    UInt8.ofNat (t + v / 64 ^ n) :: (trail n v ++ x) <
      UInt8.ofNat (t + w / 64 ^ n) :: (trail n w ++ y) := by
  induction n generalizing v w x y with
  | zero =>
    rw [Nat.pow_zero, Nat.div_one] at hlead ⊢
    exact cons_lt_cons_of_lt (ofNat_lt_ofNat (by omega) (by omega))
  | succ n ih =>
    rw [Nat.pow_succ', ← Nat.div_div_eq_div_mul] at hlead ⊢
    rw [← Nat.div_div_eq_div_mul, trail, trail, List.append_assoc, List.append_assoc]
    by_cases hhigh : v / 64 < w / 64
    · exact ih hhigh hlead _ _
    · have hsame : v / 64 = w / 64 := by omega
      have hlow : UInt8.ofNat (v % 64 + 128) < UInt8.ofNat (w % 64 + 128) :=
        ofNat_lt_ofNat (by omega) (by omega)
      rw [hsame, ← List.cons_append, ← List.cons_append]
      exact List.append_left_lt (cons_lt_cons_of_lt hlow)

theorem lead_lt_256 (c : Char) :
    tag (behind c.toNat) + c.toNat / 64 ^ behind c.toNat < 256 := by
  have hlast := toNat_lt c
  unfold behind
  split_ifs <;> simp only [tag] <;> omega

theorem utf8EncodeChar_lt {c d : Char} (h : c < d) (x y : List UInt8) :
    String.utf8EncodeChar c ++ x < String.utf8EncodeChar d ++ y := by
  have hlt : c.toNat < d.toNat := h
  rw [utf8EncodeChar_eq, utf8EncodeChar_eq, List.cons_append, List.cons_append]
  by_cases hwidth : behind c.toNat < behind d.toNat
  · exact cons_lt_cons_of_lt (ofNat_lt_ofNat (lead_lt hwidth) (lead_lt_256 d))
  · have hsame : behind c.toNat = behind d.toNat := by
      unfold behind at *
      split_ifs at * <;> omega
    have hlead := lead_lt_256 d
    rw [hsame]
    exact lead_trail_lt hlt hlead x y

end Bytes

section Texts

variable {a b : List Char}

theorem utf8_lt_of_lt (h : a < b) :
    a.flatMap String.utf8EncodeChar < b.flatMap String.utf8EncodeChar := by
  induction a generalizing b with
  | nil =>
    cases b with
    | nil => exact absurd h (List.lt_irrefl _)
    | cons d b =>
      rw [List.flatMap_cons, utf8EncodeChar_eq]
      exact List.nil_lt_cons _ _
  | cons c a ih =>
    cases b with
    | nil => exact absurd h (List.not_lt_nil _)
    | cons d b =>
      rw [List.flatMap_cons, List.flatMap_cons]
      rcases List.cons_lt_cons_iff.mp h with hlt | ⟨rfl, hlt⟩
      · exact utf8EncodeChar_lt hlt _ _
      · exact List.append_left_lt (ih hlt)

theorem utf8_lt_iff :
    a.flatMap String.utf8EncodeChar < b.flatMap String.utf8EncodeChar ↔ a < b := by
  refine ⟨fun h => ?_, utf8_lt_of_lt⟩
  by_contra hge
  rcases List.le_iff_lt_or_eq.mp (List.not_lt.mp hge) with hlt | rfl
  · exact List.lt_irrefl _ (List.lt_trans h (utf8_lt_of_lt hlt))
  · exact List.lt_irrefl _ h

end Texts

end QueryPad.Text
