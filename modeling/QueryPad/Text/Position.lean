namespace QueryPad.Text

-- Lines and UTF-16 columns, both from 0.
structure Position where
  line : Nat
  character : Nat
  deriving DecidableEq, Inhabited

namespace Position

-- By line, then by character.
instance : LT Position where
  lt a b := a.line < b.line ∨ (a.line = b.line ∧ a.character < b.character)

instance : LE Position where
  le a b := ¬ b < a

instance (a b : Position) : Decidable (a < b) :=
  inferInstanceAs (Decidable (_ ∨ _))

instance (a b : Position) : Decidable (a ≤ b) :=
  inferInstanceAs (Decidable (¬ _))

theorem lt_iff {a b : Position} :
    a < b ↔ a.line < b.line ∨ (a.line = b.line ∧ a.character < b.character) := Iff.rfl

theorem le_iff {a b : Position} :
    a ≤ b ↔ a.line < b.line ∨ (a.line = b.line ∧ a.character ≤ b.character) := by
  show ¬ b < a ↔ _
  rw [lt_iff]
  omega

end Position

structure Range where
  start : Position
  stop : Position
  deriving DecidableEq, Inhabited

namespace Range

-- Both ends belong to a range.
def holds (range : Range) (p : Position) : Bool := range.start ≤ p && p ≤ range.stop

def emptyAt (p : Position) : Range := ⟨p, p⟩

end Range

-- Byte offsets, the last one excluded.
structure Span where
  start : Nat
  stop : Nat
  deriving DecidableEq, Inhabited

end QueryPad.Text
