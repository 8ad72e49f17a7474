namespace QueryPad.Number

-- A finite number of the binary64 format: the mantissa times a power of two.
-- In the form that rounding gives, the mantissa has 53 bits unless the
-- exponent is the least one.
structure Binary64 where
  negative : Bool
  mantissa : Nat
  exponent : Int
  deriving DecidableEq

-- The quotient rounded to an integer, a half going to the even one.
def divHalfEven (num den : Nat) : Nat :=
  let q := num / den
  let r := num % den
  if 2 * r > den || (2 * r = den && q % 2 = 1) then q + 1 else q

theorem divHalfEven_close (num den : Nat) (h : 0 < den) :
    2 * (divHalfEven num den * den) ≤ 2 * num + den ∧
      2 * num ≤ 2 * (divHalfEven num den * den) + den := by
  have hd := Nat.div_add_mod num den
  have hm := Nat.mod_lt num h
  have hc : num / den * den = den * (num / den) := Nat.mul_comm _ _
  simp only [divHalfEven]
  split
  · next hr =>
      simp only [Bool.or_eq_true, Bool.and_eq_true, decide_eq_true_eq] at hr
      rw [Nat.add_mul, Nat.one_mul]
      omega
  · next hr =>
      simp only [Bool.or_eq_true, Bool.and_eq_true, decide_eq_true_eq, not_or] at hr
      omega

namespace Binary64

def minExponent : Int := -1074
def maxExponent : Int := 971

-- The least mantissa of 53 bits.
def leastFull : Nat := Nat.pow 2 52

-- A ratio times a power of two, as a ratio.
def scale (num den : Nat) (power : Int) : Nat × Nat :=
  if 0 ≤ power then (num * Nat.pow 2 power.toNat, den) else (num, den * Nat.pow 2 (-power).toNat)

-- The value without its sign, as a ratio.
def ratio (x : Binary64) : Nat × Nat := scale x.mantissa 1 x.exponent

def zero : Binary64 := ⟨false, 0, minExponent⟩

def isZero (x : Binary64) : Bool := x.mantissa = 0

def neg (x : Binary64) : Binary64 := { x with negative := !x.negative }

-- The exponent that leaves 53 bits before the point of a positive ratio.
def exponentFor (num den : Nat) : Int :=
  let guess : Int := (Nat.log2 num : Int) - Nat.log2 den - 52
  let (n, d) := scale num den (-guess)
  max minExponent (if n < d * leastFull then guess - 1 else guess)

-- The nearest number to a ratio, or none beyond the largest.
def ofRatio? (num den : Nat) : Option Binary64 :=
  if num = 0 then some zero
  else
    let exponent := exponentFor num den
    let (n, d) := scale num den (-exponent)
    let mantissa := divHalfEven n d
    let (mantissa, exponent) :=
      if mantissa = 2 * leastFull then (leastFull, exponent + 1) else (mantissa, exponent)
    if exponent > maxExponent then none else some ⟨false, mantissa, exponent⟩

def ofNat (n : Nat) : Binary64 := (ofRatio? n 1).getD zero

def ofInt (n : Int) : Binary64 := { ofNat n.natAbs with negative := n < 0 }

-- Both operations leave signs aside.
def mul? (x y : Binary64) : Option Binary64 :=
  ofRatio? (x.ratio.1 * y.ratio.1) (x.ratio.2 * y.ratio.2)

def div? (x y : Binary64) : Option Binary64 :=
  ofRatio? (x.ratio.1 * y.ratio.2) (x.ratio.2 * y.ratio.1)

end Binary64

end QueryPad.Number
