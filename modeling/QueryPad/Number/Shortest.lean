import QueryPad.Number.Binary64

-- The fewest decimal digits that read back as the same number.
namespace QueryPad.Number

-- The digits `digits` stand for d.ddd times ten to `exponent`.
structure Decimal where
  digits : List Char
  exponent : Int
  deriving DecidableEq

namespace Binary64

-- The ends of the ratios that round to a positive number, counted in
-- quarters of the unit of its mantissa. Below a power of two the gap is half
-- as wide.
def ends (x : Binary64) : Nat × Nat :=
  let below := if x.mantissa = leastFull && x.exponent > minExponent then 1 else 2
  (4 * x.mantissa - below, 4 * x.mantissa + 2)

def roundsTo (x : Binary64) (num den : Nat) : Bool :=
  let (lo, hi) := x.ends
  let (unit, per) := scale 1 4 x.exponent
  let value := num * per
  if x.mantissa % 2 = 0 then lo * unit * den ≤ value && value ≤ hi * unit * den
  else lo * unit * den < value && value < hi * unit * den

end Binary64

-- The position of the first digit of a positive ratio.
def decimalExponent (num den : Nat) : Int :=
  if den ≤ num then ((Nat.toDigits 10 (num / den)).length : Int) - 1
  else -(((List.range 400).find? fun k => den ≤ num * Nat.pow 10 k).getD 400 : Nat)

-- An integer count of units ten to `unit`, as a ratio.
def unitsRatio (count : Nat) (unit : Int) : Nat × Nat :=
  if 0 ≤ unit then (count * Nat.pow 10 unit.toNat, 1) else (count, Nat.pow 10 (-unit).toNat)

-- The neighbour on the grid of `n` digits that reads back, the nearer of two.
def onGrid? (x : Binary64) (exponent : Int) (n : Nat) : Option Nat :=
  let (num, den) := x.ratio
  let unit := exponent - n + 1
  let (one, per) := unitsRatio 1 unit
  let below := num * per / (den * one)
  let nearest := divHalfEven (num * per) (den * one)
  let reads (count : Nat) : Bool :=
    let (a, b) := unitsRatio count unit
    x.roundsTo a b
  let other := if nearest = below then below + 1 else below
  if reads nearest then some nearest else if reads other then some other else none

def dropTrailingZeros (digits : List Char) : List Char :=
  match (digits.reverse.dropWhile (· = '0')).reverse with
  | [] => ['0']
  | kept => kept

def shortest (x : Binary64) : Decimal :=
  if x.isZero then ⟨['0'], 0⟩
  else
    let (num, den) := x.ratio
    let exponent := decimalExponent num den
    let found := (List.range 17).findSome? fun k => (onGrid? x exponent (k + 1)).map (·, k + 1)
    let (count, n) := found.getD (num / den, 17)
    let digits := Nat.toDigits 10 count
    -- Rounding up may add a digit.
    ⟨dropTrailingZeros digits, exponent + digits.length - n⟩

-- How a decimal is written: plainly between these exponents, and otherwise
-- with an exponent after `e`.
structure DecimalFormat where
  leastPlain : Int
  greatestPlain : Int

def DecimalFormat.write (format : DecimalFormat) (x : Decimal) : String :=
  let digits := x.digits
  if format.leastPlain ≤ x.exponent && x.exponent ≤ format.greatestPlain then
    if x.exponent < 0 then
      "0." ++ String.ofList (List.replicate (-x.exponent - 1).toNat '0' ++ digits)
    else
      let whole := (x.exponent + 1).toNat
      let padded := digits ++ List.replicate (whole - digits.length) '0'
      let frac := match padded.drop whole with
        | [] => ['0']
        | frac => frac
      String.ofList (padded.take whole ++ '.' :: frac)
  else
    let mantissa := match digits with
      | [d] => [d]
      | d :: more => d :: '.' :: more
      | [] => ['0']
    let sign := if x.exponent < 0 then "e-" else "e+"
    String.ofList mantissa ++ sign ++ toString x.exponent.natAbs

end QueryPad.Number
