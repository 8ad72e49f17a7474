import QueryPad.Json.Value
import QueryPad.Number.Word
import QueryPad.Token.Scan

-- Numbers as JSON text. Digits gather in a 64 bit significand, and a power of
-- ten is applied to it in one step, so a number of many digits need not come
-- out as the nearest double.
namespace QueryPad

open Number

-- Why a text is no JSON value.
inductive JsonFault where
  -- Nor a number within range.
  | malformed
  -- Brackets nest too deeply: the line and the byte column, from 1, of the
  -- first bracket that does.
  | tooDeep (line column : Nat)
  deriving DecidableEq

def JsonFault.message : JsonFault → String
  | malformed => "malformed value"
  | tooDeep line column =>
    "recursion limit exceeded at line " ++ toString line ++ " column " ++ toString column

-- A number as it is written. The exponent has a flag for its minus.
structure NumberText where
  negative : Bool
  whole : List Char
  fraction : Option (List Char)
  exponent : Option (Bool × List Char)
  deriving DecidableEq

namespace NumberText

-- A part with a mark in front, which must then have digits.
def marked (isMark : Char → Bool) (sign : List Char → Bool × List Char) :
    List Char → Option (Option (Bool × List Char) × List Char)
  | [] => some (none, [])
  | c :: rest =>
    if isMark c then
      let (down, rest) := sign rest
      match Scan.digits rest with
      | ([], _) => none
      | (ds, rest) => some (some (down, ds), rest)
    else some (none, c :: rest)

def unsignedPart (cs : List Char) : Bool × List Char := (false, cs)

def signedPart : List Char → Bool × List Char
  | '-' :: rest => (true, rest)
  | '+' :: rest => (false, rest)
  | cs => (false, cs)

def minus : List Char → Bool × List Char
  | '-' :: rest => (true, rest)
  | cs => (false, cs)

-- The number at the start of a text, and the text after it. No zero leads
-- other digits.
def split? (cs : List Char) : Option (NumberText × List Char) := do
  let (negative, cs) := minus cs
  let (whole, cs) := Scan.digits cs
  if whole = [] || (whole.head? = some '0' && whole.length > 1) then none
  let (fraction, cs) ← marked (· = '.') unsignedPart cs
  let (exponent, cs) ← marked (fun c => c = 'e' || c = 'E') signedPart cs
  return (⟨negative, whole, fraction.map (·.2), exponent⟩, cs)

def maxSignificand : Nat := maxWord 64
def maxPower : Nat := maxWord 31

def digitValue (c : Char) : Nat := c.toNat - 48

-- Digits join the total as long as it stays within a bound. The total, and
-- the digits that did not fit.
def gather (bound total : Nat) : List Char → Nat × List Char
  | [] => (total, [])
  | c :: rest =>
    if total * 10 + digitValue c ≤ bound then gather bound (total * 10 + digitValue c) rest
    else (total, c :: rest)

def powerOfTen (n : Nat) : Binary64 := .ofNat (Nat.pow 10 n)

-- Powers below -308 are applied 308 at a time. Two such steps leave zero of
-- any significand, so the number of steps is bounded.
def divideByTens (x : Binary64) (power : Nat) : Nat → Binary64
  | 0 => x
  | steps + 1 =>
    if power ≤ 308 then (x.div? (powerOfTen power)).getD x
    else if x.isZero then x
    else divideByTens ((x.div? (powerOfTen 308)).getD x) (power - 308) steps

-- A significand times a power of ten, none beyond the largest double.
def scaled? (significand : Nat) (exponent : Int) : Option Binary64 :=
  let x := Binary64.ofNat significand
  if exponent < 0 then some (divideByTens x exponent.natAbs 5)
  else if exponent ≤ 308 then x.mul? (powerOfTen exponent.toNat)
  else if x.isZero then some x
  else none

-- An exponent beyond 31 bits makes zero of everything, or is out of range.
def magnitude? (significand : Nat) (exponent : Int) (power : Option (Bool × List Char)) :
    Option Binary64 :=
  match power with
  | none => scaled? significand exponent
  | some (down, digits) =>
    let (power, excess) := gather maxPower 0 digits
    if excess ≠ [] then if significand ≠ 0 && !down then none else some .zero
    else scaled? significand (if down then exponent - power else exponent + power)

def integerValue (negative : Bool) (significand : Nat) : JsonNumber :=
  if !negative then .integer significand
  else if 0 < significand && significand ≤ wordCount 63 then .integer (-significand)
  else .double { Binary64.ofNat significand with negative := true }

-- Whole digits beyond the significand count as a power of ten, fraction
-- digits beyond it count for nothing.
def value? (number : NumberText) : Option JsonNumber :=
  let (significand, excess) := gather maxSignificand 0 number.whole
  if excess = [] && number.fraction.isNone && number.exponent.isNone then
    some (integerValue number.negative significand)
  else
    let digits := number.fraction.getD []
    let (significand, lost) := gather maxSignificand significand digits
    let exponent : Int := (excess.length : Int) - (digits.length - lost.length : Nat)
    (magnitude? significand exponent number.exponent).map fun magnitude =>
      .double { magnitude with negative := number.negative }

theorem marked_length {isMark : Char → Bool} {sign : List Char → Bool × List Char}
    (hsign : ∀ cs, (sign cs).2.length ≤ cs.length) {cs rest : List Char}
    {part : Option (Bool × List Char)} (h : marked isMark sign cs = some (part, rest)) :
    rest.length ≤ cs.length := by
  fun_cases marked isMark sign cs with
  | case1 => simp_all [marked]
  | case2 => simp_all [marked]
  | case3 c tail hc down tail' hs ds after _ hd =>
      have h1 := hsign tail
      have h2 := congrArg List.length (Scan.digits_append tail')
      simp_all [marked]
      omega
  | case4 => simp_all [marked]

theorem split?_length {cs rest : List Char} {number : NumberText}
    (h : split? cs = some (number, rest)) : rest.length < cs.length := by
  have hm : (minus cs).2.length ≤ cs.length := by unfold minus; split <;> simp
  have hd := congrArg List.length (Scan.digits_append (minus cs).2)
  have hs : ∀ cs, (signedPart cs).2.length ≤ cs.length := by
    intro cs; unfold signedPart; split <;> simp
  have hu : ∀ cs, (unsignedPart cs).2.length ≤ cs.length := fun cs => Nat.le_refl _
  simp only [split?, Option.bind_eq_bind] at h
  split at h
  · cases h
  next hw =>
  obtain ⟨⟨fraction, cs1⟩, h1, h⟩ := Option.bind_eq_some_iff.mp h
  obtain ⟨⟨exponent, cs2⟩, h2, h3⟩ := Option.bind_eq_some_iff.mp h
  have hl1 := marked_length hu h1
  have hl2 := marked_length hs h2
  dsimp only at hl1 hl2
  have hne : (Scan.digits (minus cs).2).1 ≠ [] := by
    intro he
    simp [he] at hw
  have := List.length_pos_iff.mpr hne
  simp only [Option.some.injEq, Prod.mk.injEq, pure] at h3
  obtain ⟨_, rfl⟩ := h3
  rw [List.length_append] at hd
  omega

end NumberText

-- The value of a text that is a number and nothing else.
def JsonNumber.ofChars? (cs : List Char) : Option JsonNumber :=
  match NumberText.split? cs with
  | some (number, []) => number.value?
  | _ => none

end QueryPad
