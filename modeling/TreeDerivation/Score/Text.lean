import TreeDerivation.Decimal.Shortest
import TreeDerivation.Json.Lexeme
import TreeDerivation.Score.Basic

/-!
# Scores as text

Scores are read in two ways. A score that is given as a text is rounded correctly. A number within
a JSON document is read with a significand of 64 bits, which is then scaled by a power of ten in
binary64 arithmetic; the document is refused if the number is out of range.

Scores are written with the fewest digits that read back, positionally within a range of
exponents and with a power of ten outside of it. `NumberStyle` holds the range and the other choices
of a format.
-/

namespace TreeDerivation

namespace Score

/-! ## Reading -/

/-- The score nearest to `digits * 10 ^ exponent`. Powers far outside of the range of binary64 are
not computed. -/
def ofDecimal (digits : Nat) (exponent : Int) : Score :=
  let leading := exponent + (Nat.toDigits 10 digits).length
  if digits = 0 ∨ leading < -400 then zero
  else if 400 < leading then infinity
  else ofFloat (Float.ofScientific digits (exponent < 0) exponent.natAbs)

/-- The exponent of a numeral. -/
def exponentOf (n : Numeral) : Int :=
  match n.exponent with
  | none => 0
  | some (negative, digits) =>
    let value : Int := Numeral.digitsValue digits
    if negative then -value else value

/-- The score nearest to a numeral. -/
def nearest (n : Numeral) : Score :=
  let positive := ofDecimal (Numeral.digitsValue (n.whole ++ n.fraction))
    (exponentOf n - n.fraction.length)
  if n.minus then positive.negate else positive

/-- Reads a score: a decimal, which is rounded to the nearest score, or the name of an infinity or
of a NaN, with or without a sign. -/
def parse? (text : String) : Option Score :=
  if text = "inf" then some infinity
  else if text = "-inf" then some infinity.negate
  else if text = "nan" then some nan
  else if text = "-nan" then some nan.negate
  else (Numeral.read? text.toList).map nearest

/-- A significand below `2 ^ 64` and the power of ten that it is to be scaled by. -/
structure Scaled where
  significand : Nat
  exponent : Int

namespace Scaled

/-- Whether the digit can be added without exceeding 64 bits. -/
def fits (s : Scaled) (c : Char) : Bool :=
  s.significand * 10 + (c.toNat - 0x30) < 0x10000000000000000

/-- The significand with one more digit. -/
def append (s : Scaled) (c : Char) : Scaled :=
  { s with significand := s.significand * 10 + (c.toNat - 0x30) }

/-- Adds whole digits. From the first one that does not fit, digits count by their place only. -/
def addWhole (s : Scaled) : List Char → Scaled
  | [] => s
  | c :: cs =>
    if s.fits c then addWhole (s.append c) cs
    else { s with exponent := s.exponent + (cs.length + 1) }

/-- Adds digits after the point. From the first one that does not fit, digits are dropped. -/
def addFraction (s : Scaled) : List Char → Scaled
  | [] => s
  | c :: cs =>
    if s.fits c then
      let s := s.append c
      addFraction { s with exponent := s.exponent - 1 } cs
    else s

/-- The power of ten as a machine number, for exponents up to 308. -/
def powerOfTen (k : Nat) : Float :=
  Float.ofScientific 1 false k

/-- The scaled value, rounded at each step of the arithmetic; none if it is out of range. -/
def value? (s : Scaled) : Option Float :=
  let x := s.significand.toUInt64.toFloat
  if 308 < s.exponent then
    if s.significand = 0 then some x else none
  else if 0 ≤ s.exponent then
    let y := x * powerOfTen s.exponent.toNat
    if y.isInf then none else some y
  else if -308 ≤ s.exponent then
    some (x / powerOfTen s.exponent.natAbs)
  else if -616 ≤ s.exponent then
    some (x / powerOfTen 308 / powerOfTen (s.exponent.natAbs - 308))
  else some 0.0

end Scaled

/-- The value of a number in a JSON document; none if it is out of range. -/
def ofNumeral? (n : Numeral) : Option Score :=
  let parts := (Scaled.addWhole ⟨0, 0⟩ n.whole).addFraction n.fraction
  let positive :=
    Scaled.value? { parts with exponent := parts.exponent + exponentOf n }
  positive.map fun x => if n.minus then (ofFloat x).negate else ofFloat x

/-! ## Writing -/

/-- The decisions of an output format. -/
structure NumberStyle where
  /-- The least exponent of a leading digit that is written positionally. -/
  least : Int
  /-- The greatest one. -/
  greatest : Int
  /-- Which of two equally near shortest decimals is written. -/
  tie : Decimal.Tie

/-- A number with the significant digits `digits`, the first of which has the given exponent.
Positional numbers have at least one digit on both sides of the point. -/
def layOut (style : NumberStyle) (minus : Bool) (digits : List Char) (exponent : Int) : Numeral :=
  if style.least ≤ exponent ∧ exponent ≤ style.greatest then
    if exponent < 0 then
      ⟨minus, ['0'], List.replicate (exponent.natAbs - 1) '0' ++ digits, none⟩
    else
      let places := exponent.toNat + 1
      let fraction := digits.drop places
      ⟨minus, digits.take places ++ List.replicate (places - digits.length) '0',
        if fraction = [] then ['0'] else fraction, none⟩
  else
    ⟨minus, digits.take 1, digits.drop 1,
      some (exponent < 0, Nat.toDigits 10 exponent.natAbs)⟩

/-- The shortest numeral that reads back as a finite score. -/
def numeral (style : NumberStyle) (s : Score) : Numeral :=
  let biased := s.magnitude / 0x10000000000000
  let stored := s.magnitude % 0x10000000000000
  if s.magnitude = 0 then ⟨s.isNegative, ['0'], ['0'], none⟩
  else
    let m := if biased = 0 then stored else stored + 0x10000000000000
    let q : Int := (if biased = 0 then 1 else biased : Nat) - 1075
    let (digits, exponent) :=
      (Decimal.shortest style.tie m q (stored = 0 ∧ 1 < biased)).scientific
    layOut style s.isNegative digits exponent

/-- The sixteen hexadecimal digits of the bits, or the name that all NaNs share. -/
def hex (s : Score) : String :=
  if s.isNaN then "nan"
  else
    let digits := Nat.toDigits 16 s.bits.toNat
    String.ofList (List.replicate (16 - digits.length) '0' ++ digits)

end Score

end TreeDerivation
