/-!
# The shortest decimal of a binary number

A positive binary64 number is `m * 2 ^ q` for natural `m` and integer `q`. All reals that are nearer
to it than to its neighbours read back as it; the ends of that interval do exactly when `m` is even.
Among the decimals in the interval, `shortest` gives one with the fewest digits, and of those the
nearest to the number. Everything is computed exactly, as fractions of natural numbers.
-/

namespace TreeDerivation

/-- A decimal `digits * 10 ^ exponent`. -/
structure Decimal where
  digits : Nat
  exponent : Int
  deriving DecidableEq, Repr

namespace Decimal

/-- Which of two equally near decimals is taken. -/
inductive Tie where
  | up
  | toEven
  deriving DecidableEq

/-- The reals that read back as a binary number, over a common denominator: the number itself, the
ends of the interval, and whether the ends belong to it. -/
structure Interval where
  value : Nat
  low : Nat
  high : Nat
  denominator : Nat
  closed : Bool

namespace Interval

/-- The interval of `m * 2 ^ q`. `narrow` says that the number below is half as far as usual, which
is so where the exponent steps down. -/
def ofBinary (m : Nat) (q : Int) (narrow : Bool) : Interval :=
  let up := Nat.pow 2 q.toNat
  { value := 4 * m * up
    low := (4 * m - if narrow then 1 else 2) * up
    high := (4 * m + 2) * up
    denominator := 4 * Nat.pow 2 (-q).toNat
    closed := m % 2 = 0 }

/-- Whether the fraction `n / denominator` lies in the interval, where `n` is given `scale` times
too large. -/
def contains (i : Interval) (n scale : Nat) : Bool :=
  if i.closed then i.low * scale ≤ n ∧ n ≤ i.high * scale
  else i.low * scale < n ∧ n < i.high * scale

/-- The exponent of the leading digit of the number. -/
def magnitude (i : Interval) : Int :=
  if i.denominator ≤ i.value then
    ((Nat.toDigits 10 (i.value / i.denominator)).length : Int) - 1
  else
    -((Nat.toDigits 10 ((i.denominator - 1) / i.value)).length : Int)

/-- The decimal with steps of `10 ^ exponent` in the interval that is nearest to the number, if one
of the two decimals around the number is in the interval. -/
def nearest? (tie : Tie) (i : Interval) (exponent : Int) : Option Nat :=
  let up := Nat.pow 10 exponent.toNat
  let down := Nat.pow 10 (-exponent).toNat
  let unit := i.denominator * up
  let below := i.value * down / unit
  let rest := i.value * down % unit
  let belowIn := i.contains (below * unit) down
  let aboveIn := i.contains ((below + 1) * unit) down
  let takeAbove :=
    2 * rest > unit ∨ (2 * rest = unit ∧ (tie = .up ∨ below % 2 = 1))
  match belowIn, aboveIn with
  | true, true => some (if takeAbove then below + 1 else below)
  | true, false => some below
  | false, true => some (below + 1)
  | false, false => none

/-- The first decimal found with steps of `10 ^ exponent`, then of a tenth of that, and so on. -/
def search (tie : Tie) (i : Interval) (exponent : Int) : Nat → Option Decimal
  | 0 => none
  | steps + 1 =>
    match i.nearest? tie exponent with
    | some digits => some ⟨digits, exponent⟩
    | none => i.search tie (exponent - 1) steps

end Interval

/-- Takes zeros off the end of the digits. -/
def trimZeros (digits : List Char) : List Char :=
  (digits.reverse.dropWhile (· = '0')).reverse

/-- The significant digits of a decimal, and the exponent of the first of them. -/
def scientific (d : Decimal) : List Char × Int :=
  let digits := Nat.toDigits 10 d.digits
  (trimZeros digits, d.exponent + digits.length - 1)

/-- The shortest decimal of `m * 2 ^ q`. Seventeen digits always suffice. -/
def shortest (tie : Tie) (m : Nat) (q : Int) (narrow : Bool) : Decimal :=
  let i := Interval.ofBinary m q narrow
  (i.search tie i.magnitude 18).getD ⟨m, 0⟩

end Decimal

end TreeDerivation
