/-!
# Scores

A score is a binary64 number, kept as its 64 bits so that two scores can be told apart and ordered
without any arithmetic. The order is total: negative NaN, negative infinity, the negative numbers,
the two zeros, the positive numbers, infinity, NaN. Addition is that of binary64.
-/

namespace TreeDerivation

/-- A binary64 number by its bits. -/
structure Score where
  bits : UInt64
  deriving DecidableEq, Repr

namespace Score

/-- The score with the value of a machine number. -/
def ofFloat (x : Float) : Score :=
  ⟨x.toBits⟩

/-- The machine number with the value of a score. -/
def toFloat (s : Score) : Float :=
  Float.ofBits s.bits

/-- Positive zero, the score of a derivation without actions. -/
def zero : Score :=
  ⟨0⟩

/-- Positive infinity. -/
def infinity : Score :=
  ⟨0x7ff0000000000000⟩

/-- The positive NaN. -/
def nan : Score :=
  ⟨0x7ff8000000000000⟩

/-- The score of a derivation that is continued by an action of log-probability `p`. -/
def add (s p : Score) : Score :=
  ofFloat (s.toFloat + p.toFloat)

/-- The score with the opposite sign. -/
def negate (s : Score) : Score :=
  ⟨s.bits ^^^ 0x8000000000000000⟩

/-- The bits without the sign. -/
def magnitude (s : Score) : Nat :=
  s.bits.toNat % 0x8000000000000000

/-- Whether the sign bit is set. -/
def isNegative (s : Score) : Bool :=
  0x8000000000000000 ≤ s.bits.toNat

/-- Whether the score is not a number, of either sign. -/
def isNaN (s : Score) : Bool :=
  infinity.magnitude < s.magnitude

/-- Whether the score is one of the two infinities. -/
def isInfinite (s : Score) : Bool :=
  s.magnitude = infinity.magnitude

/-- The place of a score in the total order. -/
def rank (s : Score) : Nat :=
  if s.isNegative then 0xffffffffffffffff - s.bits.toNat else 0x8000000000000000 + s.bits.toNat

/-- Whether the first score lies strictly above the second in the total order. -/
def better (a b : Score) : Bool :=
  b.rank < a.rank

/-- Whether the first score lies above the second in the total order or equals it. -/
def atLeast (a b : Score) : Bool :=
  b.rank ≤ a.rank

end Score

end TreeDerivation
