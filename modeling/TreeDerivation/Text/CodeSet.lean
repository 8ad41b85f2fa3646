/-!
# Sets of code points

A set of code points is kept as the ascending list of the points at which membership changes,
beginning outside: `[0x30, 0x3a]` is the set of the ten ASCII digits. A code point belongs to the
set exactly when an odd number of changes lie at or below it.
-/

namespace TreeDerivation.Text

/-- A set of code points, as the ascending points at which membership changes. -/
structure CodeSet where
  changes : List Nat

namespace CodeSet

/-- Walks the changes up to `n`; `inside` tells whether the part walked so far ends in the set. -/
def memFrom (inside : Bool) (n : Nat) : List Nat → Bool
  | [] => inside
  | x :: xs => if n < x then inside else memFrom (!inside) n xs

/-- Whether the code point `n` belongs to the set. -/
def mem (s : CodeSet) (n : Nat) : Bool :=
  memFrom false n s.changes

end CodeSet

end TreeDerivation.Text
