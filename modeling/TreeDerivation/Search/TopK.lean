import TreeDerivation.Score.Basic

/-!
# The best of a stream

A selector keeps the best items of all that it was offered, up to a capacity. Items are kept best
first; of two equal scores the one offered first ranks higher. A score that is not a number is
never kept.
-/

namespace TreeDerivation

/-- The best items offered so far, best first. -/
structure TopK (α : Type) where
  capacity : Nat
  kept : List (Score × α)

namespace TopK

variable {α : Type}

/-- The selector that was offered nothing. -/
def empty (capacity : Nat) : TopK α :=
  ⟨capacity, []⟩

/-- How many items are kept. -/
def size (t : TopK α) : Nat :=
  t.kept.length

/-- The lowest score that is kept. -/
def minScore? (t : TopK α) : Option Score :=
  t.kept.getLast?.map Prod.fst

/-- Puts an item before the first one that it beats. -/
def place (item : Score × α) : List (Score × α) → List (Score × α)
  | [] => [item]
  | other :: rest =>
    if item.1.better other.1 then item :: other :: rest else other :: place item rest

/-- Whether an item of this score would be kept. -/
def admits (t : TopK α) (s : Score) : Bool :=
  !s.isNaN && (t.size < t.capacity || t.minScore?.any s.better)

/-- The selector after one more offer. -/
def add (t : TopK α) (s : Score) (a : α) : TopK α :=
  if t.admits s then { t with kept := (place (s, a) t.kept).take t.capacity } else t

/-- The best of a list of offers, best first. -/
def best (capacity : Nat) (offers : List (Score × α)) : List (Score × α) :=
  (offers.foldl (fun t offer => t.add offer.1 offer.2) (empty capacity)).kept

end TopK

end TreeDerivation
