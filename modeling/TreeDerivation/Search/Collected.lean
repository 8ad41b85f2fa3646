import TreeDerivation.Search.Basic

/-!
# The outcome of a whole search

The rounds of a search put together: the reports of each round, and all candidates by descending
score, equal scores in the order in which they were found. The first failure is the outcome of the
whole, and nothing behind it is looked at.
-/

namespace TreeDerivation

/-- The outcome of a search. -/
structure Collected where
  /-- The reports of each round. -/
  progress : List (List Progress)
  /-- All candidates, best first. -/
  candidates : List Candidate
  deriving DecidableEq

namespace Collected

/-- The outcome of no round. -/
def empty : Collected :=
  ⟨[], []⟩

/-- An outcome and one more round, whose candidates are put behind the others. -/
def add (c : Collected) (round : Round) : Collected :=
  ⟨c.progress ++ [round.progress], c.candidates ++ round.candidates⟩

/-- An outcome with its candidates by descending score. -/
def ranked (c : Collected) : Collected :=
  { c with candidates := c.candidates.mergeSort fun a b => a.score.atLeast b.score }

/-- Draws one item after the other and adds its round, until none is left or one is a failure. Gives
the outcome and the items that were not drawn. -/
def draw (c : Collected) :
    List (Except Failure Round) → Except Failure Collected × List (Except Failure Round)
  | [] => (.ok c.ranked, [])
  | .ok round :: rest => (c.add round).draw rest
  | .error f :: rest => (.error f, rest)

/-- Puts the items of a search together, unless one of them is a failure. -/
def collect (items : List (Except Failure Round)) : Except Failure Collected :=
  (empty.draw items).1

/-- The trees of the candidates, best first. -/
def trees (c : Collected) : List Ast :=
  c.candidates.map Candidate.ast

end Collected

end TreeDerivation
