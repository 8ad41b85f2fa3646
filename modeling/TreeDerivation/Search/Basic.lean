import TreeDerivation.Derivation.Rebuild
import TreeDerivation.Search.Views

/-!
# What a search works on

A search keeps hypotheses, partial derivations with a cumulative score. Each round extends some of
them by one action and reports every extension; those that are complete become candidates.
-/

namespace TreeDerivation

/-- A partial derivation with its score and the state that the oracle attached to it. -/
structure Hypothesis (State : Type) where
  id : Nat
  /-- The hypothesis that this one extends. -/
  parent : Option Nat
  score : Score
  derivation : Derivation
  state : State

/-- A finished tree with its score. -/
structure Candidate where
  score : Score
  ast : Ast
  deriving DecidableEq

/-- The report of one extension. -/
structure Progress where
  id : Nat
  /-- The hypothesis that was extended. -/
  parent : Option Nat
  score : Score
  action : Action
  isComplete : Bool
  deriving DecidableEq

/-- All that one round of a search brings forth. -/
structure Round where
  candidates : List Candidate
  progress : List Progress
  deriving DecidableEq

/-- The scoring model. Its memory may change at each call. `start` gives the state of the first
hypothesis; `answer` is asked about all live hypotheses at once and owes one answer for each, in
their order: the state of what extends it, and the log-probabilities of the next action. -/
structure Oracle (Query Memory State : Type) where
  start : Memory → Query → Except Failure State × Memory
  answer : Memory → List (Hypothesis State) → Except Failure (List (State × Views)) × Memory

end TreeDerivation
