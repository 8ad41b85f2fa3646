import TreeDerivation.Grammar.Basic
import TreeDerivation.Score.Basic

/-!
# Deferred scores

An oracle answers with two lists of log-probabilities, one for rules and one for tokens, of which a
search reads only one. Each list may be deferred: it is computed when it is first read and kept
from then on.
-/

namespace TreeDerivation

/-- A list that is computed at its first reading. -/
inductive Deferred (α : Type) where
  /-- Not read yet. -/
  | pending (compute : Unit → List α)
  /-- Known, after `runs` computations: one if the list was deferred, none if it was given. -/
  | known (items : List α) (runs : Nat)

namespace Deferred

variable {α : Type}

/-- A list that is given from the start. -/
def given (items : List α) : Deferred α :=
  .known items 0

/-- Computes the list unless it is known. -/
def force : Deferred α → Deferred α
  | .pending compute => .known (compute ()) 1
  | .known items runs => .known items runs

/-- The list, computed if need be. -/
def items : Deferred α → List α
  | .pending compute => compute ()
  | .known items _ => items

/-- The list if it is known. -/
def known? : Deferred α → Option (List α)
  | .pending _ => none
  | .known items _ => some items

/-- Whether the list is known. -/
def isForced (d : Deferred α) : Bool :=
  d.known?.isSome

/-- How often the list was computed. -/
def runs : Deferred α → Nat
  | .pending _ => 0
  | .known _ runs => runs

end Deferred

/-- The log-probabilities of the rules and of the tokens that may come next, in the order in which
the oracle lists them. -/
structure Views where
  rules : Deferred (Rule × Score)
  tokens : Deferred (Token × Score)

namespace Views

/-- Views of which neither list is computed yet. -/
def deferred (rules : Unit → List (Rule × Score)) (tokens : Unit → List (Token × Score)) : Views :=
  ⟨.pending rules, .pending tokens⟩

/-- Views of which both lists are given. -/
def given (rules : List (Rule × Score)) (tokens : List (Token × Score)) : Views :=
  ⟨.given rules, .given tokens⟩

/-- The views after the rules were read. -/
def readRules (v : Views) : Views :=
  { v with rules := v.rules.force }

/-- The views after the tokens were read. -/
def readTokens (v : Views) : Views :=
  { v with tokens := v.tokens.force }

end Views

end TreeDerivation
