import TreeDerivation.Grammar.Basic

/-!
# Vocabularies

The rules, node types and tokens that a corpus of derivations uses, each once and in the order in
which they are first seen. Sentinels are no part of a vocabulary.
-/

namespace TreeDerivation

/-- Rules, node types and tokens in first-seen order. -/
structure Vocabulary where
  rules : List Rule
  nodeTypes : List NodeType
  tokens : List String
  deriving DecidableEq, Repr

/-- The list with one more item at its end, unless it is there already. -/
def addNew {α : Type} [BEq α] (seen : List α) (item : α) : List α :=
  if seen.contains item then seen else seen ++ [item]

namespace Action

/-- The rules that an action shows. -/
def rules : Action → List Rule
  | .applyRule (.expandTree e) => [.expandTree e]
  | _ => []

/-- The node types that an action shows: the parent of its rule, then the fields. -/
def nodeTypes : Action → List NodeType
  | .applyRule (.expandTree e) => e.parent :: e.children.map Prod.snd
  | _ => []

/-- The tokens that an action shows, its text cut into pieces. -/
def tokens (tokenize : String → List String) : Action → List String
  | .generateToken (.value text) => tokenize text
  | _ => []

end Action

namespace Vocabulary

/-- The vocabulary of no corpus. -/
def empty : Vocabulary :=
  ⟨[], [], []⟩

/-- Adds what one word of actions shows. -/
def record (tokenize : String → List String) (v : Vocabulary) (word : List Action) : Vocabulary :=
  { rules := (word.flatMap Action.rules).foldl addNew v.rules
    nodeTypes := (word.flatMap Action.nodeTypes).foldl addNew v.nodeTypes
    tokens := (word.flatMap (Action.tokens tokenize)).foldl addNew v.tokens }

/-- The vocabulary of a corpus. -/
def ofWords (tokenize : String → List String) (words : List (List Action)) : Vocabulary :=
  words.foldl (record tokenize) empty

end Vocabulary

end TreeDerivation
