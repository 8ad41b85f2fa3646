/-!
# Grammar rules and actions

A rule of the grammar expands a node type into named, typed fields. A tree is derived by a word of
actions, each of which applies a rule or emits a piece of the text of a leaf. Two sentinels close
what is open-ended: one ends a list of nodes, the other the text of a leaf.
-/

namespace TreeDerivation

/-- What may fill a field. -/
inductive Constraint where
  /-- Exactly one node. -/
  | node
  /-- A list of nodes. -/
  | variadic
  /-- The text of a leaf. -/
  | token
  deriving DecidableEq, Repr

/-- A type name together with what may fill a field of this type. -/
structure NodeType where
  typeName : String
  constraint : Constraint
  deriving DecidableEq, Repr

/-- The expansion of a node type into its fields, in order. -/
structure Expansion where
  parent : NodeType
  children : List (String × NodeType)
  deriving DecidableEq, Repr

namespace Expansion

/-- How many fields the expansion has. -/
def arity (e : Expansion) : Nat :=
  e.children.length

/-- The type of the field at an index, if there is one. -/
def fieldType? (e : Expansion) (i : Nat) : Option NodeType :=
  e.children[i]?.map Prod.snd

end Expansion

/-- A rule of the grammar. -/
inductive Rule where
  | expandTree (e : Expansion)
  /-- Ends an open list of nodes. -/
  | closeVariadic
  deriving DecidableEq, Repr

/-- A piece of the text of a leaf, or the sentinel that ends the text. -/
inductive Token where
  | value (text : String)
  | closeNode
  deriving DecidableEq, Repr

/-- Whether the token ends the text of a leaf. -/
def Token.isClose : Token → Bool
  | .closeNode => true
  | .value _ => false

/-- One step of a derivation. -/
inductive Action where
  | applyRule (r : Rule)
  | generateToken (t : Token)
  deriving DecidableEq, Repr

/-- How lists and leaf texts are encoded as actions. -/
structure Encoding where
  /-- Lists stay open-ended and are closed by a sentinel. When off, a list of `n` nodes is one
  expansion of a variadic type into `n` fields. -/
  retainVariadic : Bool := true
  /-- Leaf texts are emitted in pieces and closed by a sentinel. When off, a leaf text is one
  token. -/
  splitLeaves : Bool := true
  deriving DecidableEq, Repr

/-! ## Order of node types -/

namespace Constraint

/-- The place of a constraint in the order of node types. -/
def rank : Constraint → Nat
  | .node => 0
  | .variadic => 1
  | .token => 2

end Constraint

/-- Node types are ordered by name, code point by code point, and then by constraint. -/
def NodeType.order (a b : NodeType) : Ordering :=
  (compare a.typeName b.typeName).then (compare a.constraint.rank b.constraint.rank)

end TreeDerivation
