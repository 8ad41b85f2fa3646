import TreeDerivation.Grammar.Basic

/-!
# Admissible rules

A search offers a rule only where the types allow it. A relation between type names says which
nodes may fill which fields. Lists that are encoded as one expansion are kept apart from nodes: an
expansion of a list fits exactly the field of its own type.
-/

namespace TreeDerivation

/-- Whether a node of the first type may fill a field of the second. -/
abbrev Subtyping := String → String → Bool

namespace Subtyping

/-- Every type fits only itself. -/
def exact : Subtyping :=
  fun candidate expected => candidate == expected

/-- Every type fits itself and what the pairs list. -/
def ofPairs (pairs : List (String × String)) : Subtyping :=
  fun candidate expected => candidate == expected || pairs.contains (candidate, expected)

end Subtyping

/-- Whether a rule may be applied where a field of type `head` is open; no type is given where
nothing was derived yet. -/
def isAdmissible (encoding : Encoding) (subtypes : Subtyping) (head : Option NodeType) :
    Rule → Bool
  | .closeVariadic =>
    encoding.retainVariadic && head.any fun t => t.constraint = .variadic
  | .expandTree e =>
    match head with
    | none => encoding.retainVariadic || e.parent.constraint ≠ .variadic
    | some t =>
      if ¬ encoding.retainVariadic ∧
          (t.constraint = .variadic ∨ e.parent.constraint = .variadic) then
        e.parent = t
      else subtypes e.parent.typeName t.typeName

end TreeDerivation
