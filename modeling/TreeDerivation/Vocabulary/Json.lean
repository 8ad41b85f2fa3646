import TreeDerivation.Grammar.Json
import TreeDerivation.Vocabulary.Basic

/-!
# Vocabularies in JSON

A vocabulary is a record of its three lists.
-/

namespace TreeDerivation

namespace Vocabulary

/-- A record of the three lists. -/
def toJson (v : Vocabulary) : Json :=
  .record [("rules", .ofList Rule.toJson v.rules),
    ("node_types", .ofList NodeType.toJson v.nodeTypes),
    ("tokens", .ofList Json.ofString v.tokens)]

/-- Reads a vocabulary. -/
def ofJson? : Nat → Json → Option Vocabulary
  | room + 1, j => do
    let [rules, nodeTypes, tokens] ← j.allParts? ["rules", "node_types", "tokens"] | none
    return {
      rules := ← Json.list? Rule.ofJson? room rules
      nodeTypes := ← Json.list? NodeType.ofJson? room nodeTypes
      tokens := ← Json.list? (fun _ => Json.string?) room tokens }
  | 0, _ => none

end Vocabulary

end TreeDerivation
