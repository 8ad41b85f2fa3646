import TreeDerivation.Json.Reader
import TreeDerivation.Tree.Basic

/-!
# Trees in JSON

A tree is a node or a leaf under its tag, a field is a record whose value is one tree or a list of
trees under a tag. Five or six brackets lie between a tree and the trees in its fields, so a reader
with little room reads flat trees only.
-/

namespace TreeDerivation

mutual

/-- A node or a leaf under its tag. -/
def Ast.toJson : Ast → Json
  | .node t fields => .tagged "node" (nodeToJson t fields)
  | .leaf t value => .tagged "leaf" (leafToJson t value)

/-- A record of the type name and the fields of a node. -/
def nodeToJson (t : String) (fields : List Field) : Json :=
  .record [("type_name", .ofString t), ("fields", .array (fieldsToJson fields))]

/-- A record of the type name and the text of a leaf. -/
def leafToJson (t value : String) : Json :=
  .record [("type_name", .ofString t), ("value", .ofString value)]

/-- A record of the name, the type name and the content of a field. -/
def Field.toJson : Field → Json
  | .mk name t content =>
    .record [("name", .ofString name), ("type_name", .ofString t), ("value", content.toJson)]

/-- One tree or a list of trees under a tag. -/
def Content.toJson : Content → Json
  | .single tree => .tagged "single" tree.toJson
  | .list trees => .tagged "list" (.array (treesToJson trees))

/-- Each field as a record. -/
def fieldsToJson : List Field → List Json
  | [] => []
  | field :: rest => field.toJson :: fieldsToJson rest

/-- Each tree under its tag. -/
def treesToJson : List Ast → List Json
  | [] => []
  | tree :: rest => tree.toJson :: treesToJson rest

end

/-- Reads the text of a leaf, without its tag. -/
def leafOfJson? : Nat → Json → Option Ast
  | _ + 1, j => do
    let [t, value] ← j.allParts? ["type_name", "value"] | none
    return .leaf (← t.string?) (← value.string?)
  | 0, _ => none

mutual

/-- Reads a tree. -/
def Ast.ofJson? : Nat → Json → Option Ast
  | room + 1, .object [(some tag, value)] =>
    if tag = "node" then nodeOfJson? room value
    else if tag = "leaf" then leafOfJson? room value
    else none
  | _, _ => none

/-- Reads a node, without its tag. -/
def nodeOfJson? : Nat → Json → Option Ast
  | room + 2, j => do
    let [t, .array fields] ← j.allParts? ["type_name", "fields"] | none
    return .node (← t.string?) (← fields.mapM (Field.ofJson? room))
  | _, _ => none

/-- Reads a field. -/
def Field.ofJson? : Nat → Json → Option Field
  | room + 1, j => do
    let [name, t, value] ← j.allParts? ["name", "type_name", "value"] | none
    return .mk (← name.string?) (← t.string?) (← Content.ofJson? room value)
  | _, _ => none

/-- Reads what a field holds. -/
def Content.ofJson? : Nat → Json → Option Content
  | room + 1, .object [(some tag, value)] =>
    if tag = "single" then (Ast.ofJson? room value).map .single
    else if tag = "list" then
      match room, value with
      | room + 1, .array trees => (trees.mapM (Ast.ofJson? room)).map .list
      | _, _ => none
    else none
  | _, _ => none

end

end TreeDerivation
