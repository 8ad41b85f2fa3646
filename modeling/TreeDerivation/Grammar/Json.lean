import TreeDerivation.Grammar.Basic
import TreeDerivation.Json.Reader

/-!
# Rules and actions in JSON

Each type has a writer `toJson` and a reader `ofJson?`. Records are objects, or arrays that give
the parts by position; alternatives are a bare name or an object with one member. Readers take the
number of brackets that may still be opened.
-/

namespace TreeDerivation

/-- Lower-case names. -/
def Constraint.toJson : Constraint → Json
  | .node => .ofString "node"
  | .variadic => .ofString "variadic"
  | .token => .ofString "token"

/-- Reads a constraint by its name. -/
def Constraint.ofJson? (room : Nat) (j : Json) : Option Constraint :=
  if j.isUnit room "node" then some .node
  else if j.isUnit room "variadic" then some .variadic
  else if j.isUnit room "token" then some .token
  else none

/-- A record of the name and the constraint. -/
def NodeType.toJson (t : NodeType) : Json :=
  .record [("type_name", .ofString t.typeName), ("constraint", t.constraint.toJson)]

/-- Reads a node type. -/
def NodeType.ofJson? : Nat → Json → Option NodeType
  | room + 1, j => do
    let [name, constraint] ← j.allParts? ["type_name", "constraint"] | none
    return ⟨← name.string?, ← Constraint.ofJson? room constraint⟩
  | 0, _ => none

/-- A pair of the name and the type of a field. -/
def fieldToJson (field : String × NodeType) : Json :=
  .array [.ofString field.1, field.2.toJson]

/-- Reads the name and the type of a field. -/
def fieldOfJson? : Nat → Json → Option (String × NodeType)
  | room + 1, .array [name, type] => do
    return (← name.string?, ← NodeType.ofJson? room type)
  | _, _ => none

/-- A record of the parent and the fields. -/
def Expansion.toJson (e : Expansion) : Json :=
  .record [("parent", e.parent.toJson), ("children", .ofList fieldToJson e.children)]

/-- Reads an expansion. -/
def Expansion.ofJson? : Nat → Json → Option Expansion
  | room + 1, j => do
    let [parent, children] ← j.allParts? ["parent", "children"] | none
    return ⟨← NodeType.ofJson? room parent, ← Json.list? fieldOfJson? room children⟩
  | 0, _ => none

/-- An expansion under its tag, or the name of the list sentinel. -/
def Rule.toJson : Rule → Json
  | .expandTree e => .tagged "expand_tree" e.toJson
  | .closeVariadic => .ofString "close_variadic_field"

/-- Reads a rule. -/
def Rule.ofJson? (room : Nat) (j : Json) : Option Rule :=
  if j.isUnit room "close_variadic_field" then some .closeVariadic
  else j.content? room [("expand_tree", fun room j => (Expansion.ofJson? room j).map .expandTree)]

/-- A text under its tag, or the name of the leaf sentinel. -/
def Token.toJson : Token → Json
  | .value text => .tagged "value" (.ofString text)
  | .closeNode => .ofString "close_node"

/-- Reads a token. -/
def Token.ofJson? (room : Nat) (j : Json) : Option Token :=
  if j.isUnit room "close_node" then some .closeNode
  else j.content? room [("value", fun _ j => j.string?.map .value)]

/-- A rule or a token under its tag. -/
def Action.toJson : Action → Json
  | .applyRule r => .tagged "apply_rule" r.toJson
  | .generateToken t => .tagged "generate_token" t.toJson

/-- Reads an action. -/
def Action.ofJson? (room : Nat) (j : Json) : Option Action :=
  j.content? room
    [("apply_rule", fun room j => (Rule.ofJson? room j).map .applyRule),
      ("generate_token", fun room j => (Token.ofJson? room j).map .generateToken)]

/-- A word of actions as an array. -/
def actionsToJson (as : List Action) : Json :=
  .ofList Action.toJson as

/-- Reads a word of actions. -/
def actionsOfJson? (room : Nat) (j : Json) : Option (List Action) :=
  Json.list? Action.ofJson? room j

/-- A record of the two switches. -/
def Encoding.toJson (e : Encoding) : Json :=
  .record
    [("retain_variadic_fields", .bool e.retainVariadic),
      ("split_non_terminal", .bool e.splitLeaves)]

/-- Reads a part that may be missing. -/
def partOr {α : Type} (default : α) (read : Json → Option α) : Option Json → Option α
  | some j => read j
  | none => some default

/-- Reads an encoding; a switch that is not given is on. -/
def Encoding.ofJson? : Nat → Json → Option Encoding
  | _ + 1, j => do
    let [retain, split] ← j.parts? ["retain_variadic_fields", "split_non_terminal"] true | none
    return ⟨← partOr true Json.bool? retain, ← partOr true Json.bool? split⟩
  | 0, _ => none

end TreeDerivation
