import TreeDerivation.Grammar.Basic
import TreeDerivation.Text.Quoted

/-!
# Rules and actions as text

The one-line forms that messages and dumps show. Names are written as they are, the text of a token
is quoted: `ApplyRule(X -> (value: Y, items: Z*))`, `GenerateToken("foo")`.
-/

namespace TreeDerivation

/-- The name, with `*` for a list and `:token` for a leaf text. -/
def NodeType.display (t : NodeType) : String :=
  match t.constraint with
  | .node => t.typeName
  | .variadic => t.typeName ++ "*"
  | .token => t.typeName ++ ":token"

/-- One field of an expansion: its name and its type. -/
def displayField (field : String × NodeType) : String :=
  field.1 ++ ": " ++ field.2.display

/-- The parent and, in parentheses, the fields. -/
def Expansion.display (e : Expansion) : String :=
  e.parent.display ++ " -> (" ++ ", ".intercalate (e.children.map displayField) ++ ")"

/-- An expansion as its parent and fields, the list sentinel by a name of its own. -/
def Rule.display : Rule → String
  | .expandTree e => e.display
  | .closeVariadic => "<close-variadic>"

/-- The quoted text of a token, the leaf sentinel by a name of its own. -/
def Token.display : Token → String
  | .value text => Text.quoted text
  | .closeNode => "<CloseNode>"

/-- The kind of action with its rule or token. -/
def Action.display : Action → String
  | .applyRule r => "ApplyRule(" ++ r.display ++ ")"
  | .generateToken t => "GenerateToken(" ++ t.display ++ ")"

end TreeDerivation
