import TreeDerivation.Json.Printer
import TreeDerivation.Score.Text
import TreeDerivation.Search.Views
import TreeDerivation.Text.Quoted

/-!
# Looking at deferred scores

The inspection text of views shows both lists with every type and field name, and `None` for a list
that was not read yet. It never computes a list.
-/

namespace TreeDerivation

namespace Inspection

/-- A record with its name and its fields. -/
def record (name : String) (fields : List (String × String)) : String :=
  name ++ " \x7b " ++ ", ".intercalate (fields.map fun (label, value) => label ++ ": " ++ value) ++
    " \x7d"

/-- Items between brackets. -/
def list (items : List String) : String :=
  "[" ++ ", ".intercalate items ++ "]"

/-- A name with its arguments. -/
def applied (name : String) (arguments : List String) : String :=
  name ++ "(" ++ ", ".intercalate arguments ++ ")"

/-- A constraint by its name. -/
def constraint : Constraint → String
  | .node => "Node"
  | .variadic => "Variadic"
  | .token => "Token"

/-- A node type with its two parts. -/
def nodeType (t : NodeType) : String :=
  record "NodeType"
    [("type_name", Text.quoted t.typeName), ("constraint", constraint t.constraint)]

/-- A rule with all its parts. -/
def rule : Rule → String
  | .expandTree e =>
    applied "ExpandTree" [record "ExpandTreeRule"
      [("parent", nodeType e.parent),
        ("children",
          list (e.children.map fun (name, t) => applied "" [Text.quoted name, nodeType t]))]]
  | .closeVariadic => "CloseVariadicField"

/-- A token with its text. -/
def token : Token → String
  | .value text => applied "Value" [Text.quoted text]
  | .closeNode => "CloseNode"

/-- How inspection texts write scores. -/
def scoreStyle : Score.NumberStyle :=
  { least := -4, greatest := 15, tie := .up }

/-- A numeral whose exponent has a sign only if it is negative. -/
def numeral (n : Numeral) : String :=
  String.ofList <|
    Numeral.spell { n with exponent := none } ++
      match n.exponent with
      | none => []
      | some (negative, digits) => 'e' :: (if negative then '-' :: digits else digits)

/-- A score as a number or by its name. -/
def score (s : Score) : String :=
  if s.isNaN then "NaN"
  else if s.isInfinite then if s.isNegative then "-inf" else "inf"
  else numeral (s.numeral scoreStyle)

/-- A list of log-probabilities, if it is known. -/
def scores {α : Type} (item : α → String) (d : Deferred (α × Score)) : String :=
  match d.known? with
  | some items => applied "Some" [list (items.map fun (a, s) => applied "" [item a, score s])]
  | none => "None"

end Inspection

/-- The inspection text of views. -/
def Views.inspect (v : Views) : String :=
  Inspection.record "LazyLogProbability"
    [("rule_prob", Inspection.scores Inspection.rule v.rules),
      ("token_prob", Inspection.scores Inspection.token v.tokens)]

end TreeDerivation
