import TreeDerivation.Tree.Basic
import TreeDerivation.Text.Quoted

/-!
# Trees as text

The one-line form of a tree: `Call(func="print", args=[Name()])`. Leaves show their quoted text,
nodes their type name and fields.
-/

namespace TreeDerivation

mutual

/-- The one-line form of a tree. -/
def Ast.pretty : Ast → String
  | .node t fields => t ++ "(" ++ ", ".intercalate (prettyFields fields) ++ ")"
  | .leaf _ value => Text.quoted value

/-- The one-line form of what a field holds. -/
def Content.pretty : Content → String
  | .single tree => tree.pretty
  | .list trees => "[" ++ ", ".intercalate (prettyTrees trees) ++ "]"

/-- Each field as its name and what it holds. -/
def prettyFields : List Field → List String
  | [] => []
  | .mk name _ content :: rest => (name ++ "=" ++ content.pretty) :: prettyFields rest

/-- Each tree in its one-line form. -/
def prettyTrees : List Ast → List String
  | [] => []
  | tree :: rest => tree.pretty :: prettyTrees rest

end

end TreeDerivation
