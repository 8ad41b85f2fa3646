import TreeDerivation.Failure
import TreeDerivation.Tree.Basic

/-!
# The actions that derive a tree

A tree is derived in pre-order: the expansion of a node, then what derives each of its fields. Some
trees are derived by no word: a lone leaf, a list that holds a leaf, and a leaf whose type is not
that of its field. Of several such faults the first in depth-first order is reported.
-/

namespace TreeDerivation

/-- What a field is declared to hold: a list, a node or a leaf text, as its content shows. -/
def Field.nodeType : Field → NodeType
  | .mk _ t (.list _) => ⟨t, .variadic⟩
  | .mk _ t (.single (.node _ _)) => ⟨t, .node⟩
  | .mk _ t (.single (.leaf _ _)) => ⟨t, .token⟩

/-- The action that opens a node with these fields. -/
def openNode (typeName : String) (fields : List Field) : Action :=
  .applyRule (.expandTree
    ⟨⟨typeName, .node⟩, fields.map fun field => (field.name, field.nodeType)⟩)

/-- The action that opens a list of `n` nodes encoded as one expansion, with a numbered field for
each element. -/
def openList (typeName : String) (n : Nat) : Action :=
  .applyRule (.expandTree
    ⟨⟨typeName, .variadic⟩, (List.range n).map fun i => (toString i, ⟨typeName, .node⟩)⟩)

/-- The actions around those of the elements of a list. -/
def enclose (e : Encoding) (typeName : String) (n : Nat) (elements : List Action) : List Action :=
  if e.retainVariadic then elements ++ [.applyRule .closeVariadic]
  else openList typeName n :: elements

/-- The actions that emit the text of a leaf. -/
def leafActions (e : Encoding) (tokenize : String → List String) (value : String) : List Action :=
  if e.splitLeaves then
    (tokenize value).map (fun piece => .generateToken (.value piece)) ++ [.generateToken .closeNode]
  else [.generateToken (.value value)]

mutual

/-- The actions that derive a tree at the root. -/
def Ast.rootActions (e : Encoding) (tokenize : String → List String) :
    Ast → Except Cause (List Action)
  | .node t fields => return openNode t fields :: (← fieldsActions e tokenize t fields)
  | .leaf t _ => .error (.leafRoot t)

/-- The actions that fill the fields of a node of type `owner`. -/
def fieldsActions (e : Encoding) (tokenize : String → List String) (owner : String) :
    List Field → Except Cause (List Action)
  | [] => return []
  | .mk name t content :: rest => do
    let first ← contentActions e tokenize owner name t content
    return first ++ (← fieldsActions e tokenize owner rest)

/-- The actions that fill one field. -/
def contentActions (e : Encoding) (tokenize : String → List String) (owner name t : String) :
    Content → Except Cause (List Action)
  | .single (.node u fields) => return openNode u fields :: (← fieldsActions e tokenize u fields)
  | .single (.leaf u value) =>
    if u = t then return leafActions e tokenize value
    else .error (.leafType u name owner t)
  | .list trees => return enclose e t trees.length (← elementsActions e tokenize owner name trees)

/-- The actions that derive the elements of a list. -/
def elementsActions (e : Encoding) (tokenize : String → List String) (owner name : String) :
    List Ast → Except Cause (List Action)
  | [] => return []
  | .node u fields :: rest => do
    let first ← fieldsActions e tokenize u fields
    return openNode u fields :: first ++ (← elementsActions e tokenize owner name rest)
  | .leaf _ _ :: _ => .error (.leafInList name owner)

end

/-- The word of actions that derives a tree; `tokenize` cuts leaf texts into pieces where the
encoding splits them. -/
def Ast.actions (e : Encoding) (tokenize : String → List String) (tree : Ast) :
    Except Failure (List Action) :=
  (tree.rootActions e tokenize).mapError Failure.of

end TreeDerivation
