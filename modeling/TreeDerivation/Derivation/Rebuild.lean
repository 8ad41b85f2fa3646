import TreeDerivation.Derivation.Basic
import TreeDerivation.Tree.Basic

/-!
# The tree of a derivation

A complete derivation stands for one tree. Each step that opened a node stands for that node, and
what the fields of the node hold is read off the steps linked into them. Steps are linked into
earlier ones only, so the trees are built from the last step to the first; the tree of the first
step is the tree of the derivation.
-/

namespace TreeDerivation

namespace Derivation

/-- The action of a step. -/
def action? (d : Derivation) (i : Nat) : Option Action :=
  d.steps[i]?.map Step.action

/-- The texts that the leading steps of a slot emit. -/
def leadingTexts (d : Derivation) : List Nat → List String
  | [] => []
  | i :: rest =>
    match d.action? i with
    | some (.generateToken (.value text)) => text :: d.leadingTexts rest
    | _ => []

/-- The steps of a slot before the one that closes its list. -/
def beforeClose (d : Derivation) (slot : List Nat) : List Nat :=
  slot.takeWhile fun i => d.action? i != some (.applyRule .closeVariadic)

/-- The elements of a list that step `i` encodes, one in each of its fields. -/
def encodedElements (d : Derivation) (treeOf : Nat → Except Cause Ast) (i : Nat) :
    Except Cause (List Ast) :=
  ((d.slots? i).getD #[]).toList.mapM fun slot =>
    match slot[0]? with
    | some child => treeOf child
    | none => .error (.emptyElement i)

/-- What a field of step `i` holds, given the trees of later steps. -/
def fieldContent (d : Derivation) (treeOf : Nat → Except Cause Ast) (i : Nat)
    (field : String × NodeType) (slot : Array Nat) : Except Cause Content :=
  match field.2.constraint with
  | .node =>
    match slot[0]? with
    | some child => (treeOf child).map .single
    | none => .error (.emptyField field.1 i)
  | .variadic =>
    if d.encoding.retainVariadic then
      ((d.beforeClose slot.toList).mapM treeOf).map .list
    else
      match slot[0]? with
      | some child => (d.encodedElements treeOf child).map .list
      | none => .error (.emptyListField field.1 i)
  | .token =>
    .ok (.single (.leaf field.2.typeName (String.join (d.leadingTexts slot.toList))))

/-- The node that step `i` opened, given the trees of later steps. -/
def nodeOf (d : Derivation) (treeOf : Nat → Except Cause Ast) (i : Nat) (s : Step) :
    Except Cause Ast :=
  match s.expansion? with
  | none => .error (.notExpansion i)
  | some rule => do
    let fields ← (rule.children.zip s.slots.toList).mapM fun (field, slot) => do
      return Field.mk field.1 field.2.typeName (← d.fieldContent treeOf i field slot)
    return .node rule.parent.typeName fields

/-- The tree of step `i`, given the trees of the last steps, the last one first. -/
def lookUp (d : Derivation) (later : Array (Except Cause Ast)) (i : Nat) : Except Cause Ast :=
  if i < d.size then
    (later[d.size - 1 - i]?).getD (.error (.notExpansion i))
  else
    .error (.notExpansion i)

/-- The trees of all steps, that of the last step first. -/
def trees (d : Derivation) : Array (Except Cause Ast) :=
  d.steps.foldr
    (fun s later => later.push (d.nodeOf (d.lookUp later) (d.size - 1 - later.size) s)) #[]

/-- The tree that a complete derivation stands for. -/
def tree (d : Derivation) : Except Failure Ast :=
  if d.isComplete then
    (d.lookUp d.trees 0).mapError Failure.of
  else
    .error (Failure.of (.unfinished d.size d.head?))

end Derivation

end TreeDerivation
