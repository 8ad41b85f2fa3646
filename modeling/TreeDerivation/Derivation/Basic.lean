import TreeDerivation.Failure

/-!
# Derivations

A derivation is built action by action. Its steps are kept in order, each with the slot it was
linked into and the steps that were linked into its own fields; beside them stands the *spine*, the
nodes that still have an open field, innermost first. An action is accepted when it fits the open
field of the innermost node, the *head*; a rejected action changes nothing.

A node closes when its last field is filled. That fills a field of the node above it, which may
close in turn: `settle` follows this up the spine. A list field that is kept open-ended is not
filled by one node; only its sentinel closes it.
-/

namespace TreeDerivation

/-- One accepted action and its links. -/
structure Step where
  action : Action
  /-- The slot that the step fills; none for the root. -/
  parent : Option Slot
  /-- For each field of the node that the action opens, the steps linked into it, in order. -/
  slots : Array (Array Nat)
  deriving DecidableEq, Repr

/-- The rule of a step that opens a node. -/
def Step.expansion? (s : Step) : Option Expansion :=
  match s.action with
  | .applyRule (.expandTree e) => some e
  | _ => none

/-- A node with an open field: the step that opened it, its rule, and the field to fill next. -/
structure OpenNode where
  index : Nat
  rule : Expansion
  field : Nat
  deriving DecidableEq, Repr

namespace OpenNode

/-- The slot to fill next. -/
def slot (n : OpenNode) : Slot :=
  ⟨n.index, n.field⟩

/-- The type of the field to fill next; none once all fields are filled. -/
def fieldType? (n : OpenNode) : Option NodeType :=
  n.rule.fieldType? n.field

/-- Whether all fields are filled. -/
def isFilled (n : OpenNode) : Bool :=
  n.rule.arity ≤ n.field

/-- The node with its open field filled. -/
def advance (n : OpenNode) : OpenNode :=
  { n with field := n.field + 1 }

/-- The node after a whole node was put into its open field: a list that is kept open-ended takes
more, any other field is filled by one. -/
def receive (retain : Bool) (n : OpenNode) : OpenNode :=
  if retain ∧ n.fieldType?.map NodeType.constraint = some .variadic then n else n.advance

end OpenNode

/-- Closes `top` and the nodes above it for as long as the last field of each is filled, and gives
the nodes that stay open. -/
def settle (retain : Bool) (top : OpenNode) : List OpenNode → List OpenNode
  | [] => if top.isFilled then [] else [top]
  | up :: rest => if top.isFilled then settle retain (up.receive retain) rest else top :: up :: rest

/-- A derivation, complete or not. -/
structure Derivation where
  encoding : Encoding
  steps : Array Step
  /-- The nodes with an open field, innermost first. -/
  spine : List OpenNode
  deriving DecidableEq, Repr

namespace Derivation

/-- The derivation without any action. -/
def empty (encoding : Encoding) : Derivation :=
  ⟨encoding, #[], []⟩

/-- How many actions were accepted. -/
def size (d : Derivation) : Nat :=
  d.steps.size

/-- Whether no action was accepted yet. -/
def isEmpty (d : Derivation) : Bool :=
  d.steps.isEmpty

/-- The accepted actions, in order. -/
def actions (d : Derivation) : List Action :=
  d.steps.toList.map Step.action

/-- The last accepted action. -/
def lastAction? (d : Derivation) : Option Action :=
  d.steps.back?.map Step.action

/-- The slot that the next action fills; none if nothing was begun or nothing is open. -/
def head? (d : Derivation) : Option Slot :=
  d.spine.head?.map OpenNode.slot

/-- The type of the field that the next action fills. -/
def headType? (d : Derivation) : Option NodeType :=
  d.spine.head?.bind OpenNode.fieldType?

/-- Whether there is a tree and no field of it is open. -/
def isComplete (d : Derivation) : Bool :=
  d.spine.isEmpty && !d.isEmpty

/-- The slot that a step was linked into. -/
def parent? (d : Derivation) (i : Nat) : Option Slot :=
  d.steps[i]?.bind Step.parent

/-- The steps linked into each field of a step. -/
def slots? (d : Derivation) (i : Nat) : Option (Array (Array Nat)) :=
  d.steps[i]?.map Step.slots

/-- The rule of a step that opens a node. -/
def expansion? (d : Derivation) (i : Nat) : Option Expansion :=
  d.steps[i]?.bind Step.expansion?

/-- The next field to fill of the node that a step opened: all fields of a closed node are
filled. -/
def nextField? (d : Derivation) (i : Nat) : Option Nat :=
  match d.spine.find? fun n => n.index = i with
  | some n => some n.field
  | none => (d.expansion? i).map Expansion.arity

/-! ## Accepting an action -/

/-- What an accepted action does to the head. -/
inductive Effect where
  /-- A new node becomes the head. -/
  | opens (rule : Expansion)
  /-- The open field is filled. -/
  | fills
  /-- The open field takes more. -/
  | stays
  deriving DecidableEq, Repr

namespace Effect

/-- How many fields the new step has. -/
def arity : Effect → Nat
  | .opens rule => rule.arity
  | .fills | .stays => 0

end Effect

/-- What an action does to a head of the given constraint, or what would have been accepted
instead. An empty derivation has no head and takes an expansion only. -/
def effectAt (encoding : Encoding) : Option Constraint → Action → Except Expectation Effect
  | some .token, .applyRule _ => .error .token
  | some .token, .generateToken t =>
    .ok (if t.isClose ∨ ¬ encoding.splitLeaves then .fills else .stays)
  | _, .applyRule (.expandTree rule) => .ok (.opens rule)
  | some .variadic, .applyRule .closeVariadic =>
    if encoding.retainVariadic then .ok .fills else .error .expansion
  | _, .applyRule .closeVariadic => .error .expansion
  | some _, .generateToken _ => .error .rule
  | none, .generateToken _ => .error .expansion

/-- What an action does to a derivation, or what would have been accepted instead. -/
def effect (d : Derivation) (a : Action) : Except Expectation Effect :=
  if d.isComplete then .error .nothing
  else effectAt d.encoding (d.headType?.map NodeType.constraint) a

/-- Adds the number of a step to a slot. -/
def linkInto (steps : Array Step) (slot : Slot) (i : Nat) : Array Step :=
  steps.modify slot.action fun s => { s with slots := s.slots.modify slot.field (·.push i) }

/-- The steps after an action with `arity` fields was linked into the head. -/
def linked (d : Derivation) (a : Action) (arity : Nat) : Array Step :=
  let step : Step := ⟨a, d.head?, Array.replicate arity #[]⟩
  match d.head? with
  | some slot => (linkInto d.steps slot d.size).push step
  | none => d.steps.push step

/-- The open nodes after an effect on the head. -/
def moved (d : Derivation) : Effect → List OpenNode
  | .opens rule => settle d.encoding.retainVariadic ⟨d.size, rule, 0⟩ d.spine
  | .fills =>
    match d.spine with
    | top :: rest => settle d.encoding.retainVariadic top.advance rest
    | [] => []
  | .stays => d.spine

/-- The derivation after an action with the given effect. The open nodes come first, so that the
steps can be changed in place. -/
def extend (d : Derivation) (a : Action) (e : Effect) : Derivation :=
  let encoding := d.encoding
  let spine := d.moved e
  ⟨encoding, d.linked a e.arity, spine⟩

/-- Accepts one action, or says why it does not fit. -/
def apply (d : Derivation) (a : Action) : Except Failure Derivation :=
  match d.effect a with
  | .ok e => .ok (d.extend a e)
  | .error expected => .error (Failure.of (.rejected expected a d.size))

/-- Accepts all actions in order, or fails with the first that does not fit. -/
def applyAll (d : Derivation) (as : List Action) : Except Failure Derivation :=
  as.foldlM apply d

/-- The derivation that a word of actions builds from nothing. -/
def replay (encoding : Encoding) (as : List Action) : Except Failure Derivation :=
  (empty encoding).applyAll as

end Derivation

end TreeDerivation
