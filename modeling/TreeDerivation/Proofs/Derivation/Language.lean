import TreeDerivation.Derivation.Basic

/-!
# The language of complete derivations

The words that derive a tree, as a grammar without any machine behind it. A derivation of a node is
an expansion and then, for each field of the expansion in order, a word that fills the field. What
fills a field depends on its constraint and on the encoding alone; no type name is looked at.

Nothing is said here about which words a derivation accepts; that it accepts this language and the
beginnings of its words is proved with the open fields of a derivation.
-/

namespace TreeDerivation

/-- The types of the fields that an expansion opens, in order. -/
def Expansion.fieldTypes (r : Expansion) : List NodeType :=
  r.children.map Prod.snd

/-- The actions that emit pieces of a text. -/
def pieceActions (pieces : List String) : List Action :=
  pieces.map fun piece => .generateToken (.value piece)

mutual

/-- The words that derive a node. -/
inductive Derives (e : Encoding) : List Action → Prop where
  | expand (r : Expansion) (w : List Action) :
    FillsAll e r.fieldTypes w → Derives e (.applyRule (.expandTree r) :: w)

/-- The words that fill fields of the given types, one after the other. -/
inductive FillsAll (e : Encoding) : List NodeType → List Action → Prop where
  | nil : FillsAll e [] []
  | cons (t : NodeType) (ts : List NodeType) (u v : List Action) :
    Fills e t.constraint u → FillsAll e ts v → FillsAll e (t :: ts) (u ++ v)

/-- The words that fill one field. -/
inductive Fills (e : Encoding) : Constraint → List Action → Prop where
  | node (w : List Action) : Derives e w → Fills e .node w
  | list (w : List Action) : e.retainVariadic = true → DerivesEach e w →
    Fills e .variadic (w ++ [.applyRule .closeVariadic])
  | encoded (w : List Action) : e.retainVariadic = false → Derives e w → Fills e .variadic w
  | text (pieces : List String) : e.splitLeaves = true →
    Fills e .token (pieceActions pieces ++ [.generateToken .closeNode])
  | token (t : Token) : e.splitLeaves = false → Fills e .token [.generateToken t]

/-- The words that derive any number of nodes, one after the other. -/
inductive DerivesEach (e : Encoding) : List Action → Prop where
  | nil : DerivesEach e []
  | cons (u v : List Action) : Derives e u → DerivesEach e v → DerivesEach e (u ++ v)

end

end TreeDerivation
