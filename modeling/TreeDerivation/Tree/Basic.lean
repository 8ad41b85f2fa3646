/-!
# Syntax trees

A tree is a node with named, typed fields, or a leaf that holds a text. A field holds one tree or a
list of trees; the type names of fields say what the grammar expects there.
-/

namespace TreeDerivation

mutual

/-- A syntax tree. -/
inductive Ast where
  | node (typeName : String) (fields : List Field)
  | leaf (typeName : String) (value : String)

/-- A named field of a node, with the type that the grammar expects in it. -/
inductive Field where
  | mk (name : String) (typeName : String) (content : Content)

/-- What a field holds. -/
inductive Content where
  | single (tree : Ast)
  | list (trees : List Ast)

end

instance : Inhabited Ast := ⟨.leaf "" ""⟩

instance : Inhabited Field := ⟨.mk "" "" (.list [])⟩

/-- The type name of a node or leaf. -/
def Ast.typeName : Ast → String
  | .node t _ => t
  | .leaf t _ => t

namespace Field

/-- The name of a field. -/
def name : Field → String
  | .mk n _ _ => n

/-- The type name that the grammar expects in a field. -/
def typeName : Field → String
  | .mk _ t _ => t

/-- What a field holds. -/
def content : Field → Content
  | .mk _ _ c => c

end Field

/-! ## Equality -/

mutual

/-- Equality of trees, by structure. -/
def Ast.beq : Ast → Ast → Bool
  | .node t fs, .node u gs => t == u && Field.beqList fs gs
  | .leaf t v, .leaf u w => t == u && v == w
  | _, _ => false

/-- Equality of fields, by structure. -/
def Field.beq : Field → Field → Bool
  | .mk n t c, .mk m u d => n == m && t == u && Content.beq c d

/-- Equality of field contents, by structure. -/
def Content.beq : Content → Content → Bool
  | .single a, .single b => Ast.beq a b
  | .list as, .list bs => Ast.beqList as bs
  | _, _ => false

/-- Equality of lists of fields, by structure. -/
def Field.beqList : List Field → List Field → Bool
  | [], [] => true
  | f :: fs, g :: gs => Field.beq f g && Field.beqList fs gs
  | _, _ => false

/-- Equality of lists of trees, by structure. -/
def Ast.beqList : List Ast → List Ast → Bool
  | [], [] => true
  | a :: as, b :: bs => Ast.beq a b && Ast.beqList as bs
  | _, _ => false

end

mutual

theorem Ast.beq_iff : ∀ a b : Ast, Ast.beq a b = true ↔ a = b
  | .node t fs, .node u gs => by simp [Ast.beq, Field.beqList_iff fs gs]
  | .leaf t v, .leaf u w => by simp [Ast.beq]
  | .node .., .leaf .. => by simp [Ast.beq]
  | .leaf .., .node .. => by simp [Ast.beq]

theorem Field.beq_iff : ∀ f g : Field, Field.beq f g = true ↔ f = g
  | .mk n t c, .mk m u d => by simp [Field.beq, Content.beq_iff c d, and_assoc]

theorem Content.beq_iff : ∀ c d : Content, Content.beq c d = true ↔ c = d
  | .single a, .single b => by simp [Content.beq, Ast.beq_iff a b]
  | .list as, .list bs => by simp [Content.beq, Ast.beqList_iff as bs]
  | .single _, .list _ => by simp [Content.beq]
  | .list _, .single _ => by simp [Content.beq]

theorem Field.beqList_iff : ∀ fs gs : List Field, Field.beqList fs gs = true ↔ fs = gs
  | [], [] => by simp [Field.beqList]
  | f :: fs, g :: gs => by simp [Field.beqList, Field.beq_iff f g, Field.beqList_iff fs gs]
  | [], _ :: _ => by simp [Field.beqList]
  | _ :: _, [] => by simp [Field.beqList]

theorem Ast.beqList_iff : ∀ as bs : List Ast, Ast.beqList as bs = true ↔ as = bs
  | [], [] => by simp [Ast.beqList]
  | a :: as, b :: bs => by simp [Ast.beqList, Ast.beq_iff a b, Ast.beqList_iff as bs]
  | [], _ :: _ => by simp [Ast.beqList]
  | _ :: _, [] => by simp [Ast.beqList]

end

instance : DecidableEq Ast := fun a b => decidable_of_iff _ (Ast.beq_iff a b)

end TreeDerivation
