import TreeDerivation.Proofs.Derivation.Meaning
import TreeDerivation.Proofs.Tree.Faults

/-!
# Trees that some word derives

A tree is derivable if it is a node, every list in it holds nodes only, and every leaf in it has the
type of its field: the derivable trees are those without a fault (`Ast.derivable_iff`). That says
nothing about encodings or tokenizers, and every encoding and every tokenizer has a word for such a
tree (`Ast.exists_actions`). The meanings of words are derivable (`Means.derivable`), so whatever a
derivation rebuilds has a word again.
-/

namespace TreeDerivation

mutual

/-- Whether a tree is a node with derivable fields. -/
def Ast.Derivable : Ast → Prop
  | .node _ fields => Field.AllDerivable fields
  | .leaf _ _ => False

/-- Whether all fields may be filled with what they hold. -/
def Field.AllDerivable : List Field → Prop
  | [] => True
  | .mk _ t content :: rest => content.Derivable t ∧ Field.AllDerivable rest

/-- Whether a field of type `t` may be filled with this. -/
def Content.Derivable (t : String) : Content → Prop
  | .single (.node _ fields) => Field.AllDerivable fields
  | .single (.leaf u _) => u = t
  | .list trees => Ast.EachDerivable trees

/-- Whether all elements of a list are derivable nodes. -/
def Ast.EachDerivable : List Ast → Prop
  | [] => True
  | .node _ fields :: rest => Field.AllDerivable fields ∧ Ast.EachDerivable rest
  | .leaf _ _ :: _ => False

end

/-! ## Derivable trees have words -/

mutual

theorem Field.allDerivable_iff : ∀ (owner : String) (fields : List Field),
    Field.AllDerivable fields ↔ (Field.visitsAll owner fields).findSome? fault? = none
  | owner, [] => by
    rw [Field.AllDerivable, Field.visitsAll]
    exact iff_of_true trivial rfl
  | owner, .mk name t content :: rest => by
    rw [Field.AllDerivable, Field.visitsAll, List.findSome?_append, Option.or_eq_none_iff,
      Content.derivable_iff owner name t content, Field.allDerivable_iff owner rest]

theorem Content.derivable_iff : ∀ (owner name t : String) (content : Content),
    content.Derivable t ↔ (content.visits owner name t).findSome? fault? = none
  | owner, name, t, .single (.node u fields) => by
    rw [Content.Derivable, Content.visits, findSome?_visits_node, Field.allDerivable_iff u fields]
  | owner, name, t, .single (.leaf u value) => by
    rw [Content.Derivable, Content.visits, findSome?_visits_leaf, fault?]
    by_cases h : u = t <;> simp [h]
  | owner, name, t, .list trees => by
    rw [Content.Derivable, Content.visits, Ast.eachDerivable_iff owner name trees]

theorem Ast.eachDerivable_iff : ∀ (owner name : String) (trees : List Ast),
    Ast.EachDerivable trees ↔
      (Ast.visitsEach (.element owner name) trees).findSome? fault? = none
  | owner, name, [] => by
    rw [Ast.EachDerivable, Ast.visitsEach]
    exact iff_of_true trivial rfl
  | owner, name, .node u fields :: rest => by
    rw [Ast.EachDerivable, Ast.visitsEach, List.findSome?_append, Option.or_eq_none_iff,
      findSome?_visits_node, Field.allDerivable_iff u fields, Ast.eachDerivable_iff owner name rest]
  | owner, name, .leaf u value :: rest => by
    rw [Ast.EachDerivable, Ast.visitsEach, List.findSome?_append, findSome?_visits_leaf, fault?]
    exact iff_of_false not_false (by simp)

end

/-- The derivable trees are those without a fault. -/
theorem Ast.derivable_iff (t : Ast) : t.Derivable ↔ t.firstFault? = none := by
  cases t with
  | leaf u value =>
    rw [Ast.Derivable, Ast.firstFault?, findSome?_visits_leaf, fault?]
    exact iff_of_false not_false (by simp)
  | node u fields =>
    rw [Ast.Derivable, Ast.firstFault?, findSome?_visits_node, Field.allDerivable_iff u fields]

/-- A derivable tree has a word under every encoding and every tokenizer. -/
theorem Ast.exists_actions (e : Encoding) (tokenize : String → List String) {t : Ast}
    (h : t.Derivable) : ∃ w, t.actions e tokenize = .ok w := by
  rw [← failure?_eq_none_iff, Ast.failure?_actions, (Ast.derivable_iff t).mp h]
  rfl

/-! ## Meanings are derivable -/

mutual

theorem Means.allDerivable {e : Encoding} :
    ∀ {w : List Action} {u : String} {fields : List Field}, Means e w (.node u fields) →
      Field.AllDerivable fields
  | _, _, _, .expand r w fields h => MeansFields.allDerivable h

theorem MeansFields.allDerivable {e : Encoding} :
    ∀ {cs : List (String × NodeType)} {w : List Action} {fields : List Field},
      MeansFields e cs w fields → Field.AllDerivable fields
  | _, _, _, .nil => trivial
  | _, _, _, .cons c cs u v content fields hu hv => by
    rw [Field.AllDerivable]
    exact ⟨MeansContent.derivable hu, MeansFields.allDerivable hv⟩

theorem MeansContent.derivable {e : Encoding} :
    ∀ {t : NodeType} {w : List Action} {content : Content}, MeansContent e t w content →
      content.Derivable t.typeName
  | _, _, _, .node t _ _ _ (.expand r w fields h) => by
    rw [Content.Derivable]
    exact MeansFields.allDerivable h
  | _, _, _, .list t w trees _ _ h => by
    rw [Content.Derivable]
    exact MeansEach.eachDerivable h
  | _, _, _, .encoded t r w trees _ _ h => by
    rw [Content.Derivable]
    exact MeansFilling.eachDerivable h
  | _, _, _, .text t pieces _ _ => by rw [Content.Derivable]
  | _, _, _, .token t k _ _ => by rw [Content.Derivable]

theorem MeansEach.eachDerivable {e : Encoding} :
    ∀ {w : List Action} {trees : List Ast}, MeansEach e w trees → Ast.EachDerivable trees
  | _, _, .nil => trivial
  | _, _, .cons _ v _ trees (.expand r u fields hu) hv => by
    rw [Ast.EachDerivable]
    exact ⟨MeansFields.allDerivable hu, MeansEach.eachDerivable hv⟩

theorem MeansFilling.eachDerivable {e : Encoding} :
    ∀ {ts : List NodeType} {w : List Action} {trees : List Ast}, MeansFilling e ts w trees →
      Ast.EachDerivable trees
  | _, _, _, .nil => trivial
  | _, _, _, .cons t ts _ v _ trees _ (.expand r u fields hu) hv => by
    rw [Ast.EachDerivable]
    exact ⟨MeansFields.allDerivable hu, MeansFilling.eachDerivable hv⟩

end

theorem Means.derivable {e : Encoding} {w : List Action} {t : Ast} (h : Means e w t) :
    t.Derivable := by
  cases h with
  | expand r w fields h => exact MeansFields.allDerivable h

end TreeDerivation
