import TreeDerivation.Proofs.Outcome
import TreeDerivation.Tree.Actions

/-!
# What keeps a tree from being derived

A tree is walked in depth-first order, from left to right; `Ast.visits` lists its parts in the order
in which they are met, each with its place. Whether a part is in order can be told from its place:
nodes always are, and a leaf is where it fills a field of its own type (`fault?`).

A tree has a word of actions if and only if all of its parts are in order, and if it has none then
the first part that is not is reported (`fault_of_actions`). Encodings and tokenizers have no say in
that: what is said of the parts does not mention them (`Ast.failure?_actions`).
-/

namespace TreeDerivation

/-- Where a part of a tree stands. -/
inductive Ast.Place where
  /-- It is the tree itself. -/
  | root
  /-- It is what the field `name` of a node of type `owner` holds. -/
  | single (owner name expected : String)
  /-- It is one of the trees in the list `name` of a node of type `owner`. -/
  | element (owner name : String)
  deriving DecidableEq, Repr

mutual

/-- The parts of a tree that stands at `place`, in depth-first order. -/
def Ast.visits (place : Ast.Place) : Ast → List (Ast.Place × Ast)
  | .node t fields => (place, .node t fields) :: Field.visitsAll t fields
  | .leaf t value => [(place, .leaf t value)]

/-- The parts of the fields of a node of type `owner`. -/
def Field.visitsAll (owner : String) : List Field → List (Ast.Place × Ast)
  | [] => []
  | .mk name t content :: rest => content.visits owner name t ++ Field.visitsAll owner rest

/-- The parts of what a field holds. -/
def Content.visits (owner name t : String) : Content → List (Ast.Place × Ast)
  | .single tree => tree.visits (.single owner name t)
  | .list trees => Ast.visitsEach (.element owner name) trees

/-- The parts of the trees in a list. -/
def Ast.visitsEach (place : Ast.Place) : List Ast → List (Ast.Place × Ast)
  | [] => []
  | tree :: rest => tree.visits place ++ Ast.visitsEach place rest

end

/-- What is wrong with a part at its place, if anything is. -/
def fault? : Ast.Place × Ast → Option Cause
  | (_, .node _ _) => none
  | (.root, .leaf u _) => some (.leafRoot u)
  | (.single owner name expected, .leaf u _) =>
    if u = expected then none else some (.leafType u name owner expected)
  | (.element owner name, .leaf _ _) => some (.leafInList name owner)

/-- The first fault of a tree. -/
def Ast.firstFault? (tree : Ast) : Option Cause :=
  (tree.visits .root).findSome? fault?

/-! ## The failure of a tree is its first fault -/

theorem findSome?_visits_node (place : Ast.Place) (t : String) (fields : List Field) :
    ((Ast.node t fields).visits place).findSome? fault? =
      (Field.visitsAll t fields).findSome? fault? := by
  rw [Ast.visits, List.findSome?_cons, fault?]

theorem findSome?_visits_leaf (place : Ast.Place) (t value : String) :
    ((Ast.leaf t value).visits place).findSome? fault? = fault? (place, .leaf t value) := by
  rw [Ast.visits, List.findSome?_singleton]

section

variable (e : Encoding) (tokenize : String → List String)

mutual

theorem failure?_fieldsActions : ∀ (owner : String) (fields : List Field),
    failure? (fieldsActions e tokenize owner fields) =
      (Field.visitsAll owner fields).findSome? fault?
  | owner, [] => by
    rw [fieldsActions, Field.visitsAll]
    rfl
  | owner, .mk name t content :: rest => by
    rw [fieldsActions, Field.visitsAll, List.findSome?_append, failure?_bind fun first => ?_,
      failure?_contentActions owner name t content]
    rw [failure?_bind_pure, failure?_fieldsActions owner rest]

theorem failure?_contentActions : ∀ (owner name t : String) (content : Content),
    failure? (contentActions e tokenize owner name t content) =
      (content.visits owner name t).findSome? fault?
  | owner, name, t, .single (.node u fields) => by
    rw [contentActions, failure?_bind_pure, failure?_fieldsActions u fields, Content.visits,
      findSome?_visits_node]
  | owner, name, t, .single (.leaf u value) => by
    rw [contentActions, Content.visits, findSome?_visits_leaf, fault?]
    split <;> rfl
  | owner, name, t, .list trees => by
    rw [contentActions, failure?_bind_pure, failure?_elementsActions owner name trees,
      Content.visits]

theorem failure?_elementsActions : ∀ (owner name : String) (trees : List Ast),
    failure? (elementsActions e tokenize owner name trees) =
      (Ast.visitsEach (.element owner name) trees).findSome? fault?
  | owner, name, [] => by
    rw [elementsActions, Ast.visitsEach]
    rfl
  | owner, name, .node u fields :: rest => by
    rw [elementsActions, Ast.visitsEach, List.findSome?_append, findSome?_visits_node,
      failure?_bind fun first => ?_, failure?_fieldsActions u fields]
    rw [failure?_bind_pure, failure?_elementsActions owner name rest]
  | owner, name, .leaf u value :: rest => by
    rw [elementsActions, Ast.visitsEach, List.findSome?_append, findSome?_visits_leaf, fault?]
    rfl

end

/-- Deriving a tree fails with its first fault, whatever the encoding and the tokenizer. -/
theorem Ast.failure?_actions (tree : Ast) :
    failure? (tree.actions e tokenize) = tree.firstFault?.map Failure.of := by
  rw [Ast.actions, failure?_mapError, Ast.firstFault?]
  cases tree with
  | node t fields =>
    rw [Ast.rootActions, failure?_bind_pure, failure?_fieldsActions, findSome?_visits_node]
  | leaf t value =>
    rw [Ast.rootActions, findSome?_visits_leaf, fault?]
    rfl

end

/-! ## Trees without faults -/

theorem kind_of_fault? {x : Ast.Place × Ast} {c : Cause} (h : fault? x = some c) :
    c.kind = .grammar := by
  unfold fault? at h
  split at h
  · exact nomatch h
  · exact Option.some.inj h ▸ rfl
  · split at h
    · exact nomatch h
    · exact Option.some.inj h ▸ rfl
  · exact Option.some.inj h ▸ rfl

theorem Ast.mem_visits_self (place : Ast.Place) (tree : Ast) :
    (place, tree) ∈ tree.visits place := by
  cases tree <;> rw [Ast.visits] <;> exact List.mem_cons_self

mutual

/-- Nothing but the tree itself stands at the root. -/
theorem Ast.ne_root_of_mem_visits : ∀ {place : Ast.Place} {x : Ast.Place × Ast} (tree : Ast),
    place ≠ .root → x ∈ tree.visits place → x.1 ≠ .root
  | place, x, .node t fields, hplace, hx => by
    rw [Ast.visits] at hx
    rcases List.mem_cons.mp hx with rfl | hx
    · exact hplace
    · exact Field.ne_root_of_mem_visitsAll fields hx
  | place, x, .leaf t value, hplace, hx => by
    rw [Ast.visits] at hx
    exact List.mem_singleton.mp hx ▸ hplace

theorem Field.ne_root_of_mem_visitsAll : ∀ {owner : String} {x : Ast.Place × Ast}
    (fields : List Field), x ∈ Field.visitsAll owner fields → x.1 ≠ .root
  | owner, x, [], hx => by
    rw [Field.visitsAll] at hx
    exact absurd hx List.not_mem_nil
  | owner, x, .mk name t content :: rest, hx => by
    rw [Field.visitsAll] at hx
    rcases List.mem_append.mp hx with hx | hx
    · exact Content.ne_root_of_mem_visits content hx
    · exact Field.ne_root_of_mem_visitsAll rest hx

theorem Content.ne_root_of_mem_visits : ∀ {owner name t : String} {x : Ast.Place × Ast}
    (content : Content), x ∈ content.visits owner name t → x.1 ≠ .root
  | owner, name, t, x, .single tree, hx => by
    rw [Content.visits] at hx
    exact Ast.ne_root_of_mem_visits tree (by simp) hx
  | owner, name, t, x, .list trees, hx => by
    rw [Content.visits] at hx
    exact Ast.ne_root_of_mem_visitsEach trees (by simp) hx

theorem Ast.ne_root_of_mem_visitsEach : ∀ {place : Ast.Place} {x : Ast.Place × Ast}
    (trees : List Ast), place ≠ .root → x ∈ Ast.visitsEach place trees → x.1 ≠ .root
  | place, x, [], hplace, hx => by
    rw [Ast.visitsEach] at hx
    exact absurd hx List.not_mem_nil
  | place, x, tree :: rest, hplace, hx => by
    rw [Ast.visitsEach] at hx
    rcases List.mem_append.mp hx with hx | hx
    · exact Ast.ne_root_of_mem_visits tree hplace hx
    · exact Ast.ne_root_of_mem_visitsEach rest hplace hx

end

/-- A tree has no fault if it is a node, its lists hold nodes only and its leaves fill fields of
their own types. -/
theorem Ast.firstFault?_eq_none_iff {tree : Ast} : tree.firstFault? = none ↔
    (∃ u fields, tree = .node u fields) ∧
    (∀ owner name x, (.element owner name, x) ∈ tree.visits .root →
      ∃ u fields, x = .node u fields) ∧
    (∀ owner name expected u value,
      (.single owner name expected, .leaf u value) ∈ tree.visits .root → u = expected) := by
  rw [Ast.firstFault?, List.findSome?_eq_none_iff]
  constructor
  · intro h
    refine ⟨?_, fun owner name x hx => ?_, fun owner name expected u value hx => ?_⟩
    · have hroot := h _ (tree.mem_visits_self .root)
      cases tree with
      | node u fields => exact ⟨u, fields, rfl⟩
      | leaf u value => exact nomatch hroot
    · have hfault := h _ hx
      cases x with
      | node u fields => exact ⟨u, fields, rfl⟩
      | leaf u value => exact nomatch hfault
    · have hfault := h _ hx
      rw [fault?] at hfault
      by_contra hne
      rw [if_neg hne] at hfault
      exact nomatch hfault
  · rintro ⟨⟨t, fields, rfl⟩, hlists, hleaves⟩ ⟨place, x⟩ hx
    cases x with
    | node u fields' => rfl
    | leaf u value =>
      cases place with
      | root =>
        rw [Ast.visits] at hx
        have hbelow := (List.mem_cons.mp hx).resolve_left (by simp)
        exact absurd rfl (Field.ne_root_of_mem_visitsAll fields hbelow)
      | single owner name expected => rw [fault?, if_pos (hleaves _ _ _ _ _ hx)]
      | element owner name =>
        obtain ⟨u', fields', hnode⟩ := hlists _ _ _ hx
        exact nomatch hnode

/-- A tree has a word of actions if and only if it is a node, no list in it holds a leaf, and every
leaf in it has the type of its field. Whether it has one, and how it fails if not, is the same for
all encodings and tokenizers. It fails with the first fault that is met when its parts are visited
in depth-first order, which names the field and the node that the part stands in. -/
theorem fault_of_actions (tree : Ast) (e : Encoding) (tokenize : String → List String) :
    ((∃ w, tree.actions e tokenize = .ok w) ↔
      (∃ u fields, tree = .node u fields) ∧
      (∀ owner name x, (.element owner name, x) ∈ tree.visits .root →
        ∃ u fields, x = .node u fields) ∧
      (∀ owner name expected u value,
        (.single owner name expected, .leaf u value) ∈ tree.visits .root → u = expected)) ∧
    (∀ e' tokenize', failure? (tree.actions e' tokenize') = failure? (tree.actions e tokenize)) ∧
    (∀ f, tree.actions e tokenize = .error f → f.kind = .grammar ∧
      ∃ before place x after, tree.visits .root = before ++ (place, x) :: after ∧
        (∀ y ∈ before, fault? y = none) ∧ fault? (place, x) = some f.cause ∧
        f = Failure.of f.cause) := by
  refine ⟨?ok, fun e' tokenize' => ?same, fun f hf => ?first⟩
  case ok =>
    rw [← Ast.firstFault?_eq_none_iff, ← failure?_eq_none_iff, Ast.failure?_actions,
      Option.map_eq_none_iff]
  case same => rw [Ast.failure?_actions, Ast.failure?_actions]
  case first =>
    rw [← failure?_eq_some_iff, Ast.failure?_actions] at hf
    obtain ⟨c, hc, rfl⟩ := Option.map_eq_some_iff.mp hf
    obtain ⟨before, ⟨place, x⟩, after, hvisits, hfault, hbefore⟩ :=
      List.findSome?_eq_some_iff.mp hc
    exact ⟨kind_of_fault? hfault, before, place, x, after, hvisits, hbefore, hfault, rfl⟩

/-- A list with a leaf in it, whose first element has a leaf of another type than its field: that
one is met first. -/
theorem fault_of_actions_names :
    let name := Ast.node "Name" [.mk "id" "str" (.single (.leaf "int" "1"))]
    let tree := Ast.node "Names" [.mk "ids" "Name" (.list [name, .leaf "str" "x"])]
    let whole (text : String) := [text]
    let f := Failure.of (.leafType "int" "id" "Name" "str")
    tree.actions {} whole = .error f ∧
    f.message = "Grammar error: leaf of type 'int' in field 'id' of 'Name' expecting 'str'" ∧
    (.element "Names" "ids", .leaf "str" "x") ∈ tree.visits .root ∧
    failure? (tree.actions ⟨false, false⟩ fun _ => []) = some f ∧
    ∃ before place x after, tree.visits .root = before ++ (place, x) :: after ∧
      (∀ y ∈ before, fault? y = none) ∧ fault? (place, x) = some f.cause := by
  intro name tree whole f
  have hfails : tree.actions {} whole = .error f := by decide
  obtain ⟨-, hsame, hfirst⟩ := fault_of_actions tree {} whole
  obtain ⟨-, before, place, x, after, hvisits, hbefore, hfault, -⟩ := hfirst f hfails
  refine ⟨hfails, by decide, ?_, ?_, before, place, x, after, hvisits, hbefore, hfault⟩
  · simp [tree, Ast.visits, Field.visitsAll, Content.visits, Ast.visitsEach]
  · rw [hsame, hfails]
    rfl

end TreeDerivation
