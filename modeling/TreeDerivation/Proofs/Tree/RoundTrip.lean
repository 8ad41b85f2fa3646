import TreeDerivation.Proofs.Derivation.Acceptance
import TreeDerivation.Proofs.Derivation.Reading
import TreeDerivation.Proofs.Outcome
import TreeDerivation.Tree.Actions

/-!
# Trees survive their actions

The actions of a tree derive it again (`tree_of_actions`): they are all accepted, only the last of
them completes the derivation, and the tree that the derivation stands for has the same nodes and
fields. The texts of leaves come back as the pieces that they were cut into put together, so a tree
comes back unchanged if the tokenizer loses nothing of its leaves, or if it is not asked.

The actions of a tree are the word of a parse, and the parse reads as the tree; this is proved along
the recursion that emits the actions. A list that is encoded as one expansion has the parse in which
each element fills a field of its own. The rules of that parse are the ones that a tree applies at
their fields (`admitsCanonical`).
-/

namespace TreeDerivation

/-! ## The leaves of a tree -/

mutual

/-- The tree with a function applied to the text of each leaf. -/
def Ast.mapLeaves (f : String → String) : Ast → Ast
  | .node t fields => .node t (Field.mapEachLeaf f fields)
  | .leaf t value => .leaf t (f value)

/-- What a field holds, with a function applied to the text of each leaf. -/
def Content.mapLeaves (f : String → String) : Content → Content
  | .single tree => .single (tree.mapLeaves f)
  | .list trees => .list (Ast.mapEachLeaf f trees)

/-- The fields with a function applied to the text of each leaf. -/
def Field.mapEachLeaf (f : String → String) : List Field → List Field
  | [] => []
  | .mk name t content :: rest => .mk name t (content.mapLeaves f) :: Field.mapEachLeaf f rest

/-- The trees with a function applied to the text of each leaf. -/
def Ast.mapEachLeaf (f : String → String) : List Ast → List Ast
  | [] => []
  | tree :: rest => tree.mapLeaves f :: Ast.mapEachLeaf f rest

end

mutual

/-- The texts of the leaves of a tree. -/
def Ast.leafTexts : Ast → List String
  | .node _ fields => Field.allLeafTexts fields
  | .leaf _ value => [value]

/-- The texts of the leaves in what a field holds. -/
def Content.leafTexts : Content → List String
  | .single tree => tree.leafTexts
  | .list trees => Ast.allLeafTexts trees

/-- The texts of the leaves in fields. -/
def Field.allLeafTexts : List Field → List String
  | [] => []
  | .mk _ _ content :: rest => content.leafTexts ++ Field.allLeafTexts rest

/-- The texts of the leaves of trees. -/
def Ast.allLeafTexts : List Ast → List String
  | [] => []
  | tree :: rest => tree.leafTexts ++ Ast.allLeafTexts rest

end

mutual

/-- A tree stays as it is if the texts of its leaves do. -/
theorem Ast.mapLeaves_eq_self {f : String → String} :
    ∀ {t : Ast}, (∀ v ∈ t.leafTexts, f v = v) → t.mapLeaves f = t
  | .node t fields, h => by
    rw [Ast.mapLeaves, Field.mapEachLeaf_eq_self (by simpa only [Ast.leafTexts] using h)]
  | .leaf t value, h => by
    rw [Ast.mapLeaves, h value (by simp [Ast.leafTexts])]

theorem Content.mapLeaves_eq_self {f : String → String} :
    ∀ {c : Content}, (∀ v ∈ c.leafTexts, f v = v) → c.mapLeaves f = c
  | .single tree, h => by
    rw [Content.mapLeaves, Ast.mapLeaves_eq_self (by simpa only [Content.leafTexts] using h)]
  | .list trees, h => by
    rw [Content.mapLeaves, Ast.mapEachLeaf_eq_self (by simpa only [Content.leafTexts] using h)]

theorem Field.mapEachLeaf_eq_self {f : String → String} :
    ∀ {fields : List Field}, (∀ v ∈ Field.allLeafTexts fields, f v = v) →
      Field.mapEachLeaf f fields = fields
  | [], _ => by rw [Field.mapEachLeaf]
  | .mk name t content :: rest, h => by
    rw [Field.allLeafTexts] at h
    have hcontent := Content.mapLeaves_eq_self fun v hv => h v (List.mem_append_left _ hv)
    have hrest := Field.mapEachLeaf_eq_self fun v hv => h v (List.mem_append_right _ hv)
    rw [Field.mapEachLeaf, hcontent, hrest]

theorem Ast.mapEachLeaf_eq_self {f : String → String} :
    ∀ {trees : List Ast}, (∀ v ∈ Ast.allLeafTexts trees, f v = v) →
      Ast.mapEachLeaf f trees = trees
  | [], _ => by rw [Ast.mapEachLeaf]
  | tree :: rest, h => by
    rw [Ast.allLeafTexts] at h
    have htree := Ast.mapLeaves_eq_self fun v hv => h v (List.mem_append_left _ hv)
    have hrest := Ast.mapEachLeaf_eq_self fun v hv => h v (List.mem_append_right _ hv)
    rw [Ast.mapEachLeaf, htree, hrest]

end

/-- What comes back of the text of a leaf: its pieces, put together, where it was cut. -/
def Encoding.respell (e : Encoding) (tokenize : String → List String) (value : String) : String :=
  if e.splitLeaves then String.join (tokenize value) else value

/-! ## The parse of a list that is encoded as one expansion -/

/-- The rule of a list of `n` nodes that is encoded as one expansion. -/
def listRule (typeName : String) (n : Nat) : Expansion :=
  ⟨⟨typeName, .variadic⟩, (List.range n).map fun i => (toString i, ⟨typeName, .node⟩)⟩

theorem fieldTypes_listRule (t : String) (n : Nat) :
    (listRule t n).fieldTypes = List.replicate n ⟨t, .node⟩ := by
  rw [Expansion.fieldTypes, listRule, List.map_map, List.eq_replicate_iff]
  simp

theorem arity_listRule (t : String) (n : Nat) : (listRule t n).arity = n := by
  simp [listRule, Expansion.arity]

/-- Whether a rule is the one that a tree would apply at a field of the given type, or at the root:
the parent is a node, and where a list is encoded as one expansion the rule is `listRule`. -/
def Expansion.CanonicalAt (e : Encoding) : Option NodeType → Expansion → Prop
  | some ⟨t, .variadic⟩, r =>
    if e.retainVariadic then r.parent.constraint = .node else r = listRule t r.arity
  | _, r => r.parent.constraint = .node

/-- The condition that a rule is the one that a tree would apply at its field. -/
def admitsCanonical (e : Encoding) : NodeType → Expansion → Prop :=
  fun t r => r.CanonicalAt e (some t)

/-- At a field that holds nodes, whether one or an open-ended list, a tree applies the rules of
nodes. -/
theorem admitsCanonical_of_node {e : Encoding} {t : NodeType} {r : Expansion}
    (ht : e.retainVariadic = true ∨ t.constraint = .node) (hr : r.parent.constraint = .node) :
    admitsCanonical e t r := by
  obtain ⟨u, c⟩ := t
  cases c with
  | variadic =>
    have he : e.retainVariadic = true := ht.resolve_right (by simp)
    rw [admitsCanonical, Expansion.CanonicalAt, if_pos he]
    exact hr
  | node => exact hr
  | token => exact hr

theorem Fill.words_map_node (ps : List Parse) : Fill.words (ps.map .node) = Parse.words ps := by
  induction ps with
  | nil => rw [List.map_nil, Fill.words, Parse.words]
  | cons p ps ih => rw [List.map_cons, Fill.words, Fill.word, ih, Parse.words]

theorem Fill.readFirsts_map_node (i : Nat) (ps : List Parse) :
    Fill.readFirsts i (ps.map .node) = Parse.readEach i ps := by
  induction ps generalizing i with
  | nil => rw [List.map_nil, Fill.readFirsts, Parse.readEach]
  | cons p ps ih =>
    rw [List.map_cons, Fill.readFirsts, Fill.readFirst, Fill.word, ih, Parse.readEach]

theorem Fill.fitAll_map_node {e : Encoding} {admits : NodeType → Expansion → Prop} {t : NodeType}
    (ht : takesOne e t) {ps : List Parse} (h : Parse.FitEach e admits t ps) :
    Fill.FitAll e admits (List.replicate ps.length t) (ps.map .node) := by
  induction ps with
  | nil => trivial
  | cons p ps ih => exact ⟨⟨ht, h.1.1, h.1.2⟩, ih h.2⟩

/-! ## The actions of a tree are the word of a parse -/

/-- The fields that a node is opened with, each with the type that its content shows. -/
def Field.declared (fields : List Field) : List (String × NodeType) :=
  fields.map fun field => (field.name, field.nodeType)

theorem Field.declared_cons (field : Field) (fields : List Field) :
    Field.declared (field :: fields) = (field.name, field.nodeType) :: Field.declared fields := rfl

theorem Field.typeName_nodeType (field : Field) : field.nodeType.typeName = field.typeName := by
  obtain ⟨name, t, content⟩ := field
  cases content with
  | list trees => rfl
  | single tree =>
    cases tree with
    | node u fields => rfl
    | leaf u value => rfl

variable {e : Encoding} {tokenize : String → List String}

/-- The pieces of a leaf fill a text field. -/
theorem exists_fill_of_leaf (t value : String) :
    ∃ f : Fill, f.Fits e (admitsCanonical e) ⟨t, .token⟩ ∧ f.word = leafActions e tokenize value ∧
      ∀ i, f.read i ⟨t, .token⟩ = .ok (.single (.leaf t (e.respell tokenize value))) := by
  cases he : e.splitLeaves with
  | true =>
    refine ⟨.text (tokenize value), ⟨rfl, he⟩, ?_, ?_⟩
    · rw [Fill.word, leafActions, if_pos he]
      rfl
    · intro i
      rw [Fill.read, Encoding.respell, if_pos he]
  | false =>
    refine ⟨.token (.value value), ⟨rfl, he⟩, ?_, ?_⟩
    · rw [Fill.word, leafActions, he]
      rfl
    · intro i
      rw [Fill.read, Encoding.respell, he]
      rfl

/-- The elements of a list fill a list field, whichever way lists are encoded. -/
theorem exists_fill_of_elements (t : String) {ps : List Parse} {trees : List Ast}
    (hfit : ∀ u, e.retainVariadic = true ∨ u.constraint = .node →
      Parse.FitEach e (admitsCanonical e) u ps)
    (hread : ∀ i, Parse.readEach i ps = .ok trees) :
    ∃ f : Fill, f.Fits e (admitsCanonical e) ⟨t, .variadic⟩ ∧
      f.word = enclose e t ps.length (Parse.words ps) ∧
      ∀ i, f.read i ⟨t, .variadic⟩ = .ok (.list trees) := by
  cases he : e.retainVariadic with
  | true =>
    refine ⟨.list ps, ⟨⟨rfl, he⟩, hfit _ (.inl he)⟩, ?_, ?_⟩
    · rw [Fill.word, enclose, if_pos he]
    · intro i
      rw [Fill.read, hread i]
      rfl
  | false =>
    refine ⟨.node (.expand (listRule t ps.length) (ps.map .node)),
      ⟨.inr ⟨rfl, he⟩, ?_, ?_⟩, ?_, ?_⟩
    · rw [admitsCanonical, Parse.rule, Expansion.CanonicalAt, if_neg (by simp [he]),
        arity_listRule]
    · rw [Parse.Fits, fieldTypes_listRule]
      exact Fill.fitAll_map_node (.inl rfl) (hfit _ (.inr rfl))
    · rw [Fill.word, Parse.word, Fill.words_map_node, enclose, he]
      rfl
    · intro i
      rw [Fill.read, if_pos rfl, Parse.readElements, Fill.readFirsts_map_node, hread]
      rfl

mutual

theorem exists_fills_of_fieldsActions :
    ∀ {t : String} {fields : List Field} {w : List Action},
      fieldsActions e tokenize t fields = .ok w →
      ∃ fs, Fill.FitAll e (admitsCanonical e) ((Field.declared fields).map Prod.snd) fs ∧
        Fill.words fs = w ∧ ∀ i, Fill.readAll i (Field.declared fields) fs =
          .ok (Field.mapEachLeaf (e.respell tokenize) fields)
  | _, [], w, h => by
    rw [fieldsActions] at h
    obtain rfl : [] = w := Except.ok.inj h
    refine ⟨[], trivial, by rw [Fill.words], ?_⟩
    intro i
    rw [Field.mapEachLeaf]
    rfl
  | t, .mk name u content :: rest, w, h => by
    rw [fieldsActions] at h
    obtain ⟨first, hfirst, h⟩ := exists_of_bind_eq_ok h
    obtain ⟨others, hothers, h⟩ := exists_of_bind_eq_ok h
    obtain rfl : first ++ others = w := Except.ok.inj h
    obtain ⟨f, hf, rfl, hread⟩ := exists_fill_of_contentActions hfirst
    obtain ⟨fs, hfs, rfl, hreadAll⟩ := exists_fills_of_fieldsActions hothers
    refine ⟨f :: fs, ⟨hf, hfs⟩, by rw [Fill.words], ?_⟩
    intro i
    rw [Field.declared_cons, Fill.readAll, hread, hreadAll, Field.mapEachLeaf,
      Field.typeName_nodeType]
    rfl

theorem exists_fill_of_contentActions :
    ∀ {owner name t : String} {content : Content} {w : List Action},
      contentActions e tokenize owner name t content = .ok w →
      ∃ f : Fill, f.Fits e (admitsCanonical e) (Field.mk name t content).nodeType ∧ f.word = w ∧
        ∀ i, f.read i (Field.mk name t content).nodeType =
          .ok (content.mapLeaves (e.respell tokenize))
  | _, name, t, .single (.node u fields), w, h => by
    rw [contentActions] at h
    obtain ⟨others, hothers, h⟩ := exists_of_bind_eq_ok h
    obtain rfl : openNode u fields :: others = w := Except.ok.inj h
    obtain ⟨fs, hfs, rfl, hreadAll⟩ := exists_fills_of_fieldsActions hothers
    refine ⟨.node (.expand ⟨⟨u, .node⟩, Field.declared fields⟩ fs),
      ⟨.inl rfl, rfl, hfs⟩, ?_, ?_⟩
    · rw [Fill.word, Parse.word]
      rfl
    · intro i
      rw [Fill.read, if_neg (by simp [Field.nodeType]), Parse.read, hreadAll, Content.mapLeaves,
        Ast.mapLeaves]
      rfl
  | owner, name, t, .single (.leaf u value), w, h => by
    rw [contentActions] at h
    split at h
    next hut =>
      obtain rfl : leafActions e tokenize value = w := Except.ok.inj h
      obtain ⟨f, hf, hword, hread⟩ := exists_fill_of_leaf t value
      refine ⟨f, hf, hword, ?_⟩
      intro i
      rw [Content.mapLeaves, Ast.mapLeaves, hut]
      exact hread i
    next => exact absurd h (by simp)
  | owner, name, t, .list trees, w, h => by
    rw [contentActions] at h
    obtain ⟨elements, helements, h⟩ := exists_of_bind_eq_ok h
    obtain rfl : enclose e t trees.length elements = w := Except.ok.inj h
    obtain ⟨ps, hlength, hfit, rfl, hread⟩ := exists_parses_of_elementsActions helements
    obtain ⟨f, hf, hword, hlist⟩ := exists_fill_of_elements t hfit hread
    refine ⟨f, hf, by rw [hword, hlength], ?_⟩
    rw [Content.mapLeaves]
    exact hlist

theorem exists_parses_of_elementsActions :
    ∀ {owner name : String} {trees : List Ast} {w : List Action},
      elementsActions e tokenize owner name trees = .ok w →
      ∃ ps, ps.length = trees.length ∧ (∀ u, e.retainVariadic = true ∨ u.constraint = .node →
        Parse.FitEach e (admitsCanonical e) u ps) ∧ Parse.words ps = w ∧ ∀ i, Parse.readEach i ps =
          .ok (Ast.mapEachLeaf (e.respell tokenize) trees)
  | _, _, [], w, h => by
    rw [elementsActions] at h
    obtain rfl : [] = w := Except.ok.inj h
    refine ⟨[], rfl, fun _ _ => trivial, by rw [Parse.words], ?_⟩
    intro i
    rw [Parse.readEach, Ast.mapEachLeaf]
    rfl
  | owner, name, .node u fields :: rest, w, h => by
    rw [elementsActions] at h
    obtain ⟨first, hfirst, h⟩ := exists_of_bind_eq_ok h
    obtain ⟨others, hothers, h⟩ := exists_of_bind_eq_ok h
    obtain rfl : openNode u fields :: first ++ others = w := Except.ok.inj h
    obtain ⟨fs, hfs, rfl, hreadAll⟩ := exists_fills_of_fieldsActions hfirst
    obtain ⟨ps, hlength, hfit, rfl, hread⟩ := exists_parses_of_elementsActions hothers
    refine ⟨.expand ⟨⟨u, .node⟩, Field.declared fields⟩ fs :: ps, ?_, ?_, ?_, ?_⟩
    · rw [List.length_cons, List.length_cons, hlength]
    · exact fun v hv => ⟨⟨admitsCanonical_of_node hv rfl, hfs⟩, hfit v hv⟩
    · rw [Parse.words, Parse.word]
      rfl
    · intro i
      rw [Parse.readEach, Parse.read, hreadAll, hread, Ast.mapEachLeaf, Ast.mapLeaves]
      rfl
  | owner, name, .leaf u value :: rest, w, h => by
    rw [elementsActions] at h
    exact absurd h (by simp)

end

/-- The actions of a tree are the word of a parse that reads as the tree, and its rules are those
that a tree applies. -/
theorem exists_parse_of_actions {t : Ast} {w : List Action} (h : t.actions e tokenize = .ok w) :
    ∃ p : Parse, p.Fits e (admitsCanonical e) ∧ p.word = w ∧
      p.read 0 = .ok (t.mapLeaves (e.respell tokenize)) := by
  rw [Ast.actions, mapError_eq_ok_iff] at h
  cases t with
  | leaf t value =>
    rw [Ast.rootActions] at h
    exact absurd h (by simp)
  | node t fields =>
    rw [Ast.rootActions] at h
    obtain ⟨others, hothers, h⟩ := exists_of_bind_eq_ok h
    obtain rfl : openNode t fields :: others = w := Except.ok.inj h
    obtain ⟨fs, hfs, rfl, hreadAll⟩ := exists_fills_of_fieldsActions hothers
    refine ⟨.expand ⟨⟨t, .node⟩, Field.declared fields⟩ fs, hfs, ?_, ?_⟩
    · rw [Parse.word]
      rfl
    · rw [Parse.read, hreadAll, Ast.mapLeaves]
      rfl

/-! ## The round trip -/

/-- The actions of a tree are all accepted, the last of them and no earlier one completes the
derivation, and the derivation stands for the tree, with the pieces of each leaf put together where
leaves are cut. If putting the pieces together gives back every leaf, it stands for the tree
itself. -/
theorem tree_of_actions {t : Ast} {w : List Action} (h : t.actions e tokenize = .ok w) :
    ∃ d, Derivation.replay e w = .ok d ∧ d.isComplete = true ∧
      d.tree = .ok (if e.splitLeaves then t.mapLeaves (fun v => String.join (tokenize v)) else t) ∧
      (∀ u v, u ++ v = w → v ≠ [] →
        ∃ d', Derivation.replay e u = .ok d' ∧ d'.isComplete = false) ∧
      ((∀ v ∈ t.leafTexts, String.join (tokenize v) = v) → d.tree = .ok t) := by
  obtain ⟨p, hfits, rfl, hread⟩ := exists_parse_of_actions h
  obtain ⟨d, hreplay, hcomplete, htree⟩ := Derivation.tree_of_replay_word hfits
  rw [hread] at htree
  have htext : t.mapLeaves (e.respell tokenize) =
      if e.splitLeaves then t.mapLeaves (fun v => String.join (tokenize v)) else t := by
    split
    next he => exact congrArg t.mapLeaves (funext fun v => if_pos he)
    next he => exact Ast.mapLeaves_eq_self fun v _ => by simp [Encoding.respell, he]
  refine ⟨d, hreplay, hcomplete, htext ▸ htree, ?_, ?_⟩
  · intro u v huv hv
    rw [← huv] at hreplay
    obtain ⟨d', hu, hrest⟩ := Derivation.exists_of_applyAll_append hreplay
    refine ⟨d', hu, Bool.eq_false_iff.mpr ?_⟩
    intro hd'
    exact hv (Derivation.eq_nil_of_applyAll_of_isComplete hd' hrest)
  · intro htokenize
    rw [htree, Ast.mapLeaves_eq_self]
    · rfl
    · intro v hv
      rw [Encoding.respell, htokenize v hv, ite_self]

/-- A list of one name, encoded as one expansion, whose text is cut into two pieces. -/
theorem tree_of_actions_names :
    let names := Ast.node "Names" [.mk "ids" "Name" (.list
      [.node "Name" [.mk "id" "str" (.single (.leaf "str" "xy"))]])]
    let e : Encoding := { retainVariadic := false }
    let w : List Action :=
      [.applyRule (.expandTree ⟨⟨"Names", .node⟩, [("ids", ⟨"Name", .variadic⟩)]⟩),
        .applyRule (.expandTree ⟨⟨"Name", .variadic⟩, [("0", ⟨"Name", .node⟩)]⟩),
        .applyRule (.expandTree ⟨⟨"Name", .node⟩, [("id", ⟨"str", .token⟩)]⟩),
        .generateToken (.value "x"), .generateToken (.value "y"), .generateToken .closeNode]
    names.actions e (fun _ => ["x", "y"]) = .ok w ∧
      ∃ d, Derivation.replay e w = .ok d ∧ d.isComplete = true ∧ d.tree = .ok names := by
  intro names e w
  have hactions : names.actions e (fun _ => ["x", "y"]) = .ok w := rfl
  obtain ⟨d, hreplay, hcomplete, -, -, htree⟩ := tree_of_actions hactions
  refine ⟨hactions, d, hreplay, hcomplete, htree ?_⟩
  intro v hv
  obtain rfl : v = "xy" := by
    simpa [names, Ast.leafTexts, Field.allLeafTexts, Content.leafTexts, Ast.allLeafTexts] using hv
  rfl

end TreeDerivation
