import TreeDerivation.Proofs.Text.Delimited
import TreeDerivation.Tree.Display

/-!
# What the one-line form of a tree shows

The one-line form leaves out the types of fields and of leaves and nothing else: trees whose names
have none of the marks of the form in them are written alike exactly if they are equal up to those
types (`Ast.pretty_eq_pretty_iff`). The texts of leaves may be any, the marks, quotes and escapes of
the form included.

A tree is told apart whatever is written behind it (`Ast.showsEnd`), since that is what the
surrounding forms ask of their parts. The induction is on one of the two trees.
-/

namespace TreeDerivation

open Text (Plain Without)

/-! ## What is shown -/

mutual

/-- The tree without the types of its fields and leaves. -/
def Ast.shown : Ast → Ast
  | .node t fields => .node t (Field.eachShown fields)
  | .leaf _ value => .leaf "" value

/-- What a field holds, without types. -/
def Content.shown : Content → Content
  | .single tree => .single tree.shown
  | .list trees => .list (Ast.eachShown trees)

/-- Fields without types. -/
def Field.eachShown : List Field → List Field
  | [] => []
  | .mk name _ content :: rest => .mk name "" content.shown :: Field.eachShown rest

/-- Trees without types. -/
def Ast.eachShown : List Ast → List Ast
  | [] => []
  | tree :: rest => tree.shown :: Ast.eachShown rest

end

mutual

/-- The type names of all nodes and the names of all fields. -/
def Ast.names : Ast → List String
  | .node t fields => t :: Field.eachNames fields
  | .leaf _ _ => []

/-- The names in what a field holds. -/
def Content.names : Content → List String
  | .single tree => tree.names
  | .list trees => Ast.eachNames trees

/-- The names of fields and those in what the fields hold. -/
def Field.eachNames : List Field → List String
  | [] => []
  | .mk name _ content :: rest => name :: content.names ++ Field.eachNames rest

/-- The names in trees. -/
def Ast.eachNames : List Ast → List String
  | [] => []
  | tree :: rest => tree.names ++ Ast.eachNames rest

end

/-- The characters that show how a tree is put together. -/
def Ast.marks : List Char := ['(', ')', '[', ']', '=', ',', '"']

namespace Field

/-- A field without types. -/
def shown (f : Field) : Field :=
  .mk f.name "" f.content.shown

/-- The one-line form of a field. -/
def pretty (f : Field) : List Char :=
  f.name.toList ++ '=' :: f.content.pretty.toList

theorem eachShown_eq_map (fields : List Field) : eachShown fields = fields.map shown := by
  induction fields with
  | nil => rfl
  | cons f fields ih =>
    cases f with
    | mk name t content => exact congrArg (_ :: ·) ih

theorem plain_eachNames_iff {fields : List Field} :
    Plain Ast.marks (eachNames fields) ↔
      ∀ f ∈ fields, Without Ast.marks f.name ∧ Plain Ast.marks f.content.names := by
  induction fields with
  | nil => exact iff_of_true (List.forall_mem_nil _) (List.forall_mem_nil _)
  | cons f fields ih =>
    cases f with
    | mk name t content =>
      rw [eachNames, List.cons_append, Text.plain_cons, Text.plain_append, ih, List.forall_mem_cons,
        and_assoc]
      rfl

end Field

theorem Ast.eachShown_eq_map (trees : List Ast) : eachShown trees = trees.map shown := by
  induction trees with
  | nil => rfl
  | cons tree trees ih => exact congrArg (tree.shown :: ·) ih

theorem Ast.plain_eachNames_iff {trees : List Ast} :
    Plain Ast.marks (eachNames trees) ↔ ∀ tree ∈ trees, Plain Ast.marks tree.names := by
  induction trees with
  | nil => exact iff_of_true (List.forall_mem_nil _) (List.forall_mem_nil _)
  | cons tree trees ih => rw [eachNames, Text.plain_append, ih, List.forall_mem_cons]

/-! ## How it is written -/

theorem toList_prettyFields (fields : List Field) :
    (prettyFields fields).map String.toList = fields.map Field.pretty := by
  induction fields with
  | nil => rfl
  | cons f fields ih =>
    cases f with
    | mk name t content =>
      rw [prettyFields, List.map_cons, List.map_cons, ih]
      simp [Field.pretty, Field.name, Field.content]

theorem toList_prettyTrees (trees : List Ast) :
    (prettyTrees trees).map String.toList = trees.map (·.pretty.toList) := by
  induction trees with
  | nil => rfl
  | cons tree trees ih => rw [prettyTrees, List.map_cons, List.map_cons, ih]

theorem Ast.pretty_node_append (t : String) (fields : List Field) (r : List Char) :
    (Ast.node t fields).pretty.toList ++ r =
      t.toList ++ '(' :: ([',', ' '].intercalate (fields.map Field.pretty) ++ ')' :: r) := by
  rw [Ast.pretty, String.toList_append, String.toList_append, String.toList_append,
    Text.toList_joined, toList_prettyFields]
  simp

theorem Content.pretty_list_append (trees : List Ast) (r : List Char) :
    (Content.list trees).pretty.toList ++ r =
      '[' :: ([',', ' '].intercalate (trees.map (·.pretty.toList)) ++ ']' :: r) := by
  rw [Content.pretty, String.toList_append, String.toList_append, Text.toList_joined,
    toList_prettyTrees]
  simp

/-- A tree opens with a parenthesis or a quote, not with another mark. -/
theorem Ast.pretty_append_ne {tree : Ast} (h : Plain Ast.marks tree.names) {mark : Char}
    (hmark : mark ∈ marks) (hparen : '(' ≠ mark) (hquote : '"' ≠ mark) (r s : List Char) :
    tree.pretty.toList ++ r ≠ mark :: s := by
  cases tree with
  | node t fields =>
    rw [pretty_node_append]
    exact Text.name_append_ne (Text.plain_cons.mp h).1 (by decide) hmark hparen
  | leaf t value =>
    rw [Ast.pretty, Text.quoted_append]
    exact fun heq => hquote (List.cons.inj heq).1

/-! ## Trees are told apart -/

/-- Whether the written form of the tree shows where it ends and what tree it is. -/
def Ast.ShowsEnd (a : Ast) : Prop :=
  ∀ ⦃b : Ast⦄, Plain Ast.marks b.names → ∀ ⦃r s : List Char⦄,
    a.pretty.toList ++ r = b.pretty.toList ++ s → a.shown = b.shown ∧ r = s

/-- Whether the written form of what a field holds shows where it ends and what it is. -/
def Content.ShowsEnd (c : Content) : Prop :=
  ∀ ⦃d : Content⦄, Plain Ast.marks d.names → ∀ ⦃r s : List Char⦄,
    c.pretty.toList ++ r = d.pretty.toList ++ s → c.shown = d.shown ∧ r = s

theorem Ast.showsEnd_node {t : String} {fields : List Field}
    (hplain : Plain marks (node t fields).names)
    (hfields : ∀ f ∈ fields, f.content.ShowsEnd) : (node t fields).ShowsEnd := by
  intro b hb r s h
  obtain ⟨ht, hnames⟩ := Text.plain_cons.mp hplain
  cases b with
  | leaf u value =>
    rw [pretty_node_append, Ast.pretty, Text.quoted_append] at h
    exact absurd h (Text.name_append_ne ht (by decide) (by decide) (by decide))
  | node u others =>
    rw [pretty_node_append, pretty_node_append] at h
    obtain ⟨hu, hothers⟩ := Text.plain_cons.mp hb
    rw [Field.plain_eachNames_iff] at hnames hothers
    obtain ⟨rfl, -, hrest⟩ := Text.name_append_inj ht hu (by decide) (by decide) h
    have hopens : ∀ f : Field, Without marks f.name → ∀ r s, f.pretty ++ r ≠ ')' :: s := by
      intro f hf r s
      rw [Field.pretty, List.append_assoc]
      exact Text.name_append_ne hf (by decide) (by decide) (by decide)
    have hfield : ∀ f ∈ fields, ∀ g ∈ others, ∀ r s, Text.EndsItem ')' r → Text.EndsItem ')' s →
        f.pretty ++ r = g.pretty ++ s → f.shown = g.shown ∧ r = s := by
      intro f hf g hg r s _ _ hfg
      rw [Field.pretty, Field.pretty, List.append_assoc, List.append_assoc] at hfg
      obtain ⟨hname, -, hcontent⟩ := Text.name_append_inj (hnames f hf).1 (hothers g hg).1
        (by decide) (by decide) hfg
      obtain ⟨hshown, hrs⟩ := hfields f hf (hothers g hg).2 hcontent
      exact ⟨by rw [Field.shown, Field.shown, hname, hshown], hrs⟩
    obtain ⟨hkeys, hrs⟩ := Text.joined_append_inj (by decide) hfield
      (fun f hf => hopens f (hnames f hf).1) (fun f hf => hopens f (hothers f hf).1) hrest
    rw [shown, shown, Field.eachShown_eq_map, Field.eachShown_eq_map, hkeys]
    exact ⟨rfl, hrs⟩

theorem Ast.showsEnd_leaf (t value : String) : (leaf t value).ShowsEnd := by
  intro b hb r s h
  cases b with
  | leaf u other =>
    obtain ⟨rfl, hrs⟩ := Text.quoted_append_inj h
    exact ⟨rfl, hrs⟩
  | node u others =>
    rw [pretty_node_append, Ast.pretty, Text.quoted_append] at h
    exact absurd h.symm
      (Text.name_append_ne (Text.plain_cons.mp hb).1 (by decide) (by decide) (by decide))

theorem Content.showsEnd_single {tree : Ast} (hplain : Plain Ast.marks tree.names)
    (htree : tree.ShowsEnd) : (single tree).ShowsEnd := by
  intro d hd r s h
  cases d with
  | single other =>
    obtain ⟨hshown, hrs⟩ := htree hd h
    exact ⟨congrArg single hshown, hrs⟩
  | list others =>
    rw [Content.pretty_list_append] at h
    exact absurd h (Ast.pretty_append_ne hplain (by decide) (by decide) (by decide) _ _)

theorem Content.showsEnd_list {trees : List Ast} (hplain : Plain Ast.marks (list trees).names)
    (htrees : ∀ tree ∈ trees, tree.ShowsEnd) : (list trees).ShowsEnd := by
  intro d hd r s h
  cases d with
  | single other =>
    rw [Content.pretty_list_append] at h
    exact absurd h.symm (Ast.pretty_append_ne hd (by decide) (by decide) (by decide) _ _)
  | list others =>
    rw [Content.pretty_list_append, Content.pretty_list_append] at h
    have hnames := Ast.plain_eachNames_iff.mp hplain
    have hothers := Ast.plain_eachNames_iff.mp hd
    have hopens : ∀ tree : Ast, Plain Ast.marks tree.names →
        ∀ r s, tree.pretty.toList ++ r ≠ ']' :: s :=
      fun tree htree => Ast.pretty_append_ne htree (by decide) (by decide) (by decide)
    have htree : ∀ a ∈ trees, ∀ b ∈ others, ∀ r s, Text.EndsItem ']' r → Text.EndsItem ']' s →
        a.pretty.toList ++ r = b.pretty.toList ++ s → a.shown = b.shown ∧ r = s :=
      fun a ha b hb r s _ _ hab => htrees a ha (hothers b hb) hab
    obtain ⟨hkeys, hrs⟩ := Text.joined_append_inj (by decide) htree
      (fun a ha => hopens a (hnames a ha)) (fun b hb => hopens b (hothers b hb))
      (List.cons.inj h).2
    rw [shown, shown, Ast.eachShown_eq_map, Ast.eachShown_eq_map, hkeys]
    exact ⟨rfl, hrs⟩

mutual

theorem Ast.showsEnd : ∀ tree : Ast, Plain Ast.marks tree.names → tree.ShowsEnd
  | .node _ fields, h => Ast.showsEnd_node h
      (Field.eachShowsEnd fields (Text.plain_cons.mp h).2)
  | .leaf t value, _ => Ast.showsEnd_leaf t value

theorem Content.showsEnd : ∀ content : Content, Plain Ast.marks content.names → content.ShowsEnd
  | .single tree, h => Content.showsEnd_single h (Ast.showsEnd tree h)
  | .list trees, h => Content.showsEnd_list h (Ast.eachShowsEnd trees h)

theorem Field.eachShowsEnd : ∀ fields : List Field, Plain Ast.marks (Field.eachNames fields) →
    ∀ f ∈ fields, f.content.ShowsEnd
  | [], _ => List.forall_mem_nil _
  | .mk _ _ content :: rest, h => by
    obtain ⟨⟨-, hcontent⟩, hrest⟩ := List.forall_mem_cons.mp (Field.plain_eachNames_iff.mp h)
    exact List.forall_mem_cons.mpr ⟨Content.showsEnd content hcontent,
      Field.eachShowsEnd rest (Field.plain_eachNames_iff.mpr hrest)⟩

theorem Ast.eachShowsEnd : ∀ trees : List Ast, Plain Ast.marks (Ast.eachNames trees) →
    ∀ tree ∈ trees, tree.ShowsEnd
  | [], _ => List.forall_mem_nil _
  | first :: rest, h => by
    obtain ⟨hfirst, hrest⟩ := List.forall_mem_cons.mp (Ast.plain_eachNames_iff.mp h)
    exact List.forall_mem_cons.mpr ⟨Ast.showsEnd first hfirst,
      Ast.eachShowsEnd rest (Ast.plain_eachNames_iff.mpr hrest)⟩

end

/-! ## Nothing else is shown -/

mutual

theorem Ast.pretty_shown : ∀ tree : Ast, tree.shown.pretty = tree.pretty
  | .node t fields => by rw [Ast.shown, Ast.pretty, Ast.pretty, prettyFields_eachShown fields]
  | .leaf t value => by rw [Ast.shown, Ast.pretty, Ast.pretty]

theorem Content.pretty_shown : ∀ content : Content, content.shown.pretty = content.pretty
  | .single tree => by rw [Content.shown, Content.pretty, Content.pretty, Ast.pretty_shown tree]
  | .list trees => by
    rw [Content.shown, Content.pretty, Content.pretty, prettyTrees_eachShown trees]

theorem prettyFields_eachShown : ∀ fields : List Field,
    prettyFields (Field.eachShown fields) = prettyFields fields
  | [] => rfl
  | .mk name t content :: rest => by
    rw [Field.eachShown, prettyFields, prettyFields, Content.pretty_shown content,
      prettyFields_eachShown rest]

theorem prettyTrees_eachShown : ∀ trees : List Ast,
    prettyTrees (Ast.eachShown trees) = prettyTrees trees
  | [] => rfl
  | tree :: rest => by
    rw [Ast.eachShown, prettyTrees, prettyTrees, Ast.pretty_shown tree, prettyTrees_eachShown rest]

end

/-- Trees with plain names are written alike exactly if they are equal up to the types of fields and
leaves, and a tree is told from what is written behind it. -/
theorem Ast.pretty_eq_pretty_iff {a b : Ast} (ha : Plain marks a.names) (hb : Plain marks b.names) :
    (a.pretty = b.pretty ↔ a.shown = b.shown) ∧
      ∀ r s : String, a.pretty ++ r = b.pretty ++ s ↔ a.shown = b.shown ∧ r = s := by
  have hends : ∀ r s : String, a.pretty ++ r = b.pretty ++ s → a.shown = b.shown ∧ r = s := by
    intro r s h
    have htext := congrArg String.toList h
    rw [String.toList_append, String.toList_append] at htext
    obtain ⟨hshown, hrs⟩ := showsEnd a ha hb htext
    exact ⟨hshown, String.toList_inj.mp hrs⟩
  have hshows : a.shown = b.shown → a.pretty = b.pretty := by
    intro h
    rw [← pretty_shown a, h, pretty_shown b]
  refine ⟨⟨fun h => ?_, hshows⟩, fun r s => ⟨hends r s, fun ⟨h, hrs⟩ => by rw [hshows h, hrs]⟩⟩
  exact (hends "" "" (by rw [h])).1

/-- A leaf text that looks like the end of its tree, a field without a name, a list without elements
and a node without fields. Other types do not show, another text does. -/
theorem Ast.pretty_eq_pretty_iff_call :
    let tree (t text : String) := Ast.node "Call" [.mk "func" t (.single (.leaf t text)),
      .mk "" t (.list []), .mk "args" t (.list [.node "" [], .leaf t "\\\n"])]
    let text := "\", =[], args=[(), \"\\"
    Plain marks (tree "str" text).names ∧ Plain marks (tree "" text).names ∧
    Plain marks (tree "str" "").names ∧
    tree "str" text ≠ tree "" text ∧ (tree "str" text).pretty = (tree "" text).pretty ∧
    (tree "str" text).shown ≠ (tree "str" "").shown ∧
    ∀ r s : String, (tree "str" text).pretty ++ r ≠ (tree "str" "").pretty ++ s := by
  intro tree text
  have hplain : ∀ t u : String, Plain marks (tree t u).names := by
    intro t u
    show Plain marks ["Call", "func", "", "args", ""]
    decide
  have hshown : (tree "str" text).shown ≠ (tree "str" "").shown := by decide +kernel
  refine ⟨hplain _ _, hplain _ _, hplain _ _, by decide +kernel, ?same, hshown, ?other⟩
  case same => exact (pretty_eq_pretty_iff (hplain "str" text) (hplain "" text)).1.mpr rfl
  case other =>
    intro r s h
    exact hshown (((pretty_eq_pretty_iff (hplain "str" text) (hplain "str" "")).2 r s).mp h).1

end TreeDerivation
