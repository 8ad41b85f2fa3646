import TreeDerivation.Proofs.Tree.Derivable
import TreeDerivation.Proofs.Tree.RoundTrip
import TreeDerivation.Search.Admissible

/-!
# Well-typed trees

The nodes of a tree are typed, under a relation between type names, if each of them may fill the
field that holds it, whether alone or in a list (`Ast.NodesTyped`). The tree is well-typed if every
leaf has the type of its field, too, and lists hold nodes only (`Ast.WellTyped`). Encodings and
tokenizers do not come into it, and neither do the texts of leaves.

For a parse that reads as a tree, typed nodes are a condition on each rule at the field where it
stands (`Parse.nodesTyped_iff`). A rule that encodes a list does not show in the tree, so no
relation is asked of it; its elements must be typed by the list, which takes that its fields are all
nodes of the type of the list (`ListsUniform`).

That condition on a rule is what a search asks of it (`ruleTyped_of_isAdmissible`), and it is all
that a search asks of a rule that a tree applies (`isAdmissible_of_ruleTyped`).
-/

namespace TreeDerivation

mutual

/-- Whether every node below the root of a tree may fill the field that holds it. -/
def Ast.NodesTyped (subtypes : Subtyping) : Ast → Prop
  | .node _ fields => Field.AllNodesTyped subtypes fields
  | .leaf _ _ => True

/-- Whether all fields hold typed nodes. -/
def Field.AllNodesTyped (subtypes : Subtyping) : List Field → Prop
  | [] => True
  | .mk _ t content :: rest => content.NodesTyped subtypes t ∧ Field.AllNodesTyped subtypes rest

/-- Whether the nodes in this may fill a field of type `t`, and are typed below. -/
def Content.NodesTyped (subtypes : Subtyping) (t : String) : Content → Prop
  | .single (.node u fields) => subtypes u t = true ∧ Field.AllNodesTyped subtypes fields
  | .single (.leaf _ _) => True
  | .list trees => Ast.EachNodesTyped subtypes t trees

/-- Whether the nodes among these may stand in a list of type `t`, and are typed below. -/
def Ast.EachNodesTyped (subtypes : Subtyping) (t : String) : List Ast → Prop
  | [] => True
  | .node u fields :: rest => (subtypes u t = true ∧ Field.AllNodesTyped subtypes fields) ∧
      Ast.EachNodesTyped subtypes t rest
  | .leaf _ _ :: rest => Ast.EachNodesTyped subtypes t rest

end

/-- Whether every node may fill the field that holds it, every leaf has the type of its field, and
every element of a list is a node. -/
def Ast.WellTyped (subtypes : Subtyping) (t : Ast) : Prop :=
  t.NodesTyped subtypes ∧ t.Derivable

/-! ## Texts do not matter -/

section MapLeaves

variable {subtypes : Subtyping} {f : String → String}

mutual

theorem Field.allNodesTyped_mapEachLeaf : ∀ fields : List Field,
    Field.AllNodesTyped subtypes (Field.mapEachLeaf f fields) ↔ Field.AllNodesTyped subtypes fields
  | [] => by rw [Field.mapEachLeaf]
  | .mk name t content :: rest => by
    rw [Field.mapEachLeaf, Field.AllNodesTyped, Field.AllNodesTyped,
      Content.nodesTyped_mapLeaves t content, Field.allNodesTyped_mapEachLeaf rest]

theorem Content.nodesTyped_mapLeaves (t : String) : ∀ content : Content,
    (content.mapLeaves f).NodesTyped subtypes t ↔ content.NodesTyped subtypes t
  | .single (.node u fields) => by
    rw [Content.mapLeaves, Ast.mapLeaves, Content.NodesTyped, Content.NodesTyped,
      Field.allNodesTyped_mapEachLeaf fields]
  | .single (.leaf u value) => by
    rw [Content.mapLeaves, Ast.mapLeaves, Content.NodesTyped, Content.NodesTyped]
  | .list trees => by
    rw [Content.mapLeaves, Content.NodesTyped, Content.NodesTyped,
      Ast.eachNodesTyped_mapEachLeaf t trees]

theorem Ast.eachNodesTyped_mapEachLeaf (t : String) : ∀ trees : List Ast,
    Ast.EachNodesTyped subtypes t (Ast.mapEachLeaf f trees) ↔ Ast.EachNodesTyped subtypes t trees
  | [] => by rw [Ast.mapEachLeaf]
  | .node u fields :: rest => by
    rw [Ast.mapEachLeaf, Ast.mapLeaves, Ast.EachNodesTyped, Ast.EachNodesTyped,
      Field.allNodesTyped_mapEachLeaf fields, Ast.eachNodesTyped_mapEachLeaf t rest]
  | .leaf u value :: rest => by
    rw [Ast.mapEachLeaf, Ast.mapLeaves, Ast.EachNodesTyped, Ast.EachNodesTyped,
      Ast.eachNodesTyped_mapEachLeaf t rest]

end

theorem Ast.nodesTyped_mapLeaves (t : Ast) :
    (t.mapLeaves f).NodesTyped subtypes ↔ t.NodesTyped subtypes := by
  cases t with
  | node u fields =>
    rw [Ast.mapLeaves, Ast.NodesTyped, Ast.NodesTyped, Field.allNodesTyped_mapEachLeaf fields]
  | leaf u value => rw [Ast.mapLeaves, Ast.NodesTyped, Ast.NodesTyped]

end MapLeaves

/-! ## Conditions on the rules of a parse -/

section Combine

variable {e : Encoding} {A B C : NodeType → Expansion → Prop}

mutual

/-- A parse that fits two conditions fits what they imply together. -/
theorem Parse.fits_combine (h : ∀ t r, A t r → B t r → C t r) :
    ∀ p : Parse, p.Fits e A → p.Fits e B → p.Fits e C
  | .expand r fs, hA, hB => by
    rw [Parse.Fits] at hA hB ⊢
    exact Fill.fitAll_combine h fs hA hB

theorem Fill.fits_combine (h : ∀ t r, A t r → B t r → C t r) :
    ∀ (f : Fill) {t : NodeType}, f.Fits e A t → f.Fits e B t → f.Fits e C t
  | .node p, t, ⟨hone, hA, hpA⟩, ⟨_, hB, hpB⟩ =>
    ⟨hone, h t p.rule hA hB, Parse.fits_combine h p hpA hpB⟩
  | .list ps, _, ⟨hmany, hA⟩, ⟨_, hB⟩ => ⟨hmany, Parse.fitEach_combine h ps hA hB⟩
  | .text _, _, hA, _ => hA
  | .token _, _, hA, _ => hA

theorem Fill.fitAll_combine (h : ∀ t r, A t r → B t r → C t r) :
    ∀ (fs : List Fill) {ts : List NodeType}, Fill.FitAll e A ts fs → Fill.FitAll e B ts fs →
      Fill.FitAll e C ts fs
  | [], [], _, _ => trivial
  | [], _ :: _, hA, _ => absurd hA (by simp [Fill.FitAll])
  | _ :: _, [], hA, _ => absurd hA (by simp [Fill.FitAll])
  | f :: fs, _ :: _, hA, hB =>
    ⟨Fill.fits_combine h f hA.1 hB.1, Fill.fitAll_combine h fs hA.2 hB.2⟩

theorem Parse.fitEach_combine (h : ∀ t r, A t r → B t r → C t r) :
    ∀ (ps : List Parse) {t : NodeType}, Parse.FitEach e A t ps → Parse.FitEach e B t ps →
      Parse.FitEach e C t ps
  | [], _, _, _ => trivial
  | p :: ps, t, ⟨⟨hA, hpA⟩, hpsA⟩, ⟨⟨hB, hpB⟩, hpsB⟩ =>
    ⟨⟨h t p.rule hA hB, Parse.fits_combine h p hpA hpB⟩, Parse.fitEach_combine h ps hpsA hpsB⟩

end

/-- A parse that fits a condition fits a weaker one. -/
theorem Parse.Fits.imp {p : Parse} (hp : p.Fits e A) (h : ∀ t r, A t r → B t r) : p.Fits e B :=
  p.fits_combine (fun t r hA _ => h t r hA) hp hp

end Combine

/-- Whether a rule at a field of type `t`, if it encodes a list there, has nodes of the type of the
list in all its fields. -/
def ListsUniform (e : Encoding) (t : NodeType) (r : Expansion) : Prop :=
  e.retainVariadic = false → t.constraint = .variadic →
    ∀ u ∈ r.fieldTypes, u = ⟨t.typeName, .node⟩

/-- Whether what a rule at a field of type `t` opens may stand there, unless it encodes a list. -/
def RuleTyped (e : Encoding) (subtypes : Subtyping) (t : NodeType) (r : Expansion) : Prop :=
  e.retainVariadic = true ∨ t.constraint ≠ .variadic →
    subtypes r.parent.typeName t.typeName = true

/-! ## The nodes of a parse are typed if its rules are -/

section Reading

variable {e : Encoding} {subtypes : Subtyping}

mutual

theorem Fill.allNodesTyped_iff :
    ∀ (fs : List Fill) {cs : List (String × NodeType)} {i : Nat} {fields : List Field},
      Fill.FitAll e (ListsUniform e) (cs.map Prod.snd) fs → Fill.readAll i cs fs = .ok fields →
      (Field.AllNodesTyped subtypes fields ↔
        Fill.FitAll e (RuleTyped e subtypes) (cs.map Prod.snd) fs)
  | [], [], i, fields, _, h => by
    obtain rfl : [] = fields := Except.ok.inj h
    rw [Field.AllNodesTyped, List.map_nil, Fill.FitAll]
  | [], c :: cs, i, fields, hfs, _ => absurd hfs (by simp [Fill.FitAll])
  | f :: fs, [], i, fields, hfs, _ => absurd hfs (by simp [Fill.FitAll])
  | f :: fs, c :: cs, i, fields, hfs, h => by
    rw [Fill.readAll] at h
    obtain ⟨content, hcontent, h⟩ := exists_of_bind_eq_ok h
    obtain ⟨others, hothers, h⟩ := exists_of_bind_eq_ok h
    obtain rfl := Except.ok.inj h
    rw [Field.AllNodesTyped, List.map_cons, Fill.FitAll, Fill.nodesTyped_iff f hfs.1 hcontent,
      Fill.allNodesTyped_iff fs hfs.2 hothers]

theorem Fill.nodesTyped_iff :
    ∀ (f : Fill) {t : NodeType} {i : Nat} {content : Content}, f.Fits e (ListsUniform e) t →
      f.read i t = .ok content →
      (content.NodesTyped subtypes t.typeName ↔ f.Fits e (RuleTyped e subtypes) t)
  | .node (.expand r fs), t, i, content, ⟨hone, huniform, hp⟩, h => by
    rw [Parse.Fits] at hp
    rw [Fill.read] at h
    rw [Fill.Fits, Parse.Fits]
    rcases hone with ht | ⟨ht, he⟩
    · rw [if_neg (by simp [ht]), Parse.read] at h
      obtain ⟨tree, htree, rfl⟩ := map_eq_ok_iff.mp h
      obtain ⟨fields, hfields, rfl⟩ := map_eq_ok_iff.mp htree
      have htyped : RuleTyped e subtypes t r ↔ subtypes r.parent.typeName t.typeName = true :=
        ⟨fun hr => hr (.inr (by simp [ht])), fun hr _ => hr⟩
      rw [Content.NodesTyped, Fill.allNodesTyped_iff fs hp hfields, Parse.rule, htyped]
      exact ⟨fun h => ⟨.inl ht, h⟩, fun h => h.2⟩
    · rw [if_pos ht, Parse.readElements] at h
      obtain ⟨trees, htrees, rfl⟩ := map_eq_ok_iff.mp h
      have htyped : RuleTyped e subtypes t r := fun h => absurd h (by simp [he, ht])
      rw [Content.NodesTyped, Fill.eachNodesTyped_iff_firsts fs (huniform he ht) hp htrees]
      exact ⟨fun h => ⟨.inr ⟨ht, he⟩, htyped, h⟩, fun h => h.2.2⟩
  | .list ps, t, i, content, ⟨hmany, hps⟩, h => by
    rw [Fill.read] at h
    obtain ⟨trees, htrees, rfl⟩ := map_eq_ok_iff.mp h
    rw [Content.NodesTyped, Parse.eachNodesTyped_iff ps hmany.2 hps htrees, Fill.Fits]
    exact ⟨fun h => ⟨hmany, h⟩, fun h => h.2⟩
  | .text pieces, t, i, content, hf, h => by
    rw [Fill.read] at h
    obtain rfl := Except.ok.inj h
    rw [Content.NodesTyped]
    exact iff_of_true trivial hf
  | .token k, t, i, content, hf, h => by
    rw [Fill.read] at h
    obtain rfl := Except.ok.inj h
    rw [Content.NodesTyped]
    exact iff_of_true trivial hf

theorem Parse.eachNodesTyped_iff :
    ∀ (ps : List Parse) {t : NodeType} {i : Nat} {trees : List Ast}, e.retainVariadic = true →
      Parse.FitEach e (ListsUniform e) t ps → Parse.readEach i ps = .ok trees →
      (Ast.EachNodesTyped subtypes t.typeName trees ↔
        Parse.FitEach e (RuleTyped e subtypes) t ps)
  | [], t, i, trees, _, _, h => by
    obtain rfl : [] = trees := by
      rw [Parse.readEach] at h
      exact Except.ok.inj h
    rw [Ast.EachNodesTyped, Parse.FitEach]
  | .expand r fs :: ps, t, i, trees, he, ⟨⟨_, hp⟩, hps⟩, h => by
    rw [Parse.Fits] at hp
    rw [Parse.readEach] at h
    obtain ⟨tree, htree, h⟩ := exists_of_bind_eq_ok h
    obtain ⟨others, hothers, h⟩ := exists_of_bind_eq_ok h
    obtain rfl := Except.ok.inj h
    rw [Parse.read] at htree
    obtain ⟨fields, hfields, rfl⟩ := map_eq_ok_iff.mp htree
    have htyped : RuleTyped e subtypes t r ↔ subtypes r.parent.typeName t.typeName = true :=
      ⟨fun hr => hr (.inl he), fun hr _ => hr⟩
    rw [Ast.EachNodesTyped, Fill.allNodesTyped_iff fs hp hfields,
      Parse.eachNodesTyped_iff ps he hps hothers, Parse.FitEach, Parse.Fits, Parse.rule, htyped,
      Expansion.fieldTypes]

theorem Fill.eachNodesTyped_iff_firsts :
    ∀ (fs : List Fill) {ts : List NodeType} {t : String} {i : Nat} {trees : List Ast},
      (∀ u ∈ ts, u = ⟨t, .node⟩) → Fill.FitAll e (ListsUniform e) ts fs →
      Fill.readFirsts i fs = .ok trees →
      (Ast.EachNodesTyped subtypes t trees ↔ Fill.FitAll e (RuleTyped e subtypes) ts fs)
  | [], [], t, i, trees, _, _, h => by
    obtain rfl : [] = trees := by
      rw [Fill.readFirsts] at h
      exact Except.ok.inj h
    rw [Ast.EachNodesTyped, Fill.FitAll]
  | [], u :: ts, t, i, trees, _, hfs, _ => absurd hfs (by simp [Fill.FitAll])
  | f :: fs, [], t, i, trees, _, hfs, _ => absurd hfs (by simp [Fill.FitAll])
  | .node (.expand r gs) :: fs, u :: ts, t, i, trees, hts, ⟨⟨hone, _, hp⟩, hfs⟩, h => by
    rw [Parse.Fits] at hp
    rw [Fill.readFirsts] at h
    obtain ⟨tree, htree, h⟩ := exists_of_bind_eq_ok h
    obtain ⟨others, hothers, h⟩ := exists_of_bind_eq_ok h
    obtain rfl := Except.ok.inj h
    rw [Fill.readFirst, Parse.read] at htree
    obtain ⟨fields, hfields, rfl⟩ := map_eq_ok_iff.mp htree
    obtain rfl := hts u List.mem_cons_self
    have htyped : RuleTyped e subtypes ⟨t, .node⟩ r ↔ subtypes r.parent.typeName t = true :=
      ⟨fun hr => hr (.inr (by simp)), fun hr _ => hr⟩
    rw [Ast.EachNodesTyped, Fill.allNodesTyped_iff gs hp hfields,
      Fill.eachNodesTyped_iff_firsts fs (fun v hv => hts v (List.mem_cons_of_mem _ hv)) hfs hothers,
      Fill.FitAll, Fill.Fits, Parse.Fits, Parse.rule, htyped]
    exact ⟨fun h => ⟨⟨hone, h.1⟩, h.2⟩, fun h => ⟨h.1.2, h.2⟩⟩
  | .list ps :: fs, u :: ts, t, i, trees, hts, ⟨hf, _⟩, _ => by
    obtain rfl := hts u List.mem_cons_self
    exact absurd hf.1.1 (by simp)
  | .text pieces :: fs, u :: ts, t, i, trees, hts, ⟨hf, _⟩, _ => by
    obtain rfl := hts u List.mem_cons_self
    exact absurd hf.1 (by simp)
  | .token k :: fs, u :: ts, t, i, trees, hts, ⟨hf, _⟩, _ => by
    obtain rfl := hts u List.mem_cons_self
    exact absurd hf.1 (by simp)

end

/-- The tree that a parse reads as has typed nodes exactly if every rule of the parse may stand at
its field, given that the rules that encode lists are uniform. -/
theorem Parse.nodesTyped_iff {p : Parse} {i : Nat} {tree : Ast} (hp : p.Fits e (ListsUniform e))
    (h : p.read i = .ok tree) :
    tree.NodesTyped subtypes ↔ p.Fits e (RuleTyped e subtypes) := by
  obtain ⟨r, fs⟩ := p
  rw [Parse.Fits] at hp
  rw [Parse.read] at h
  obtain ⟨fields, hfields, rfl⟩ := map_eq_ok_iff.mp h
  rw [Ast.NodesTyped, Fill.allNodesTyped_iff fs hp hfields, Parse.Fits, Expansion.fieldTypes]

end Reading

/-! ## What a search asks of a rule -/

section Admissible

variable {e : Encoding} {subtypes : Subtyping} {t : NodeType} {r : Expansion}

theorem ruleTyped_of_isAdmissible (h : isAdmissible e subtypes (some t) (.expandTree r) = true) :
    RuleTyped e subtypes t r := by
  intro hnode
  simp only [isAdmissible] at h
  split at h
  next hlist =>
    -- where lists are encoded, a rule of a list fits a list only
    obtain ⟨he, hvariadic⟩ := hlist
    have ht := hnode.resolve_left he
    have hparent : r.parent = t := by simpa using h
    exact absurd (hparent ▸ hvariadic.resolve_left ht) ht
  next => exact h

/-- A rule that a tree applies where it may stand is admissible there. -/
theorem isAdmissible_of_ruleTyped (hcanonical : admitsCanonical e t r)
    (h : RuleTyped e subtypes t r) :
    isAdmissible e subtypes (some t) (.expandTree r) = true := by
  obtain ⟨u, c⟩ := t
  simp only [isAdmissible]
  split
  next hlist =>
    obtain ⟨he, hvariadic⟩ := hlist
    cases c with
    | variadic =>
      rw [admitsCanonical, Expansion.CanonicalAt, if_neg he] at hcanonical
      rw [hcanonical]
      simp [listRule]
    | node =>
      have hnode : r.parent.constraint = .node := hcanonical
      exact absurd hvariadic (by simp [hnode])
    | token =>
      have hnode : r.parent.constraint = .node := hcanonical
      exact absurd hvariadic (by simp [hnode])
  next hlist =>
    refine h ?_
    by_contra hnode
    simp only [not_or] at hnode
    exact hlist ⟨hnode.1, .inl (Decidable.not_not.mp hnode.2)⟩

/-- A rule that a tree applies to encode a list is uniform. -/
theorem listsUniform_of_canonical (h : admitsCanonical e t r) : ListsUniform e t r := by
  obtain ⟨u, c⟩ := t
  intro he ht v hv
  obtain rfl : c = .variadic := ht
  rw [admitsCanonical, Expansion.CanonicalAt, if_neg (by simp [he])] at h
  rw [h, fieldTypes_listRule] at hv
  exact List.eq_of_mem_replicate hv

end Admissible

end TreeDerivation
