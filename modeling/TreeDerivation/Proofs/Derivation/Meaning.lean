import Mathlib.Data.List.Induction
import TreeDerivation.Proofs.Derivation.Acceptance
import TreeDerivation.Proofs.Derivation.Readable

/-!
# The meaning of a word of actions

`Means` says which tree a word of actions stands for, by recursion on the word as a derivation and
without steps, links or failures: an expansion stands for a node, and each of its fields holds what
the word puts into it. A list that is encoded as one expansion holds one tree for each field of that
expansion, so a field with a text gives such a list no meaning.

The tree that a complete derivation rebuilds is the meaning of its actions (`tree_eq_ok_iff_means`).
Where lists stay open-ended every complete derivation has one (`tree_eq_meaning`). Where lists are
encoded it has one if no rule that was applied at an open list has a text in a field
(`exists_tree_of_textFree`); a list of one text is complete and has none (`tree_of_text_in_list`).
-/

namespace TreeDerivation

mutual

/-- The tree that a word stands for as the derivation of a node. -/
inductive Means (e : Encoding) : List Action → Ast → Prop where
  | expand (r : Expansion) (w : List Action) (fields : List Field) :
    MeansFields e r.children w fields →
    Means e (.applyRule (.expandTree r) :: w) (.node r.parent.typeName fields)

/-- The fields of a node, filled one after the other. -/
inductive MeansFields (e : Encoding) :
    List (String × NodeType) → List Action → List Field → Prop where
  | nil : MeansFields e [] [] []
  | cons (c : String × NodeType) (cs : List (String × NodeType)) (u v : List Action)
    (content : Content) (fields : List Field) :
    MeansContent e c.2 u content → MeansFields e cs v fields →
    MeansFields e (c :: cs) (u ++ v) (.mk c.1 c.2.typeName content :: fields)

/-- What a field of type `t` holds. -/
inductive MeansContent (e : Encoding) : NodeType → List Action → Content → Prop where
  | node (t : NodeType) (w : List Action) (tree : Ast) : t.constraint = .node → Means e w tree →
    MeansContent e t w (.single tree)
  | list (t : NodeType) (w : List Action) (trees : List Ast) :
    t.constraint = .variadic → e.retainVariadic = true → MeansEach e w trees →
    MeansContent e t (w ++ [.applyRule .closeVariadic]) (.list trees)
  | encoded (t : NodeType) (r : Expansion) (w : List Action) (trees : List Ast) :
    t.constraint = .variadic → e.retainVariadic = false → MeansFilling e r.fieldTypes w trees →
    MeansContent e t (.applyRule (.expandTree r) :: w) (.list trees)
  | text (t : NodeType) (pieces : List String) : t.constraint = .token → e.splitLeaves = true →
    MeansContent e t (pieceActions pieces ++ [.generateToken .closeNode])
      (.single (.leaf t.typeName (String.join pieces)))
  | token (t : NodeType) (k : Token) : t.constraint = .token → e.splitLeaves = false →
    MeansContent e t [.generateToken k] (.single (.leaf t.typeName k.text))

/-- The elements of an open-ended list. -/
inductive MeansEach (e : Encoding) : List Action → List Ast → Prop where
  | nil : MeansEach e [] []
  | cons (u v : List Action) (tree : Ast) (trees : List Ast) :
    Means e u tree → MeansEach e v trees → MeansEach e (u ++ v) (tree :: trees)

/-- The elements of a list that is encoded as one expansion, one for each field of the
expansion. -/
inductive MeansFilling (e : Encoding) : List NodeType → List Action → List Ast → Prop where
  | nil : MeansFilling e [] [] []
  | cons (t : NodeType) (ts : List NodeType) (u v : List Action) (tree : Ast) (trees : List Ast) :
    takesOne e t → Means e u tree → MeansFilling e ts v trees →
    MeansFilling e (t :: ts) (u ++ v) (tree :: trees)

end

/-! ## The reading of a parse is the meaning of its word -/

mutual

theorem Parse.means_of_read {e : Encoding} {admits : NodeType → Expansion → Prop} :
    ∀ (p : Parse) {i : Nat} {tree : Ast}, p.Fits e admits → p.read i = .ok tree →
      Means e p.word tree
  | .expand r fs, i, tree, hp, h => by
    rw [Parse.Fits] at hp
    rw [Parse.read] at h
    obtain ⟨fields, hfields, rfl⟩ := map_eq_ok_iff.mp h
    rw [Parse.word]
    exact .expand r _ fields (Fill.means_of_readAll fs hp hfields)

theorem Fill.means_of_readAll {e : Encoding} {admits : NodeType → Expansion → Prop} :
    ∀ (fs : List Fill) {cs : List (String × NodeType)} {i : Nat} {fields : List Field},
      Fill.FitAll e admits (cs.map Prod.snd) fs → Fill.readAll i cs fs = .ok fields →
      MeansFields e cs (Fill.words fs) fields
  | [], [], i, fields, _, h => by
    obtain rfl : [] = fields := Except.ok.inj h
    rw [Fill.words]
    exact .nil
  | [], c :: cs, i, fields, hfs, _ => absurd hfs (by simp [Fill.FitAll])
  | f :: fs, [], i, fields, hfs, _ => absurd hfs (by simp [Fill.FitAll])
  | f :: fs, c :: cs, i, fields, hfs, h => by
    rw [Fill.readAll] at h
    obtain ⟨content, hcontent, h⟩ := exists_of_bind_eq_ok h
    obtain ⟨others, hothers, h⟩ := exists_of_bind_eq_ok h
    obtain rfl := Except.ok.inj h
    rw [Fill.words]
    exact .cons c cs _ _ content others (Fill.means_of_read f hfs.1 hcontent)
      (Fill.means_of_readAll fs hfs.2 hothers)

theorem Fill.means_of_read {e : Encoding} {admits : NodeType → Expansion → Prop} :
    ∀ (f : Fill) {t : NodeType} {i : Nat} {content : Content}, f.Fits e admits t →
      f.read i t = .ok content → MeansContent e t f.word content
  | .node (.expand r fs), t, i, content, ⟨hone, _, hp⟩, h => by
    rw [Fill.read] at h
    rw [Fill.word]
    rcases hone with ht | ⟨ht, he⟩
    · rw [if_neg (by simp [ht])] at h
      obtain ⟨tree, htree, rfl⟩ := map_eq_ok_iff.mp h
      exact .node t _ tree ht (Parse.means_of_read (.expand r fs) hp htree)
    · rw [if_pos ht] at h
      obtain ⟨trees, htrees, rfl⟩ := map_eq_ok_iff.mp h
      rw [Parse.Fits] at hp
      rw [Parse.readElements] at htrees
      rw [Parse.word]
      exact .encoded t r _ trees ht he (Fill.means_of_readFirsts fs hp htrees)
  | .list ps, t, i, content, ⟨⟨ht, he⟩, hps⟩, h => by
    rw [Fill.read] at h
    obtain ⟨trees, htrees, rfl⟩ := map_eq_ok_iff.mp h
    rw [Fill.word]
    exact .list t _ trees ht he (Parse.means_of_readEach ps hps htrees)
  | .text pieces, t, i, content, hf, h => by
    rw [Fill.read] at h
    obtain rfl := Except.ok.inj h
    rw [Fill.word]
    exact .text t pieces hf.1 hf.2
  | .token k, t, i, content, hf, h => by
    rw [Fill.read] at h
    obtain rfl := Except.ok.inj h
    rw [Fill.word]
    exact .token t k hf.1 hf.2

theorem Parse.means_of_readEach {e : Encoding} {admits : NodeType → Expansion → Prop} :
    ∀ (ps : List Parse) {t : NodeType} {i : Nat} {trees : List Ast},
      Parse.FitEach e admits t ps → Parse.readEach i ps = .ok trees →
      MeansEach e (Parse.words ps) trees
  | [], t, i, trees, _, h => by
    obtain rfl : [] = trees := Except.ok.inj h
    rw [Parse.words]
    exact .nil
  | p :: ps, t, i, trees, hps, h => by
    rw [Parse.readEach] at h
    obtain ⟨tree, htree, h⟩ := exists_of_bind_eq_ok h
    obtain ⟨others, hothers, h⟩ := exists_of_bind_eq_ok h
    obtain rfl := Except.ok.inj h
    rw [Parse.words]
    exact .cons _ _ tree others (Parse.means_of_read p hps.1.2 htree)
      (Parse.means_of_readEach ps hps.2 hothers)

theorem Fill.means_of_readFirsts {e : Encoding} {admits : NodeType → Expansion → Prop} :
    ∀ (fs : List Fill) {ts : List NodeType} {i : Nat} {trees : List Ast},
      Fill.FitAll e admits ts fs → Fill.readFirsts i fs = .ok trees →
      MeansFilling e ts (Fill.words fs) trees
  | [], [], i, trees, _, h => by
    obtain rfl : [] = trees := Except.ok.inj h
    rw [Fill.words]
    exact .nil
  | [], t :: ts, i, trees, hfs, _ => absurd hfs (by simp [Fill.FitAll])
  | f :: fs, [], i, trees, hfs, _ => absurd hfs (by simp [Fill.FitAll])
  | f :: fs, t :: ts, i, trees, hfs, h => by
    rw [Fill.readFirsts] at h
    obtain ⟨tree, htree, h⟩ := exists_of_bind_eq_ok h
    obtain ⟨others, hothers, h⟩ := exists_of_bind_eq_ok h
    obtain rfl := Except.ok.inj h
    have hrest := Fill.means_of_readFirsts fs hfs.2 hothers
    -- only a node begins with a tree
    cases f with
    | node p =>
      obtain ⟨hone, -, hp⟩ := hfs.1
      rw [Fill.readFirst] at htree
      rw [Fill.words, Fill.word]
      exact .cons t ts _ _ tree others hone (Parse.means_of_read p hp htree) hrest
    | list ps => exact absurd htree (by simp [Fill.readFirst])
    | text pieces => exact absurd htree (by simp [Fill.readFirst])
    | token k => exact absurd htree (by simp [Fill.readFirst])

end

mutual

theorem Means.exists_parse {e : Encoding} :
    ∀ {w : List Action} {tree : Ast}, Means e w tree →
      ∃ p : Parse, p.Fits e admitsAll ∧ p.word = w ∧ ∀ i, p.read i = .ok tree
  | _, _, .expand r w fields h => by
    obtain ⟨fs, hfs, rfl, hread⟩ := MeansFields.exists_fills h
    refine ⟨.expand r fs, by rwa [Parse.Fits], by rw [Parse.word], ?_⟩
    intro i
    rw [Parse.read, hread]
    rfl

theorem MeansFields.exists_fills {e : Encoding} :
    ∀ {cs : List (String × NodeType)} {w : List Action} {fields : List Field},
      MeansFields e cs w fields → ∃ fs, Fill.FitAll e admitsAll (cs.map Prod.snd) fs ∧
        Fill.words fs = w ∧ ∀ i, Fill.readAll i cs fs = .ok fields
  | _, _, _, .nil => ⟨[], trivial, by rw [Fill.words], fun i => rfl⟩
  | _, _, _, .cons c cs u v content fields hu hv => by
    obtain ⟨f, hf, rfl, hread⟩ := MeansContent.exists_fill hu
    obtain ⟨fs, hfs, rfl, hreadAll⟩ := MeansFields.exists_fills hv
    refine ⟨f :: fs, ⟨hf, hfs⟩, by rw [Fill.words], ?_⟩
    intro i
    rw [Fill.readAll, hread, hreadAll]
    rfl

theorem MeansContent.exists_fill {e : Encoding} :
    ∀ {t : NodeType} {w : List Action} {content : Content}, MeansContent e t w content →
      ∃ f : Fill, f.Fits e admitsAll t ∧ f.word = w ∧ ∀ i, f.read i t = .ok content
  | _, _, _, .node t w tree ht h => by
    obtain ⟨p, hp, rfl, hread⟩ := Means.exists_parse h
    refine ⟨.node p, ⟨.inl ht, trivial, hp⟩, by rw [Fill.word], ?_⟩
    intro i
    rw [Fill.read, if_neg (by simp [ht]), hread]
    rfl
  | _, _, _, .list t w trees ht he h => by
    obtain ⟨ps, hps, rfl, hread⟩ := MeansEach.exists_parses t h
    refine ⟨.list ps, ⟨⟨ht, he⟩, hps⟩, by rw [Fill.word], ?_⟩
    intro i
    rw [Fill.read, hread]
    rfl
  | _, _, _, .encoded t r w trees ht he h => by
    obtain ⟨fs, hfs, rfl, hread⟩ := MeansFilling.exists_fills h
    refine ⟨.node (.expand r fs), ⟨.inr ⟨ht, he⟩, trivial, by rwa [Parse.Fits]⟩, ?_, ?_⟩
    · rw [Fill.word, Parse.word]
    · intro i
      rw [Fill.read, if_pos ht, Parse.readElements, hread]
      rfl
  | _, _, _, .text t pieces ht he =>
    ⟨.text pieces, ⟨ht, he⟩, by rw [Fill.word], fun i => by rw [Fill.read]⟩
  | _, _, _, .token t k ht he =>
    ⟨.token k, ⟨ht, he⟩, by rw [Fill.word], fun i => by rw [Fill.read]⟩

theorem MeansEach.exists_parses {e : Encoding} (t : NodeType) :
    ∀ {w : List Action} {trees : List Ast}, MeansEach e w trees →
      ∃ ps, Parse.FitEach e admitsAll t ps ∧ Parse.words ps = w ∧
        ∀ i, Parse.readEach i ps = .ok trees
  | _, _, .nil => ⟨[], trivial, by rw [Parse.words], fun i => by rw [Parse.readEach]; rfl⟩
  | _, _, .cons u v tree trees hu hv => by
    obtain ⟨p, hp, rfl, hread⟩ := Means.exists_parse hu
    obtain ⟨ps, hps, rfl, hreadEach⟩ := MeansEach.exists_parses t hv
    refine ⟨p :: ps, ⟨⟨trivial, hp⟩, hps⟩, by rw [Parse.words], ?_⟩
    intro i
    rw [Parse.readEach, hread, hreadEach]
    rfl

theorem MeansFilling.exists_fills {e : Encoding} :
    ∀ {ts : List NodeType} {w : List Action} {trees : List Ast}, MeansFilling e ts w trees →
      ∃ fs, Fill.FitAll e admitsAll ts fs ∧ Fill.words fs = w ∧
        ∀ i, Fill.readFirsts i fs = .ok trees
  | _, _, _, .nil => ⟨[], trivial, by rw [Fill.words], fun i => by rw [Fill.readFirsts]; rfl⟩
  | _, _, _, .cons t ts u v tree trees hone hu hv => by
    obtain ⟨p, hp, rfl, hread⟩ := Means.exists_parse hu
    obtain ⟨fs, hfs, rfl, hreadFirsts⟩ := MeansFilling.exists_fills hv
    refine ⟨.node p :: fs, ⟨⟨hone, trivial, hp⟩, hfs⟩, by rw [Fill.words, Fill.word], ?_⟩
    intro i
    rw [Fill.readFirsts, Fill.readFirst, hread, hreadFirsts]
    rfl

end

/-! ## The tree of a derivation is the meaning of its actions -/

namespace Derivation

variable {e : Encoding} {w : List Action} {d : Derivation}

/-- A word with a meaning builds a complete derivation, and its tree is the meaning. -/
theorem exists_replay_of_means {t : Ast} (h : Means e w t) :
    ∃ d, replay e w = .ok d ∧ d.isComplete = true ∧ d.tree = .ok t := by
  obtain ⟨p, hp, rfl, hread⟩ := h.exists_parse
  obtain ⟨d, hreplay, hcomplete, htree⟩ := tree_of_replay_word hp
  rw [hread] at htree
  exact ⟨d, hreplay, hcomplete, htree⟩

/-- The tree of a complete derivation is the meaning of its actions. -/
theorem tree_eq_ok_iff_means (h : replay e w = .ok d) (hd : d.isComplete = true) {t : Ast} :
    d.tree = .ok t ↔ Means e w t := by
  constructor
  · intro ht
    obtain ⟨p, hp, hword⟩ := (grown_of_replay h).exists_parse_of_isComplete hd
    rw [actions_replay h] at hword
    obtain ⟨d', hreplay, -, htree⟩ := tree_of_replay_word hp
    rw [hword, h] at hreplay
    obtain rfl := Except.ok.inj hreplay
    rw [← hword]
    exact p.means_of_read hp (mapError_eq_ok_iff.mp (htree.symm.trans ht))
  · intro hmeans
    obtain ⟨d', hreplay, -, htree⟩ := exists_replay_of_means hmeans
    obtain rfl : d' = d := Except.ok.inj (hreplay.symm.trans h)
    exact htree

/-- A derivation that is open or empty has no tree. -/
theorem exists_tree_eq_error (hd : d.isComplete = false) :
    ∃ f, d.tree = .error f ∧ f.kind = .incomplete := by
  refine ⟨Failure.of (.unfinished d.size d.head?), ?_, rfl⟩
  rw [tree, if_neg (Bool.eq_false_iff.mp hd)]

/-- Actions that all meet a condition at their heads build a grown derivation. -/
theorem grown_of_forall_prefix {admits : Option NodeType → Action → Prop}
    (h : replay e w = .ok d)
    (hadmits : ∀ u a v d', w = u ++ a :: v → replay e u = .ok d' → admits d'.headType? a) :
    Grown e admits d := by
  induction w using List.reverseRecOn generalizing d with
  | nil =>
    obtain rfl : empty e = d := Except.ok.inj h
    exact .empty
  | append_singleton w a ih =>
    obtain ⟨d₁, hw, ha⟩ := exists_of_applyAll_append h
    obtain ⟨d₂, happly, hnil⟩ := exists_of_applyAll_cons ha
    obtain rfl : d₂ = d := Except.ok.inj hnil
    have hgrown : Grown e admits d₁ := by
      refine ih hw ?_
      intro u b v d' huv hu
      exact hadmits u b (v ++ [a]) d' (by rw [huv, List.append_assoc, List.cons_append]) hu
    exact .apply a hgrown (hadmits w a [] d₁ rfl hw) happly

/-- Where lists stay open-ended, a derivation has a tree exactly if it is complete, and the tree is
the one meaning of its actions. -/
theorem tree_eq_meaning (he : e.retainVariadic = true) (h : replay e w = .ok d) :
    (d.isComplete = false → ∃ f, d.tree = .error f ∧ f.kind = .incomplete) ∧
    (d.isComplete = true → ∃ t, d.tree = .ok t ∧ ∀ t', Means e d.actions t' ↔ t' = t) := by
  refine ⟨exists_tree_eq_error, ?_⟩
  intro hd
  have hgrown : Grown e (AdmitsTextFree e) d := by
    refine grown_of_forall_prefix h ?_
    intro u a v d' _ _
    exact admitsTextFree_of_retain he _ a
  obtain ⟨t, ht⟩ := hgrown.exists_tree hd
  refine ⟨t, ht, ?_⟩
  intro t'
  rw [actions_replay h, ← tree_eq_ok_iff_means h hd, ht, Except.ok.injEq, eq_comm]

/-- A node with a list of two nodes and a text of two pieces, each list and text up to its
sentinel. -/
theorem tree_eq_meaning_module :
    let w : List Action :=
      [.applyRule (.expandTree
          ⟨⟨"Module", .node⟩, [("body", ⟨"stmt", .variadic⟩), ("doc", ⟨"str", .token⟩)]⟩),
        .applyRule (.expandTree ⟨⟨"Pass", .node⟩, []⟩),
        .applyRule (.expandTree ⟨⟨"Break", .node⟩, []⟩), .applyRule .closeVariadic,
        .generateToken (.value "x"), .generateToken (.value "y"), .generateToken .closeNode]
    let t : Ast := .node "Module"
      [.mk "body" "stmt" (.list [.node "Pass" [], .node "Break" []]),
        .mk "doc" "str" (.single (.leaf "str" "xy"))]
    ∃ d, replay {} w = .ok d ∧ d.isComplete = true ∧ d.tree = .ok t ∧
      ∀ t', Means {} d.actions t' ↔ t' = t := by
  intro w t
  obtain ⟨d, hreplay, hcomplete, htree⟩ :
      ∃ d, replay {} w = .ok d ∧ d.isComplete = true ∧ d.tree = .ok t := ⟨_, rfl, rfl, rfl⟩
  obtain ⟨t₁, ht₁, hmeans⟩ := (tree_eq_meaning rfl hreplay).2 hcomplete
  obtain rfl : t₁ = t := Except.ok.inj (ht₁.symm.trans htree)
  exact ⟨d, hreplay, hcomplete, htree, hmeans⟩

/-- The tree of a complete derivation is the meaning of its actions, whichever way lists are
encoded, and it exists if no rule that was applied where an encoded list is open has a text in a
field. -/
theorem exists_tree_of_textFree (h : replay e w = .ok d) (hd : d.isComplete = true) :
    (∀ t, d.tree = .ok t ↔ Means e d.actions t) ∧
    ((∀ u r v d' t, d.actions = u ++ .applyRule (.expandTree r) :: v → replay e u = .ok d' →
        d'.headType? = some t → ListsTextFree e t r) →
      ∃ t, d.tree = .ok t) := by
  rw [actions_replay h]
  refine ⟨fun t => tree_eq_ok_iff_means h hd, ?_⟩
  intro hfree
  have hgrown : Grown e (AdmitsTextFree e) d := by
    refine grown_of_forall_prefix h ?_
    intro u a v d' huv hu
    cases hhead : d'.headType? with
    | none => exact trivial
    | some t =>
      rcases a with (r | _) | k
      · exact hfree u r v d' t huv hu hhead
      · exact trivial
      · exact trivial
  exact hgrown.exists_tree hd

/-- A list of one node that is encoded as one expansion. The rule of the element has a text, but it
stands where a node is open. -/
theorem exists_tree_of_textFree_names :
    let e : Encoding := { retainVariadic := false, splitLeaves := false }
    let names : Expansion := ⟨⟨"Names", .node⟩, [("ids", ⟨"Name", .variadic⟩)]⟩
    let list : Expansion := ⟨⟨"Name", .variadic⟩, [("0", ⟨"Name", .node⟩)]⟩
    let name : Expansion := ⟨⟨"Name", .node⟩, [("id", ⟨"str", .token⟩)]⟩
    let t : Ast := .node "Names" [.mk "ids" "Name" (.list
      [.node "Name" [.mk "id" "str" (.single (.leaf "str" "x"))]])]
    let w : List Action := [.applyRule (.expandTree names), .applyRule (.expandTree list),
      .applyRule (.expandTree name), .generateToken (.value "x")]
    ∃ d, replay e w = .ok d ∧ d.isComplete = true ∧ d.tree = .ok t ∧ Means e d.actions t := by
  intro e names list name t w
  let p : Parse := .expand names [.node (.expand list [.node (.expand name [.token (.value "x")])])]
  have hp : p.Fits e admitsAll :=
    ⟨⟨.inr ⟨rfl, rfl⟩, trivial, ⟨.inl rfl, trivial, ⟨rfl, rfl⟩, trivial⟩, trivial⟩, trivial⟩
  have hword : p.word = w := rfl
  have hread : p.read 0 = .ok t := rfl
  obtain ⟨d, hreplay, hcomplete, hrebuilt⟩ := tree_of_replay_word hp
  rw [hword] at hreplay
  rw [hread] at hrebuilt
  obtain ⟨hmeans, htree⟩ := exists_tree_of_textFree hreplay hcomplete
  have hfree : ∀ u r v d' s, d.actions = u ++ .applyRule (.expandTree r) :: v →
      replay e u = .ok d' → d'.headType? = some s → ListsTextFree e s r := by
    intro u r v d' s huv hu hhead
    rw [actions_replay hreplay] at huv
    rcases u with _ | ⟨a, _ | ⟨b, _ | ⟨c, _ | ⟨k, u⟩⟩⟩⟩
    · obtain ⟨rfl, -⟩ : names = r ∧ _ := by simpa [w] using huv
      simp [ListsTextFree, Expansion.TextFree, Expansion.fieldTypes, names]
    · obtain ⟨-, rfl, -⟩ : _ ∧ list = r ∧ _ := by simpa [w] using huv
      simp [ListsTextFree, Expansion.TextFree, Expansion.fieldTypes, list]
    · obtain ⟨rfl, rfl, rfl, -⟩ : _ = a ∧ _ = b ∧ name = r ∧ _ := by simpa [w] using huv
      obtain rfl := Except.ok.inj hu
      obtain rfl : ⟨"Name", .node⟩ = s := Option.some.inj hhead
      simp [ListsTextFree]
    · simp [w] at huv
    · simp [w] at huv
  obtain ⟨t₁, ht₁⟩ := htree hfree
  obtain rfl : t₁ = t := Except.ok.inj (ht₁.symm.trans hrebuilt)
  exact ⟨d, hreplay, hcomplete, ht₁, (hmeans t).mp ht₁⟩

/-- A list that is encoded as one expansion of a text is complete and has no tree. -/
theorem tree_of_text_in_list :
    let e : Encoding := { retainVariadic := false, splitLeaves := false }
    ∃ d, replay e [.applyRule (.expandTree ⟨⟨"Names", .node⟩, [("ids", ⟨"Name", .variadic⟩)]⟩),
        .applyRule (.expandTree ⟨⟨"Name", .variadic⟩, [("0", ⟨"str", .token⟩)]⟩),
        .generateToken (.value "x")] = .ok d ∧
      d.isComplete = true ∧ d.tree = .error (Failure.of (.notExpansion 2)) :=
  ⟨_, rfl, rfl, rfl⟩

end Derivation

end TreeDerivation
