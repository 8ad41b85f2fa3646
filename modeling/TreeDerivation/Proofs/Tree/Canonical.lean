import TreeDerivation.Proofs.Tree.Derivable
import TreeDerivation.Proofs.Tree.RoundTrip

/-!
# Derivations that are the actions of their trees

A tree forgets some of what its derivation did: which constraint the parent of a rule had, how the
fields of a rule that encodes a list were named, where a text was cut, and that a text was given by
a sentinel. A derivation is canonical (`Derivation.IsCanonical`) if there was nothing to forget:
every rule is the one that a tree would apply at its place, and every text is cut as the tokenizer
cuts it. The actions of the tree of a canonical derivation are the actions of the derivation, one
for one (`Derivation.actions_of_tree`).

Canonicity is a property of steps and slots. By the layout of a parse it becomes a property of what
fills each field (`Derivation.fits_of_isCanonical`), and along the parse the reading and the actions of
what was read undo each other (`Parse.exists_rootActions`).
-/

namespace TreeDerivation

/-! ## Canonical derivations -/

/-- The text that an action emits. -/
def Action.text? : Action → Option String
  | .generateToken (.value text) => some text
  | _ => none

namespace Derivation

/-- The type of the field that a slot stands for. -/
def slotType? (d : Derivation) (s : Slot) : Option NodeType :=
  (d.expansion? s.action).bind fun r => r.fieldType? s.field

theorem slotType?_eq_some_iff {d : Derivation} {s : Slot} {t : NodeType} :
    d.slotType? s = some t ↔ ∃ r, d.expansion? s.action = some r ∧ r.fieldType? s.field = some t :=
  Option.bind_eq_some_iff

/-- The actions of the steps in a slot, in order. -/
def actionsIn (d : Derivation) (s : Slot) : List Action :=
  (((d.slots? s.action).bind fun slots => slots[s.field]?).getD #[]).toList.filterMap d.action?

/-- The texts that the steps in a slot emit, in order. -/
def textsIn (d : Derivation) (s : Slot) : List String :=
  (d.actionsIn s).filterMap Action.text?

/-- Whether every rule of a derivation is the one that a tree would apply at its place, and every
text is cut as the tokenizer cuts it. -/
structure IsCanonical (d : Derivation) (tokenize : String → List String) : Prop where
  rule : ∀ i r, d.expansion? i = some r →
    r.CanonicalAt d.encoding ((d.parent? i).bind d.slotType?)
  /-- The tokenizer cuts the text of a leaf into the pieces that were emitted. -/
  pieces : ∀ s t, d.slotType? s = some t → t.constraint = .token →
    d.encoding.splitLeaves = true → tokenize (String.join (d.textsIn s)) = d.textsIn s
  /-- A text that is one token is not the sentinel. -/
  token : ∀ s t, d.slotType? s = some t → t.constraint = .token →
    d.encoding.splitLeaves = false → ∃ text, d.actionsIn s = [.generateToken (.value text)]

end Derivation

/-! ## Canonical parses -/

mutual

/-- Whether every text in a parse is cut as `tokenize` cuts it, or is one token with a text. -/
def Parse.CutBy (tokenize : String → List String) : Parse → Prop
  | .expand _ fs => Fill.AllCutBy tokenize fs

/-- Whether every text in what fills a field is cut as `tokenize` cuts it. -/
def Fill.CutBy (tokenize : String → List String) : Fill → Prop
  | .node p => p.CutBy tokenize
  | .list ps => Parse.EachCutBy tokenize ps
  | .text pieces => tokenize (String.join pieces) = pieces
  | .token k => ∃ text, k = .value text

/-- Whether every text in what fills a row of fields is cut as `tokenize` cuts it. -/
def Fill.AllCutBy (tokenize : String → List String) : List Fill → Prop
  | [] => True
  | f :: fs => f.CutBy tokenize ∧ Fill.AllCutBy tokenize fs

/-- Whether every text in the elements of a list is cut as `tokenize` cuts it. -/
def Parse.EachCutBy (tokenize : String → List String) : List Parse → Prop
  | [] => True
  | p :: ps => p.CutBy tokenize ∧ Parse.EachCutBy tokenize ps

end

namespace Derivation

variable {d : Derivation} {tokenize : String → List String}

theorem lt_size_of_expansion? {d : Derivation} {i : Nat} {r : Expansion}
    (h : d.expansion? i = some r) : i < d.size := by
  obtain ⟨s, hs, -⟩ := Option.bind_eq_some_iff.mp h
  exact (Array.getElem?_eq_some_iff.mp hs).1

theorem Holds.filterMap_action? {ss : List Step} {i : Nat} (h : d.Holds i ss) :
    (List.range' i ss.length).filterMap d.action? = ss.map Step.action := by
  induction ss generalizing i with
  | nil => rfl
  | cons s ss ih =>
    rw [List.length_cons, List.range'_succ, List.filterMap_cons_some h.action?, ih h.tail,
      List.map_cons]

theorem Holds.expansion? {p : Parse} {i : Nat} {parent : Option Slot}
    (h : d.Holds i (p.steps i parent)) : d.expansion? i = some p.rule := by
  obtain ⟨r, fs⟩ := p
  rw [Parse.steps] at h
  simp [Derivation.expansion?, h.head, Step.expansion?, Step.opening, Parse.rule]

theorem Holds.parent? {p : Parse} {i : Nat} {parent : Option Slot}
    (h : d.Holds i (p.steps i parent)) : d.parent? i = parent := by
  obtain ⟨r, fs⟩ := p
  rw [Parse.steps] at h
  simp [Derivation.parent?, h.head, Step.opening]

/-- The actions in a field of a step that opened a node. -/
theorem Holds.actionsIn {r : Expansion} {fs : List Fill} {i : Nat} {parent : Option Slot}
    (h : d.Holds i ((Parse.expand r fs).steps i parent)) {k : Nat} {is : List Nat}
    (his : (Fill.allLinks (i + 1) fs)[k]? = some is) :
    d.actionsIn ⟨i, k⟩ = is.filterMap d.action? := by
  rw [Parse.steps] at h
  simp [Derivation.actionsIn, slots?, h.head, Step.opening, slotsOf, his]

/-- A rule of a canonical derivation that fills a slot. -/
theorem IsCanonical.admits (hd : d.IsCanonical tokenize) {p : Parse} {i : Nat} {slot : Slot}
    {t : NodeType} (h : d.Holds i (p.steps i (some slot))) (ht : d.slotType? slot = some t) :
    admitsCanonical d.encoding t p.rule := by
  have hrule := hd.rule i p.rule h.expansion?
  rwa [h.parent?, Option.bind_some, ht] at hrule

/-- The pieces that a slot holds up to the sentinel are the texts in it. -/
theorem textsIn_eq {slot : Slot} {pieces : List String}
    (h : d.actionsIn slot = pieceActions pieces ++ [.generateToken .closeNode]) :
    d.textsIn slot = pieces := by
  simp [textsIn, h, pieceActions, List.filterMap_map, Function.comp_def, Action.text?]

mutual

/-- Every rule of a parse that a canonical derivation holds is the one that a tree would apply at
its place, and every text in it is cut as the tokenizer cuts it. -/
theorem fits_of_isCanonical (hd : d.IsCanonical tokenize) :
    ∀ (p : Parse) {i : Nat} {parent : Option Slot}, d.Holds i (p.steps i parent) →
      p.Fits d.encoding admitsAll →
      p.Fits d.encoding (admitsCanonical d.encoding) ∧ p.CutBy tokenize
  | .expand r fs, i, parent, h, hp => by
    have htypes : ∀ k t, r.fieldTypes[k]? = some t → d.slotType? ⟨i, 0 + k⟩ = some t := by
      intro k t ht
      rw [Expansion.fieldTypes, List.getElem?_map] at ht
      simp [slotType?, h.expansion?, Parse.rule, Expansion.fieldType?, ht]
    have hactions : ∀ k is, (Fill.allLinks (i + 1) fs)[k]? = some is →
        d.actionsIn ⟨i, 0 + k⟩ = is.filterMap d.action? := by
      intro k is his
      rw [Nat.zero_add]
      exact h.actionsIn his
    rw [Parse.steps] at h
    rw [Parse.Fits] at hp
    rw [Parse.Fits, Parse.CutBy]
    exact fitAll_of_isCanonical hd fs h.tail hp htypes hactions

theorem fills_of_isCanonical (hd : d.IsCanonical tokenize) :
    ∀ (f : Fill) {i : Nat} {slot : Slot} {t : NodeType}, d.Holds i (f.steps slot i) →
      f.Fits d.encoding admitsAll t → d.slotType? slot = some t →
      d.actionsIn slot = (f.links i).filterMap d.action? →
      f.Fits d.encoding (admitsCanonical d.encoding) t ∧ f.CutBy tokenize
  | .node p, i, slot, t, h, hf, ht, hactions => by
    rw [Fill.steps] at h
    obtain ⟨hp, hcut⟩ := fits_of_isCanonical hd p h hf.2.2
    rw [Fill.CutBy]
    exact ⟨⟨hf.1, hd.admits h ht, hp⟩, hcut⟩
  | .list ps, i, slot, t, h, hf, ht, hactions => by
    rw [Fill.steps] at h
    obtain ⟨hps, hcut⟩ := fitEach_of_isCanonical hd ps h.left hf.2 ht
    rw [Fill.CutBy]
    exact ⟨⟨hf.1, hps⟩, hcut⟩
  | .text pieces, i, slot, t, h, hf, ht, hactions => by
    have hlength : ((Fill.text pieces).steps slot i).length = pieces.length + 1 := by
      simp [Fill.steps, pieceActions]
    have hin : d.actionsIn slot = pieceActions pieces ++ [.generateToken .closeNode] := by
      rw [hactions, Fill.links, ← hlength, h.filterMap_action?, Fill.steps, List.map_map]
      exact List.map_id _
    rw [Fill.CutBy]
    refine ⟨hf, ?_⟩
    have hpieces := hd.pieces slot t ht hf.1 hf.2
    rwa [textsIn_eq hin] at hpieces
  | .token k, i, slot, t, h, hf, ht, hactions => by
    rw [Fill.steps] at h
    rw [Fill.CutBy]
    refine ⟨hf, ?_⟩
    obtain ⟨text, htext⟩ := hd.token slot t ht hf.1 hf.2
    have hin : d.actionsIn slot = [.generateToken k] := by
      simpa [Fill.links, Step.plain] using hactions.trans h.filterMap_action?
    rw [hin] at htext
    exact ⟨text, by simpa using htext⟩

theorem fitAll_of_isCanonical (hd : d.IsCanonical tokenize) :
    ∀ (fs : List Fill) {owner k i : Nat} {ts : List NodeType},
      d.Holds i (Fill.allSteps owner k i fs) → Fill.FitAll d.encoding admitsAll ts fs →
      (∀ j t, ts[j]? = some t → d.slotType? ⟨owner, k + j⟩ = some t) →
      (∀ j is, (Fill.allLinks i fs)[j]? = some is →
        d.actionsIn ⟨owner, k + j⟩ = is.filterMap d.action?) →
      Fill.FitAll d.encoding (admitsCanonical d.encoding) ts fs ∧ Fill.AllCutBy tokenize fs
  | [], owner, k, i, [], h, hfs, htypes, hactions => ⟨trivial, trivial⟩
  | [], owner, k, i, t :: ts, h, hfs, htypes, hactions => absurd hfs (by simp [Fill.FitAll])
  | f :: fs, owner, k, i, [], h, hfs, htypes, hactions => absurd hfs (by simp [Fill.FitAll])
  | f :: fs, owner, k, i, t :: ts, h, hfs, htypes, hactions => by
    rw [Fill.allSteps] at h
    rw [Fill.allLinks] at hactions
    have hright := h.right
    rw [Fill.length_steps] at hright
    have hnext : ∀ j, k + 1 + j = k + (j + 1) := by
      intro j
      omega
    obtain ⟨hfirst, hcut⟩ := fills_of_isCanonical hd f h.left hfs.1 (htypes 0 t rfl)
      (hactions 0 _ rfl)
    obtain ⟨hrest, hcuts⟩ := fitAll_of_isCanonical hd fs hright hfs.2
      (fun j u hu => hnext j ▸ htypes (j + 1) u hu)
      (fun j is his => hnext j ▸ hactions (j + 1) is his)
    rw [Fill.AllCutBy]
    exact ⟨⟨hfirst, hrest⟩, hcut, hcuts⟩

theorem fitEach_of_isCanonical (hd : d.IsCanonical tokenize) :
    ∀ (ps : List Parse) {i : Nat} {slot : Slot} {t : NodeType},
      d.Holds i (Parse.eachSteps slot i ps) → Parse.FitEach d.encoding admitsAll t ps →
      d.slotType? slot = some t →
      Parse.FitEach d.encoding (admitsCanonical d.encoding) t ps ∧ Parse.EachCutBy tokenize ps
  | [], i, slot, t, h, hps, ht => ⟨trivial, trivial⟩
  | p :: ps, i, slot, t, h, hps, ht => by
    rw [Parse.eachSteps] at h
    have hright := h.right
    rw [Parse.length_steps] at hright
    obtain ⟨hp, hcut⟩ := fits_of_isCanonical hd p h.left hps.1.2
    obtain ⟨hrest, hcuts⟩ := fitEach_of_isCanonical hd ps hright hps.2 ht
    rw [Parse.EachCutBy]
    exact ⟨⟨⟨hd.admits h.left ht, hp⟩, hrest⟩, hcut, hcuts⟩

end

end Derivation

/-! ## What a canonical parse reads as has the word of the parse -/

section Actions

variable {e : Encoding} {tokenize : String → List String}

/-- Only a node has actions at the root: its own and those of its fields. -/
theorem Ast.rootActions_eq_ok_iff {t : Ast} {w : List Action} :
    t.rootActions e tokenize = .ok w ↔ ∃ u fields v, t = .node u fields ∧
      fieldsActions e tokenize u fields = .ok v ∧ w = openNode u fields :: v := by
  cases t with
  | node u fields =>
    rw [Ast.rootActions]
    constructor
    · intro h
      obtain ⟨v, hv, h⟩ := exists_of_bind_eq_ok h
      exact ⟨u, fields, v, rfl, hv, (Except.ok.inj h).symm⟩
    · rintro ⟨_, _, v, ⟨⟩, hv, rfl⟩
      rw [hv]
      rfl
  | leaf u value => simp [Ast.rootActions]

/-- A node fills a field with its own actions. -/
theorem contentActions_single {t : Ast} {w : List Action} (owner name typeName : String)
    (h : t.rootActions e tokenize = .ok w) :
    contentActions e tokenize owner name typeName (.single t) = .ok w := by
  obtain ⟨u, fields, v, rfl, hv, rfl⟩ := Ast.rootActions_eq_ok_iff.mp h
  rw [contentActions, hv]
  rfl

theorem contentActions_list {trees : List Ast} {v : List Action} {owner name : String}
    (typeName : String) (h : elementsActions e tokenize owner name trees = .ok v) :
    contentActions e tokenize owner name typeName (.list trees) =
      .ok (enclose e typeName trees.length v) := by
  rw [contentActions, h]
  rfl

theorem elementsActions_cons {t : Ast} {trees : List Ast} {u v : List Action}
    {owner name : String} (ht : t.rootActions e tokenize = .ok u)
    (htrees : elementsActions e tokenize owner name trees = .ok v) :
    elementsActions e tokenize owner name (t :: trees) = .ok (u ++ v) := by
  obtain ⟨s, fields, w, rfl, hw, rfl⟩ := Ast.rootActions_eq_ok_iff.mp ht
  rw [elementsActions, hw, htrees]
  rfl

theorem nodeType_single {t : Ast} {w : List Action} (name typeName : String)
    (h : t.rootActions e tokenize = .ok w) :
    (Field.mk name typeName (.single t)).nodeType = ⟨typeName, .node⟩ := by
  obtain ⟨u, fields, v, rfl, -, -⟩ := Ast.rootActions_eq_ok_iff.mp h
  rfl

theorem openNode_eq {r : Expansion} {fields : List Field} (hr : r.parent.constraint = .node)
    (hfields : Field.declared fields = r.children) :
    openNode r.parent.typeName fields = .applyRule (.expandTree r) := by
  obtain ⟨⟨t, c⟩, cs⟩ := r
  obtain rfl : c = .node := hr
  rw [openNode, ← Field.declared, hfields]

theorem openList_eq {t : String} {r : Expansion} (hr : r = listRule t r.arity) :
    openList t r.arity = .applyRule (.expandTree r) := by
  rw [openList, ← listRule, ← hr]

mutual

/-- A canonical parse of a node reads as a tree whose actions are its word. -/
theorem Parse.exists_rootActions :
    ∀ (p : Parse), p.Fits e (admitsCanonical e) → p.CutBy tokenize →
      p.rule.parent.constraint = .node →
      ∀ i, ∃ t, p.read i = .ok t ∧ t.rootActions e tokenize = .ok p.word
  | .expand r fs, hp, hcut, hr, i => by
    rw [Parse.Fits] at hp
    rw [Parse.CutBy] at hcut
    obtain ⟨fields, hread, hdeclared, hactions⟩ := Fill.exists_fieldsActions fs hp hcut (i + 1)
    refine ⟨.node r.parent.typeName fields, by rw [Parse.read, hread]; rfl, ?_⟩
    have hopen : openNode r.parent.typeName fields = .applyRule (.expandTree r) :=
      openNode_eq hr hdeclared
    rw [Ast.rootActions, hactions, hopen, Parse.word]
    rfl

theorem Fill.exists_fieldsActions :
    ∀ (fs : List Fill) {cs : List (String × NodeType)},
      Fill.FitAll e (admitsCanonical e) (cs.map Prod.snd) fs → Fill.AllCutBy tokenize fs →
      ∀ i, ∃ fields, Fill.readAll i cs fs = .ok fields ∧ Field.declared fields = cs ∧
        ∀ owner, fieldsActions e tokenize owner fields = .ok (Fill.words fs)
  | [], [], _, _, i => by
    refine ⟨[], rfl, rfl, ?_⟩
    intro owner
    rw [fieldsActions, Fill.words]
    rfl
  | [], c :: cs, hfs, _, i => absurd hfs (by simp [Fill.FitAll])
  | f :: fs, [], hfs, _, i => absurd hfs (by simp [Fill.FitAll])
  | f :: fs, (name, t) :: cs, hfs, hcut, i => by
    rw [Fill.AllCutBy] at hcut
    obtain ⟨content, hcontent, htype, hfirst⟩ := Fill.exists_contentActions f hfs.1 hcut.1 name i
    obtain ⟨fields, hfields, hdeclared, hrest⟩ :=
      Fill.exists_fieldsActions fs hfs.2 hcut.2 (i + f.word.length)
    refine ⟨.mk name t.typeName content :: fields, ?_, ?_, ?_⟩
    · rw [Fill.readAll, hcontent, hfields]
      rfl
    · rw [Field.declared_cons, hdeclared, htype]
      rfl
    · intro owner
      rw [fieldsActions, hfirst, hrest, Fill.words]
      rfl

theorem Fill.exists_contentActions :
    ∀ (f : Fill) {t : NodeType}, f.Fits e (admitsCanonical e) t → f.CutBy tokenize →
      ∀ name i, ∃ content, f.read i t = .ok content ∧
        (Field.mk name t.typeName content).nodeType = t ∧
        ∀ owner, contentActions e tokenize owner name t.typeName content = .ok f.word
  | .node (.expand r fs), ⟨u, c⟩, ⟨hone, hr, hp⟩, hcut, name, i => by
    rw [Fill.CutBy] at hcut
    rw [Fill.word]
    rcases hone with rfl | ⟨rfl, he⟩
    · obtain ⟨tree, htree, hactions⟩ :=
        Parse.exists_rootActions (.expand r fs) hp hcut hr i
      refine ⟨.single tree, ?_, nodeType_single name u hactions, ?_⟩
      · rw [Fill.read, if_neg (by simp), htree]
        rfl
      · intro owner
        exact contentActions_single owner name u hactions
    · have hlist : r = listRule u r.arity := by
        rwa [admitsCanonical, Expansion.CanonicalAt, if_neg (by simp [he])] at hr
      rw [Parse.Fits, hlist, fieldTypes_listRule] at hp
      rw [Parse.CutBy] at hcut
      obtain ⟨trees, htrees, hlength, hactions⟩ :=
        Fill.exists_elementsActions fs hp hcut name (i + 1)
      refine ⟨.list trees, ?_, rfl, ?_⟩
      · rw [Fill.read, if_pos rfl, Parse.readElements, htrees]
        rfl
      · intro owner
        rw [contentActions_list u (hactions owner), enclose, if_neg (by simp [he]), hlength,
          openList_eq hlist, Parse.word]
  | .list ps, ⟨u, c⟩, ⟨⟨ht, he⟩, hps⟩, hcut, name, i => by
    obtain rfl : c = .variadic := ht
    rw [Fill.CutBy] at hcut
    obtain ⟨trees, htrees, hactions⟩ := Parse.exists_elementsActions ps he hps hcut name i
    refine ⟨.list trees, by rw [Fill.read, htrees]; rfl, rfl, ?_⟩
    intro owner
    rw [contentActions_list u (hactions owner), enclose, if_pos he, Fill.word]
  | .text pieces, ⟨u, c⟩, ⟨ht, he⟩, hcut, name, i => by
    obtain rfl : c = .token := ht
    rw [Fill.CutBy] at hcut
    refine ⟨.single (.leaf u (String.join pieces)), by rw [Fill.read], rfl, ?_⟩
    intro owner
    rw [contentActions, if_pos rfl, leafActions, if_pos he, hcut, Fill.word]
    rfl
  | .token k, ⟨u, c⟩, ⟨ht, he⟩, hcut, name, i => by
    obtain rfl : c = .token := ht
    rw [Fill.CutBy] at hcut
    obtain ⟨text, rfl⟩ := hcut
    refine ⟨.single (.leaf u text), by rw [Fill.read]; rfl, rfl, ?_⟩
    intro owner
    rw [contentActions, if_pos rfl, leafActions, if_neg (by simp [he]), Fill.word]
    rfl

theorem Parse.exists_elementsActions :
    ∀ (ps : List Parse) {t : String}, e.retainVariadic = true →
      Parse.FitEach e (admitsCanonical e) ⟨t, .variadic⟩ ps → Parse.EachCutBy tokenize ps →
      ∀ name i, ∃ trees, Parse.readEach i ps = .ok trees ∧
        ∀ owner, elementsActions e tokenize owner name trees = .ok (Parse.words ps)
  | [], t, he, _, _, name, i => by
    refine ⟨[], by rw [Parse.readEach]; rfl, ?_⟩
    intro owner
    rw [elementsActions, Parse.words]
    rfl
  | p :: ps, t, he, hps, hcut, name, i => by
    rw [Parse.EachCutBy] at hcut
    have hr : p.rule.parent.constraint = .node := by
      have hr := hps.1.1
      rwa [admitsCanonical, Expansion.CanonicalAt, if_pos he] at hr
    obtain ⟨tree, htree, hactions⟩ := Parse.exists_rootActions p hps.1.2 hcut.1 hr i
    obtain ⟨trees, htrees, hrest⟩ :=
      Parse.exists_elementsActions ps he hps.2 hcut.2 name (i + p.word.length)
    refine ⟨tree :: trees, by rw [Parse.readEach, htree, htrees]; rfl, ?_⟩
    intro owner
    rw [elementsActions_cons hactions (hrest owner), Parse.words]

theorem Fill.exists_elementsActions :
    ∀ (fs : List Fill) {t : String} {n : Nat},
      Fill.FitAll e (admitsCanonical e) (List.replicate n ⟨t, .node⟩) fs →
      Fill.AllCutBy tokenize fs →
      ∀ name i, ∃ trees, Fill.readFirsts i fs = .ok trees ∧ trees.length = n ∧
        ∀ owner, elementsActions e tokenize owner name trees = .ok (Fill.words fs)
  | [], t, 0, _, _, name, i => by
    refine ⟨[], by rw [Fill.readFirsts]; rfl, rfl, ?_⟩
    intro owner
    rw [elementsActions, Fill.words]
    rfl
  | [], t, n + 1, hfs, _, name, i => absurd hfs (by simp [Fill.FitAll, List.replicate_succ])
  | f :: fs, t, 0, hfs, _, name, i => absurd hfs (by simp [Fill.FitAll])
  | .node p :: fs, t, n + 1, hfs, hcut, name, i => by
    rw [List.replicate_succ] at hfs
    rw [Fill.AllCutBy, Fill.CutBy] at hcut
    obtain ⟨⟨-, hr, hp⟩, hrest⟩ := hfs
    obtain ⟨tree, htree, hactions⟩ := Parse.exists_rootActions p hp hcut.1 hr i
    obtain ⟨trees, htrees, hlength, helements⟩ :=
      Fill.exists_elementsActions fs hrest hcut.2 name (i + p.word.length)
    refine ⟨tree :: trees, ?_, by rw [List.length_cons, hlength], ?_⟩
    · rw [Fill.readFirsts, Fill.readFirst, Fill.word, htree, htrees]
      rfl
    · intro owner
      rw [elementsActions_cons hactions (helements owner), Fill.words, Fill.word]
  -- a node field is filled by a node only
  | .list ps :: fs, t, n + 1, hfs, _, name, i => absurd hfs.1.1.1 (by simp)
  | .text pieces :: fs, t, n + 1, hfs, _, name, i => absurd hfs.1.1 (by simp)
  | .token k :: fs, t, n + 1, hfs, _, name, i => absurd hfs.1.1 (by simp)

end

end Actions

/-! ## Decoding and encoding again -/

namespace Derivation

variable {e : Encoding} {w : List Action} {d : Derivation}

/-- The actions of the tree of a canonical derivation are the actions of the derivation. Whatever
tree a derivation has, canonical or not, has actions under every encoding and every tokenizer. -/
theorem actions_of_tree (h : replay e w = .ok d) (hd : d.isComplete = true) :
    (∀ tokenize, d.IsCanonical tokenize → ∃ t, d.tree = .ok t ∧ t.actions e tokenize = .ok w) ∧
    (∀ t, d.tree = .ok t → ∀ e' tokenize, ∃ w', t.actions e' tokenize = .ok w') := by
  constructor
  · intro tokenize hcanonical
    obtain ⟨p, hp, hword⟩ := (grown_of_replay h).exists_parse_of_isComplete hd
    rw [actions_replay h] at hword
    obtain ⟨d', hreplay, -, htree⟩ := tree_of_replay_word hp
    obtain rfl : d' = d := Except.ok.inj (hreplay.symm.trans (hword ▸ h))
    obtain rfl := Except.ok.inj (hreplay.symm.trans (replay_word hp))
    have hholds := holds_toArray e (p.steps 0 none) []
    obtain ⟨hfits, hcut⟩ := fits_of_isCanonical hcanonical p hholds hp
    have hroot := hcanonical.rule 0 p.rule hholds.expansion?
    rw [hholds.parent?] at hroot
    obtain ⟨t, hread, hactions⟩ := p.exists_rootActions hfits hcut hroot 0
    refine ⟨t, by rw [htree, hread]; rfl, ?_⟩
    rw [Ast.actions, hactions, hword]
    rfl
  · intro t ht e' tokenize
    exact Ast.exists_actions e' tokenize ((tree_eq_ok_iff_means h hd).mp ht).derivable

/-- A list of one name, encoded as one expansion, whose text is cut into characters. -/
theorem actions_of_tree_names :
    let e : Encoding := { retainVariadic := false }
    let tokenize : String → List String := fun text => text.toList.map String.singleton
    let name : Expansion := ⟨⟨"Name", .node⟩, [("id", ⟨"str", .token⟩)]⟩
    let list : Expansion := ⟨⟨"Name", .variadic⟩, [("0", ⟨"Name", .node⟩)]⟩
    let w : List Action :=
      [.applyRule (.expandTree ⟨⟨"Names", .node⟩, [("ids", ⟨"Name", .variadic⟩)]⟩),
        .applyRule (.expandTree list), .applyRule (.expandTree name),
        .generateToken (.value "x"), .generateToken (.value "y"), .generateToken .closeNode]
    ∃ d t, replay e w = .ok d ∧ d.isComplete = true ∧ d.IsCanonical tokenize ∧
      d.tree = .ok t ∧ t.actions e tokenize = .ok w := by
  intro e tokenize name list w
  let names : Expansion := ⟨⟨"Names", .node⟩, [("ids", ⟨"Name", .variadic⟩)]⟩
  let d : Derivation := ⟨e, #[⟨.applyRule (.expandTree names), none, #[#[1]]⟩,
    ⟨.applyRule (.expandTree list), some ⟨0, 0⟩, #[#[2]]⟩,
    ⟨.applyRule (.expandTree name), some ⟨1, 0⟩, #[#[3, 4, 5]]⟩,
    .plain ⟨2, 0⟩ (.generateToken (.value "x")), .plain ⟨2, 0⟩ (.generateToken (.value "y")),
    .plain ⟨2, 0⟩ (.generateToken .closeNode)], []⟩
  let p : Parse := .expand names [.node (.expand list [.node (.expand name [.text ["x", "y"]])])]
  have hp : p.Fits e admitsAll :=
    ⟨⟨.inr ⟨rfl, rfl⟩, trivial, ⟨.inl rfl, trivial, ⟨rfl, rfl⟩, trivial⟩, trivial⟩, trivial⟩
  have hword : p.word = w := rfl
  have hsteps : (p.steps 0 none).toArray = d.steps := rfl
  have h : replay e w = .ok d := by
    rw [← hword, replay_word hp, hsteps]
  have hrules : ∀ i r, d.expansion? i = some r →
      i = 0 ∧ r = names ∨ i = 1 ∧ r = list ∨ i = 2 ∧ r = name := by
    intro i r hi
    have hlt : i < 6 := lt_size_of_expansion? hi
    rcases i with _ | _ | _ | _ | _ | _ | i
    · exact .inl ⟨rfl, (Option.some.inj hi).symm⟩
    · exact .inr (.inl ⟨rfl, (Option.some.inj hi).symm⟩)
    · exact .inr (.inr ⟨rfl, (Option.some.inj hi).symm⟩)
    · exact nomatch hi
    · exact nomatch hi
    · exact nomatch hi
    · omega
  have hcanonical : d.IsCanonical tokenize := by
    constructor
    case token =>
      intro s t _ _ he
      exact nomatch he
    case rule =>
      intro i r hi
      rcases hrules i r hi with ⟨rfl, rfl⟩ | ⟨rfl, rfl⟩ | ⟨rfl, rfl⟩
      · rfl
      · rfl
      · rfl
    case pieces =>
      rintro ⟨i, k⟩ t hs ht -
      obtain ⟨r, hr, hk⟩ := slotType?_eq_some_iff.mp hs
      have hlt : k < 1 := by
        obtain ⟨c, hc, -⟩ := Option.map_eq_some_iff.mp hk
        have hlength := (List.getElem?_eq_some_iff.mp hc).1
        rcases hrules i r hr with ⟨-, rfl⟩ | ⟨-, rfl⟩ | ⟨-, rfl⟩ <;> exact hlength
      obtain rfl : k = 0 := by omega
      rcases hrules i r hr with ⟨rfl, rfl⟩ | ⟨rfl, rfl⟩ | ⟨rfl, rfl⟩
      · obtain rfl := Option.some.inj hk
        exact nomatch ht
      · obtain rfl := Option.some.inj hk
        exact nomatch ht
      · have htexts : d.textsIn ⟨2, 0⟩ = ["x", "y"] := textsIn_eq rfl
        have hpieces : (String.join ["x", "y"]).toList.map String.singleton = ["x", "y"] := by
          decide
        rw [htexts]
        exact hpieces
  obtain ⟨t, htree, hactions⟩ := (actions_of_tree h rfl).1 tokenize hcanonical
  exact ⟨d, t, h, rfl, hcanonical, htree, hactions⟩

end Derivation

end TreeDerivation
