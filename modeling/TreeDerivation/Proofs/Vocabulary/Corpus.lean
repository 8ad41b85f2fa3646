import TreeDerivation.CommandLine.Program
import TreeDerivation.Proofs.Outcome

/-!
# The vocabulary of a corpus

Gathering the vocabulary of a corpus derives each tree with its leaves kept whole and cuts them when
they are recorded. What comes out is the vocabulary of the actions that derive the trees as they
are, first seen first, and it comes out exactly if all trees have such actions
(`vocabulary_of_corpus`).

The two ways differ only in the tokens of leaves. `cutLeaves` makes of the actions of a tree with
whole leaves the actions of the tree (`Ast.actions_eq_map_cutLeaves`), and recording sees the same
rules, node types and pieces before and after it (`Vocabulary.record_cutLeaves`). No tokenizer is
applied to what a tokenizer gave, so nothing is asked of it.
-/

namespace TreeDerivation

/-- The same encoding of trees, with leaves kept whole. -/
def Encoding.whole (e : Encoding) : Encoding :=
  { e with splitLeaves := false }

/-- What an action comes to if the text of a whole leaf is cut into its pieces. -/
def Action.cut (e : Encoding) (tokenize : String → List String) : Action → List Action
  | .generateToken (.value text) => leafActions e tokenize text
  | .generateToken .closeNode => [.generateToken .closeNode]
  | .applyRule r => [.applyRule r]

/-- A word of actions with the text of each whole leaf cut into its pieces. -/
def cutLeaves (e : Encoding) (tokenize : String → List String) (w : List Action) : List Action :=
  w.flatMap (Action.cut e tokenize)

variable (e : Encoding) (tokenize : String → List String)

/-! ## Cutting the leaves of a tree afterwards -/

theorem cutLeaves_append (u v : List Action) :
    cutLeaves e tokenize (u ++ v) = cutLeaves e tokenize u ++ cutLeaves e tokenize v :=
  List.flatMap_append

theorem cutLeaves_applyRule_cons (r : Rule) (w : List Action) :
    cutLeaves e tokenize (.applyRule r :: w) = .applyRule r :: cutLeaves e tokenize w := by
  rw [cutLeaves, List.flatMap_cons, Action.cut, List.singleton_append, cutLeaves]

theorem cutLeaves_openNode_cons (t : String) (fields : List Field) (w : List Action) :
    cutLeaves e tokenize (openNode t fields :: w) = openNode t fields :: cutLeaves e tokenize w :=
  cutLeaves_applyRule_cons e tokenize _ w

theorem cutLeaves_leafActions (value : String) :
    cutLeaves e tokenize (leafActions e.whole tokenize value) = leafActions e tokenize value := by
  have hwhole : leafActions e.whole tokenize value = [.generateToken (.value value)] := rfl
  rw [hwhole, cutLeaves, List.flatMap_singleton, Action.cut]

theorem cutLeaves_enclose (t : String) (n : Nat) (elements : List Action) :
    cutLeaves e tokenize (enclose e.whole t n elements) =
      enclose e t n (cutLeaves e tokenize elements) := by
  have hretain : e.whole.retainVariadic = e.retainVariadic := rfl
  unfold enclose
  rw [hretain]
  by_cases h : e.retainVariadic = true
  · rw [if_pos h, if_pos h, cutLeaves_append, cutLeaves_applyRule_cons]
    rfl
  · rw [if_neg h, if_neg h]
    exact cutLeaves_applyRule_cons e tokenize _ elements

/-- Cutting the leaves of one part and then of another. -/
theorem map_cutLeaves_append (x y : Except Cause (List Action)) :
    (do
      let first ← x
      return first ++ (← y)).map (cutLeaves e tokenize) =
      (do
        let first ← x.map (cutLeaves e tokenize)
        return first ++ (← y.map (cutLeaves e tokenize))) := by
  cases x with
  | error _ => rfl
  | ok u =>
    cases y with
    | error _ => rfl
    | ok v => exact congrArg Except.ok (cutLeaves_append e tokenize u v)

/-- Cutting the leaves below an opened node. -/
theorem map_cutLeaves_openNode (t : String) (fields : List Field)
    (x : Except Cause (List Action)) :
    (return openNode t fields :: (← x) : Except Cause (List Action)).map (cutLeaves e tokenize) =
      (return openNode t fields :: (← x.map (cutLeaves e tokenize))) := by
  cases x with
  | error _ => rfl
  | ok w => exact congrArg Except.ok (cutLeaves_openNode_cons e tokenize t fields w)

mutual

theorem map_cutLeaves_fieldsActions : ∀ (owner : String) (fields : List Field),
    (fieldsActions e.whole tokenize owner fields).map (cutLeaves e tokenize) =
      fieldsActions e tokenize owner fields
  | owner, [] => by
    rw [fieldsActions, fieldsActions]
    rfl
  | owner, .mk name t content :: rest => by
    rw [fieldsActions, map_cutLeaves_append, map_cutLeaves_contentActions owner name t content,
      map_cutLeaves_fieldsActions owner rest, fieldsActions]

theorem map_cutLeaves_contentActions : ∀ (owner name t : String) (content : Content),
    (contentActions e.whole tokenize owner name t content).map (cutLeaves e tokenize) =
      contentActions e tokenize owner name t content
  | owner, name, t, .single (.node u fields) => by
    rw [contentActions, map_cutLeaves_openNode, map_cutLeaves_fieldsActions u fields,
      contentActions]
  | owner, name, t, .single (.leaf u value) => by
    rw [contentActions, contentActions]
    by_cases h : u = t
    · rw [if_pos h, if_pos h]
      exact congrArg Except.ok (cutLeaves_leafActions e tokenize value)
    · rw [if_neg h, if_neg h]
      rfl
  | owner, name, t, .list trees => by
    have htrees := map_cutLeaves_elementsActions owner name trees
    rw [contentActions, contentActions, ← htrees]
    cases elementsActions e.whole tokenize owner name trees with
    | error _ => rfl
    | ok elements => exact congrArg Except.ok (cutLeaves_enclose e tokenize t _ elements)

theorem map_cutLeaves_elementsActions : ∀ (owner name : String) (trees : List Ast),
    (elementsActions e.whole tokenize owner name trees).map (cutLeaves e tokenize) =
      elementsActions e tokenize owner name trees
  | owner, name, [] => by
    rw [elementsActions, elementsActions]
    rfl
  | owner, name, .node u fields :: rest => by
    have hfields := map_cutLeaves_fieldsActions u fields
    have hrest := map_cutLeaves_elementsActions owner name rest
    rw [elementsActions, elementsActions, ← hfields, ← hrest]
    cases fieldsActions e.whole tokenize u fields with
    | error _ => rfl
    | ok first =>
      cases elementsActions e.whole tokenize owner name rest with
      | error _ => rfl
      | ok others =>
        refine congrArg Except.ok ?_
        rw [cutLeaves_append, cutLeaves_openNode_cons]
  | owner, name, .leaf _ _ :: rest => by
    rw [elementsActions, elementsActions]
    rfl

end

/-- The actions of a tree are those with its leaves kept whole, cut afterwards. If one of the two
fails so does the other, in the same way. -/
theorem Ast.actions_eq_map_cutLeaves (t : Ast) :
    t.actions e tokenize = (t.actions e.whole tokenize).map (cutLeaves e tokenize) := by
  unfold Ast.actions
  cases t with
  | leaf t value =>
    rw [Ast.rootActions, Ast.rootActions]
    rfl
  | node t fields =>
    rw [Ast.rootActions, Ast.rootActions, ← map_cutLeaves_fieldsActions e tokenize t fields]
    cases fieldsActions e.whole tokenize t fields with
    | error _ => rfl
    | ok w => exact congrArg Except.ok (cutLeaves_openNode_cons e tokenize t fields w).symm

/-! ## Recording -/

/-- A token that is not cut. -/
def uncut (text : String) : List String :=
  [text]

variable {e tokenize} in
theorem exists_of_mem_leafActions {value : String} {a : Action}
    (h : a ∈ leafActions e tokenize value) : ∃ t, a = .generateToken t := by
  unfold leafActions at h
  split at h
  · rcases List.mem_append.mp h with h | h
    · obtain ⟨piece, -, rfl⟩ := List.mem_map.mp h
      exact ⟨_, rfl⟩
    · exact ⟨_, List.mem_singleton.mp h⟩
  · exact ⟨_, List.mem_singleton.mp h⟩

/-- What only rules show is the same before and after leaves are cut. -/
theorem flatMap_cut_of_rules {α : Type} {shown : Action → List α}
    (h : ∀ t, shown (.generateToken t) = []) (a : Action) :
    (a.cut e tokenize).flatMap shown = shown a := by
  cases a with
  | applyRule r => exact List.flatMap_singleton _ _
  | generateToken t =>
    rw [h t, List.flatMap_eq_nil_iff]
    intro b hb
    obtain ⟨t', rfl⟩ : ∃ t', b = .generateToken t' := by
      cases t with
      | closeNode => exact ⟨_, List.mem_singleton.mp hb⟩
      | value text => exact exists_of_mem_leafActions hb
    exact h t'

theorem tokens_cut (a : Action) :
    (a.cut e tokenize).flatMap (Action.tokens uncut) =
      a.tokens (if e.splitLeaves then tokenize else uncut) := by
  cases a with
  | applyRule r => rfl
  | generateToken t =>
    cases t with
    | closeNode => rfl
    | value text =>
      rw [Action.cut, Action.tokens]
      unfold leafActions
      by_cases h : e.splitLeaves = true
      · rw [if_pos h, if_pos h]
        simp [List.flatMap_map, Action.tokens, uncut]
      · rw [if_neg h, if_neg h]
        rfl

/-- Recording cuts whole leaves as cutting them beforehand does. -/
theorem Vocabulary.record_cutLeaves (v : Vocabulary) (w : List Action) :
    v.record uncut (cutLeaves e tokenize w) =
      v.record (if e.splitLeaves then tokenize else uncut) w := by
  unfold Vocabulary.record cutLeaves
  have hrules : ∀ a, (Action.cut e tokenize a).flatMap Action.rules = a.rules :=
    flatMap_cut_of_rules e tokenize fun _ => rfl
  have htypes : ∀ a, (Action.cut e tokenize a).flatMap Action.nodeTypes = a.nodeTypes :=
    flatMap_cut_of_rules e tokenize fun _ => rfl
  simp only [List.flatMap_assoc, hrules, htypes, tokens_cut]

theorem recordTree_eq_map (v : Vocabulary) (t : Ast) :
    Program.recordTree e tokenize v t = (t.actions e tokenize).map (v.record uncut) := by
  rw [Ast.actions_eq_map_cutLeaves]
  unfold Program.recordTree
  show (t.actions e.whole tokenize >>= fun w => pure (v.record _ w)) = _
  cases t.actions e.whole tokenize with
  | error _ => rfl
  | ok w => exact congrArg Except.ok (v.record_cutLeaves e tokenize w).symm

/-- Recording what is computed of each item is recording all that is computed of them. -/
theorem foldlM_map_eq {ε α β γ : Type} (f : α → Except ε β) (g : γ → β → γ) (xs : List α) (c : γ) :
    xs.foldlM (fun c x => (f x).map (g c)) c = (xs.mapM f).map (·.foldl g c) := by
  induction xs generalizing c with
  | nil => rfl
  | cons x xs ih =>
    rw [List.foldlM_cons, List.mapM_cons]
    cases f x with
    | error _ => rfl
    | ok y =>
      show xs.foldlM _ (g c y) = _
      rw [ih]
      cases xs.mapM f <;> rfl

theorem foldlM_recordTree (v : Vocabulary) (trees : List Ast) :
    trees.foldlM (Program.recordTree e tokenize) v =
      (trees.mapM (Ast.actions e tokenize)).map (·.foldl (Vocabulary.record uncut) v) := by
  have hstep : Program.recordTree e tokenize =
      fun v t => (t.actions e tokenize).map (v.record uncut) :=
    funext fun v => funext fun t => recordTree_eq_map e tokenize v t
  rw [hstep]
  exact foldlM_map_eq _ _ _ _

/-! ## What a vocabulary holds -/

section

variable {α : Type} [BEq α] [LawfulBEq α]

variable {seen : List α} {item : α}

theorem addNew_of_mem (h : item ∈ seen) : addNew seen item = seen :=
  if_pos (List.contains_iff_mem.mpr h)

theorem addNew_of_not_mem (h : item ∉ seen) : addNew seen item = seen ++ [item] :=
  if_neg fun hcontains => h (List.contains_iff_mem.mp hcontains)

theorem mem_addNew {x : α} : x ∈ addNew seen item ↔ x ∈ seen ∨ x = item := by
  by_cases h : item ∈ seen
  · rw [addNew_of_mem h]
    constructor
    · exact Or.inl
    · rintro (hx | rfl)
      · exact hx
      · exact h
  · rw [addNew_of_not_mem h, List.mem_append, List.mem_singleton]

theorem mem_foldl_addNew {items seen : List α} {x : α} :
    x ∈ items.foldl addNew seen ↔ x ∈ seen ∨ x ∈ items := by
  induction items generalizing seen with
  | nil => simp
  | cons item items ih => rw [List.foldl_cons, ih, mem_addNew, List.mem_cons, or_assoc]

end

namespace Vocabulary

variable (v : Vocabulary)

theorem record_append (a b : List Action) :
    (v.record tokenize a).record tokenize b = v.record tokenize (a ++ b) := by
  unfold record
  simp only [List.flatMap_append, List.foldl_append]

/-- Recording words one after the other is recording them as one. -/
theorem foldl_record (words : List (List Action)) :
    words.foldl (record tokenize) v = v.record tokenize words.flatten := by
  induction words generalizing v with
  | nil => rfl
  | cons w words ih => rw [List.foldl_cons, ih, List.flatten_cons, record_append]

variable (w : List Action)

theorem mem_rules_record {r : Rule} :
    r ∈ (v.record tokenize w).rules ↔
      r ∈ v.rules ∨ r ≠ .closeVariadic ∧ Action.applyRule r ∈ w := by
  unfold record
  rw [mem_foldl_addNew, List.mem_flatMap]
  refine or_congr_right ⟨?_, ?_⟩
  · rintro ⟨a, ha, hr⟩
    unfold Action.rules at hr
    split at hr
    · obtain rfl := List.mem_singleton.mp hr
      exact ⟨by simp, ha⟩
    · exact absurd hr List.not_mem_nil
  · rintro ⟨hne, hr⟩
    cases r with
    | expandTree x => exact ⟨_, hr, List.mem_singleton_self _⟩
    | closeVariadic => exact absurd rfl hne

theorem mem_nodeTypes_record {t : NodeType} :
    t ∈ (v.record tokenize w).nodeTypes ↔
      t ∈ v.nodeTypes ∨ ∃ x, Action.applyRule (.expandTree x) ∈ w ∧
        (t = x.parent ∨ t ∈ x.children.map Prod.snd) := by
  unfold record
  rw [mem_foldl_addNew, List.mem_flatMap]
  refine or_congr_right ⟨?_, ?_⟩
  · rintro ⟨a, ha, ht⟩
    unfold Action.nodeTypes at ht
    split at ht
    · exact ⟨_, ha, List.mem_cons.mp ht⟩
    · exact absurd ht List.not_mem_nil
  · rintro ⟨x, hx, ht⟩
    exact ⟨_, hx, List.mem_cons.mpr ht⟩

theorem mem_tokens_record {s : String} :
    s ∈ (v.record uncut w).tokens ↔ s ∈ v.tokens ∨ Action.generateToken (.value s) ∈ w := by
  unfold record
  rw [mem_foldl_addNew, List.mem_flatMap]
  refine or_congr_right ⟨?_, ?_⟩
  · rintro ⟨a, ha, hs⟩
    unfold Action.tokens at hs
    split at hs
    · obtain rfl := List.mem_singleton.mp hs
      exact ha
    · exact absurd hs List.not_mem_nil
  · intro hs
    exact ⟨_, hs, List.mem_singleton_self s⟩

end Vocabulary

/-- Gathering the vocabulary of trees gives the vocabulary of the words that derive them, in the
same order, and fails as the first of them does that has none. So it fails exactly if some tree is
derived by no word; and it holds the rule, the types and the token of each action of these words
that is no sentinel, and nothing else. -/
theorem vocabulary_of_corpus (trees : List Ast) :
    trees.foldlM (Program.recordTree e tokenize) .empty =
      (trees.mapM (Ast.actions e tokenize)).map (Vocabulary.ofWords uncut) ∧
    ((∃ f, trees.foldlM (Program.recordTree e tokenize) .empty = .error f) ↔
      ∃ t ∈ trees, ∃ f, t.actions e tokenize = .error f) ∧
    (∀ v, trees.foldlM (Program.recordTree e tokenize) .empty = .ok v →
      ∃ words, trees.mapM (Ast.actions e tokenize) = .ok words ∧
        (∀ r, r ∈ v.rules ↔ r ≠ .closeVariadic ∧ ∃ w ∈ words, Action.applyRule r ∈ w) ∧
        (∀ t, t ∈ v.nodeTypes ↔ ∃ x, (∃ w ∈ words, Action.applyRule (.expandTree x) ∈ w) ∧
          (t = x.parent ∨ t ∈ x.children.map Prod.snd)) ∧
        (∀ s, s ∈ v.tokens ↔ ∃ w ∈ words, Action.generateToken (.value s) ∈ w)) := by
  have hrecorded := foldlM_recordTree e tokenize .empty trees
  refine ⟨hrecorded, ⟨?fails, ?failed⟩, fun v hv => ?holds⟩
  case fails =>
    rintro ⟨f, hf⟩
    rw [hrecorded] at hf
    obtain ⟨t, ht, htf⟩ := exists_of_mapM_eq_error (map_eq_error_iff.mp hf)
    exact ⟨t, ht, f, htf⟩
  case failed =>
    rintro ⟨t, ht, f, hf⟩
    cases hwords : trees.mapM (Ast.actions e tokenize) with
    | error f => exact ⟨f, by rw [hrecorded, hwords]; rfl⟩
    | ok words =>
      obtain ⟨w, -, hw⟩ := exists_of_mem_of_mapM_eq_ok hwords ht
      exact absurd (hf.symm.trans hw) (by simp)
  case holds =>
    rw [hrecorded] at hv
    obtain ⟨words, hwords, rfl⟩ := map_eq_ok_iff.mp hv
    rw [Vocabulary.foldl_record]
    refine ⟨words, hwords, fun r => ?_, fun t => ?_, fun s => ?_⟩
    · rw [Vocabulary.mem_rules_record]
      simp [Vocabulary.empty]
    · rw [Vocabulary.mem_nodeTypes_record]
      simp [Vocabulary.empty]
    · rw [Vocabulary.mem_tokens_record]
      simp [Vocabulary.empty]

/-- Two trees whose leaves have a piece in common, and a tokenizer that would cut its pieces once
more. -/
theorem vocabulary_of_corpus_names :
    let tree (text : String) := Ast.node "Name" [.mk "id" "str" (.single (.leaf "str" text))]
    let cutter (text : String) := if text = "xy" then ["x", "y"] else [text, text]
    let name : Expansion := ⟨⟨"Name", .node⟩, [("id", ⟨"str", .token⟩)]⟩
    [tree "xy", tree "x"].foldlM (Program.recordTree {} cutter) .empty =
      .ok ⟨[.expandTree name], [⟨"Name", .node⟩, ⟨"str", .token⟩], ["x", "y"]⟩ ∧
    ∃ words, [tree "xy", tree "x"].mapM (Ast.actions {} cutter) = .ok words ∧
      ∃ w ∈ words, Action.generateToken (.value "y") ∈ w := by
  intro tree cutter name
  have hgathered : [tree "xy", tree "x"].foldlM (Program.recordTree {} cutter) .empty =
      .ok ⟨[.expandTree name], [⟨"Name", .node⟩, ⟨"str", .token⟩], ["x", "y"]⟩ := by
    decide
  obtain ⟨-, -, hholds⟩ := vocabulary_of_corpus {} cutter [tree "xy", tree "x"]
  obtain ⟨words, hwords, -, -, htokens⟩ := hholds _ hgathered
  exact ⟨hgathered, words, hwords, (htokens "y").mp (by simp)⟩

end TreeDerivation
