import TreeDerivation.Proofs.Vocabulary.Corpus

/-!
# Recording keeps what is seen first

To record a word is to go through the items that its actions show and to add those that are new.
What is added is given by `FirstSeen`: the items that the list lacks, each once, in the order in
which they first occur. Nothing is asked of the list to begin with, so a vocabulary with repeats is
extended like any other (`exists_firstSeen`), and there is one way only to extend it
(`foldl_addNew_eq_iff`).

From this follow the laws of recording (`Vocabulary.record_firstSeen`): two words recorded one
after the other are recorded as one, a word recorded twice adds nothing the second time, and the
order of the words of a corpus has a say in the order of its vocabulary only.
-/

namespace TreeDerivation

/-! ## Adding what is new -/

section

variable {α : Type} [BEq α]

/-- What a stream of items adds to a list: the items that the list lacks, each once, in the order in
which they first occur in the stream. -/
structure FirstSeen (seen items new : List α) : Prop where
  nodup : new.Nodup
  mem_iff : ∀ x, x ∈ new ↔ x ∈ items ∧ x ∉ seen
  ordered : new.Pairwise fun x y => items.idxOf x < items.idxOf y

variable {seen items new : List α} {item : α}

/-- An item in front moves all other items by one place. -/
theorem pairwise_idxOf_cons [LawfulBEq α] (hitem : item ∉ new)
    (h : new.Pairwise fun x y => items.idxOf x < items.idxOf y) :
    new.Pairwise fun x y => (item :: items).idxOf x < (item :: items).idxOf y := by
  refine h.imp_of_mem fun {x y} hx hy hxy => ?_
  have hne : ∀ z ∈ new, item ≠ z := fun z hz heq => hitem (heq ▸ hz)
  rw [List.idxOf_cons_ne _ (hne x hx), List.idxOf_cons_ne _ (hne y hy)]
  exact Nat.succ_lt_succ hxy

namespace FirstSeen

theorem nil : FirstSeen seen [] [] where
  nodup := .nil
  mem_iff x := by simp
  ordered := .nil

theorem cons_of_mem [LawfulBEq α] (hitem : item ∈ seen) (h : FirstSeen seen items new) :
    FirstSeen seen (item :: items) new where
  nodup := h.nodup
  mem_iff x := by
    rw [h.mem_iff, List.mem_cons]
    constructor
    · rintro ⟨hx, hnew⟩
      exact ⟨.inr hx, hnew⟩
    · rintro ⟨rfl | hx, hnew⟩
      · exact absurd hitem hnew
      · exact ⟨hx, hnew⟩
  ordered := pairwise_idxOf_cons (fun hmem => ((h.mem_iff item).mp hmem).2 hitem) h.ordered

theorem cons_of_not_mem [LawfulBEq α] (hitem : item ∉ seen)
    (h : FirstSeen (seen ++ [item]) items new) :
    FirstSeen seen (item :: items) (item :: new) := by
  have hmem : ∀ x, x ∈ new ↔ x ∈ items ∧ x ∉ seen ∧ x ≠ item := by
    intro x
    rw [h.mem_iff, List.mem_append, List.mem_singleton, not_or]
  have hfresh : item ∉ new := fun hnew => ((hmem item).mp hnew).2.2 rfl
  refine ⟨List.nodup_cons.mpr ⟨hfresh, h.nodup⟩, fun x => ?_, List.pairwise_cons.mpr ⟨?_, ?_⟩⟩
  · rw [List.mem_cons, List.mem_cons, hmem]
    by_cases hx : x = item
    · simp [hx, hitem]
    · simp [hx]
  · intro x hx
    have hne : item ≠ x := fun heq => hfresh (heq ▸ hx)
    rw [List.idxOf_cons_self, List.idxOf_cons_ne _ hne]
    exact Nat.succ_pos _
  · exact pairwise_idxOf_cons hfresh h.ordered

/-- The items decide on what is added, up to its order. -/
theorem perm {items' new' : List α} (h : FirstSeen seen items new)
    (h' : FirstSeen seen items' new') (hitems : ∀ x, x ∈ items ↔ x ∈ items') : new.Perm new' := by
  refine (List.perm_ext_iff_of_nodup h.nodup h'.nodup).mpr fun x => ?_
  rw [h.mem_iff, h'.mem_iff, hitems]

/-- The stream decides on what is added. -/
theorem unique {new' : List α} (h : FirstSeen seen items new) (h' : FirstSeen seen items new') :
    new = new' :=
  (h.perm h' fun _ => Iff.rfl).eq_of_pairwise
    (fun _ _ _ _ hlt hgt => absurd hlt (Nat.lt_asymm hgt)) h.ordered h'.ordered

/-- Items that are all there add nothing. -/
theorem eq_nil (h : FirstSeen seen items new) (hitems : ∀ x ∈ items, x ∈ seen) : new = [] := by
  refine List.eq_nil_iff_forall_not_mem.mpr fun x hx => ?_
  obtain ⟨hitem, hnew⟩ := (h.mem_iff x).mp hx
  exact hnew (hitems x hitem)

end FirstSeen

variable [LawfulBEq α]

theorem exists_firstSeen (seen items : List α) :
    ∃ new, items.foldl addNew seen = seen ++ new ∧ FirstSeen seen items new := by
  induction items generalizing seen with
  | nil => exact ⟨[], (List.append_nil seen).symm, .nil⟩
  | cons item items ih =>
    rw [List.foldl_cons]
    by_cases hitem : item ∈ seen
    · obtain ⟨new, hfold, hnew⟩ := ih seen
      exact ⟨new, by rw [addNew_of_mem hitem, hfold], hnew.cons_of_mem hitem⟩
    · obtain ⟨new, hfold, hnew⟩ := ih (seen ++ [item])
      refine ⟨item :: new, ?_, hnew.cons_of_not_mem hitem⟩
      rw [addNew_of_not_mem hitem, hfold, List.append_assoc, List.singleton_append]

theorem foldl_addNew_eq_iff {after : List α} :
    items.foldl addNew seen = after ↔ ∃ new, after = seen ++ new ∧ FirstSeen seen items new := by
  obtain ⟨new, hfold, hnew⟩ := exists_firstSeen seen items
  constructor
  · rintro rfl
    exact ⟨new, hfold, hnew⟩
  · rintro ⟨new', rfl, hnew'⟩
    rw [hfold, hnew.unique hnew']

/-- Items that are all there leave a list as it is. -/
theorem foldl_addNew_of_forall_mem (h : ∀ x ∈ items, x ∈ seen) : items.foldl addNew seen = seen := by
  obtain ⟨new, hfold, hnew⟩ := exists_firstSeen seen items
  rw [hfold, hnew.eq_nil h, List.append_nil]

theorem foldl_addNew_perm {items' : List α} (h : items.Perm items') :
    (items.foldl addNew seen).Perm (items'.foldl addNew seen) := by
  obtain ⟨new, hfold, hnew⟩ := exists_firstSeen seen items
  obtain ⟨new', hfold', hnew'⟩ := exists_firstSeen seen items'
  rw [hfold, hfold']
  exact (hnew.perm hnew' fun _ => h.mem_iff).append_left seen

end

/-! ## What a word shows -/

/-- The expansions that a word applies. -/
def expansions (w : List Action) : List Expansion :=
  w.filterMap fun
    | .applyRule (.expandTree x) => some x
    | _ => none

/-- The types that an expansion names: its parent, then those of its fields. -/
def Expansion.types (x : Expansion) : List NodeType :=
  x.parent :: x.children.map Prod.snd

/-- The texts that a word emits. -/
def texts (w : List Action) : List String :=
  w.filterMap fun
    | .generateToken (.value text) => some text
    | _ => none

variable (tokenize : String → List String) (w : List Action)

theorem flatMap_rules : w.flatMap Action.rules = (expansions w).map .expandTree := by
  induction w with
  | nil => rfl
  | cons a w ih =>
    rw [List.flatMap_cons, ih]
    rcases a with (_ | _) | (_ | _) <;> rfl

theorem flatMap_nodeTypes :
    w.flatMap Action.nodeTypes = (expansions w).flatMap Expansion.types := by
  induction w with
  | nil => rfl
  | cons a w ih =>
    rw [List.flatMap_cons, ih]
    rcases a with (_ | _) | (_ | _) <;> rfl

theorem flatMap_tokens : w.flatMap (Action.tokens tokenize) = (texts w).flatMap tokenize := by
  induction w with
  | nil => rfl
  | cons a w ih =>
    rw [List.flatMap_cons, ih]
    rcases a with (_ | _) | (_ | _) <;> rfl

/-! ## The laws of recording -/

namespace Vocabulary

variable (v : Vocabulary)

theorem record_record_self :
    (v.record tokenize w).record tokenize w = v.record tokenize w := by
  have hsame {α : Type} [BEq α] [LawfulBEq α] (items seen : List α) :
      items.foldl addNew (items.foldl addNew seen) = items.foldl addNew seen :=
    foldl_addNew_of_forall_mem fun _ hx => mem_foldl_addNew.mpr (.inr hx)
  unfold record
  simp only [hsame]

/-- Two vocabularies with the same entries, each list in an order of its own. -/
structure Perm (v v' : Vocabulary) : Prop where
  rules : v.rules.Perm v'.rules
  nodeTypes : v.nodeTypes.Perm v'.nodeTypes
  tokens : v.tokens.Perm v'.tokens

theorem record_perm {w w' : List Action} (h : w.Perm w') :
    (v.record tokenize w).Perm (v.record tokenize w') where
  rules := foldl_addNew_perm (h.flatMap_right _)
  nodeTypes := foldl_addNew_perm (h.flatMap_right _)
  tokens := foldl_addNew_perm (h.flatMap_right _)

/-- Recording a word leaves each list of a vocabulary in front and adds to it what the word shows
and the list lacks, once and in the order in which it is first shown: the rules that expand a type;
of each of these the parent and then the types of the fields; the pieces of the texts. Words that
are recorded one after the other are recorded as one, and a word that has been recorded adds
nothing. The vocabulary of a corpus is that of its words recorded one by one, and so that of all its
words put together, whichever way they are cut. In another order the words give the same vocabulary
up to the order of its lists. -/
theorem record_firstSeen (a b : List Action) (words : List (List Action)) :
    (∃ new, (v.record tokenize a).rules = v.rules ++ new ∧
      FirstSeen v.rules ((expansions a).map .expandTree) new) ∧
    (∃ new, (v.record tokenize a).nodeTypes = v.nodeTypes ++ new ∧
      FirstSeen v.nodeTypes ((expansions a).flatMap Expansion.types) new) ∧
    (∃ new, (v.record tokenize a).tokens = v.tokens ++ new ∧
      FirstSeen v.tokens ((texts a).flatMap tokenize) new) ∧
    (v.record tokenize a).record tokenize b = v.record tokenize (a ++ b) ∧
    (v.record tokenize a).record tokenize a = v.record tokenize a ∧
    ofWords tokenize words = words.foldl (record tokenize) empty ∧
    ofWords tokenize words = empty.record tokenize words.flatten ∧
    (∀ words', words.Perm words' → (ofWords tokenize words).Perm (ofWords tokenize words')) := by
  refine ⟨?rules, ?types, ?tokens, record_append tokenize v a b, record_record_self tokenize a v,
    rfl, foldl_record tokenize empty words, fun words' h => ?reordered⟩
  case rules =>
    rw [← flatMap_rules]
    exact foldl_addNew_eq_iff.mp rfl
  case types =>
    rw [← flatMap_nodeTypes]
    exact foldl_addNew_eq_iff.mp rfl
  case tokens =>
    rw [← flatMap_tokens]
    exact foldl_addNew_eq_iff.mp rfl
  case reordered =>
    unfold ofWords
    rw [foldl_record, foldl_record]
    exact record_perm tokenize empty h.flatten

/-- A vocabulary with a repeated token and a type that the word shows again, and two words that
change places. -/
theorem record_firstSeen_names :
    let name : Expansion := ⟨⟨"Name", .node⟩, [("id", ⟨"str", .token⟩)]⟩
    let word (text : String) : List Action :=
      [.applyRule (.expandTree name), .generateToken (.value text), .generateToken .closeNode]
    let v : Vocabulary := ⟨[], [⟨"str", .token⟩], ["x", "x"]⟩
    v.record uncut (word "x" ++ word "y") =
      ⟨[.expandTree name], [⟨"str", .token⟩, ⟨"Name", .node⟩], ["x", "x", "y"]⟩ ∧
    (ofWords uncut [word "x", word "y"]).tokens = ["x", "y"] ∧
    (ofWords uncut [word "y", word "x"]).tokens = ["y", "x"] ∧
    (ofWords uncut [word "x", word "y"]).Perm (ofWords uncut [word "y", word "x"]) := by
  intro name word v
  obtain ⟨-, -, -, -, -, -, -, hreordered⟩ :=
    record_firstSeen uncut v (word "x") (word "y") [word "x", word "y"]
  exact ⟨by decide, by decide, by decide, hreordered _ (.swap _ _ _)⟩

end Vocabulary

end TreeDerivation
