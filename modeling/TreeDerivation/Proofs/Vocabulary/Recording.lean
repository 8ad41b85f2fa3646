import Mathlib.Data.Finset.Dedup
import Mathlib.Data.Finset.Insert
import TreeDerivation.Proofs.Vocabulary.FirstSeen

/-!
# Recording in one pass, with sets of what was seen

`Vocabulary.record` takes the rules, the node types and the pieces out of a word one after the
other, and searches its lists for each item. Here a word is gone through once, action by action, and
the lists are never searched: each has a set beside it, which is made from the list before the first
action and grows with it, and an item is new if the set does not hold it.

Both come to the same (`Recording.lists_foldl_see_of`). Where the sets hold what the lists hold, one
action adds what it would add to the lists alone, and afterwards the sets hold again what the lists
hold (`Recording.see_of`); so it is after the whole word (`Recording.foldl_see_of`).
-/

namespace TreeDerivation

/-- A list and the set of what it was seen to hold. -/
structure Indexed (α : Type) where
  items : List α
  seen : Finset α

namespace Indexed

variable {α : Type} [DecidableEq α]

/-- A list and the set that is made from it. -/
def of (items : List α) : Indexed α :=
  ⟨items, items.toFinset⟩

/-- Takes an item into the set, and puts it at the end of the list if the set did not hold it. -/
def add (x : Indexed α) (item : α) : Indexed α where
  items := if item ∈ x.seen then x.items else x.items ++ [item]
  seen := insert item x.seen

variable [BEq α] [LawfulBEq α]

theorem add_of (items : List α) (item : α) : (of items).add item = of (addNew items item) := by
  by_cases hitem : item ∈ items
  · have hseen : item ∈ items.toFinset := List.mem_toFinset.mpr hitem
    rw [addNew_of_mem hitem, add, of, if_pos hseen, Finset.insert_eq_of_mem hseen]
  · have hseen : item ∉ items.toFinset := fun h => hitem (List.mem_toFinset.mp h)
    have hgrown : (items ++ [item]).toFinset = insert item items.toFinset := by
      ext x
      rw [List.mem_toFinset, List.mem_append, List.mem_singleton, Finset.mem_insert,
        List.mem_toFinset, or_comm]
    rw [addNew_of_not_mem hitem, add, of, if_neg hseen, of, hgrown]

theorem foldl_add_of (new items : List α) :
    new.foldl add (of items) = of (new.foldl addNew items) := by
  induction new generalizing items with
  | nil => rfl
  | cons item new ih => rw [List.foldl_cons, List.foldl_cons, add_of, ih]

end Indexed

/-- The three lists of a vocabulary, each with its set. -/
structure Recording where
  rules : Indexed Rule
  nodeTypes : Indexed NodeType
  tokens : Indexed String

namespace Recording

/-- A vocabulary with the sets that are made from its lists. -/
def of (v : Vocabulary) : Recording :=
  ⟨.of v.rules, .of v.nodeTypes, .of v.tokens⟩

/-- Takes in what one action shows: a rule, then its parent and the types of its fields, or the
pieces of a text. Sentinels show nothing. -/
def see (tokenize : String → List String) (r : Recording) : Action → Recording
  | .applyRule .closeVariadic => r
  | .applyRule (.expandTree e) =>
    { r with
      rules := r.rules.add (.expandTree e)
      nodeTypes := (e.parent :: e.children.map Prod.snd).foldl Indexed.add r.nodeTypes }
  | .generateToken .closeNode => r
  | .generateToken (.value text) =>
    { r with tokens := (tokenize text).foldl Indexed.add r.tokens }

/-- The lists without the sets. -/
def lists (r : Recording) : Vocabulary :=
  ⟨r.rules.items, r.nodeTypes.items, r.tokens.items⟩

variable (tokenize : String → List String) (v : Vocabulary)

theorem see_of (a : Action) : (of v).see tokenize a = of (v.record tokenize [a]) := by
  unfold Vocabulary.record
  simp only [List.flatMap_singleton]
  rcases a with (e | _) | (text | _)
  · rw [see, of, Indexed.add_of, Indexed.foldl_add_of]
    rfl
  · rfl
  · rw [see, of, Indexed.foldl_add_of]
    rfl
  · rfl

/-- After a word the lists are those of the vocabulary that recorded it, and the sets hold what the
lists hold. -/
theorem foldl_see_of (w : List Action) :
    w.foldl (see tokenize) (of v) = of (v.record tokenize w) := by
  induction w generalizing v with
  | nil => rfl
  | cons a w ih =>
    rw [List.foldl_cons, see_of, ih, Vocabulary.record_append, List.singleton_append]

/-- What is recorded in one pass is what is recorded by searching the lists. -/
theorem lists_foldl_see_of (w : List Action) :
    (w.foldl (see tokenize) (of v)).lists = v.record tokenize w := by
  rw [foldl_see_of]
  rfl

end Recording

end TreeDerivation
