import Mathlib.Data.List.Pairwise
import Mathlib.Data.Nat.Find
import Mathlib.Logic.Relation
import TreeDerivation.Proofs.Derivation.Links

/-!
# The steps of a derivation are the pre-order of its tree

Whatever was tried on an empty derivation, its steps and their links make one tree (`Arena`): each
step but the first stands in one slot of an earlier step that opened a node, each slot holds the
steps that stand in it in order, and what descends from a step is an interval of steps that begins
with it. Walking the tree in pre-order visits the steps by their numbers (`arena_attemptAll`).

The order comes from one fact about a new step: the step above it is the one before it, or one that
the one before it descends from (`Ordered.below_previous`). It holds since the last step descends
from every node of the spine.
-/

namespace TreeDerivation.Derivation

/-! ## The tree of the steps -/

/-- Whether a step stands in a slot of another. -/
def ChildOf (d : Derivation) (p i : Nat) : Prop :=
  ∃ f, d.parent? i = some ⟨p, f⟩

/-- Whether step `j` is step `i` or stands somewhere below it. -/
def Descends (d : Derivation) (i j : Nat) : Prop :=
  Relation.ReflTransGen d.ChildOf i j

/-- The steps in the slots of a step, one slot after the other. -/
def children (d : Derivation) (i : Nat) : List Nat :=
  (List.range ((d.slots? i).getD #[]).size).flatMap fun f => d.linksAt ⟨i, f⟩

mutual

/-- Walking the tree below a step in pre-order visits these steps. -/
inductive Visits (d : Derivation) : Nat → List Nat → Prop where
  | step (i : Nat) (below : List Nat) : VisitsEach d (d.children i) below →
    Visits d i (i :: below)

/-- Walking the trees below steps, one after the other, visits these steps. -/
inductive VisitsEach (d : Derivation) : List Nat → List Nat → Prop where
  | nil : VisitsEach d [] []
  | cons (i : Nat) (is first others : List Nat) : Visits d i first → VisitsEach d is others →
    VisitsEach d (i :: is) (first ++ others)

end

/-- The links of a derivation make one tree, and its steps are the pre-order of that tree. -/
structure Arena (d : Derivation) : Prop where
  length_actions : d.actions.length = d.size
  isSome_action : ∀ i, (d.action? i).isSome ↔ i < d.size
  isSome_slots : ∀ i, (d.slots? i).isSome ↔ i < d.size
  /-- A step has a slot for each field of the node that it opened, and none if it opened none. -/
  size_slots : ∀ i slots, d.slots? i = some slots →
    slots.size = ((d.expansion? i).map Expansion.arity).getD 0
  parent_root : d.parent? 0 = none
  parent : ∀ i, 0 < i → i < d.size → ∃ p f r, d.parent? i = some ⟨p, f⟩ ∧ p < i ∧
    d.expansion? p = some r ∧ f < r.arity
  parent_outside : ∀ i, d.size ≤ i → d.parent? i = none
  /-- A step is once in the slot that it stands in and in no other. -/
  count_links : ∀ slot i, (d.linksAt slot).count i = if d.parent? i = some slot then 1 else 0
  links_sorted : ∀ slot, (d.linksAt slot).Pairwise (· < ·)
  slots_sorted : ∀ p f g, f < g → ∀ i ∈ d.linksAt ⟨p, f⟩, ∀ j ∈ d.linksAt ⟨p, g⟩, i < j
  /-- What descends from a step is an interval, and walked in pre-order from its beginning. -/
  interval : ∀ i, i < d.size → ∃ m, i < m ∧ m ≤ d.size ∧
    (∀ j, d.Descends i j ↔ i ≤ j ∧ j < m) ∧ d.Visits i (List.range' i (m - i))
  preorder : 0 < d.size → d.Visits 0 (List.range d.size)

/-! ## Links that grow at the head -/

/-- Whether the links of a derivation go both ways, to earlier steps and in order. -/
structure Ordered (d : Derivation) : Prop where
  parent_root : d.parent? 0 = none
  exists_parent : ∀ i, 0 < i → i < d.size → ∃ slot, d.parent? i = some slot
  parent_lt : ∀ i slot, d.parent? i = some slot → slot.action < i
  parent_opens : ∀ i slot, d.parent? i = some slot →
    ∃ r, d.expansion? slot.action = some r ∧ slot.field < r.arity
  count_links : ∀ slot i, (d.linksAt slot).count i = if d.parent? i = some slot then 1 else 0
  links_sorted : ∀ slot, (d.linksAt slot).Pairwise (· < ·)
  slots_sorted : ∀ p f g, f < g → ∀ i ∈ d.linksAt ⟨p, f⟩, ∀ j ∈ d.linksAt ⟨p, g⟩, i < j
  /-- The step above a step is the step before it, or above that one. -/
  below_previous : ∀ i slot, d.parent? i = some slot → d.Descends slot.action (i - 1)
  last_below : ∀ n ∈ d.spine, d.Descends n.index (d.size - 1)

/-- The slot at the head is the open field of a node that its step opened. -/
theorem SpineStands.exists_expansion_of_head? {d : Derivation} (h : d.SpineStands) {slot : Slot}
    (hhead : d.head? = some slot) :
    ∃ r, d.expansion? slot.action = some r ∧ slot.field < r.arity := by
  obtain ⟨top, htop, rfl⟩ := Option.map_eq_some_iff.mp hhead
  have hmem : top ∈ d.spine := List.mem_of_mem_head? htop
  have hopen := top.isFilled_eq_false_iff.mp (h.isOpen top hmem)
  exact ⟨top.rule, h.stands.expansion_eq top hmem, hopen⟩

/-- Nothing stands in the slots behind the one at the head. -/
theorem SpineStands.linksAt_behind_head? {d : Derivation} (h : d.SpineStands) {slot : Slot}
    (hhead : d.head? = some slot) {f : Nat} (hf : slot.field < f) :
    d.linksAt ⟨slot.action, f⟩ = [] := by
  obtain ⟨top, htop, rfl⟩ := Option.map_eq_some_iff.mp hhead
  exact h.stands.links_behind top (List.mem_of_mem_head? htop) f hf

/-- An accepted action meets an open field, or it is the first. -/
theorem size_eq_zero_of_head?_eq_none {d d' : Derivation} {a : Action} (hd : d.HeadOpen)
    (h : d.apply a = .ok d') (hhead : d.head? = none) : d.size = 0 := by
  cases moves_of_apply hd h with
  | root r hs hsize => exact hsize
  | opens top rest t r hs => exact absurd hhead (by simp [head?, hs])
  | fills top rest t a hs => exact absurd hhead (by simp [head?, hs])
  | stays top rest t s hs => exact absurd hhead (by simp [head?, hs])

theorem parent?_extend_of_some {d : Derivation} {i : Nat} {slot : Slot}
    (h : d.parent? i = some slot) (a : Action) (f : Effect) :
    (d.extend a f).parent? i = some slot := by
  rw [parent?_extend, if_neg (Nat.ne_of_lt (lt_size_of_parent? h)), h]

theorem Descends.extend {d : Derivation} {i j : Nat} (h : d.Descends i j) (a : Action)
    (f : Effect) : (d.extend a f).Descends i j := by
  have hchild : ∀ p c, d.ChildOf p c → (d.extend a f).ChildOf p c := by
    rintro p c ⟨field, hparent⟩
    exact ⟨field, parent?_extend_of_some hparent a f⟩
  exact Relation.ReflTransGen.mono hchild i j h

/-- Every node of a path is above the innermost. -/
theorem IsPath.descends {d : Derivation} {top : OpenNode} {rest : List OpenNode}
    (h : d.IsPath (top :: rest)) {n : OpenNode} (hn : n ∈ top :: rest) :
    d.Descends n.index top.index := by
  induction rest generalizing top with
  | nil =>
    obtain rfl := List.mem_singleton.mp hn
    exact .refl
  | cons up rest ih =>
    rcases List.mem_cons.mp hn with rfl | hn
    · exact .refl
    · exact (ih h.2 hn).tail ⟨up.field, h.1.1⟩

namespace Ordered

variable {d d' : Derivation} {a : Action}

theorem mem_linksAt_iff (h : d.Ordered) {slot : Slot} {i : Nat} :
    i ∈ d.linksAt slot ↔ d.parent? i = some slot := by
  rw [← List.count_pos_iff, h.count_links]
  split
  · exact iff_of_true Nat.one_pos ‹_›
  · exact iff_of_false (Nat.lt_irrefl 0) ‹_›

theorem lt_size_of_mem (h : d.Ordered) {slot : Slot} {i : Nat} (hi : i ∈ d.linksAt slot) :
    i < d.size :=
  lt_size_of_parent? (h.mem_linksAt_iff.mp hi)

theorem empty (e : Encoding) : (Derivation.empty e).Ordered where
  parent_root := rfl
  exists_parent _ _ hi := absurd hi (Nat.not_lt_zero _)
  parent_lt _ _ hparent := absurd (lt_size_of_parent? hparent) (Nat.not_lt_zero _)
  parent_opens _ _ hparent := absurd (lt_size_of_parent? hparent) (Nat.not_lt_zero _)
  count_links _ _ := by rw [linksAt_eq_nil (Nat.zero_le _)]; rfl
  links_sorted _ := by rw [linksAt_eq_nil (Nat.zero_le _)]; exact .nil
  slots_sorted _ _ _ _ _ hi := by
    rw [linksAt_eq_nil (Nat.zero_le _)] at hi
    exact absurd hi List.not_mem_nil
  below_previous _ _ hparent := absurd (lt_size_of_parent? hparent) (Nat.not_lt_zero _)
  last_below _ hn := absurd hn List.not_mem_nil

/-- A new step comes after all steps that stand in the slot at the head, and after all that stand
in a slot before it. -/
theorem mem_linksAt_extend (h : d.Ordered) (hd : d.SpineStands) (a : Action) (f : Effect)
    {slot : Slot} {i : Nat} (hi : i ∈ (d.extend a f).linksAt slot) :
    i ∈ d.linksAt slot ∧ i < d.size ∨ i = d.size ∧ d.head? = some slot := by
  rw [linksAt_extend hd.headInBounds, List.mem_append] at hi
  rcases hi with hi | hi
  · exact .inl ⟨hi, h.lt_size_of_mem hi⟩
  · split at hi
    · exact .inr ⟨List.mem_singleton.mp hi, ‹_›⟩
    · exact absurd hi List.not_mem_nil

theorem count_links_extend (h : d.Ordered) (hd : d.SpineStands) (a : Action) (f : Effect)
    (slot : Slot) (i : Nat) : ((d.extend a f).linksAt slot).count i =
      if (d.extend a f).parent? i = some slot then 1 else 0 := by
  rw [linksAt_extend hd.headInBounds, List.count_append, h.count_links, parent?_extend]
  by_cases hi : i = d.size
  · have hnew : d.parent? i ≠ some slot := by
      intro hparent
      exact absurd (lt_size_of_parent? hparent) (by omega)
    rw [if_pos hi, if_neg hnew, hi]
    split <;> simp
  · rw [if_neg hi]
    have hold : ∀ l : List Nat, l = (if d.head? = some slot then [d.size] else []) →
        l.count i = 0 := by
      rintro l rfl
      split
      · exact List.count_eq_zero_of_not_mem (by simpa using hi)
      · rfl
    rw [hold _ rfl, Nat.add_zero]

theorem links_sorted_extend (h : d.Ordered) (hd : d.SpineStands) (a : Action) (f : Effect)
    (slot : Slot) : ((d.extend a f).linksAt slot).Pairwise (· < ·) := by
  rw [linksAt_extend hd.headInBounds]
  refine List.pairwise_append.mpr ⟨h.links_sorted slot, ?_, ?_⟩
  · split
    · exact List.pairwise_singleton _ _
    · exact .nil
  · intro i hi j hj
    split at hj
    · obtain rfl := List.mem_singleton.mp hj
      exact h.lt_size_of_mem hi
    · exact absurd hj List.not_mem_nil

theorem slots_sorted_extend (h : d.Ordered) (hd : d.SpineStands) (a : Action) (f : Effect)
    {p k l : Nat} (hkl : k < l) {i j : Nat} (hi : i ∈ (d.extend a f).linksAt ⟨p, k⟩)
    (hj : j ∈ (d.extend a f).linksAt ⟨p, l⟩) : i < j := by
  rcases h.mem_linksAt_extend hd a f hi with ⟨hi, hilt⟩ | ⟨rfl, hhead⟩
  · rcases h.mem_linksAt_extend hd a f hj with ⟨hj, -⟩ | ⟨rfl, -⟩
    · exact h.slots_sorted p k l hkl i hi j hj
    · exact hilt
  · -- nothing stands behind the open field
    rcases h.mem_linksAt_extend hd a f hj with ⟨hj, -⟩ | ⟨-, hhead'⟩
    · rw [hd.linksAt_behind_head? hhead hkl] at hj
      exact absurd hj List.not_mem_nil
    · obtain ⟨-, rfl⟩ := Slot.mk.inj (Option.some.inj (hhead.symm.trans hhead'))
      exact absurd hkl (Nat.lt_irrefl _)

/-- Every open node is above the slot that a new step stands in. -/
theorem descends_head? (hd : d.SpineStands) {slot : Slot} (hhead : d.head? = some slot)
    {n : OpenNode} (hn : n ∈ d.spine) : d.Descends n.index slot.action := by
  obtain ⟨top, htop, rfl⟩ := Option.map_eq_some_iff.mp hhead
  obtain ⟨rest, hs⟩ := List.head?_eq_some_iff.mp htop
  have hpath := hd.stands.path
  rw [hs] at hpath hn
  exact hpath.descends hn

/-- The nodes that are open after an action were open before it, or are the new one. -/
theorem index_of_mem_moved {f : Effect} {n : OpenNode} (hn : n ∈ d.moved f) :
    n.index = d.size ∨ ∃ m ∈ d.spine, m.index = n.index := by
  cases f with
  | opens r =>
    refine forall_index_settle (P := fun k => k = d.size ∨ ∃ m ∈ d.spine, m.index = k) _ ?_ n hn
    intro m hm
    rcases List.mem_cons.mp hm with rfl | hm
    · exact .inl rfl
    · exact .inr ⟨m, hm, rfl⟩
  | fills =>
    cases hs : d.spine with
    | nil => exact absurd hn (by simp [moved, hs])
    | cons top rest =>
      simp only [moved, hs] at hn
      refine forall_index_settle (P := fun k => k = d.size ∨ ∃ m ∈ top :: rest, m.index = k) _ ?_
        n hn
      intro m hm
      rcases List.mem_cons.mp hm with rfl | hm
      · exact .inr ⟨top, List.mem_cons_self, rfl⟩
      · exact .inr ⟨m, List.mem_cons_of_mem top hm, rfl⟩
  | stays => exact .inr ⟨n, hn, rfl⟩

/-- The new step descends from every node that is open after it. -/
theorem last_below_extend (hd : d.SpineStands) (a : Action) {f : Effect}
    {n : OpenNode} (hn : n ∈ (d.extend a f).spine) :
    (d.extend a f).Descends n.index d.size := by
  rcases index_of_mem_moved hn with hnew | ⟨m, hm, hindex⟩
  · rw [hnew]
    exact .refl
  · -- an open node is above the head, and the head is above the new step
    rw [← hindex]
    cases hhead : d.head? with
    | none =>
      have hnil := List.head?_eq_none_iff.mp (Option.map_eq_none_iff.mp hhead)
      exact absurd hm (by simp [hnil])
    | some slot =>
      have hnew : (d.extend a f).parent? d.size = some slot := by
        rw [parent?_extend, if_pos rfl, hhead]
      exact ((descends_head? hd hhead hm).extend a f).tail ⟨slot.field, hnew⟩

/-- An accepted action keeps the links in order. -/
theorem apply (h : d.Ordered) (hd : d.SpineStands) (ha : d.apply a = .ok d') : d'.Ordered := by
  obtain ⟨f, -, rfl⟩ := apply_eq_ok_iff.mp ha
  have hroot := size_eq_zero_of_head?_eq_none hd.headOpen ha
  have hparent : ∀ i slot, (d.extend a f).parent? i = some slot →
      i = d.size ∧ d.head? = some slot ∨ i < d.size ∧ d.parent? i = some slot := by
    intro i slot hslot
    rw [parent?_extend] at hslot
    split at hslot
    · exact .inl ⟨‹_›, hslot⟩
    · exact .inr ⟨lt_size_of_parent? hslot, hslot⟩
  refine
    { parent_root := ?root
      exists_parent := ?exists_parent
      parent_lt := ?lt
      parent_opens := ?opens
      count_links := h.count_links_extend hd a f
      links_sorted := h.links_sorted_extend hd a f
      slots_sorted := fun p k l hkl i hi j hj => h.slots_sorted_extend hd a f hkl hi hj
      below_previous := ?below
      last_below := ?last }
  case root =>
    rw [parent?_extend]
    split
    · cases hhead : d.head? with
      | none => rfl
      | some slot => exact absurd (hd.headInBounds.lt_size hhead) (by omega)
    · exact h.parent_root
  case exists_parent =>
    intro i hpos hi
    rw [size_extend] at hi
    rw [parent?_extend]
    split
    · cases hhead : d.head? with
      | none => exact absurd (hroot hhead) (by omega)
      | some slot => exact ⟨slot, rfl⟩
    · exact h.exists_parent i hpos (by omega)
  case lt =>
    intro i slot hslot
    rcases hparent i slot hslot with ⟨rfl, hhead⟩ | ⟨-, hold⟩
    · exact hd.headInBounds.lt_size hhead
    · exact h.parent_lt i slot hold
  case opens =>
    intro i slot hslot
    have hopens : ∃ r, d.expansion? slot.action = some r ∧ slot.field < r.arity := by
      rcases hparent i slot hslot with ⟨-, hhead⟩ | ⟨-, hold⟩
      · exact hd.exists_expansion_of_head? hhead
      · exact h.parent_opens i slot hold
    obtain ⟨r, hr, hfield⟩ := hopens
    refine ⟨r, ?_, hfield⟩
    rw [expansion?_extend_of_lt (lt_size_of_action? (expansion?_eq_some_iff.mp hr)), hr]
  case below =>
    intro i slot hslot
    rcases hparent i slot hslot with ⟨rfl, hhead⟩ | ⟨-, hold⟩
    · obtain ⟨top, htop, rfl⟩ := Option.map_eq_some_iff.mp hhead
      exact (h.last_below top (List.mem_of_mem_head? htop)).extend a f
    · exact (h.below_previous i slot hold).extend a f
  case last =>
    intro n hn
    rw [size_extend, Nat.add_sub_cancel]
    exact last_below_extend hd a hn

end Ordered

theorem Grown.ordered {e : Encoding} {admits : Option NodeType → Action → Prop} {d : Derivation}
    (h : Grown e admits d) : d.Ordered := by
  induction h with
  | empty => exact .empty e
  | apply a hd _ ha ih => exact ih.apply hd.spineStands ha

/-! ## Intervals -/

namespace Ordered

variable {d : Derivation}

theorem lt_of_childOf (h : d.Ordered) {p i : Nat} (hi : d.ChildOf p i) : p < i := by
  obtain ⟨f, hparent⟩ := hi
  exact h.parent_lt i _ hparent

theorem le_of_descends (h : d.Ordered) {i j : Nat} (hij : d.Descends i j) : i ≤ j := by
  induction hij with
  | refl => exact Nat.le_refl i
  | tail _ hchild ih => exact Nat.le_trans ih (Nat.le_of_lt (h.lt_of_childOf hchild))

theorem lt_size_of_descends {i j : Nat} (hij : d.Descends i j) (hi : i < d.size) :
    j < d.size := by
  cases hij with
  | refl => exact hi
  | tail _ hchild =>
    obtain ⟨f, hparent⟩ := hchild
    exact lt_size_of_parent? hparent

/-- What is above a step is the step itself or above the one that it stands in. -/
theorem descends_parent {i p j : Nat} (hij : d.Descends i j) (hne : i ≠ j)
    (hpj : d.ChildOf p j) : d.Descends i p := by
  obtain heq | ⟨p', hip, g, hg⟩ := Relation.ReflTransGen.cases_tail hij
  · exact absurd heq.symm hne
  obtain ⟨f, hf⟩ := hpj
  obtain ⟨rfl, -⟩ := Slot.mk.inj (Option.some.inj (hf.symm.trans hg))
  exact hip

/-- Of two steps that stand in slots of one step, the later one is not below the earlier one. -/
theorem not_descends_of_childOf (h : d.Ordered) {p i j : Nat} (hi : d.ChildOf p i)
    (hj : d.ChildOf p j) (hlt : i < j) : ¬ d.Descends i j := by
  intro hdesc
  -- the earlier one would be above the step that both stand in
  have habove := h.le_of_descends (descends_parent hdesc (Nat.ne_of_lt hlt) hj)
  exact absurd (h.lt_of_childOf hi) (Nat.not_lt.mpr habove)

/-- With a step that descends from another, so does every step between them. -/
theorem descends_of_le (h : d.Ordered) {i j k : Nat} (hij : d.Descends i j) (hik : i ≤ k)
    (hkj : k ≤ j) : d.Descends i k := by
  induction j with
  | zero =>
    obtain rfl : k = 0 := Nat.le_zero.mp hkj
    exact hij
  | succ j ih =>
    by_cases hk : k = j + 1
    · exact hk ▸ hij
    · obtain heq | ⟨p, hip, f, hparent⟩ := Relation.ReflTransGen.cases_tail hij
      · omega
      exact ih (hip.trans (h.below_previous (j + 1) _ hparent)) (by omega)

/-- What descends from a step is an interval that begins with it. -/
theorem exists_interval (h : d.Ordered) {i : Nat} (hi : i < d.size) :
    ∃ m, i < m ∧ m ≤ d.size ∧ ∀ j, d.Descends i j ↔ i ≤ j ∧ j < m := by
  classical
  let last := Nat.findGreatest (d.Descends i) d.size
  have hlast : d.Descends i last := Nat.findGreatest_spec (Nat.le_of_lt hi) .refl
  have hlt : last < d.size := lt_size_of_descends hlast hi
  have hmax : ∀ j, d.Descends i j → j ≤ last := fun j hj =>
    Nat.le_findGreatest (Nat.le_of_lt (lt_size_of_descends hj hi)) hj
  refine ⟨last + 1, Nat.lt_succ_of_le (h.le_of_descends hlast), hlt, ?_⟩
  intro j
  constructor
  · exact fun hj => ⟨h.le_of_descends hj, Nat.lt_succ_of_le (hmax j hj)⟩
  · rintro ⟨hij, hjm⟩
    exact h.descends_of_le hlast hij (Nat.le_of_lt_succ hjm)

/-! ## The walk in pre-order -/

theorem mem_children_iff (h : d.Ordered) (hd : d.SpineStands) {p i : Nat} :
    i ∈ d.children p ↔ d.ChildOf p i := by
  simp only [children, List.mem_flatMap, List.mem_range, h.mem_linksAt_iff, ChildOf]
  constructor
  · rintro ⟨f, -, hparent⟩
    exact ⟨f, hparent⟩
  · rintro ⟨f, hparent⟩
    obtain ⟨r, hr, hfield⟩ := h.parent_opens i _ hparent
    obtain ⟨s, hs⟩ := exists_step (lt_size_of_action? (expansion?_eq_some_iff.mp hr))
    have hslots : d.slots? p = some s.slots := by
      rw [slots?, hs]
      rfl
    refine ⟨f, ?_, hparent⟩
    rw [hslots, Option.getD_some, hd.size_slots p _ hslots, hr]
    exact hfield

theorem pairwise_children (h : d.Ordered) (p : Nat) : (d.children p).Pairwise (· < ·) := by
  refine List.pairwise_flatMap.mpr ⟨fun f _ => h.links_sorted ⟨p, f⟩, ?_⟩
  exact List.pairwise_lt_range.imp fun hfg => h.slots_sorted p _ _ hfg

theorem range'_split {s k m : Nat} (hsk : s ≤ k) (hkm : k ≤ m) :
    List.range' s (m - s) = List.range' s (k - s) ++ List.range' k (m - k) := by
  have hparts := List.range'_append_1 (s := s) (m := k - s) (n := m - k)
  rw [Nat.add_sub_cancel' hsk] at hparts
  rw [hparts]
  congr 1
  omega

/-- The walk over steps that stand in slots of one step, in order, and between them cover an
interval, visits the interval. -/
theorem visitsEach_range' (h : d.Ordered) {p m : Nat} (is : List Nat)
    (hchild : ∀ i ∈ is, d.ChildOf p i) (hsorted : is.Pairwise (· < ·))
    (hvisits : ∀ i ∈ is, ∃ k, i < k ∧ (∀ j, d.Descends i j ↔ i ≤ j ∧ j < k) ∧
      d.Visits i (List.range' i (k - i))) :
    ∀ s, (∀ j, s ≤ j ∧ j < m ↔ ∃ i ∈ is, d.Descends i j) →
      d.VisitsEach is (List.range' s (m - s)) := by
  induction is with
  | nil =>
    intro s hcover
    have hms : m - s = 0 := by
      by_contra hne
      obtain ⟨i, hi, -⟩ := (hcover s).mp ⟨Nat.le_refl s, by omega⟩
      exact absurd hi List.not_mem_nil
    rw [hms]
    exact .nil
  | cons i is ih =>
    intro s hcover
    obtain ⟨hlt, hothers⟩ := List.pairwise_cons.mp hsorted
    obtain ⟨k, hik, hinterval, hvisit⟩ := hvisits i List.mem_cons_self
    have hi := (hcover i).mpr ⟨i, List.mem_cons_self, .refl⟩
    -- the interval begins with the first of the steps
    obtain rfl : s = i := by
      obtain ⟨i', hi', hdesc⟩ := (hcover s).mp ⟨Nat.le_refl s, Nat.lt_of_le_of_lt hi.1 hi.2⟩
      have hle := h.le_of_descends hdesc
      rcases List.mem_cons.mp hi' with rfl | hi'
      · omega
      · have := hlt i' hi'
        omega
    have hkm : k ≤ m := by
      by_contra hgt
      have hlast := (hcover (k - 1)).mpr
        ⟨s, List.mem_cons_self, (hinterval (k - 1)).mpr (by omega)⟩
      omega
    have hrest : ∀ j, k ≤ j ∧ j < m ↔ ∃ i' ∈ is, d.Descends i' j := by
      intro j
      constructor
      · rintro ⟨hkj, hjm⟩
        obtain ⟨i', hi', hdesc⟩ := (hcover j).mp ⟨by omega, hjm⟩
        rcases List.mem_cons.mp hi' with rfl | hi'
        · have := (hinterval j).mp hdesc
          omega
        · exact ⟨i', hi', hdesc⟩
      · rintro ⟨i', hi', hdesc⟩
        have hle := h.le_of_descends hdesc
        have hjm := ((hcover j).mpr ⟨i', List.mem_cons_of_mem s hi', hdesc⟩).2
        refine ⟨?_, hjm⟩
        by_contra hjk
        have hsi := hlt i' hi'
        exact h.not_descends_of_childOf (hchild s List.mem_cons_self)
          (hchild i' (List.mem_cons_of_mem s hi')) hsi ((hinterval i').mpr (by omega))
    rw [range'_split (Nat.le_of_lt hik) hkm]
    exact .cons s is _ _ hvisit (ih (fun i' hi' => hchild i' (List.mem_cons_of_mem s hi'))
      hothers (fun i' hi' => hvisits i' (List.mem_cons_of_mem s hi')) k hrest)

/-- The walk below a step visits the interval of the steps that descend from it. -/
theorem exists_visits (h : d.Ordered) (hd : d.SpineStands) {i : Nat} (hi : i < d.size) :
    ∃ m, i < m ∧ m ≤ d.size ∧ (∀ j, d.Descends i j ↔ i ≤ j ∧ j < m) ∧
      d.Visits i (List.range' i (m - i)) := by
  -- the steps in the slots of a step come after it
  induction hgap : d.size - i using Nat.strongRecOn generalizing i with
  | ind gap ih =>
    obtain ⟨m, him, hm, hinterval⟩ := h.exists_interval hi
    refine ⟨m, him, hm, hinterval, ?_⟩
    have hchild : ∀ c ∈ d.children i, d.ChildOf i c := fun c => (h.mem_children_iff hd).mp
    have hvisits : ∀ c ∈ d.children i, ∃ k, c < k ∧ (∀ j, d.Descends c j ↔ c ≤ j ∧ j < k) ∧
        d.Visits c (List.range' c (k - c)) := by
      intro c hc
      have hic := h.lt_of_childOf (hchild c hc)
      have hlt := lt_size_of_descends (Relation.ReflTransGen.single (hchild c hc)) hi
      obtain ⟨k, hck, -, hk, hvisit⟩ := ih (d.size - c) (by omega) hlt rfl
      exact ⟨k, hck, hk, hvisit⟩
    have hcover : ∀ j, i + 1 ≤ j ∧ j < m ↔ ∃ c ∈ d.children i, d.Descends c j := by
      intro j
      constructor
      · rintro ⟨hij, hjm⟩
        have hdesc := (hinterval j).mpr ⟨by omega, hjm⟩
        obtain heq | ⟨c, hc, hdesc⟩ := Relation.ReflTransGen.cases_head hdesc
        · omega
        exact ⟨c, (h.mem_children_iff hd).mpr hc, hdesc⟩
      · rintro ⟨c, hc, hdesc⟩
        have hic := h.lt_of_childOf (hchild c hc)
        have hcj := h.le_of_descends hdesc
        have hj := (hinterval j).mp (.head (hchild c hc) hdesc)
        omega
    have hrange : List.range' i (m - i) = i :: List.range' (i + 1) (m - (i + 1)) := by
      rw [← List.range'_succ]
      congr 1
      omega
    rw [hrange]
    exact .step i _ (h.visitsEach_range' (d.children i) hchild (h.pairwise_children i) hvisits _
      hcover)

/-- Every step descends from the first. -/
theorem descends_zero (h : d.Ordered) {i : Nat} (hi : i < d.size) : d.Descends 0 i := by
  induction i using Nat.strongRecOn with
  | ind i ih =>
    rcases Nat.eq_zero_or_pos i with rfl | hpos
    · exact .refl
    · obtain ⟨⟨p, f⟩, hparent⟩ := h.exists_parent i hpos hi
      have hpi := h.parent_lt i _ hparent
      exact (ih p hpi (Nat.lt_trans hpi hi)).tail ⟨f, hparent⟩

theorem visits_zero (h : d.Ordered) (hd : d.SpineStands) (hpos : 0 < d.size) :
    d.Visits 0 (List.range d.size) := by
  obtain ⟨m, -, hm, hinterval, hvisits⟩ := h.exists_visits hd hpos
  have hlast := (hinterval (d.size - 1)).mp (h.descends_zero (by omega))
  obtain rfl : m = d.size := by omega
  rwa [Nat.sub_zero, ← List.range_eq_range'] at hvisits

end Ordered

/-- Whatever was tried on an empty derivation, its links make one tree, and its steps are the
pre-order of that tree. -/
theorem arena_attemptAll (e : Encoding) (w : List Action) :
    ((empty e).attemptAll w).Arena := by
  have hgrown := grown_attemptAll e w
  have hd := hgrown.spineStands
  have h := hgrown.ordered
  refine
    { length_actions := length_actions _
      isSome_action := fun i => by simp [action?, size]
      isSome_slots := fun i => by simp [slots?, size]
      size_slots := hd.size_slots
      parent_root := h.parent_root
      parent := ?parent
      parent_outside := fun i hi => by rw [parent?, getElem?_steps_eq_none hi]; rfl
      count_links := h.count_links
      links_sorted := h.links_sorted
      slots_sorted := h.slots_sorted
      interval := fun i hi => h.exists_visits hd hi
      preorder := h.visits_zero hd }
  case parent =>
    intro i hpos hi
    obtain ⟨slot, hparent⟩ := h.exists_parent i hpos hi
    obtain ⟨r, hr, hfield⟩ := h.parent_opens i slot hparent
    exact ⟨slot.action, slot.field, r, hparent, h.parent_lt i slot hparent, hr, hfield⟩

end TreeDerivation.Derivation
