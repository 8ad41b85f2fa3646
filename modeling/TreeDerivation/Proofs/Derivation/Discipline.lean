import TreeDerivation.Proofs.Derivation.Preorder
import TreeDerivation.Proofs.Derivation.SlotContent

/-!
# The discipline of the head

Whatever was tried on an empty derivation, the head and the slots keep a discipline (`Disciplined`).
There is a head exactly while a derivation is begun and not complete, and it is an open field. The
nodes with a field that is not filled are the one at the head and those above it. For each of them
the next field to fill is the first that is not filled, nothing stands behind it, and on the way to
the head the tree goes through it. What the filled fields and the field at the head hold is said by
`Filled` and `Piece`.

A node is closed (`IsClosed`) if all its fields are filled, with closed nodes where they hold nodes.
The nodes that are closed so are those that are not on the spine (`SlotsHold.isClosed_iff`): down
from a closed node, because what stands in a slot comes after the step that opened it, and up the
spine, because a field whose last step is not closed is not filled.
-/

namespace TreeDerivation.Derivation

/-- Whether a step opened a node and every field of it is filled. -/
inductive IsClosed (d : Derivation) : Nat → Prop where
  | intro (i : Nat) (r : Expansion) : d.expansion? i = some r →
    (∀ f t, r.fieldType? f = some t →
      Filled d (IsClosed d) t.constraint (d.linksAt ⟨i, f⟩)) → IsClosed d i

/-- Whether a step opened a node and some field of it is not filled. -/
def IsUnfinished (d : Derivation) (i : Nat) : Prop :=
  ∃ r f t, d.expansion? i = some r ∧ r.fieldType? f = some t ∧
    ¬ d.Filled d.IsClosed t.constraint (d.linksAt ⟨i, f⟩)

/-- The discipline of the head and the slots. -/
structure Disciplined (d : Derivation) : Prop where
  head_none : d.head? = none ↔ d.isEmpty = true ∨ d.isComplete = true
  /-- The head is a field of a node that was opened, and its type is known. -/
  head_some : ∀ slot, d.head? = some slot → ∃ r t, d.expansion? slot.action = some r ∧
    slot.field < r.arity ∧ r.fieldType? slot.field = some t ∧ d.headType? = some t
  /-- Only the node at the head and those above it have a field that is not filled. -/
  unfinished_iff : ∀ i, d.IsUnfinished i ↔ ∃ slot, d.head? = some slot ∧ d.Descends i slot.action
  /-- The filled fields of a node are those before its next field. -/
  filled_iff : ∀ i r f t, d.expansion? i = some r → r.fieldType? f = some t →
    ∃ n, d.nextField? i = some n ∧ n ≤ r.arity ∧
      (d.Filled d.IsClosed t.constraint (d.linksAt ⟨i, f⟩) ↔ f < n)
  /-- Nothing stands behind the next field of a node that is not finished. -/
  behind : ∀ i f g, d.IsUnfinished i → d.nextField? i = some f → f < g →
    d.linksAt ⟨i, g⟩ = []
  next_head : ∀ slot, d.head? = some slot → d.nextField? slot.action = some slot.field
  /-- Above the head, the last step in the next field leads to the head, and those before it are
  closed nodes of an open-ended list. -/
  next_above : ∀ slot i, d.head? = some slot → d.Descends i slot.action → i ≠ slot.action →
    ∃ r f t before c, d.expansion? i = some r ∧ d.nextField? i = some f ∧
      r.fieldType? f = some t ∧ d.linksAt ⟨i, f⟩ = before ++ [c] ∧
      d.parent? c = some ⟨i, f⟩ ∧ d.Descends c slot.action ∧
      ∀ j ∈ before, d.Piece d.IsClosed t.constraint j
  head_content : ∀ slot t, d.head? = some slot → d.headType? = some t →
    ∀ j ∈ d.linksAt slot, d.Piece d.IsClosed t.constraint j

/-- A derivation that was begun and is not complete has an open field of a known type, in a node
that some action opened. -/
theorem Disciplined.exists_openField {d : Derivation} (h : d.Disciplined)
    (hne : d.isEmpty = false) (hopen : d.isComplete = false) :
    ∃ slot r t, d.head? = some slot ∧ d.headType? = some t ∧
      d.actions[slot.action]? = some (.applyRule (.expandTree r)) ∧
      r.fieldType? slot.field = some t := by
  cases hhead : d.head? with
  | none =>
    rcases h.head_none.mp hhead with hempty | hcomplete
    · exact absurd hempty (by simp [hne])
    · exact absurd hcomplete (by simp [hopen])
  | some slot =>
    obtain ⟨r, t, hr, -, ht, htype⟩ := h.head_some slot hhead
    refine ⟨slot, r, t, rfl, htype, ?_, ht⟩
    rw [getElem?_actions]
    exact expansion?_eq_some_iff.mp hr

/-! ## The way to the head -/

/-- What is above the innermost node of a path is on the path. -/
theorem IsPath.exists_of_descends {d : Derivation} (hroot : d.parent? 0 = none)
    {top : OpenNode} {rest : List OpenNode} (h : d.IsPath (top :: rest)) {i : Nat}
    (hi : d.Descends i top.index) : ∃ n ∈ top :: rest, n.index = i := by
  induction rest generalizing top with
  | nil =>
    rcases Relation.ReflTransGen.cases_tail hi with heq | ⟨p, -, f, hparent⟩
    · exact ⟨top, List.mem_cons_self, heq⟩
    · rw [show top.index = 0 from h, hroot] at hparent
      exact nomatch hparent
  | cons up rest ih =>
    rcases Relation.ReflTransGen.cases_tail hi with heq | ⟨p, hip, f, hparent⟩
    · exact ⟨top, List.mem_cons_self, heq⟩
    · obtain ⟨rfl, -⟩ := Slot.mk.inj (Option.some.inj (h.1.1.symm.trans hparent))
      obtain ⟨n, hn, hindex⟩ := ih h.2 hip
      exact ⟨n, List.mem_cons_of_mem top hn, hindex⟩

/-- The next field of the node that a step opened, if these are the open nodes. -/
def nextIn (d : Derivation) (spine : List OpenNode) (i : Nat) : Option Nat :=
  match spine.find? fun n => n.index = i with
  | some n => some n.field
  | none => (d.expansion? i).map Expansion.arity

theorem nextField?_eq_nextIn (d : Derivation) : d.nextField? = d.nextIn d.spine := rfl

theorem nextIn_cons (d : Derivation) (n : OpenNode) (rest : List OpenNode) (i : Nat) :
    d.nextIn (n :: rest) i = if n.index = i then some n.field else d.nextIn rest i := by
  unfold nextIn
  rw [List.find?_cons]
  by_cases h : n.index = i
  · rw [if_pos h, decide_eq_true h]
  · rw [if_neg h, decide_eq_false h]

theorem nextIn_of_mem {d : Derivation} {spine : List OpenNode} (h : d.IsPath spine)
    {n : OpenNode} (hn : n ∈ spine) : d.nextIn spine n.index = some n.field := by
  induction spine with
  | nil => exact absurd hn List.not_mem_nil
  | cons top rest ih =>
    rw [nextIn_cons]
    rcases List.mem_cons.mp hn with rfl | hrest
    · exact if_pos rfl
    · rw [if_neg (Nat.ne_of_gt (h.index_lt hrest)), ih h.tail hrest]

theorem nextIn_of_forall_ne {d : Derivation} {spine : List OpenNode} {i : Nat}
    (hi : ∀ n ∈ spine, n.index ≠ i) :
    d.nextIn spine i = (d.expansion? i).map Expansion.arity := by
  have hfind : (spine.find? fun n => n.index = i) = none := by
    refine List.find?_eq_none.mpr ?_
    intro n hn
    simpa using hi n hn
  rw [nextIn, hfind]

theorem nextField?_of_mem {d : Derivation} (h : d.IsPath d.spine) {n : OpenNode}
    (hn : n ∈ d.spine) : d.nextField? n.index = some n.field :=
  nextIn_of_mem h hn

theorem nextField?_of_forall_ne {d : Derivation} {i : Nat} (hi : ∀ n ∈ d.spine, n.index ≠ i) :
    d.nextField? i = (d.expansion? i).map Expansion.arity :=
  nextIn_of_forall_ne hi

/-- What holds of the innermost node and goes from each node to the one above it holds of all. -/
theorem forall_mem_of_infix {Q : OpenNode → Prop} {spine : List OpenNode}
    (htop : ∀ n ∈ spine.head?, Q n) (hup : ∀ n up, [n, up] <:+: spine → Q n → Q up) :
    ∀ n ∈ spine, Q n := by
  induction spine with
  | nil => exact fun n hn => absurd hn List.not_mem_nil
  | cons top rest ih =>
    have hQ : Q top := htop top rfl
    have hrest : ∀ n ∈ rest, Q n := by
      refine ih ?_ fun n up hpair => hup n up (List.infix_cons hpair)
      intro n hn
      obtain ⟨rest', rfl⟩ := List.head?_eq_some_iff.mp hn
      exact hup top n ⟨[], rest', rfl⟩ hQ
    intro n hn
    rcases List.mem_cons.mp hn with rfl | hn
    · exact hQ
    · exact hrest n hn

/-- Below every node of a spine but the innermost there is another one. -/
theorem exists_infix_of_mem_tail {n top : OpenNode} {rest : List OpenNode} (hn : n ∈ rest) :
    ∃ m, [m, n] <:+: top :: rest := by
  induction rest generalizing top with
  | nil => exact absurd hn List.not_mem_nil
  | cons up rest ih =>
    rcases List.mem_cons.mp hn with rfl | hn
    · exact ⟨top, [], rest, rfl⟩
    · obtain ⟨m, hpair⟩ := ih hn
      exact ⟨m, List.infix_cons hpair⟩

/-- Every open node has an open field, and a closed one does not. -/
theorem SpineStands.not_isClosed {d : Derivation} (hd : d.SpineStands) {n : OpenNode}
    (hn : n ∈ d.spine)
    (hopen : ∀ t, n.fieldType? = some t →
      ¬ d.Filled d.IsClosed t.constraint (d.linksAt n.slot)) : ¬ d.IsClosed n.index := by
  rintro ⟨_, r, hr, hfilled⟩
  obtain rfl := Option.some.inj (hr.symm.trans (hd.stands.expansion_eq n hn))
  obtain ⟨t, ht, -⟩ := OpenNode.exists_left_eq_cons (hd.isOpen n hn)
  exact hopen t ht (hfilled n.field t ht)

namespace SlotsHold

variable {d : Derivation}

/-- The open field of a node is not filled. -/
theorem not_filled_open (h : d.SlotsHold d.spine) (hd : d.SpineStands) {n : OpenNode}
    (hn : n ∈ d.spine) : ∀ t, n.fieldType? = some t →
      ¬ d.Filled d.IsClosed t.constraint (d.linksAt n.slot) := by
  refine forall_mem_of_infix
    (Q := fun n => ∀ t, n.fieldType? = some t →
      ¬ d.Filled d.IsClosed t.constraint (d.linksAt n.slot)) ?_ ?_ n hn
  · exact fun n hn t ht => not_filled_of_piece (fun _ hoff => hoff.1) (h.top n hn t ht)
  · intro n up hpair hopen t ht
    have hmem : n ∈ d.spine := hpair.subset List.mem_cons_self
    obtain ⟨u, before, hu, htakes, hlinks, -⟩ := h.below n up hpair
    obtain rfl : u = t := Option.some.inj (hu.symm.trans ht)
    rw [hlinks]
    exact not_filled_of_last htakes (h.stands.expansion_eq n hmem) (hd.not_isClosed hmem hopen)

/-- The nodes that are not among the open ones have all their fields filled. -/
theorem isClosed_of_off (h : d.SlotsHold d.spine) (ho : d.Ordered) {i : Nat}
    (hi : d.Off d.spine i) : d.IsClosed i := by
  -- what stands in a slot of a step comes after it
  induction hgap : d.size - i using Nat.strongRecOn generalizing i with
  | ind gap ih =>
    obtain ⟨⟨r, hr⟩, hoff⟩ := hi
    refine .intro i r hr fun f t ht => ?_
    refine (h.closed i r hr hoff f t ht).imp rfl (fun _ _ ha => ha) fun j hj hjoff => ?_
    have hij := ho.parent_lt j _ (ho.mem_linksAt_iff.mp hj)
    have hjlt := ho.lt_size_of_mem hj
    exact ih (d.size - j) (by dsimp only at hij; omega) hjoff rfl

theorem isClosed_iff (h : d.SlotsHold d.spine) (hd : d.SpineStands) (ho : d.Ordered) {i : Nat} :
    d.IsClosed i ↔ d.Off d.spine i := by
  refine ⟨?_, h.isClosed_of_off ho⟩
  intro hi
  refine ⟨?_, ?_⟩
  · obtain ⟨_, r, hr, -⟩ := hi
    exact ⟨r, hr⟩
  · rintro n hn rfl
    exact hd.not_isClosed hn (h.not_filled_open hd hn) hi

/-- The filled fields of a node are those before its next field. -/
theorem filled_iff (h : d.SlotsHold d.spine) (hd : d.SpineStands) (ho : d.Ordered) {i : Nat}
    {r : Expansion} {f : Nat} {t : NodeType} (hr : d.expansion? i = some r)
    (ht : r.fieldType? f = some t) : ∃ n, d.nextField? i = some n ∧ n ≤ r.arity ∧
      (d.Filled d.IsClosed t.constraint (d.linksAt ⟨i, f⟩) ↔ f < n) := by
  have hclosed : ∀ {links}, d.Filled (d.Off d.spine) t.constraint links →
      d.Filled d.IsClosed t.constraint links := fun hfilled =>
    hfilled.imp rfl (fun _ _ ha => ha) fun _ _ => h.isClosed_of_off ho
  by_cases hi : ∃ n ∈ d.spine, n.index = i
  · obtain ⟨n, hn, rfl⟩ := hi
    obtain rfl := Option.some.inj (hr.symm.trans (h.stands.expansion_eq n hn))
    have hlt := (n.isFilled_eq_false_iff).mp (hd.isOpen n hn)
    refine ⟨n.field, nextField?_of_mem h.stands.path hn, Nat.le_of_lt hlt, ?_, ?_⟩
    · intro hfilled
      by_contra hge
      rcases Nat.eq_or_lt_of_not_lt hge with rfl | hgt
      · exact h.not_filled_open hd hn t ht hfilled
      · exact hfilled.ne_nil (h.stands.links_behind n hn f hgt)
    · exact fun hf => hclosed (h.passed n hn f t hf ht)
  · have hoff : ∀ n ∈ d.spine, n.index ≠ i := fun n hn hindex => hi ⟨n, hn, hindex⟩
    refine ⟨r.arity, by rw [nextField?_of_forall_ne hoff, hr]; rfl, Nat.le_refl _, ?_⟩
    exact iff_of_true (hclosed (h.closed i r hr hoff f t ht)) (fieldType?_lt ht)

/-- The nodes with a field that is not filled are the open ones. -/
theorem isUnfinished_iff (h : d.SlotsHold d.spine) (hd : d.SpineStands) (ho : d.Ordered)
    {i : Nat} : d.IsUnfinished i ↔ ∃ n ∈ d.spine, n.index = i := by
  constructor
  · rintro ⟨r, f, t, hr, ht, hfilled⟩
    by_contra hi
    have hoff : d.Off d.spine i := ⟨⟨r, hr⟩, fun n hn hindex => hi ⟨n, hn, hindex⟩⟩
    obtain ⟨_, r', hr', hall⟩ := h.isClosed_of_off ho hoff
    obtain rfl := Option.some.inj (hr.symm.trans hr')
    exact hfilled (hall f t ht)
  · rintro ⟨n, hn, rfl⟩
    obtain ⟨t, ht, -⟩ := OpenNode.exists_left_eq_cons (hd.isOpen n hn)
    exact ⟨n.rule, n.field, t, h.stands.expansion_eq n hn, ht, h.not_filled_open hd hn t ht⟩

/-- The open nodes are those from which the head descends. -/
theorem exists_mem_iff_descends (h : d.SlotsHold d.spine) (ho : d.Ordered) {i : Nat} :
    (∃ n ∈ d.spine, n.index = i) ↔ ∃ slot, d.head? = some slot ∧ d.Descends i slot.action := by
  have hpath := h.stands.path
  cases hs : d.spine with
  | nil => simp [head?, hs]
  | cons top rest =>
    rw [hs] at hpath
    have hhead : d.head? = some top.slot := by rw [head?, hs]; rfl
    constructor
    · rintro ⟨n, hn, rfl⟩
      exact ⟨top.slot, hhead, hpath.descends hn⟩
    · rintro ⟨slot, hslot, hi⟩
      obtain rfl := Option.some.inj (hhead.symm.trans hslot)
      exact hpath.exists_of_descends ho.parent_root hi

/-- Above the head, the tree goes through the open field of each node. -/
theorem exists_above (h : d.SlotsHold d.spine) (ho : d.Ordered)
    {slot : Slot} (hhead : d.head? = some slot) {n : OpenNode} (hn : n ∈ d.spine)
    (hne : n.index ≠ slot.action) : ∃ t before c, n.fieldType? = some t ∧
      d.linksAt n.slot = before ++ [c] ∧ d.parent? c = some n.slot ∧ d.Descends c slot.action ∧
      ∀ j ∈ before, d.Piece d.IsClosed t.constraint j := by
  obtain ⟨top, htop, rfl⟩ := Option.map_eq_some_iff.mp hhead
  obtain ⟨rest, hs⟩ := List.head?_eq_some_iff.mp htop
  have hrest : n ∈ rest := by
    rw [hs] at hn
    exact (List.mem_cons.mp hn).resolve_left fun heq => hne (heq ▸ rfl)
  obtain ⟨m, hpair⟩ : ∃ m, [m, n] <:+: d.spine := by
    rw [hs]
    exact exists_infix_of_mem_tail hrest
  obtain ⟨t, before, ht, -, hlinks, hbefore⟩ := h.below m n hpair
  have hmem : m.index ∈ d.linksAt n.slot := by simp [hlinks]
  refine ⟨t, before, m.index, ht, hlinks, ho.mem_linksAt_iff.mp hmem, ?_, ?_⟩
  · have hpath := h.stands.path
    have hm : m ∈ d.spine := hpair.subset List.mem_cons_self
    rw [hs] at hpath hm
    exact hpath.descends hm
  · exact fun j hj => (hbefore j hj).imp rfl (fun _ _ ha => ha) (h.isClosed_of_off ho)

end SlotsHold

theorem Grown.disciplined {e : Encoding} {admits : Option NodeType → Action → Prop}
    {d : Derivation} (hg : Grown e admits d) : d.Disciplined := by
  have h := hg.slotsHold
  have hd := hg.spineStands
  have ho := hg.ordered
  refine
    { head_none := ?head_none
      head_some := ?head_some
      unfinished_iff := fun i => (h.isUnfinished_iff hd ho).trans (h.exists_mem_iff_descends ho)
      filled_iff := fun i r f t hr ht => h.filled_iff hd ho hr ht
      behind := ?behind
      next_head := ?next_head
      next_above := ?next_above
      head_content := ?head_content }
  case head_none =>
    cases hs : d.spine with
    | nil => cases he : d.isEmpty <;> simp [head?, isComplete, hs, he]
    | cons top rest =>
      have hne : d.isEmpty = false :=
        Bool.eq_false_iff.mpr fun hempty => by simp [hg.spine_eq_nil hempty] at hs
      simp [head?, isComplete, hs, hne]
  case head_some =>
    intro slot hslot
    obtain ⟨top, htop, rfl⟩ := Option.map_eq_some_iff.mp hslot
    have hmem : top ∈ d.spine := List.mem_of_mem_head? htop
    obtain ⟨t, ht, -⟩ := OpenNode.exists_left_eq_cons (hd.isOpen top hmem)
    refine ⟨top.rule, t, h.stands.expansion_eq top hmem, fieldType?_lt ht, ht, ?_⟩
    rw [headType?, htop]
    exact ht
  case behind =>
    intro i f g hi hf hfg
    obtain ⟨n, hn, rfl⟩ := (h.isUnfinished_iff hd ho).mp hi
    obtain rfl := Option.some.inj ((nextField?_of_mem h.stands.path hn).symm.trans hf)
    exact h.stands.links_behind n hn g hfg
  case next_head =>
    intro slot hslot
    obtain ⟨top, htop, rfl⟩ := Option.map_eq_some_iff.mp hslot
    exact nextField?_of_mem h.stands.path (List.mem_of_mem_head? htop)
  case next_above =>
    intro slot i hslot hi hne
    obtain ⟨n, hn, rfl⟩ := (h.exists_mem_iff_descends ho).mpr ⟨slot, hslot, hi⟩
    obtain ⟨t, before, c, ht, habove⟩ := h.exists_above ho hslot hn hne
    exact ⟨n.rule, n.field, t, before, c, h.stands.expansion_eq n hn,
      nextField?_of_mem h.stands.path hn, ht, habove⟩
  case head_content =>
    intro slot t hslot ht i hi
    obtain ⟨top, htop, rfl⟩ := Option.map_eq_some_iff.mp hslot
    rw [headType?, htop] at ht
    exact (h.top top htop t ht i hi).imp rfl (fun _ _ ha => ha) (h.isClosed_of_off ho)

/-- Whatever was tried on an empty derivation, its head and its slots keep the discipline. -/
theorem disciplined_attemptAll (e : Encoding) (w : List Action) :
    ((empty e).attemptAll w).Disciplined :=
  (grown_attemptAll e w).disciplined

end TreeDerivation.Derivation
