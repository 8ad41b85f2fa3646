import Mathlib.Data.List.Nodup
import Mathlib.Data.List.TakeWhile
import TreeDerivation.Proofs.Derivation.Frame

/-!
# Closing along the links

The closing of filled nodes can be told without the spine, from the steps and their links alone. A
pointer says which node is at the head and which field of each node is next. As long as the node at
the head has no field left, the pointer goes to the node above it, and that one goes on to its next
field unless it is in a list that is kept open-ended (`turn`, `Turns`).

Whenever an accepted action opens a node or fills a field, these turns come to an end, and there the
pointer says where the derivation stands after the action (`closing_of_effect`). There is at most
one turn more than there are nodes above the head, since each turn but the last leads to an earlier
step. If the node at the head has a field left, nothing moves. If not, it is closed with all nodes
above it that are at their last field, up to the first that is not, or is in an open-ended list
(`Closing`).

A pointer belongs to every list of open nodes (`pointerAt`), and a turn does to it what closing one
node does to the list (`Progress.exists_turns`). Which nodes `settle` closes is said by
`settle_append`.
-/

namespace TreeDerivation

/-! ## Where closing stops -/

namespace OpenNode

/-- Whether one node in its open field fills the node. -/
def isFilledByOne (retain : Bool) (n : OpenNode) : Bool :=
  (n.receive retain).isFilled

/-- One node fills an open node if it stands in its last field, and that is no open-ended list. -/
theorem isFilledByOne_iff {n : OpenNode} (h : n.isFilled = false) (retain : Bool) :
    n.isFilledByOne retain = true ↔ n.field + 1 = n.rule.arity ∧
      ¬ (retain = true ∧ n.fieldType?.map NodeType.constraint = some .variadic) := by
  have hlt := n.isFilled_eq_false_iff.mp h
  rw [isFilledByOne]
  by_cases hkeeps : retain = true ∧ n.fieldType?.map NodeType.constraint = some .variadic
  · simp [receive, hkeeps, h]
  · have hadvance : n.advance.isFilled = true ↔ n.rule.arity ≤ n.field + 1 := decide_eq_true_iff
    rw [receive, if_neg hkeeps, hadvance, and_iff_left hkeeps]
    omega

end OpenNode

/-- The nodes that one node fills, up to the first that it does not fill. -/
theorem exists_filledByOne (retain : Bool) (nodes : List OpenNode) : ∃ passed others,
    nodes = passed ++ others ∧ (∀ n ∈ passed, n.isFilledByOne retain = true) ∧
      ∀ n ∈ others.head?, n.isFilledByOne retain = false := by
  refine ⟨nodes.takeWhile (OpenNode.isFilledByOne retain),
    nodes.dropWhile (OpenNode.isFilledByOne retain), List.takeWhile_append_dropWhile.symm,
    fun n hn => List.mem_takeWhile_imp hn, fun n hn => ?_⟩
  have hnot := List.head?_dropWhile_not (OpenNode.isFilledByOne retain) nodes
  rwa [hn] at hnot

/-- A filled node takes with it the nodes that one node fills; the one above them receives the last
of them and stays open. -/
theorem settle_append {retain : Bool} {top : OpenNode} (h : top.isFilled = true)
    {passed others : List OpenNode} (hpassed : ∀ n ∈ passed, n.isFilledByOne retain = true)
    (hothers : ∀ n ∈ others.head?, n.isFilledByOne retain = false) :
    settle retain top (passed ++ others) = others.modifyHead (OpenNode.receive retain) := by
  induction passed generalizing top with
  | nil =>
    cases others with
    | nil => simp [settle, h]
    | cons up others =>
      rw [List.nil_append, settle_of_isFilled h, settle_of_not_isFilled (hothers up rfl)]
      rfl
  | cons up passed ih =>
    rw [List.cons_append, settle_of_isFilled h]
    exact ih (hpassed up List.mem_cons_self) fun n hn => hpassed n (List.mem_cons_of_mem up hn)

theorem map_index_modifyHead (retain : Bool) (nodes : List OpenNode) :
    (nodes.modifyHead (OpenNode.receive retain)).map OpenNode.index =
      nodes.map OpenNode.index := by
  cases nodes with
  | nil => rfl
  | cons n rest => rw [List.modifyHead_cons, List.map_cons, List.map_cons, OpenNode.index_receive]

namespace Derivation

/-! ## Closing with a pointer -/

/-- The step of the node at the head, and the next field of each node. -/
structure Pointer where
  head : Option Nat
  next : Nat → Option Nat

namespace Pointer

/-- The slot at the head. -/
def slot? (p : Pointer) : Option Slot :=
  p.head.map fun i => ⟨i, (p.next i).getD 0⟩

/-- The pointer after the node of a slot went on to the field behind that slot. -/
def advance (p : Pointer) (slot : Slot) : Pointer :=
  { p with next := fun i => if i = slot.action then some (slot.field + 1) else p.next i }

end Pointer

/-- Where a derivation stands. -/
def pointer (d : Derivation) : Pointer :=
  ⟨d.head?.map Slot.action, d.nextField?⟩

/-- Where closing begins after an action with this effect: at the first field of the new node, or at
the head behind the field that was filled. -/
def pointerAfter (d : Derivation) : Effect → Pointer
  | .opens _ => ⟨some d.size, fun i => if i = d.size then some 0 else d.nextField? i⟩
  | .fills =>
    match d.head? with
    | some slot => d.pointer.advance slot
    | none => d.pointer
  | .stays => d.pointer

/-- How many fields the node of a step has. -/
def fieldCount (d : Derivation) (i : Nat) : Nat :=
  ((d.expansion? i).map Expansion.arity).getD 0

/-- Whether a slot is a list that is kept open-ended, so that a node does not fill it. -/
def KeepsOpen (d : Derivation) (slot : Slot) : Prop :=
  d.encoding.retainVariadic = true ∧
    ((d.expansion? slot.action).bind fun r => r.fieldType? slot.field).map NodeType.constraint =
      some .variadic

instance (d : Derivation) (slot : Slot) : Decidable (d.KeepsOpen slot) :=
  inferInstanceAs (Decidable (_ ∧ _))

/-- What one turn of closing comes to. -/
inductive Turn where
  | stops (p : Pointer)
  | goesOn (p : Pointer)

/-- One turn of closing: a node with all fields filled gives the head to the node above it, which
goes on to its next field. -/
def turn (d : Derivation) (p : Pointer) : Turn :=
  match p.slot? with
  | none => .stops p
  | some slot =>
    if slot.field < d.fieldCount slot.action then
      .stops p
    else
      let above : Pointer := { p with head := (d.parent? slot.action).map Slot.action }
      match above.slot? with
      | none => .stops above
      | some up => .goesOn (if d.KeepsOpen up then above else above.advance up)

/-- Closing ends after so many turns, at the second pointer. -/
inductive Turns (d : Derivation) : Nat → Pointer → Pointer → Prop where
  | stops {p q : Pointer} : d.turn p = .stops q → Turns d 1 p q
  | goesOn {k : Nat} {p p' q : Pointer} : d.turn p = .goesOn p' → Turns d k p' q →
    Turns d (k + 1) p q

/-- The steps above a step, up to the root; their number is the depth of the step. -/
inductive Ancestors (d : Derivation) : Nat → List Nat → Prop where
  | root (i : Nat) : d.parent? i = none → Ancestors d i []
  | above (i : Nat) (slot : Slot) (is : List Nat) : d.parent? i = some slot →
    Ancestors d slot.action is → Ancestors d i (slot.action :: is)

/-- A step has one depth. -/
theorem Ancestors.unique {d : Derivation} {i : Nat} {is js : List Nat} (h : d.Ancestors i is)
    (h' : d.Ancestors i js) : is = js := by
  induction h generalizing js with
  | root i hparent =>
    cases h' with
    | root => rfl
    | above _ slot js hslot => exact nomatch hparent.symm.trans hslot
  | above i slot is hparent _ ih =>
    cases h' with
    | root _ hnone => exact nomatch hnone.symm.trans hparent
    | above _ slot' js hslot hjs =>
      obtain rfl := Option.some.inj (hparent.symm.trans hslot)
      rw [ih hjs]

/-- Whether the node of a step has a field left to fill. -/
def HasFieldLeft (d : Derivation) (p : Pointer) (i : Nat) : Prop :=
  ∃ r f, d.expansion? i = some r ∧ p.next i = some f ∧ f < r.arity

/-- Whether the node of a step is at its last field, and that is no list that is kept open-ended. -/
def AtLast (d : Derivation) (p : Pointer) (i : Nat) : Prop :=
  ∃ r f, d.expansion? i = some r ∧ p.next i = some f ∧ f + 1 = r.arity ∧ ¬ d.KeepsOpen ⟨i, f⟩

/-- What closing from `p` on does if the node `top` at the head is filled: of the nodes above it
`passed` are closed, too, and `others` stay open. -/
structure ClosesRun (d : Derivation) (p : Pointer) (top : Nat) (passed others : List Nat) :
    Prop where
  atLast : ∀ i ∈ passed, d.AtLast p i
  /-- No longer run could be closed. -/
  stops : ∀ i ∈ others.head?, ¬ d.AtLast p i
  head : d.pointer.head = others.head?
  /-- The nodes passed go on to the next field, and so does the one at which closing stops, unless
  it is in an open-ended list. All others keep their next fields. -/
  next : ∀ i, d.pointer.next i = (p.next i).map fun f =>
    if i ∈ passed ∨ others.head? = some i ∧ ¬ d.KeepsOpen ⟨i, f⟩ then f + 1 else f
  closed : ∀ i ∈ top :: (passed ++ others), d.IsClosed i ↔ i ∈ top :: passed

/-- Closing from `p` on, where `top` is the node at the head and `above` are those above it, leads
to where the derivation stands. -/
structure Closing (d : Derivation) (p : Pointer) (top : Nat) (above : List Nat) : Prop where
  head : p.head = some top
  ancestors : d.Ancestors top above
  turns : ∃ k, k ≤ above.length + 1 ∧ d.Turns k p d.pointer
  /-- A turn that is not the last leads up to an earlier step. -/
  upward : ∀ q q', d.turn q = .goesOn q' → ∃ i slot, q.head = some i ∧
    d.parent? i = some slot ∧ q'.head = some slot.action ∧ slot.action < i
  unfilled : d.HasFieldLeft p top → d.pointer = p
  filled : ¬ d.HasFieldLeft p top →
    ∃ passed others, above = passed ++ others ∧ d.ClosesRun p top passed others

/-! ## The pointer of a list of open nodes -/

/-- Where a derivation with these open nodes stands. -/
def pointerAt (d : Derivation) (spine : List OpenNode) : Pointer :=
  ⟨spine.head?.map OpenNode.index, d.nextIn spine⟩

theorem pointer_eq_pointerAt (d : Derivation) : d.pointer = d.pointerAt d.spine := by
  rw [pointer, head?, Option.map_map, nextField?_eq_nextIn]
  rfl

theorem slot?_pointerAt_cons (d : Derivation) (n : OpenNode) (rest : List OpenNode) :
    (d.pointerAt (n :: rest)).slot? = some n.slot := by
  have hnext : d.nextIn (n :: rest) n.index = some n.field := by
    rw [nextIn_cons, if_pos rfl]
  simp [Pointer.slot?, pointerAt, hnext, OpenNode.slot]

section Turns

variable {d : Derivation} {before : Nat → Option Nat} {n up : OpenNode} {rest : List OpenNode}

theorem keepsOpen_iff {spine : List OpenNode} (h : d.Stands spine) (hn : n ∈ spine) :
    d.KeepsOpen n.slot ↔ d.encoding.retainVariadic = true ∧
      n.fieldType?.map NodeType.constraint = some .variadic := by
  rw [KeepsOpen, OpenNode.slot, h.expansion_eq n hn]
  rfl

/-- A filled node leaves the next fields as they are when it is closed. -/
theorem pointerAt_of_isFilled (h : d.Stands (n :: rest)) (hn : n.isFilled = true)
    (hle : n.field ≤ n.rule.arity) :
    { d.pointerAt (n :: rest) with head := rest.head?.map OpenNode.index } = d.pointerAt rest := by
  have hnext : d.nextIn (n :: rest) = d.nextIn rest :=
    funext fun i => (nextIn_of_isFilled h hn hle i).symm
  rw [pointerAt, pointerAt, hnext]

theorem pointerAt_advance (d : Derivation) (up : OpenNode) (rest : List OpenNode) :
    d.pointerAt (up.advance :: rest) = (d.pointerAt (up :: rest)).advance up.slot := by
  have hnext : d.nextIn (up.advance :: rest) = fun i =>
      if i = up.index then some (up.field + 1) else d.nextIn (up :: rest) i := by
    funext i
    rw [nextIn_cons, nextIn_cons]
    by_cases hi : up.index = i
    · rw [if_pos hi.symm]
      exact if_pos hi
    · rw [if_neg (Ne.symm hi), if_neg hi]
      exact if_neg hi
  rw [pointerAt, hnext]
  rfl

/-- A node that receives another one goes on to its next field, unless it takes more. -/
theorem receive_eq_ite (h : d.Stands (up :: rest)) : up.receive d.encoding.retainVariadic =
    if d.KeepsOpen up.slot then up else up.advance := by
  rw [OpenNode.receive]
  exact if_congr (keepsOpen_iff h List.mem_cons_self).symm rfl rfl

theorem field_lt_fieldCount_iff (h : d.Stands (n :: rest)) :
    n.slot.field < d.fieldCount n.slot.action ↔ n.isFilled = false := by
  rw [OpenNode.slot, fieldCount, h.expansion_eq n List.mem_cons_self, n.isFilled_eq_false_iff]
  rfl

theorem turn_of_not_isFilled (h : d.Stands (n :: rest)) (hn : n.isFilled = false) :
    d.turn (d.pointerAt (n :: rest)) = .stops (d.pointerAt (n :: rest)) := by
  rw [turn, slot?_pointerAt_cons]
  exact if_pos ((field_lt_fieldCount_iff h).mpr hn)

theorem turn_root (h : d.Stands [n]) (hroot : d.parent? 0 = none) (hn : n.isFilled = true)
    (hle : n.field ≤ n.rule.arity) : d.turn (d.pointerAt [n]) = .stops (d.pointerAt []) := by
  have hge : ¬ n.slot.field < d.fieldCount n.slot.action := by
    rw [field_lt_fieldCount_iff h, hn]
    exact Bool.noConfusion
  have hparent : d.parent? n.slot.action = none := by
    rw [show n.slot.action = 0 from h.path, hroot]
  rw [turn, slot?_pointerAt_cons]
  simp only [if_neg hge, hparent]
  rw [← pointerAt_of_isFilled h hn hle]
  rfl

theorem turn_of_isFilled (h : d.Stands (n :: up :: rest)) (hn : n.isFilled = true)
    (hle : n.field ≤ n.rule.arity) : d.turn (d.pointerAt (n :: up :: rest)) =
      .goesOn (d.pointerAt (up.receive d.encoding.retainVariadic :: rest)) := by
  have hge : ¬ n.slot.field < d.fieldCount n.slot.action := by
    rw [field_lt_fieldCount_iff h, hn]
    exact Bool.noConfusion
  have hparent : d.parent? n.slot.action = some up.slot := h.path.1.1
  have habove : { d.pointerAt (n :: up :: rest) with
      head := (d.parent? n.slot.action).map Slot.action } = d.pointerAt (up :: rest) := by
    rw [hparent, ← pointerAt_of_isFilled h hn hle]
    rfl
  rw [turn, slot?_pointerAt_cons]
  simp only [if_neg hge, habove, slot?_pointerAt_cons]
  rw [receive_eq_ite h.tail, ← pointerAt_advance, apply_ite fun m => d.pointerAt (m :: rest)]

/-- Closing with a pointer ends, and where closing the open nodes ends. -/
theorem Progress.exists_turns (h : d.Progress before (n :: rest)) (hroot : d.parent? 0 = none) :
    ∃ k, k ≤ rest.length + 1 ∧ d.Turns k (d.pointerAt (n :: rest))
      (d.pointerAt (TreeDerivation.settle d.encoding.retainVariadic n rest)) := by
  have hle := h.field_le n List.mem_cons_self
  -- each turn takes one node off the list, and the one above it has not moved before
  induction rest generalizing n with
  | nil =>
    refine ⟨1, Nat.le_refl 1, .stops ?_⟩
    cases hn : n.isFilled with
    | false => rw [settle_of_not_isFilled hn, turn_of_not_isFilled h.stands hn]
    | true =>
      rw [TreeDerivation.settle, if_pos hn]
      exact turn_root h.stands hroot hn hle
  | cons up rest ih =>
    cases hn : n.isFilled with
    | false =>
      refine ⟨1, by omega, .stops ?_⟩
      rw [settle_of_not_isFilled hn, turn_of_not_isFilled h.stands hn]
    | true =>
      have hclose := h.close hn d.encoding.retainVariadic
      obtain ⟨k, hk, hturns⟩ := ih hclose (hclose.field_le _ List.mem_cons_self)
      refine ⟨k + 1, Nat.succ_le_succ hk, .goesOn (turn_of_isFilled h.stands hn hle) ?_⟩
      rwa [settle_of_isFilled hn]

end Turns

/-! ## The nodes that are closed -/

section Run

variable {d : Derivation} {n : OpenNode} {rest : List OpenNode}

/-- The numbers of open nodes are those of the steps above the innermost one. -/
theorem IsPath.ancestors (hroot : d.parent? 0 = none) (h : d.IsPath (n :: rest)) :
    d.Ancestors n.index (rest.map OpenNode.index) := by
  induction rest generalizing n with
  | nil => exact .root n.index (by rw [show n.index = 0 from h, hroot])
  | cons up rest ih => exact .above n.index up.slot _ h.1.1 (ih h.2)

/-- No two open nodes have one number. -/
theorem IsPath.nodup_index {spine : List OpenNode} (h : d.IsPath spine) :
    (spine.map OpenNode.index).Nodup := by
  induction spine with
  | nil => exact List.nodup_nil
  | cons n rest ih =>
    refine List.nodup_cons.mpr ⟨fun hmem => ?_, ih h.tail⟩
    obtain ⟨m, hm, hindex⟩ := List.mem_map.mp hmem
    exact Nat.ne_of_lt (h.index_lt hm) hindex

theorem hasFieldLeft_iff (h : d.Stands (n :: rest)) :
    d.HasFieldLeft (d.pointerAt (n :: rest)) n.index ↔ n.isFilled = false := by
  have hnext : (d.pointerAt (n :: rest)).next n.index = some n.field :=
    nextIn_of_mem h.path List.mem_cons_self
  have hrule := h.expansion_eq n List.mem_cons_self
  rw [n.isFilled_eq_false_iff]
  constructor
  · rintro ⟨r, f, hr, hf, hlt⟩
    obtain rfl := Option.some.inj (hrule.symm.trans hr)
    obtain rfl := Option.some.inj (hnext.symm.trans hf)
    exact hlt
  · exact fun hlt => ⟨n.rule, n.field, hrule, hnext, hlt⟩

/-- The nodes at their last field are those that a node fills. -/
theorem atLast_iff (h : d.Stands (n :: rest)) {m : OpenNode} (hm : m ∈ rest) :
    d.AtLast (d.pointerAt (n :: rest)) m.index ↔
      m.isFilledByOne d.encoding.retainVariadic = true := by
  have hmem : m ∈ n :: rest := List.mem_cons_of_mem n hm
  have hnext : (d.pointerAt (n :: rest)).next m.index = some m.field := nextIn_of_mem h.path hmem
  have hrule := h.expansion_eq m hmem
  rw [OpenNode.isFilledByOne_iff (h.tail_open m hm), ← keepsOpen_iff h hmem]
  constructor
  · rintro ⟨r, f, hr, hf, hlast⟩
    obtain rfl := Option.some.inj (hrule.symm.trans hr)
    obtain rfl := Option.some.inj (hnext.symm.trans hf)
    exact hlast
  · exact fun hlast => ⟨m.rule, m.field, hrule, hnext, hlast⟩

section Closed

variable {passed others : List OpenNode}
  (hpassed : ∀ m ∈ passed, m.isFilledByOne d.encoding.retainVariadic = true)
  (hothers : ∀ m ∈ others.head?, m.isFilledByOne d.encoding.retainVariadic = false)

/-- A node that receives another one moves on by one, unless it takes more, and no other moves. -/
theorem nextIn_receive_cons {up : OpenNode} (h : d.Stands (up :: rest)) (i : Nat) :
    d.nextIn (up.receive d.encoding.retainVariadic :: rest) i =
      (d.nextIn (up :: rest) i).map fun f =>
        if up.index = i ∧ ¬ d.KeepsOpen ⟨i, f⟩ then f + 1 else f := by
  rw [nextIn_cons, nextIn_cons, OpenNode.index_receive]
  by_cases hi : up.index = i
  · subst hi
    rw [if_pos rfl, if_pos rfl, Option.map_some, receive_eq_ite h]
    by_cases hkeeps : d.KeepsOpen up.slot
    · rw [if_pos hkeeps, if_neg fun hmoves => hmoves.2 hkeeps]
    · rw [if_neg hkeeps, if_pos ⟨rfl, hkeeps⟩]
      rfl
  · rw [if_neg hi, if_neg hi]
    simp [hi]

include hpassed in
/-- What becomes of the next fields when the nodes that one node fills are closed and the one above
them receives the last of them. -/
theorem nextIn_modifyHead (h : d.Stands (passed ++ others))
    (hopen : ∀ m ∈ passed ++ others, m.isFilled = false) (i : Nat) :
    d.nextIn (others.modifyHead (OpenNode.receive d.encoding.retainVariadic)) i =
      (d.nextIn (passed ++ others) i).map fun f =>
        if i ∈ passed.map OpenNode.index ∨
            (others.map OpenNode.index).head? = some i ∧ ¬ d.KeepsOpen ⟨i, f⟩
          then f + 1 else f := by
  induction passed with
  | nil =>
    cases others with
    | nil => simp
    | cons up others =>
      rw [List.modifyHead_cons, List.nil_append, nextIn_receive_cons h]
      simp
  | cons up passed ih =>
    have hup : up ∈ up :: passed ++ others := List.mem_cons_self
    have hrest := ih (fun m hm => hpassed m (List.mem_cons_of_mem up hm)) h.tail
      fun m hm => hopen m (List.mem_cons_of_mem up hm)
    rw [List.cons_append, nextIn_cons]
    by_cases hi : up.index = i
    · subst hi
      -- the node is closed, so its next field is the one past its last
      have hlast := (OpenNode.isFilledByOne_iff (hopen up hup) _).mp
        (hpassed up List.mem_cons_self)
      have hne : ∀ m ∈ others.modifyHead (OpenNode.receive d.encoding.retainVariadic),
          m.index ≠ up.index := by
        intro m hm
        have hmem := List.mem_map_of_mem (f := OpenNode.index) hm
        rw [map_index_modifyHead] at hmem
        obtain ⟨m', hm', hindex⟩ := List.mem_map.mp hmem
        exact hindex ▸ Nat.ne_of_lt (h.path.index_lt (List.mem_append_right passed hm'))
      rw [nextIn_of_forall_ne hne, h.expansion_eq up hup, if_pos rfl, Option.map_some,
        Option.map_some, if_pos (.inl List.mem_cons_self), hlast.1]
    · rw [hrest, if_neg hi]
      simp only [List.map_cons, List.mem_cons, Ne.symm hi, false_or]

/-- If the open nodes are the last of a row, the others of the row are off the spine. -/
theorem off_iff_of_index_eq (h : d.Stands (n :: (passed ++ others)))
    (hindex : d.spine.map OpenNode.index = others.map OpenNode.index) {i : Nat}
    (hi : i ∈ n.index :: (passed.map OpenNode.index ++ others.map OpenNode.index)) :
    d.Off d.spine i ↔ i ∈ n.index :: passed.map OpenNode.index := by
  have hall : (n :: (passed ++ others)).map OpenNode.index =
      (n.index :: passed.map OpenNode.index) ++ others.map OpenNode.index := by
    rw [List.map_cons, List.map_append, List.cons_append]
  have hdisjoint : List.Disjoint (n.index :: passed.map OpenNode.index)
      (others.map OpenNode.index) := by
    have hnodup := h.path.nodup_index
    rw [hall] at hnodup
    exact List.disjoint_of_nodup_append hnodup
  constructor
  · rintro ⟨-, hne⟩
    refine (List.mem_append.mp hi).resolve_right fun hmem => ?_
    rw [← hindex] at hmem
    obtain ⟨m, hm, hmi⟩ := List.mem_map.mp hmem
    exact hne m hm hmi
  · intro hclosed
    have hi' : i ∈ (n :: (passed ++ others)).map OpenNode.index := by rwa [hall]
    obtain ⟨m, hm, rfl⟩ := List.mem_map.mp hi'
    refine ⟨⟨m.rule, h.expansion_eq m hm⟩, fun k hk hki => hdisjoint hclosed ?_⟩
    rw [← hindex]
    exact List.mem_map.mpr ⟨k, hk, hki⟩

include hpassed hothers in
/-- Closing from a filled node on closes the nodes above it that are at their last field. -/
theorem Progress.closesRun {before : Nat → Option Nat}
    (h : d.Progress before (n :: (passed ++ others))) (hn : n.isFilled = true)
    (hspine : d.spine =
      TreeDerivation.settle d.encoding.retainVariadic n (passed ++ others))
    (hclosed : ∀ i, d.IsClosed i ↔ d.Off d.spine i) :
    d.ClosesRun (d.pointerAt (n :: (passed ++ others))) n.index (passed.map OpenNode.index)
      (others.map OpenNode.index) := by
  rw [settle_append hn hpassed hothers] at hspine
  have hindex : d.spine.map OpenNode.index = others.map OpenNode.index := by
    rw [hspine, map_index_modifyHead]
  refine
    { atLast := ?atLast
      stops := ?stops
      head := ?head
      next := ?next
      closed := ?closed }
  case atLast =>
    intro i hi
    obtain ⟨m, hm, rfl⟩ := List.mem_map.mp hi
    exact (atLast_iff h.stands (List.mem_append_left others hm)).mpr (hpassed m hm)
  case stops =>
    intro i hi
    rw [List.head?_map] at hi
    obtain ⟨m, hm, rfl⟩ := Option.map_eq_some_iff.mp hi
    have hmem : m ∈ passed ++ others := List.mem_append_right passed (List.mem_of_mem_head? hm)
    rw [atLast_iff h.stands hmem, hothers m hm]
    exact Bool.false_ne_true
  case head =>
    rw [← hindex, pointer_eq_pointerAt, List.head?_map]
    rfl
  case next =>
    intro i
    have hle := h.field_le n List.mem_cons_self
    have hold : (d.pointerAt (n :: (passed ++ others))).next i = d.nextIn (passed ++ others) i :=
      (nextIn_of_isFilled h.stands hn hle i).symm
    rw [hold, ← nextIn_modifyHead hpassed h.stands.tail h.stands.tail_open, ← hspine]
    rfl
  case closed =>
    intro i hi
    rw [hclosed, off_iff_of_index_eq h.stands hindex hi]

end Closed

/-- A turn that goes on leads to the step that the one at the head stands in. -/
theorem exists_of_turn_eq_goesOn (ho : d.Ordered) {p q : Pointer} (h : d.turn p = .goesOn q) :
    ∃ i slot, p.head = some i ∧ d.parent? i = some slot ∧ q.head = some slot.action ∧
      slot.action < i := by
  rw [turn] at h
  split at h
  next => exact nomatch h
  next slot hslot =>
    obtain ⟨i, hi, rfl⟩ := Option.map_eq_some_iff.mp hslot
    split at h
    next => exact nomatch h
    next =>
      dsimp only at h
      split at h
      next => exact nomatch h
      next up hup =>
        obtain ⟨j, hj, rfl⟩ := Option.map_eq_some_iff.mp hup
        obtain ⟨slot, hparent, rfl⟩ := Option.map_eq_some_iff.mp hj
        refine ⟨i, slot, hi, hparent, ?_, ho.parent_lt i slot hparent⟩
        rw [← Turn.goesOn.inj h]
        split
        · exact hj
        · exact hj

/-- Where closing leads from a list of open nodes on. -/
theorem Progress.closing {before : Nat → Option Nat} (h : d.Progress before (n :: rest))
    (hspine : d.spine = TreeDerivation.settle d.encoding.retainVariadic n rest)
    (hclosed : ∀ i, d.IsClosed i ↔ d.Off d.spine i) (ho : d.Ordered) :
    d.Closing (d.pointerAt (n :: rest)) n.index (rest.map OpenNode.index) := by
  refine
    { head := rfl
      ancestors := h.stands.path.ancestors ho.parent_root
      turns := ?turns
      upward := fun q q' hturn => ?upward
      unfilled := fun hleft => ?unfilled
      filled := fun hleft => ?filled }
  case turns =>
    rw [List.length_map, pointer_eq_pointerAt, hspine]
    exact h.exists_turns ho.parent_root
  case upward =>
    exact exists_of_turn_eq_goesOn ho hturn
  case unfilled =>
    have hn := (hasFieldLeft_iff h.stands).mp hleft
    rw [pointer_eq_pointerAt, hspine, settle_of_not_isFilled hn]
  case filled =>
    have hn := Bool.of_not_eq_false (mt (hasFieldLeft_iff h.stands).mpr hleft)
    obtain ⟨passed, others, rfl, hpassed, hothers⟩ :=
      exists_filledByOne d.encoding.retainVariadic rest
    exact ⟨_, _, List.map_append, h.closesRun hpassed hothers hn hspine hclosed⟩

end Run

/-! ## Closing after an action -/

section Begin

variable {d : Derivation} {a : Action} {f : Effect}

theorem Ends.effectAt_eq {e : Encoding} {t : NodeType} (h : Ends e t a) :
    effectAt e (some t.constraint) a = .ok .fills := by
  cases h with
  | list hmany => simp [effectAt, hmany.1, hmany.2]
  | text htoken => simp [effectAt, htoken, Token.isClose]
  | token k htoken hsplit => simp [effectAt, htoken, hsplit]

theorem effect_expandTree {r : Expansion}
    (h : d.effect (.applyRule (.expandTree r)) = .ok f) : f = .opens r := by
  unfold effect at h
  split at h
  next => exact nomatch h
  next =>
    generalize d.headType?.map NodeType.constraint = c at h
    rcases c with _ | _ | _ | _
    · exact (Except.ok.inj h).symm
    · exact (Except.ok.inj h).symm
    · exact (Except.ok.inj h).symm
    · exact nomatch h

/-- What fills a field opens no node. -/
theorem expansion?_extend_of_ends {e : Encoding} {t : NodeType} (h : Ends e t a) (f : Effect)
    (i : Nat) : (d.extend a f).expansion? i = d.expansion? i := by
  by_cases hi : i = d.size
  · have hnone : d.expansion? d.size = none := by
      rw [expansion?, getElem?_steps_eq_none (Nat.le_refl _)]
      rfl
    rw [hi, SpineStands.expansion?_extend_size, hnone]
    cases h <;> rfl
  · exact expansion?_extend_of_ne hi a f

theorem pointerAfter_opens (r : Expansion) : d.pointerAfter (.opens r) =
    (d.extend a (.opens r)).pointerAt (⟨d.size, r, 0⟩ :: d.spine) := by
  have hnext : (d.extend a (.opens r)).nextIn (⟨d.size, r, 0⟩ :: d.spine) = fun i =>
      if i = d.size then some 0 else d.nextField? i := by
    funext i
    rw [nextIn_cons]
    by_cases hi : d.size = i
    · rw [if_pos hi, if_pos hi.symm]
    · rw [if_neg hi, if_neg (Ne.symm hi), nextIn_extend (Ne.symm hi), nextField?_eq_nextIn]
  rw [pointerAt, hnext]
  rfl

theorem pointerAfter_fills {top : OpenNode} {rest : List OpenNode} (hs : d.spine = top :: rest)
    {e : Encoding} {t : NodeType} (h : Ends e t a) :
    d.pointerAfter .fills = (d.extend a .fills).pointerAt (top.advance :: rest) := by
  have hnext : d.nextIn = (d.extend a .fills).nextIn := by
    funext spine i
    rw [nextIn, nextIn, expansion?_extend_of_ends h]
  have hpointer : d.pointer = (d.extend a .fills).pointerAt (top :: rest) := by
    rw [pointer_eq_pointerAt, hs, pointerAt, pointerAt, hnext]
  have hhead : d.head? = some top.slot := by
    rw [head?, hs]
    rfl
  simp only [pointerAfter, hhead]
  rw [hpointer, pointerAt_advance]

/-- Closing begins with an open node that may be filled: the new one, or the innermost one behind
the field that was filled. -/
theorem SpineStands.exists_pointerAfter (h : d.SpineStands) (hf : d.effect a = .ok f)
    (hstays : f ≠ .stays) : ∃ n rest, (d.extend a f).Progress d.nextField? (n :: rest) ∧
      (d.extend a f).spine = settle d.encoding.retainVariadic n rest ∧
      d.pointerAfter f = (d.extend a f).pointerAt (n :: rest) := by
  obtain ⟨d', hmoves⟩ : ∃ d', d.Moves a d' := ⟨_, moves_of_apply h.headOpen (apply_of_effect hf)⟩
  cases hmoves with
  | root r hs hsize =>
    obtain rfl := effect_expandTree hf
    exact ⟨_, _, h.progress_opens (fun _ => hsize) r, rfl, pointerAfter_opens r⟩
  | opens top rest t r hs =>
    obtain rfl := effect_expandTree hf
    exact ⟨_, _, h.progress_opens (fun hnil => absurd hnil (by simp [hs])) r, rfl,
      pointerAfter_opens r⟩
  | fills top rest t a hs ht hends =>
    rw [effect_eq_effectAt hs ht, hends.effectAt_eq] at hf
    obtain rfl := Except.ok.inj hf
    exact ⟨_, _, h.progress_fills hs a, spine_extend_fills hs a, pointerAfter_fills hs hends⟩
  | stays top rest t s hs ht htoken hsplit =>
    rw [effect_eq_effectAt hs ht, htoken] at hf
    exact absurd (by simpa [effectAt, Token.isClose, hsplit] using hf.symm) hstays

end Begin

/-- Whatever was tried on an empty derivation, if the next action opens a node or fills a field,
then closing from there ends where the derivation stands after the action. It moves the pointer and
nothing else: the encoding stays, and the steps are the old ones with the new one linked in. -/
theorem closing_of_effect (e : Encoding) (w : List Action) {a : Action} {f : Effect}
    (hf : ((empty e).attemptAll w).effect a = .ok f) (hstays : f ≠ .stays) :
    ∃ d, ((empty e).attemptAll w).apply a = .ok d ∧
      (∃ top above, d.Closing (((empty e).attemptAll w).pointerAfter f) top above) ∧
      d.encoding = ((empty e).attemptAll w).encoding ∧
      d.steps = ((empty e).attemptAll w).linked a f.arity := by
  have hg := grown_attemptAll e w
  have ha := apply_of_effect hf
  have hg' : Grown e (fun _ _ => True) (((empty e).attemptAll w).extend a f) :=
    .apply a hg trivial ha
  obtain ⟨n, rest, hprogress, hspine, hpointer⟩ := hg.spineStands.exists_pointerAfter hf hstays
  refine ⟨_, ha, ⟨n.index, rest.map OpenNode.index, ?_⟩, rfl, rfl⟩
  rw [hpointer]
  exact hprogress.closing hspine (fun i => hg'.slotsHold.isClosed_iff hg'.spineStands hg'.ordered)
    hg'.ordered

/-- The last of three steps below an open-ended list closes with two of them, `y` and `x`, and the
root keeps its list open. -/
theorem closing_of_effect_nested :
    let root : Action := .applyRule (.expandTree ⟨⟨"Root", .node⟩, [("items", ⟨"x", .variadic⟩)]⟩)
    let x : Action := .applyRule (.expandTree ⟨⟨"x", .node⟩, [("only", ⟨"y", .node⟩)]⟩)
    let y : Action := .applyRule (.expandTree
      ⟨⟨"y", .node⟩, [("first", ⟨"z", .node⟩), ("second", ⟨"z", .node⟩)]⟩)
    let leaf : Expansion := ⟨⟨"z", .node⟩, []⟩
    let z : Action := .applyRule (.expandTree leaf)
    let d := (empty {}).attemptAll [root, x, y, z]
    ∃ d', d.effect z = .ok (.opens leaf) ∧ Effect.opens leaf ≠ .stays ∧ d.apply z = .ok d' ∧
      d'.Closing (d.pointerAfter (.opens leaf)) 4 [2, 1, 0] ∧
      d'.encoding = d.encoding ∧ d'.steps = d.linked z 0 ∧
      d.head? = some ⟨2, 1⟩ ∧ d'.head? = some ⟨0, 0⟩ ∧
      d'.nextField? 4 = some 0 ∧ d'.nextField? 2 = some 2 ∧ d'.nextField? 1 = some 1 := by
  intro root x y leaf z d
  have heffect : d.effect z = .ok (.opens leaf) := by decide
  have hstays : Effect.opens leaf ≠ .stays := by decide
  obtain ⟨d', ha, ⟨top, above, hclosing⟩, hencoding, hsteps⟩ :=
    closing_of_effect {} [root, x, y, z] heffect hstays
  obtain rfl : 4 = top := Option.some.inj hclosing.head
  obtain rfl : d.extend z (.opens leaf) = d' :=
    Except.ok.inj ((apply_of_effect heffect).symm.trans ha)
  have habove : (d.extend z (.opens leaf)).Ancestors 4 [2, 1, 0] :=
    .above 4 ⟨2, 1⟩ _ (by decide) (.above 2 ⟨1, 0⟩ _ (by decide)
      (.above 1 ⟨0, 0⟩ _ (by decide) (.root 0 (by decide))))
  obtain rfl := hclosing.ancestors.unique habove
  exact ⟨_, heffect, hstays, ha, hclosing, hencoding, hsteps, by decide, by decide, by decide,
    by decide, by decide⟩

end Derivation

end TreeDerivation
