import TreeDerivation.Derivation.Rebuild
import TreeDerivation.Proofs.Derivation.Layout

/-!
# The links of a derivation

The steps of a derivation are linked both ways: each step knows the slot that it stands in, and each
slot of a step knows the steps in it. `linksAt` reads a slot, `parent?` and `action?` read a step,
and for each of the three there is one lemma that says what an action changes: it adds one step, and
puts its number at the end of the slot at the head.

That number is only put there if the slot exists. `SpineStands` says that it does: every open node
of the spine is a node that its step opened, it stands in the open field of the node above it, and
nothing stands behind its open field. Every derivation that comes from nothing has this
(`Grown.spineStands`).
-/

namespace TreeDerivation

/-! ## Closing filled nodes, one after the other -/

/-- What holds of the open nodes while a filled node gives its place to the one above it, and when
the root gives its place to nothing, holds after all filled nodes were closed. -/
theorem settle_induction {motive : List OpenNode → Prop} (retain : Bool)
    (hclose : ∀ top up rest, top.isFilled = true → motive (top :: up :: rest) →
      motive (up.receive retain :: rest))
    (hroot : ∀ top, top.isFilled = true → motive [top] → motive [])
    {top : OpenNode} {rest : List OpenNode} (h : motive (top :: rest)) :
    motive (settle retain top rest) := by
  induction rest generalizing top with
  | nil =>
    unfold settle
    split
    · exact hroot top ‹_› h
    · exact h
  | cons up rest ih =>
    unfold settle
    split
    · exact ih (hclose top up rest ‹_› h)
    · exact h

namespace OpenNode

@[simp] theorem index_receive (retain : Bool) (n : OpenNode) :
    (n.receive retain).index = n.index := by
  unfold receive
  split <;> rfl

@[simp] theorem rule_receive (retain : Bool) (n : OpenNode) :
    (n.receive retain).rule = n.rule := by
  unfold receive
  split <;> rfl

theorem field_receive (retain : Bool) (n : OpenNode) :
    (n.receive retain).field = n.field ∨ (n.receive retain).field = n.field + 1 := by
  unfold receive
  split
  · exact .inl rfl
  · exact .inr rfl

theorem field_le_field_receive (retain : Bool) (n : OpenNode) :
    n.field ≤ (n.receive retain).field := by
  rcases n.field_receive retain with h | h <;> omega

theorem isFilled_eq_false_iff (n : OpenNode) : n.isFilled = false ↔ n.field < n.rule.arity := by
  simp [isFilled]

end OpenNode

/-- The nodes that stay open were open before. -/
theorem forall_index_settle {P : Nat → Prop} (retain : Bool) {top : OpenNode}
    {rest : List OpenNode} (h : ∀ n ∈ top :: rest, P n.index) :
    ∀ n ∈ settle retain top rest, P n.index := by
  refine settle_induction (motive := fun spine => ∀ n ∈ spine, P n.index) retain ?_
    (fun _ _ _ => by simp) h
  intro top up rest _ hall n hn
  rcases List.mem_cons.mp hn with rfl | hn
  · rw [OpenNode.index_receive]
    exact hall up (by simp)
  · exact hall n (by simp [hn])

namespace Derivation

/-! ## Reading the links -/

/-- The numbers of the steps in a slot, in order. -/
def linksAt (d : Derivation) (slot : Slot) : List Nat :=
  (((d.slots? slot.action).bind fun slots => slots[slot.field]?).getD #[]).toList

theorem expansion?_eq_some_iff {d : Derivation} {i : Nat} {r : Expansion} :
    d.expansion? i = some r ↔ d.action? i = some (.applyRule (.expandTree r)) := by
  rw [expansion?, action?]
  rcases d.steps[i]? with _ | ⟨_ | _, parent, slots⟩
  · simp
  · rename_i r'
    cases r' <;> simp [Step.expansion?]
  · simp [Step.expansion?]

theorem getElem?_actions (d : Derivation) (i : Nat) : d.actions[i]? = d.action? i := by
  rw [actions, List.getElem?_map, Array.getElem?_toList, action?]

theorem lt_size_of_action? {d : Derivation} {i : Nat} {a : Action} (h : d.action? i = some a) :
    i < d.size := by
  obtain ⟨s, hs, -⟩ := Option.map_eq_some_iff.mp h
  exact (Array.getElem?_eq_some_iff.mp hs).1

theorem exists_step {d : Derivation} {i : Nat} (h : i < d.size) : ∃ s, d.steps[i]? = some s :=
  ⟨_, Array.getElem?_eq_getElem h⟩

theorem lt_size_of_parent? {d : Derivation} {i : Nat} {slot : Slot}
    (h : d.parent? i = some slot) : i < d.size := by
  obtain ⟨s, hs, -⟩ := Option.bind_eq_some_iff.mp h
  exact (Array.getElem?_eq_some_iff.mp hs).1

/-! ## What one action changes -/

/-- The slot at the head exists. -/
def HeadInBounds (d : Derivation) : Prop :=
  ∀ slot, d.head? = some slot → ∃ slots, d.slots? slot.action = some slots ∧
    slot.field < slots.size

theorem HeadInBounds.lt_size {d : Derivation} (h : d.HeadInBounds) {slot : Slot}
    (hhead : d.head? = some slot) : slot.action < d.size := by
  obtain ⟨slots, hslots, -⟩ := h slot hhead
  obtain ⟨s, hs, -⟩ := Option.map_eq_some_iff.mp hslots
  exact (Array.getElem?_eq_some_iff.mp hs).1

theorem getElem?_linkInto (steps : Array Step) (slot : Slot) (n i : Nat) :
    (linkInto steps slot n)[i]? = steps[i]?.map fun s =>
      if slot.action = i then { s with slots := s.slots.modify slot.field (·.push n) } else s := by
  rw [linkInto, Array.getElem?_modify]
  split
  · rfl
  · simp

theorem getElem?_steps_extend_of_lt {d : Derivation} {i : Nat} (hi : i < d.size) (a : Action)
    (f : Effect) :
    (d.extend a f).steps[i]? = d.steps[i]?.map fun s =>
      match d.head? with
      | some slot =>
        if slot.action = i then { s with slots := s.slots.modify slot.field (·.push d.size) } else s
      | none => s := by
  have hlt : i < d.steps.size := hi
  simp only [extend, linked]
  cases d.head? with
  | none => simp [Array.getElem?_push, Nat.ne_of_lt hlt]
  | some slot =>
    have hsize : (linkInto d.steps slot d.size).size = d.steps.size := by simp [linkInto]
    simp only
    rw [Array.getElem?_push, if_neg (by omega), getElem?_linkInto]

theorem getElem?_steps_extend_size (d : Derivation) (a : Action) (f : Effect) :
    (d.extend a f).steps[d.size]? = some ⟨a, d.head?, Array.replicate f.arity #[]⟩ := by
  simp only [extend, linked]
  cases d.head? with
  | none => simp [size]
  | some slot =>
    have hsize : (linkInto d.steps slot d.size).size = d.size := by simp [linkInto, size]
    simp only
    rw [Array.getElem?_push, if_pos hsize.symm]

@[simp] theorem size_extend (d : Derivation) (a : Action) (f : Effect) :
    (d.extend a f).size = d.size + 1 := by
  simp only [size, extend, linked]
  cases d.head? <;> simp [linkInto]

theorem getElem?_steps_eq_none {d : Derivation} {i : Nat} (h : d.size ≤ i) :
    d.steps[i]? = none :=
  Array.getElem?_eq_none h

theorem action?_extend (d : Derivation) (a : Action) (f : Effect) (i : Nat) :
    (d.extend a f).action? i = if i = d.size then some a else d.action? i := by
  rcases Nat.lt_trichotomy i d.size with hlt | rfl | hgt
  · rw [if_neg (Nat.ne_of_lt hlt), action?, getElem?_steps_extend_of_lt hlt, action?,
      Option.map_map]
    congr 1
    funext s
    cases d.head? with
    | none => rfl
    | some slot =>
      simp only [Function.comp_apply]
      split <;> rfl
  · rw [if_pos rfl, action?, getElem?_steps_extend_size]
    rfl
  · rw [if_neg (Nat.ne_of_gt hgt), action?, getElem?_steps_eq_none (by rw [size_extend]; omega),
      action?, getElem?_steps_eq_none (Nat.le_of_lt hgt)]

theorem action?_extend_of_some {d : Derivation} {i : Nat} {b : Action} (a : Action) (f : Effect)
    (h : d.action? i = some b) : (d.extend a f).action? i = some b := by
  rw [action?_extend, if_neg (Nat.ne_of_lt (lt_size_of_action? h)), h]

theorem parent?_extend (d : Derivation) (a : Action) (f : Effect) (i : Nat) :
    (d.extend a f).parent? i = if i = d.size then d.head? else d.parent? i := by
  rcases Nat.lt_trichotomy i d.size with hlt | rfl | hgt
  · rw [if_neg (Nat.ne_of_lt hlt), parent?, getElem?_steps_extend_of_lt hlt, parent?]
    cases d.steps[i]? with
    | none => rfl
    | some s =>
      cases d.head? with
      | none => rfl
      | some slot =>
        simp only [Option.map_some, Option.bind_some]
        split <;> rfl
  · rw [if_pos rfl, parent?, getElem?_steps_extend_size]
    rfl
  · rw [if_neg (Nat.ne_of_gt hgt), parent?, getElem?_steps_eq_none (by rw [size_extend]; omega),
      parent?, getElem?_steps_eq_none (Nat.le_of_lt hgt)]

theorem slots?_extend_of_lt {d : Derivation} {i : Nat} (hi : i < d.size) (a : Action)
    (f : Effect) :
    (d.extend a f).slots? i = (d.slots? i).map fun slots =>
      match d.head? with
      | some slot => if slot.action = i then slots.modify slot.field (·.push d.size) else slots
      | none => slots := by
  rw [slots?, getElem?_steps_extend_of_lt hi, slots?, Option.map_map, Option.map_map]
  congr 1
  funext s
  cases d.head? with
  | none => rfl
  | some slot =>
    simp only [Function.comp_apply]
    split <;> rfl

theorem slots?_extend_size (d : Derivation) (a : Action) (f : Effect) :
    (d.extend a f).slots? d.size = some (Array.replicate f.arity #[]) := by
  rw [slots?, getElem?_steps_extend_size]
  rfl

theorem linksAt_eq_nil {d : Derivation} {slot : Slot} (h : d.size ≤ slot.action) :
    d.linksAt slot = [] := by
  have hnone : d.slots? slot.action = none := by simp [slots?, getElem?_steps_eq_none h]
  simp [linksAt, hnone]

/-- An action puts the number of its step at the end of the slot at the head. -/
theorem linksAt_extend {d : Derivation} (hd : d.HeadInBounds) (a : Action) (f : Effect)
    (slot : Slot) : (d.extend a f).linksAt slot =
      d.linksAt slot ++ if d.head? = some slot then [d.size] else [] := by
  rcases Nat.lt_trichotomy slot.action d.size with hlt | heq | hgt
  · rw [linksAt, slots?_extend_of_lt hlt, linksAt]
    cases hhead : d.head? with
    | none => simp
    | some head =>
      by_cases heq : head = slot
      · subst heq
        obtain ⟨slots, hslots, hin⟩ := hd head hhead
        simp [hslots, hin, Array.getElem_modify]
      · rw [if_neg (by simpa using heq), List.append_nil]
        cases d.slots? slot.action with
        | none => rfl
        | some slots =>
          simp only [Option.map_some, Option.bind_some]
          split
          · rename_i haction
            have hfield : head.field ≠ slot.field := by
              intro hfield
              exact heq (by cases head; cases slot; simp_all)
            rw [Array.getElem?_modify, if_neg hfield]
          · rfl
  · rw [linksAt, heq, slots?_extend_size, linksAt_eq_nil (Nat.le_of_eq heq.symm), if_neg]
    · simp only [Option.bind_some, Array.getElem?_replicate]
      split <;> rfl
    · intro hhead
      exact absurd (hd.lt_size hhead) (by omega)
  · rw [linksAt_eq_nil (by rw [size_extend]; omega), linksAt_eq_nil (Nat.le_of_lt hgt), if_neg]
    · rfl
    · intro hhead
      exact absurd (hd.lt_size hhead) (by omega)

theorem linksAt_extend_of_ne {d : Derivation} (hd : d.HeadInBounds) {slot : Slot}
    (h : d.head? ≠ some slot) (a : Action) (f : Effect) :
    (d.extend a f).linksAt slot = d.linksAt slot := by
  rw [linksAt_extend hd, if_neg h, List.append_nil]

/-! ## What an action was accepted for -/

/-- The actions that fill a field of type `t` without opening a node. -/
inductive Ends (e : Encoding) (t : NodeType) : Action → Prop where
  | list : takesMany e t → Ends e t (.applyRule .closeVariadic)
  | text : t.constraint = .token → e.splitLeaves = true → Ends e t (.generateToken .closeNode)
  | token (k : Token) : t.constraint = .token → e.splitLeaves = false →
    Ends e t (.generateToken k)

/-- All that an accepted action can do: it opens the root, or it meets the open field of the
innermost open node, where it opens a node, fills the field or adds a piece to a text. -/
inductive Moves (d : Derivation) : Action → Derivation → Prop where
  | root (r : Expansion) : d.spine = [] → d.size = 0 →
    Moves d (.applyRule (.expandTree r)) (d.extend (.applyRule (.expandTree r)) (.opens r))
  | opens (top : OpenNode) (rest : List OpenNode) (t : NodeType) (r : Expansion) :
    d.spine = top :: rest → top.fieldType? = some t →
    takesOne d.encoding t ∨ takesMany d.encoding t →
    Moves d (.applyRule (.expandTree r)) (d.extend (.applyRule (.expandTree r)) (.opens r))
  | fills (top : OpenNode) (rest : List OpenNode) (t : NodeType) (a : Action) :
    d.spine = top :: rest → top.fieldType? = some t → Ends d.encoding t a →
    Moves d a (d.extend a .fills)
  | stays (top : OpenNode) (rest : List OpenNode) (t : NodeType) (s : String) :
    d.spine = top :: rest → top.fieldType? = some t → t.constraint = .token →
    d.encoding.splitLeaves = true →
    Moves d (.generateToken (.value s)) (d.extend (.generateToken (.value s)) .stays)

theorem moves_of_apply {d d' : Derivation} {a : Action} (hd : d.HeadOpen)
    (h : d.apply a = .ok d') : d.Moves a d' := by
  obtain ⟨f, hf, rfl⟩ := apply_eq_ok_iff.mp h
  have hopen : d.isComplete = false := by
    cases hc : d.isComplete with
    | false => rfl
    | true => exact absurd hf (by simp [effect_of_isComplete hc])
  cases hs : d.spine with
  | nil =>
    have hempty : d.isEmpty = true := by simpa [isComplete, hs] using hopen
    obtain ⟨r, rfl, -⟩ := exists_of_apply_of_isEmpty hempty hs h
    obtain rfl : f = .opens r := by
      simpa [effect, hopen, headType?, hs, effectAt] using hf.symm
    exact .root r hs (by simpa [isEmpty, size] using hempty)
  | cons top rest =>
    obtain ⟨t, ht, -, -, -⟩ := hd.exists_top hs
    rw [effect_eq_effectAt hs ht] at hf
    rcases effectAt_eq_ok hf with ⟨r, rfl, rfl, htakes⟩ | ⟨rfl, rfl, hmany⟩ | ⟨k, rfl, htok, rfl⟩
    · exact .opens top rest t r hs ht htakes
    · exact .fills top rest t _ hs ht (.list hmany)
    · cases hsplit : d.encoding.splitLeaves with
      | false => simpa [hsplit] using Moves.fills top rest t _ hs ht (.token k htok hsplit)
      | true =>
        cases k with
        | closeNode => simpa [Token.isClose] using Moves.fills top rest t _ hs ht (.text htok hsplit)
        | value s =>
          simpa [Token.isClose, hsplit] using Moves.stays top rest t s hs ht htok hsplit

/-! ## The spine stands in the steps -/

/-- Whether open nodes stand one in the open field of the next, up to the root. -/
def IsPath (d : Derivation) : List OpenNode → Prop
  | [] => True
  | [n] => n.index = 0
  | n :: up :: rest =>
    (d.parent? n.index = some up.slot ∧ up.index < n.index) ∧ d.IsPath (up :: rest)

/-- Whether open nodes, of which the innermost may be filled, stand in the steps of a derivation. -/
structure Stands (d : Derivation) (spine : List OpenNode) : Prop where
  path : d.IsPath spine
  expansion_eq : ∀ n ∈ spine, d.expansion? n.index = some n.rule
  /-- Nothing stands behind the open field of a node. -/
  links_behind : ∀ n ∈ spine, ∀ k, n.field < k → d.linksAt ⟨n.index, k⟩ = []
  tail_open : ∀ n ∈ spine.tail, n.isFilled = false

theorem IsPath.tail {d : Derivation} {n : OpenNode} {rest : List OpenNode}
    (h : d.IsPath (n :: rest)) : d.IsPath rest := by
  cases rest with
  | nil => trivial
  | cons up rest => exact h.2

/-- The numbers of open nodes decrease on the way to the root. -/
theorem IsPath.index_lt {d : Derivation} {n m : OpenNode} {rest : List OpenNode}
    (h : d.IsPath (n :: rest)) (hm : m ∈ rest) : m.index < n.index := by
  induction rest generalizing n with
  | nil => exact absurd hm List.not_mem_nil
  | cons up rest ih =>
    obtain ⟨⟨-, hlt⟩, hrest⟩ := h
    rcases List.mem_cons.mp hm with rfl | hm
    · exact hlt
    · exact Nat.lt_trans (ih hrest hm) hlt

/-- A path does not look at the open field of its innermost node. -/
theorem IsPath.of_index_eq {d : Derivation} {n m : OpenNode} {rest : List OpenNode}
    (h : d.IsPath (n :: rest)) (hindex : m.index = n.index) : d.IsPath (m :: rest) := by
  cases rest with
  | nil => exact hindex.trans h
  | cons up rest => exact ⟨hindex ▸ h.1, h.2⟩

namespace Stands

variable {d : Derivation}

theorem nil (d : Derivation) : d.Stands [] :=
  ⟨trivial, by simp, by simp, by simp⟩

/-- The innermost node may have moved on to a later field. -/
theorem of_le {n m : OpenNode} {rest : List OpenNode} (h : d.Stands (n :: rest))
    (hindex : m.index = n.index) (hrule : m.rule = n.rule) (hfield : n.field ≤ m.field) :
    d.Stands (m :: rest) := by
  refine ⟨h.path.of_index_eq hindex, ?_, ?_, h.tail_open⟩
  · intro k hk
    rcases List.mem_cons.mp hk with rfl | hk
    · rw [hindex, hrule]
      exact h.expansion_eq n List.mem_cons_self
    · exact h.expansion_eq k (List.mem_cons_of_mem n hk)
  · intro k hk j hj
    rcases List.mem_cons.mp hk with rfl | hk
    · rw [hindex]
      exact h.links_behind n List.mem_cons_self j (Nat.lt_of_le_of_lt hfield hj)
    · exact h.links_behind k (List.mem_cons_of_mem n hk) j hj

theorem tail {n : OpenNode} {rest : List OpenNode} (h : d.Stands (n :: rest)) :
    d.Stands rest :=
  ⟨h.path.tail, fun m hm => h.expansion_eq m (List.mem_cons_of_mem n hm),
    fun m hm => h.links_behind m (List.mem_cons_of_mem n hm),
    fun m hm => h.tail_open m (List.mem_of_mem_tail hm)⟩

/-- Closing filled nodes leaves what stays open standing. -/
theorem settle {top : OpenNode} {rest : List OpenNode} (h : d.Stands (top :: rest))
    (retain : Bool) : d.Stands (settle retain top rest) := by
  refine settle_induction retain ?_ (fun _ _ _ => .nil d) h
  intro top up rest _ h
  exact h.tail.of_le (up.index_receive retain) (up.rule_receive retain)
    (up.field_le_field_receive retain)

end Stands

/-- The spine stands in the steps, and each of its nodes has an open field; each step has a slot for
every field of the node that it opens. -/
structure SpineStands (d : Derivation) : Prop where
  stands : d.Stands d.spine
  isOpen : ∀ n ∈ d.spine, n.isFilled = false
  size_slots : ∀ i slots, d.slots? i = some slots →
    slots.size = ((d.expansion? i).map Expansion.arity).getD 0

theorem expansion?_extend_of_ne {d : Derivation} {i : Nat} (hi : i ≠ d.size) (a : Action)
    (f : Effect) : (d.extend a f).expansion? i = d.expansion? i := by
  apply Option.ext
  intro r
  rw [expansion?_eq_some_iff, expansion?_eq_some_iff, action?_extend, if_neg hi]

theorem expansion?_extend_of_lt {d : Derivation} {i : Nat} (hi : i < d.size) (a : Action)
    (f : Effect) : (d.extend a f).expansion? i = d.expansion? i :=
  expansion?_extend_of_ne (Nat.ne_of_lt hi) a f

namespace SpineStands

variable {d d' : Derivation} {a : Action}

theorem headOpen (h : d.SpineStands) : d.HeadOpen :=
  fun n hn => h.isOpen n (List.mem_of_mem_head? hn)

theorem index_lt_size (h : d.SpineStands) {n : OpenNode} (hn : n ∈ d.spine) :
    n.index < d.size :=
  lt_size_of_action? (expansion?_eq_some_iff.mp (h.stands.expansion_eq n hn))

theorem headInBounds (h : d.SpineStands) : d.HeadInBounds := by
  intro slot hslot
  obtain ⟨top, htop, rfl⟩ := Option.map_eq_some_iff.mp hslot
  have hmem : top ∈ d.spine := List.mem_of_mem_head? htop
  obtain ⟨s, hs⟩ := exists_step (h.index_lt_size hmem)
  have hslots : d.slots? top.index = some s.slots := by
    rw [slots?, hs]
    rfl
  refine ⟨s.slots, hslots, ?_⟩
  rw [h.size_slots _ _ hslots, h.stands.expansion_eq top hmem]
  exact (top.isFilled_eq_false_iff).mp (h.isOpen top hmem)

/-- The slot at the head is that of the innermost node, and no other has its number. -/
theorem head?_ne_of_mem (h : d.SpineStands) {n : OpenNode} (hn : n ∈ d.spine) {k : Nat}
    (hk : k ≠ n.field) : d.head? ≠ some ⟨n.index, k⟩ := by
  intro hhead
  obtain ⟨top, htop, hslot⟩ := Option.map_eq_some_iff.mp hhead
  obtain ⟨rest, hspine⟩ := List.head?_eq_some_iff.mp htop
  obtain ⟨hindex, hfield⟩ := Slot.mk.inj hslot
  rw [hspine] at hn
  rcases List.mem_cons.mp hn with rfl | hn
  · exact hk hfield.symm
  · have hpath := h.stands.path
    rw [hspine] at hpath
    exact absurd (hpath.index_lt hn) (by omega)

/-- What stands in the steps stands there after one more action. -/
theorem stands_extend (h : d.SpineStands) (a : Action) (f : Effect) :
    (d.extend a f).Stands d.spine := by
  have hpath : ∀ spine, d.IsPath spine → (∀ n ∈ spine, n.index < d.size) →
      (d.extend a f).IsPath spine := by
    intro spine
    induction spine with
    | nil => exact fun _ _ => trivial
    | cons n rest ih =>
      intro hspine hlt
      cases rest with
      | nil => exact hspine
      | cons up rest =>
        have hn := hlt n List.mem_cons_self
        refine ⟨⟨?_, hspine.1.2⟩, ih hspine.2 fun m hm => hlt m (List.mem_cons_of_mem n hm)⟩
        rw [parent?_extend, if_neg (Nat.ne_of_lt hn), hspine.1.1]
  refine ⟨hpath _ h.stands.path fun n hn => h.index_lt_size hn, ?_, ?_, h.stands.tail_open⟩
  · intro n hn
    rw [expansion?_extend_of_lt (h.index_lt_size hn), h.stands.expansion_eq n hn]
  · intro n hn k hk
    rw [linksAt_extend_of_ne h.headInBounds (h.head?_ne_of_mem hn (Nat.ne_of_gt hk)),
      h.stands.links_behind n hn k hk]

/-- A new node stands in the slot at the head. -/
theorem stands_extend_opens (h : d.SpineStands) (hroot : d.spine = [] → d.size = 0)
    (r : Expansion) :
    (d.extend (.applyRule (.expandTree r)) (.opens r)).Stands (⟨d.size, r, 0⟩ :: d.spine) := by
  have hold := h.stands_extend (.applyRule (.expandTree r)) (.opens r)
  refine ⟨?_, ?_, ?_, h.isOpen⟩
  · cases hs : d.spine with
    | nil => exact hroot hs
    | cons top rest =>
      rw [hs] at hold
      refine ⟨⟨?_, h.index_lt_size (by rw [hs]; exact List.mem_cons_self)⟩, hold.path⟩
      rw [parent?_extend, if_pos rfl, head?, hs]
      rfl
  · intro n hn
    rcases List.mem_cons.mp hn with rfl | hn
    · rw [expansion?_eq_some_iff, action?_extend, if_pos rfl]
    · exact hold.expansion_eq n hn
  · intro n hn k hk
    rcases List.mem_cons.mp hn with rfl | hn
    · rw [linksAt_extend h.headInBounds, linksAt_eq_nil (Nat.le_refl _), if_neg]
      · rfl
      · intro hhead
        exact absurd (h.headInBounds.lt_size hhead) (Nat.lt_irrefl _)
    · exact hold.links_behind n hn k hk

/-- The slots of each step are those that its action opens. -/
theorem size_slots_extend (h : d.SpineStands) {f : Effect}
    (hf : f.arity = (((d.extend a f).expansion? d.size).map Expansion.arity).getD 0) {i : Nat}
    {slots : Array (Array Nat)} (hslots : (d.extend a f).slots? i = some slots) :
    slots.size = (((d.extend a f).expansion? i).map Expansion.arity).getD 0 := by
  rcases Nat.lt_trichotomy i d.size with hlt | rfl | hgt
  · rw [slots?_extend_of_lt hlt] at hslots
    obtain ⟨old, hold, rfl⟩ := Option.map_eq_some_iff.mp hslots
    rw [expansion?_extend_of_lt hlt, ← h.size_slots i old hold]
    cases d.head? with
    | none => rfl
    | some slot =>
      dsimp only
      split
      · exact Array.size_modify
      · rfl
  · rw [slots?_extend_size] at hslots
    rw [← Option.some.inj hslots, Array.size_replicate, hf]
  · have hnone : (d.extend a f).slots? i = none := by
      rw [slots?, getElem?_steps_eq_none (by rw [size_extend]; omega)]
      rfl
    rw [hnone] at hslots
    exact nomatch hslots

/-- A new step opens the node that its action says. -/
theorem expansion?_extend_size (d : Derivation) (a : Action) (f : Effect) :
    (d.extend a f).expansion? d.size = (Step.mk a none #[]).expansion? := by
  rw [expansion?, getElem?_steps_extend_size]
  rfl

/-- What fills the open field of the innermost node leaves the spine standing. -/
theorem stands_extend_advance (h : d.SpineStands) {top : OpenNode} {rest : List OpenNode}
    (hs : d.spine = top :: rest) (a : Action) :
    (d.extend a .fills).Stands (top.advance :: rest) := by
  have hold := h.stands_extend a .fills
  rw [hs] at hold
  exact hold.of_le rfl rfl (Nat.le_succ top.field)

theorem spine_extend_fills {top : OpenNode} {rest : List OpenNode} (hs : d.spine = top :: rest)
    (a : Action) :
    (d.extend a .fills).spine = settle d.encoding.retainVariadic top.advance rest := by
  simp only [extend, moved, hs]

/-- The spine after an action stands in the steps, and an action opens as many slots as its rule has
fields. -/
theorem stands_of_apply (h : d.SpineStands) (ha : d.apply a = .ok d') :
    ∃ f, d' = d.extend a f ∧ d'.Stands d'.spine ∧
      f.arity = ((Step.mk a none #[]).expansion?.map Expansion.arity).getD 0 := by
  cases moves_of_apply h.headOpen ha with
  | root r hs hsize =>
    exact ⟨.opens r, rfl, (h.stands_extend_opens (fun _ => hsize) r).settle _, rfl⟩
  | opens top rest t r hs ht _ =>
    have hnew := h.stands_extend_opens (fun hnil => absurd hnil (by simp [hs])) r
    exact ⟨.opens r, rfl, hnew.settle _, rfl⟩
  | fills top rest t a hs ht hends =>
    refine ⟨.fills, rfl, ?_, ?_⟩
    · rw [spine_extend_fills hs]
      exact (h.stands_extend_advance hs a).settle _
    · cases hends <;> rfl
  | stays top rest t s hs ht _ _ => exact ⟨.stays, rfl, h.stands_extend _ .stays, rfl⟩

/-- An accepted action keeps the spine standing in the steps. -/
theorem apply (h : d.SpineStands) (ha : d.apply a = .ok d') : d'.SpineStands := by
  obtain ⟨f, rfl, hstands, harity⟩ := h.stands_of_apply ha
  have hheadOpen : (d.extend a f).HeadOpen := headOpen_extend h.headOpen a f
  refine ⟨hstands, ?_, fun i slots hslots => h.size_slots_extend ?_ hslots⟩
  · intro n hn
    cases hs : (d.extend a f).spine with
    | nil => exact absurd hn (by simp [hs])
    | cons top rest =>
      rw [hs] at hn
      rcases List.mem_cons.mp hn with rfl | hn
      · exact hheadOpen n (by rw [hs, List.head?_cons, Option.mem_some])
      · exact hstands.tail_open n (by rw [hs]; exact hn)
  · rw [harity, expansion?_extend_size]

end SpineStands

theorem spineStands_empty (e : Encoding) : (empty e).SpineStands :=
  ⟨.nil _, by simp [empty], by simp [empty, slots?]⟩

/-- The spine of a derivation that comes from nothing stands in its steps. -/
theorem Grown.spineStands {e : Encoding} {admits : Option NodeType → Action → Prop}
    {d : Derivation} (h : Grown e admits d) : d.SpineStands := by
  induction h with
  | empty => exact spineStands_empty e
  | apply a _ _ ha ih => exact ih.apply ha

end Derivation

end TreeDerivation
