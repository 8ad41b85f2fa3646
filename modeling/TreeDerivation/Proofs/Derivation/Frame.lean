import TreeDerivation.Proofs.Derivation.Discipline

/-!
# What an action leaves alone

An accepted action adds a step and leaves the older ones as they are, but for one slot: the slot at
the head gets the number of the new step behind what it held. It may close a whole chain of nodes,
and each of them, and the node that stays open above them, has its next field moved on by one, not
more (`Frame`).

So what lies behind the next field of a node is done with. Whatever actions follow, the slots before
the next field of a node and all slots of a closed node keep what they hold, and each node comes to
all of its fields, one after the other (`frozen_attemptAll`).

That no node moves on twice is an invariant of the closing of filled nodes (`Progress`): while it
goes on, the nodes above the innermost one have not moved yet.
-/

namespace TreeDerivation

namespace Derivation

/-! ## Next fields while filled nodes are closed -/

/-- A filled node has the same next field whether or not it counts as open: it is past its last. -/
theorem nextIn_of_isFilled {d : Derivation} {n : OpenNode} {rest : List OpenNode}
    (h : d.Stands (n :: rest)) (hn : n.isFilled = true) (hle : n.field ≤ n.rule.arity) (i : Nat) :
    d.nextIn rest i = d.nextIn (n :: rest) i := by
  rw [nextIn_cons]
  split
  next hi =>
    subst hi
    have hne : ∀ m ∈ rest, m.index ≠ n.index := fun m hm => Nat.ne_of_lt (h.path.index_lt hm)
    have hfield : n.field = n.rule.arity := Nat.le_antisymm hle (of_decide_eq_true hn)
    rw [nextIn_of_forall_ne hne, h.expansion_eq n List.mem_cons_self, hfield]
    rfl
  next => rfl

/-- The open nodes `spine` have moved on from the next fields `before` by one at most, and those
above the innermost one have not moved yet. -/
structure Progress (d : Derivation) (before : Nat → Option Nat) (spine : List OpenNode) :
    Prop where
  stands : d.Stands spine
  field_le : ∀ n ∈ spine, n.field ≤ n.rule.arity
  next : ∀ i f, before i = some f → d.nextIn spine i = some f ∨ d.nextIn spine i = some (f + 1)
  above : ∀ n ∈ spine.tail, before n.index = some n.field

namespace Progress

variable {d : Derivation} {before : Nat → Option Nat}

/-- A filled node gives its place to the node above it, which has not moved yet. -/
theorem close {n up : OpenNode} {rest : List OpenNode} (h : d.Progress before (n :: up :: rest))
    (hn : n.isFilled = true) (retain : Bool) :
    d.Progress before (up.receive retain :: rest) where
  stands := h.stands.tail.of_le (up.index_receive retain) (up.rule_receive retain)
    (up.field_le_field_receive retain)
  field_le m hm := by
    rcases List.mem_cons.mp hm with rfl | hm
    · have hopen := up.isFilled_eq_false_iff.mp (h.stands.tail_open up List.mem_cons_self)
      rw [OpenNode.rule_receive]
      rcases up.field_receive retain with heq | heq <;> omega
    · exact h.field_le m (by simp [hm])
  next i f hf := by
    have hold := h.next i f hf
    rw [← nextIn_of_isFilled h.stands hn (h.field_le n List.mem_cons_self), nextIn_cons] at hold
    rw [nextIn_cons, OpenNode.index_receive]
    by_cases hi : up.index = i
    · have hup : before up.index = some up.field := h.above up List.mem_cons_self
      obtain rfl : up.field = f := Option.some.inj (hup.symm.trans (hi ▸ hf))
      rw [if_pos hi, Option.some.injEq, Option.some.injEq]
      exact up.field_receive retain
    · rw [if_neg hi] at hold ⊢
      exact hold
  above m hm := h.above m (List.mem_cons_of_mem up hm)

/-- Closing filled nodes moves each node on by one at most. -/
theorem settle {top : OpenNode} {rest : List OpenNode} (h : d.Progress before (top :: rest))
    (retain : Bool) : d.Progress before (settle retain top rest) := by
  refine settle_induction retain (fun n up rest hn h => h.close hn retain) ?_ h
  intro n hn h
  refine ⟨.nil d, by simp, fun i f hf => ?_, by simp⟩
  rw [nextIn_of_isFilled h.stands hn (h.field_le n List.mem_cons_self)]
  exact h.next i f hf

end Progress

/-! ## Next fields after an action -/

theorem nextIn_extend {d : Derivation} {i : Nat} (hi : i ≠ d.size) (spine : List OpenNode)
    (a : Action) (f : Effect) : (d.extend a f).nextIn spine i = d.nextIn spine i := by
  rw [nextIn, nextIn, expansion?_extend_of_ne hi]

namespace SpineStands

variable {d d' : Derivation} {a : Action}

/-- Every node that was opened has a next field, and it is past its last field at most. -/
theorem exists_nextField? (h : d.SpineStands) {i : Nat} {r : Expansion}
    (hr : d.expansion? i = some r) : ∃ f, d.nextField? i = some f ∧ f ≤ r.arity := by
  by_cases hi : ∃ n ∈ d.spine, n.index = i
  · obtain ⟨n, hn, rfl⟩ := hi
    obtain rfl := Option.some.inj (hr.symm.trans (h.stands.expansion_eq n hn))
    have hopen := n.isFilled_eq_false_iff.mp (h.isOpen n hn)
    exact ⟨n.field, nextField?_of_mem h.stands.path hn, Nat.le_of_lt hopen⟩
  · refine ⟨r.arity, ?_, Nat.le_refl _⟩
    rw [nextField?_of_forall_ne fun n hn hindex => hi ⟨n, hn, hindex⟩, hr]
    rfl

/-- No other step has a next field. -/
theorem exists_expansion_of_nextField? (h : d.SpineStands) {i f : Nat}
    (hf : d.nextField? i = some f) : ∃ r, d.expansion? i = some r := by
  by_cases hi : ∃ n ∈ d.spine, n.index = i
  · obtain ⟨n, hn, rfl⟩ := hi
    exact ⟨n.rule, h.stands.expansion_eq n hn⟩
  · rw [nextField?_of_forall_ne fun n hn hindex => hi ⟨n, hn, hindex⟩] at hf
    obtain ⟨r, hr, -⟩ := Option.map_eq_some_iff.mp hf
    exact ⟨r, hr⟩

theorem ne_size_of_nextField? (h : d.SpineStands) {i f : Nat} (hf : d.nextField? i = some f) :
    i ≠ d.size := by
  obtain ⟨r, hr⟩ := h.exists_expansion_of_nextField? hf
  exact Nat.ne_of_lt (lt_size_of_action? (expansion?_eq_some_iff.mp hr))

/-- A new node moves none of the open ones. -/
theorem progress_opens (h : d.SpineStands) (hroot : d.spine = [] → d.size = 0) (r : Expansion) :
    (d.extend (.applyRule (.expandTree r)) (.opens r)).Progress d.nextField?
      (⟨d.size, r, 0⟩ :: d.spine) where
  stands := h.stands_extend_opens hroot r
  field_le n hn := by
    rcases List.mem_cons.mp hn with rfl | hn
    · exact Nat.zero_le _
    · exact Nat.le_of_lt (n.isFilled_eq_false_iff.mp (h.isOpen n hn))
  next i f hf := by
    have hi := h.ne_size_of_nextField? hf
    rw [nextIn_cons, if_neg (Ne.symm hi), nextIn_extend hi]
    exact .inl hf
  above n hn := nextField?_of_mem h.stands.path hn

/-- What fills the field at the head moves the innermost open node on by one. -/
theorem progress_fills (h : d.SpineStands) {top : OpenNode} {rest : List OpenNode}
    (hs : d.spine = top :: rest) (a : Action) :
    (d.extend a .fills).Progress d.nextField? (top.advance :: rest) where
  stands := h.stands_extend_advance hs a
  field_le n hn := by
    rcases List.mem_cons.mp hn with rfl | hn
    · exact top.isFilled_eq_false_iff.mp (h.isOpen top (by simp [hs]))
    · exact Nat.le_of_lt (n.isFilled_eq_false_iff.mp (h.isOpen n (by simp [hs, hn])))
  next i f hf := by
    have hi := h.ne_size_of_nextField? hf
    have hold : d.nextIn (top :: rest) i = some f := hs ▸ hf
    rw [nextIn_cons] at hold
    rw [nextIn_cons, nextIn_extend hi]
    by_cases htop : top.index = i
    · rw [if_pos htop] at hold
      obtain rfl := Option.some.inj hold
      exact .inr (if_pos htop)
    · rw [if_neg htop] at hold
      exact .inl ((if_neg htop).trans hold)
  above n hn := nextField?_of_mem h.stands.path (by rw [hs]; exact List.mem_cons_of_mem top hn)

/-- An accepted action moves each node on by one field at most. -/
theorem nextField?_of_apply (h : d.SpineStands) (ha : d.apply a = .ok d') {i f : Nat}
    (hf : d.nextField? i = some f) : d'.nextField? i = some f ∨ d'.nextField? i = some (f + 1) := by
  cases moves_of_apply h.headOpen ha with
  | root r _ hsize => exact ((h.progress_opens (fun _ => hsize) r).settle _).next i f hf
  | opens top rest t r hs =>
    exact ((h.progress_opens (fun hnil => absurd hnil (by simp [hs])) r).settle _).next i f hf
  | fills top rest t a hs =>
    rw [nextField?_eq_nextIn, spine_extend_fills hs]
    exact ((h.progress_fills hs a).settle _).next i f hf
  | stays top rest t s hs => exact .inl ((nextIn_extend (h.ne_size_of_nextField? hf) _ _ _).trans hf)

/-- A new node begins with its first field. -/
theorem nextField?_opens (h : d.SpineStands) (r : Expansion) :
    (d.extend (.applyRule (.expandTree r)) (.opens r)).nextField? d.size = some 0 := by
  let new : OpenNode := ⟨d.size, r, 0⟩
  have hr : (d.extend (.applyRule (.expandTree r)) (.opens r)).expansion? d.size = some r := by
    rw [expansion?_extend_size]
    rfl
  have hspine : (d.extend (.applyRule (.expandTree r)) (.opens r)).spine =
      settle d.encoding.retainVariadic new d.spine := rfl
  rw [nextField?_eq_nextIn, hspine]
  cases hnew : new.isFilled with
  | false => rw [settle_of_not_isFilled hnew, nextIn_cons, if_pos rfl]
  | true =>
    have harity : r.arity = 0 := Nat.le_zero.mp (of_decide_eq_true hnew)
    have hbelow : ∀ n ∈ settle d.encoding.retainVariadic new d.spine, n.index ≠ d.size := by
      cases hs : d.spine with
      | nil =>
        rw [settle, if_pos hnew]
        simp
      | cons top rest =>
        rw [settle_of_isFilled hnew]
        refine forall_index_settle (P := fun k => k ≠ d.size) _ ?_
        intro n hn
        obtain ⟨m, hm, hindex⟩ := exists_index_eq hn
        exact hindex ▸ Nat.ne_of_lt (h.index_lt_size (by rw [hs]; exact hm))
    rw [nextIn_of_forall_ne hbelow, hr, ← harity]
    rfl

theorem nextField?_new {r : Expansion} (h : d.SpineStands)
    (ha : d.apply (.applyRule (.expandTree r)) = .ok d') : d'.nextField? d.size = some 0 := by
  cases moves_of_apply h.headOpen ha with
  | root | opens => exact h.nextField?_opens r
  | fills _ _ _ _ _ _ hends => cases hends

end SpineStands

/-! ## The frame of an action -/

/-- What an accepted action leaves as it is, and what it changes. -/
structure Frame (d : Derivation) (a : Action) (d' : Derivation) : Prop where
  actions : d'.actions = d.actions ++ [a]
  parent : ∀ i, i < d.size → d'.parent? i = d.parent? i
  size_slots : ∀ i, i < d.size → (d'.slots? i).map Array.size = (d.slots? i).map Array.size
  /-- An older slot that is not at the head keeps what it holds. -/
  links : ∀ slot, slot.action < d.size → d.head? ≠ some slot →
    d'.linksAt slot = d.linksAt slot
  links_head : ∀ slot, d.head? = some slot → d'.linksAt slot = d.linksAt slot ++ [d.size]
  links_first : d.isEmpty = true → ∀ slot, d.head? ≠ some slot
  /-- The next field of a node stays or moves on by one. -/
  next : ∀ i r, d.expansion? i = some r → ∃ f, d.nextField? i = some f ∧ f ≤ r.arity ∧
    (d'.nextField? i = some f ∨ d'.nextField? i = some (f + 1))
  next_new : ∀ r, a = .applyRule (.expandTree r) → d'.nextField? d.size = some 0

theorem Grown.frame {e : Encoding} {admits : Option NodeType → Action → Prop} {d d' : Derivation}
    {a : Action} (hg : Grown e admits d) (ha : d.apply a = .ok d') : d.Frame a d' := by
  have h := hg.spineStands
  obtain ⟨f, hf, rfl⟩ := apply_eq_ok_iff.mp ha
  refine
    { actions := actions_extend d a f
      parent := fun i hi => by rw [parent?_extend, if_neg (Nat.ne_of_lt hi)]
      size_slots := ?size_slots
      links := fun slot _ hslot => linksAt_extend_of_ne h.headInBounds hslot a f
      links_head := fun slot hslot => by rw [linksAt_extend h.headInBounds, if_pos hslot]
      links_first := ?links_first
      next := ?next
      next_new := ?next_new }
  case size_slots =>
    intro i hi
    rw [slots?_extend_of_lt hi, Option.map_map]
    congr 1
    funext slots
    cases d.head? with
    | none => rfl
    | some slot =>
      simp only [Function.comp_apply]
      split
      · exact Array.size_modify
      · rfl
  case links_first =>
    intro hempty slot hhead
    rw [head?, hg.spine_eq_nil hempty] at hhead
    cases hhead
  case next =>
    intro i r hr
    obtain ⟨k, hk, hle⟩ := h.exists_nextField? hr
    exact ⟨k, hk, hle, h.nextField?_of_apply ha hk⟩
  case next_new =>
    rintro r rfl
    exact h.nextField?_new ha

/-! ## What a run leaves alone -/

/-- A node is closed when it is past its last field. -/
theorem Grown.isClosed_iff_nextField? {e : Encoding} {admits : Option NodeType → Action → Prop}
    {d : Derivation} (hg : Grown e admits d) {i : Nat} :
    d.IsClosed i ↔ ∃ r, d.expansion? i = some r ∧ d.nextField? i = some r.arity := by
  constructor
  · rintro ⟨_, r, hr, hfilled⟩
    obtain ⟨n, hn, hle⟩ := hg.spineStands.exists_nextField? hr
    refine ⟨r, hr, ?_⟩
    rcases Nat.lt_or_eq_of_le hle with hlt | heq
    · -- the next field itself would be filled
      have ht : r.fieldType? n = some (r.children[n]).2 := by
        rw [Expansion.fieldType?, List.getElem?_eq_getElem hlt]
        rfl
      obtain ⟨m, hm, -, hiff⟩ := hg.disciplined.filled_iff i r n _ hr ht
      obtain rfl := Option.some.inj (hn.symm.trans hm)
      exact absurd (hiff.mp (hfilled n _ ht)) (Nat.lt_irrefl n)
    · rw [hn, heq]
  · rintro ⟨r, hr, hnext⟩
    refine .intro i r hr fun f t ht => ?_
    obtain ⟨m, hm, -, hiff⟩ := hg.disciplined.filled_iff i r f t hr ht
    obtain rfl := Option.some.inj (hnext.symm.trans hm)
    exact hiff.mpr (fieldType?_lt ht)

/-- What further actions, from `d` to `d'`, leave alone. -/
structure Frozen (d : Derivation) (v : List Action) (d' : Derivation) : Prop where
  /-- The next field of a node never moves back, and it comes to every field that it passes. -/
  next : ∀ i f, d.nextField? i = some f → ∃ g, d'.nextField? i = some g ∧ f ≤ g ∧
    ∀ k, f ≤ k → k ≤ g → ∃ u d₁, u <+: v ∧ d.applyAll u = .ok d₁ ∧ d₁.nextField? i = some k
  /-- The slots before the next field of a node keep what they hold. -/
  passed : ∀ i f k, d.nextField? i = some f → k < f → d'.linksAt ⟨i, k⟩ = d.linksAt ⟨i, k⟩
  /-- A closed node stays closed, and all of its slots keep what they hold. -/
  closed : ∀ i, d.IsClosed i → d'.IsClosed i ∧ ∀ k, d'.linksAt ⟨i, k⟩ = d.linksAt ⟨i, k⟩

/-- Only the next field of a node can be at the head. -/
theorem Grown.head?_ne {e : Encoding} {admits : Option NodeType → Action → Prop} {d : Derivation}
    (hg : Grown e admits d) {i f k : Nat} (hf : d.nextField? i = some f) (hk : k ≠ f) :
    d.head? ≠ some ⟨i, k⟩ := by
  intro hhead
  have hnext := hg.disciplined.next_head _ hhead
  exact hk (Option.some.inj (hnext.symm.trans hf))

theorem Grown.frozen {e : Encoding} {d d' : Derivation} {v : List Action}
    (hg : Grown e (fun _ _ => True) d) (h : d.applyAll v = .ok d') : d.Frozen v d' := by
  induction v generalizing d with
  | nil =>
    obtain rfl := Except.ok.inj h
    refine ⟨fun i f hf => ?_, fun _ _ _ _ _ => rfl, fun i hi => ⟨hi, fun _ => rfl⟩⟩
    refine ⟨f, hf, Nat.le_refl f, fun k hfk hkf => ?_⟩
    exact ⟨[], d, List.prefix_refl [], rfl, Nat.le_antisymm hfk hkf ▸ hf⟩
  | cons a v ih =>
    obtain ⟨d₁, ha, hv⟩ := exists_of_applyAll_cons h
    have hg₁ : Grown e (fun _ _ => True) d₁ := .apply a hg trivial ha
    have hframe := hg.frame ha
    have hrest := ih hg₁ hv
    have hstep : ∀ i f, d.nextField? i = some f → i < d.size ∧
        (d₁.nextField? i = some f ∨ d₁.nextField? i = some (f + 1)) := by
      intro i f hf
      obtain ⟨r, hr⟩ := hg.spineStands.exists_expansion_of_nextField? hf
      exact ⟨lt_size_of_action? (expansion?_eq_some_iff.mp hr),
        hg.spineStands.nextField?_of_apply ha hf⟩
    refine ⟨?next, ?passed, ?closed⟩
    case next =>
      intro i f hf
      obtain ⟨f₁, hf₁, hle, hge⟩ : ∃ f₁, d₁.nextField? i = some f₁ ∧ f ≤ f₁ ∧ f₁ ≤ f + 1 := by
        rcases (hstep i f hf).2 with h₁ | h₁
        · exact ⟨f, h₁, Nat.le_refl f, Nat.le_succ f⟩
        · exact ⟨f + 1, h₁, Nat.le_succ f, Nat.le_refl _⟩
      obtain ⟨g, hg', hf₁g, hpasses⟩ := hrest.next i f₁ hf₁
      refine ⟨g, hg', Nat.le_trans hle hf₁g, fun k hfk hkg => ?_⟩
      rcases Nat.eq_or_lt_of_le hfk with rfl | hlt
      · exact ⟨[], d, List.nil_prefix, rfl, hf⟩
      · obtain ⟨u, d₂, hu, hd₂, hk⟩ := hpasses k (Nat.le_trans hge hlt) hkg
        exact ⟨a :: u, d₂, List.cons_prefix_cons.mpr ⟨rfl, hu⟩,
          (applyAll_of_apply ha u).trans hd₂, hk⟩
    case passed =>
      intro i f k hf hk
      obtain ⟨hi, hf₁⟩ := hstep i f hf
      have hkept := hframe.links ⟨i, k⟩ hi (hg.head?_ne hf (Nat.ne_of_lt hk))
      rw [← hkept]
      rcases hf₁ with hf₁ | hf₁
      · exact hrest.passed i f k hf₁ hk
      · exact hrest.passed i (f + 1) k hf₁ (Nat.lt_succ_of_lt hk)
    case closed =>
      intro i hi
      obtain ⟨r, hr, hnext⟩ := hg.isClosed_iff_nextField?.mp hi
      obtain ⟨hlt, hnext₁⟩ := hstep i r.arity hnext
      have hr₁ : d₁.expansion? i = some r := by
        obtain ⟨f, -, rfl⟩ := apply_eq_ok_iff.mp ha
        rw [expansion?_extend_of_lt hlt, hr]
      -- there is no field behind the last to move on to
      have hclosed₁ : d₁.IsClosed i := by
        refine hg₁.isClosed_iff_nextField?.mpr ⟨r, hr₁, hnext₁.resolve_right fun hmoved => ?_⟩
        obtain ⟨g, hg', hle⟩ := hg₁.spineStands.exists_nextField? hr₁
        rw [hmoved] at hg'
        obtain rfl := Option.some.inj hg'
        exact Nat.not_succ_le_self _ hle
      obtain ⟨hclosed, hkept⟩ := hrest.closed i hclosed₁
      refine ⟨hclosed, fun k => ?_⟩
      rw [hkept k]
      refine hframe.links ⟨i, k⟩ hlt fun hhead => ?_
      obtain ⟨r', -, hr', hfield, -⟩ := hg.disciplined.head_some _ hhead
      have hat := hg.disciplined.next_head _ hhead
      rw [hnext] at hat
      obtain rfl := Option.some.inj (hr.symm.trans hr')
      exact absurd hfield (Nat.not_lt_of_le (Nat.le_of_eq (Option.some.inj hat)))

/-- A node was opened by an action, and after that one its next field was the first. -/
theorem Grown.exists_opened {e : Encoding} {d : Derivation} (hg : Grown e (fun _ _ => True) d)
    {i : Nat} {r : Expansion} (hr : d.expansion? i = some r) :
    ∃ u v d₁, d.actions = u ++ v ∧ u.length = i + 1 ∧ replay e u = .ok d₁ ∧
      d₁.applyAll v = .ok d ∧ d₁.nextField? i = some 0 := by
  have haction := expansion?_eq_some_iff.mp hr
  rw [← getElem?_actions] at haction
  obtain ⟨hi, hget⟩ := List.getElem?_eq_some_iff.mp haction
  have hsplit : d.actions = d.actions.take i ++ d.actions[i] :: d.actions.drop (i + 1) := by
    rw [← List.drop_eq_getElem_cons hi, List.take_append_drop]
  have hreplay := hg.replay_actions
  rw [hsplit, hget] at hreplay
  obtain ⟨d₀, hd₀, hrest⟩ := exists_of_applyAll_append hreplay
  obtain ⟨d₁, hd₁, hv⟩ := exists_of_applyAll_cons hrest
  have hg₀ : Grown e (fun _ _ => True) d₀ := grown_of_replay hd₀
  have hsize : d₀.size = i := by
    rw [← length_actions, actions_replay hd₀, List.length_take_of_le (Nat.le_of_lt hi)]
  refine ⟨d.actions.take (i + 1), d.actions.drop (i + 1), d₁,
    (List.take_append_drop (i + 1) d.actions).symm, List.length_take_of_le hi, ?_, hv, ?_⟩
  · rw [List.take_succ_eq_append_getElem hi, hget, replay, applyAll_of_applyAll hd₀,
      applyAll_of_apply hd₁, applyAll_nil]
  · exact hsize ▸ (hg₀.frame hd₁).next_new r rfl

/-- Whatever was tried on an empty derivation, the next action that it takes leaves all alone but
the slot at the head and the next fields, which move on by one at most; and what is behind a next
field stays as it is whatever actions follow. Each node begins with its first field, and it has come
to each field up to its next one. -/
theorem frozen_attemptAll (e : Encoding) (w : List Action) :
    (∀ a d', ((empty e).attemptAll w).apply a = .ok d' →
      ((empty e).attemptAll w).Frame a d') ∧
    (∀ v d', ((empty e).attemptAll w).applyAll v = .ok d' →
      ((empty e).attemptAll w).Frozen v d') ∧
    (∀ i r g, ((empty e).attemptAll w).expansion? i = some r →
      ((empty e).attemptAll w).nextField? i = some g →
      ∀ k, k ≤ g → ∃ u d₁, u <+: ((empty e).attemptAll w).actions ∧ i < u.length ∧
        replay e u = .ok d₁ ∧ d₁.nextField? i = some k) := by
  have hg := grown_attemptAll e w
  refine ⟨fun a d' ha => hg.frame ha, fun v d' hv => hg.frozen hv, fun i r g hr hnext k hk => ?_⟩
  obtain ⟨u, v, d₁, hactions, hlength, hu, hv, hfirst⟩ := hg.exists_opened hr
  obtain ⟨g', hg', -, hpasses⟩ := ((grown_of_replay hu).frozen hv).next i 0 hfirst
  obtain rfl := Option.some.inj (hnext.symm.trans hg')
  obtain ⟨u', d₂, ⟨v', hv'⟩, hd₂, hk⟩ := hpasses k (Nat.zero_le k) hk
  refine ⟨u ++ u', d₂, ⟨v', ?_⟩, ?_, ?_, hk⟩
  · rw [List.append_assoc, hv', hactions]
  · rw [List.length_append]
    omega
  · rw [replay, applyAll_of_applyAll hu, hd₂]

/-- An action that closes two nodes at once: `b` and `a` above it. The root goes on to its list, and
the slot that it leaves behind keeps what it holds until the list is closed. -/
theorem frozen_attemptAll_cascade :
    let root : Action := .applyRule (.expandTree
      ⟨⟨"Root", .node⟩, [("first", ⟨"a", .node⟩), ("others", ⟨"b", .variadic⟩)]⟩)
    let a : Action := .applyRule (.expandTree ⟨⟨"a", .node⟩, [("only", ⟨"b", .node⟩)]⟩)
    let b : Action := .applyRule (.expandTree ⟨⟨"b", .node⟩, []⟩)
    let d := (empty {}).attemptAll [root, a]
    ∃ d₁ d₂, d.apply b = .ok d₁ ∧ d.Frame b d₁ ∧
      d.nextField? 0 = some 0 ∧ d₁.nextField? 0 = some 1 ∧ d₁.nextField? 1 = some 1 ∧
      d.applyAll [b, b, .applyRule .closeVariadic] = .ok d₂ ∧
      d.Frozen [b, b, .applyRule .closeVariadic] d₂ ∧
      d₂.nextField? 0 = some 2 ∧ d₂.linksAt ⟨0, 0⟩ = [1] ∧
      ∃ u d₀, u <+: d.actions ∧ 1 < u.length ∧ replay {} u = .ok d₀ ∧
        d₀.nextField? 1 = some 0 := by
  intro root a b d
  obtain ⟨d₁, hd₁⟩ : ∃ d₁, d.apply b = .ok d₁ := ⟨_, rfl⟩
  obtain ⟨d₂, hd₂⟩ : ∃ d₂, d.applyAll [b, b, .applyRule .closeVariadic] = .ok d₂ := ⟨_, rfl⟩
  obtain ⟨hframe, hfrozen, hcomes⟩ := frozen_attemptAll {} [root, a]
  have ha : d.expansion? 1 = some ⟨⟨"a", .node⟩, [("only", ⟨"b", .node⟩)]⟩ := by decide
  have hnext : d.nextField? 1 = some 0 := by decide
  refine ⟨d₁, d₂, hd₁, hframe b d₁ hd₁, by decide, ?_, ?_, hd₂, hfrozen _ d₂ hd₂, ?_, ?_,
    hcomes 1 _ 0 ha hnext 0 (Nat.le_refl 0)⟩
  all_goals
    cases hd₁
    cases hd₂
    decide

end Derivation

end TreeDerivation
