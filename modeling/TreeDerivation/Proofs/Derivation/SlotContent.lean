import TreeDerivation.Proofs.Derivation.Links

/-!
# What the slots of a derivation hold

What a filled field holds depends on its constraint and the encoding alone (`Filled`), and so does
what a field may hold before it is filled (`Piece`). `SlotsHold` says that all slots of a derivation
are as these allow: those of closed nodes and the fields that open nodes have passed are filled, the
open field of the innermost node holds pieces, and that of every other open node holds pieces and,
behind them, the step of the node below it.

`SlotsHold` speaks of any list of open nodes, since the derivation stays the same while filled nodes
are closed one after the other: a filled node fills the open field of the node above it, or is one
more piece of it (`SlotsHold.close`). An accepted action adds one step to the slot at the head, and
then closes what was filled (`SlotsHold.apply`).
-/

namespace TreeDerivation.Derivation

/-! ## Filled fields -/

/-- What a filled field holds, given which steps count as closed nodes. -/
inductive Filled (d : Derivation) (C : Nat → Prop) : Constraint → List Nat → Prop where
  | node (i : Nat) : C i → Filled d C .node [i]
  | encoded (i : Nat) : d.encoding.retainVariadic = false → C i → Filled d C .variadic [i]
  | list (is : List Nat) (k : Nat) : d.encoding.retainVariadic = true → (∀ i ∈ is, C i) →
    d.action? k = some (.applyRule .closeVariadic) → Filled d C .variadic (is ++ [k])
  | text (is : List Nat) (k : Nat) : d.encoding.splitLeaves = true →
    (∀ i ∈ is, ∃ s, d.action? i = some (.generateToken (.value s))) →
    d.action? k = some (.generateToken .closeNode) → Filled d C .token (is ++ [k])
  | token (i : Nat) (k : Token) : d.encoding.splitLeaves = false →
    d.action? i = some (.generateToken k) → Filled d C .token [i]

/-- What may stand in a field before it is filled: a closed node in an open-ended list, or a piece
of a text. -/
inductive Piece (d : Derivation) (C : Nat → Prop) : Constraint → Nat → Prop where
  | element (i : Nat) : d.encoding.retainVariadic = true → C i → Piece d C .variadic i
  | value (i : Nat) (s : String) : d.encoding.splitLeaves = true →
    d.action? i = some (.generateToken (.value s)) → Piece d C .token i

theorem Filled.imp {d d' : Derivation} {C C' : Nat → Prop} {c : Constraint} {links : List Nat}
    (h : d.Filled C c links) (he : d'.encoding = d.encoding)
    (haction : ∀ i a, d.action? i = some a → d'.action? i = some a)
    (hC : ∀ i ∈ links, C i → C' i) : d'.Filled C' c links := by
  cases h with
  | node i hi => exact .node i (hC i (by simp) hi)
  | encoded i hretain hi => exact .encoded i (he ▸ hretain) (hC i (by simp) hi)
  | list is k hretain his hk =>
    exact .list is k (he ▸ hretain) (fun i hi => hC i (by simp [hi]) (his i hi)) (haction k _ hk)
  | text is k hsplit his hk =>
    refine .text is k (he ▸ hsplit) ?_ (haction k _ hk)
    intro i hi
    obtain ⟨s, hs⟩ := his i hi
    exact ⟨s, haction i _ hs⟩
  | token i k hsplit hi => exact .token i k (he ▸ hsplit) (haction i _ hi)

theorem Piece.imp {d d' : Derivation} {C C' : Nat → Prop} {c : Constraint} {i : Nat}
    (h : d.Piece C c i) (he : d'.encoding = d.encoding)
    (haction : ∀ i a, d.action? i = some a → d'.action? i = some a)
    (hC : C i → C' i) : d'.Piece C' c i := by
  cases h with
  | element i hretain hi => exact .element i (he ▸ hretain) (hC hi)
  | value i s hsplit hi => exact .value i s (he ▸ hsplit) (haction i _ hi)

theorem Filled.ne_nil {d : Derivation} {C : Nat → Prop} {c : Constraint} {links : List Nat}
    (h : d.Filled C c links) : links ≠ [] := by
  cases h <;> simp

/-- A field that one node fills holds nothing before. -/
theorem eq_nil_of_takesOne {d : Derivation} {C : Nat → Prop} {t : NodeType} {links : List Nat}
    (ht : takesOne d.encoding t) (h : ∀ i ∈ links, d.Piece C t.constraint i) : links = [] := by
  refine List.eq_nil_iff_forall_not_mem.mpr ?_
  intro i hi
  generalize hc : t.constraint = c at h
  cases h i hi with
  | element i hretain _ => simp [takesOne, hc, hretain] at ht
  | value i s _ _ => exact ht.ne_token hc

theorem of_piece_of_takesMany {d : Derivation} {C : Nat → Prop} {t : NodeType} {i : Nat}
    (ht : takesMany d.encoding t) (h : d.Piece C t.constraint i) : C i := by
  generalize hc : t.constraint = c at h
  cases h with
  | element i _ hi => exact hi
  | value i s _ _ => exact absurd hc ht.ne_token

/-- A closed node fills a field that takes one. -/
theorem filled_of_takesOne {d : Derivation} {C : Nat → Prop} {t : NodeType} {i : Nat}
    (ht : takesOne d.encoding t) (hi : C i) : d.Filled C t.constraint [i] := by
  rcases ht with hc | ⟨hc, hretain⟩
  · rw [hc]
    exact .node i hi
  · rw [hc]
    exact .encoded i hretain hi

/-- An action that ends a field fills it. -/
theorem filled_of_ends {d : Derivation} {C : Nat → Prop} {t : NodeType} {a : Action}
    {links : List Nat} {k : Nat} (ha : Ends d.encoding t a)
    (h : ∀ i ∈ links, d.Piece C t.constraint i) (hk : d.action? k = some a) :
    d.Filled C t.constraint (links ++ [k]) := by
  cases ha with
  | list hmany =>
    rw [hmany.1]
    exact .list links k hmany.2 (fun i hi => of_piece_of_takesMany hmany (h i hi)) hk
  | text htoken hsplit =>
    rw [htoken] at h ⊢
    refine .text links k hsplit ?_ hk
    intro i hi
    cases h i hi with
    | value i s _ hs => exact ⟨s, hs⟩
  | token k' htoken hsplit =>
    rw [htoken] at h ⊢
    have hnil : links = [] := by
      refine List.eq_nil_iff_forall_not_mem.mpr ?_
      intro i hi
      cases h i hi with
      | value i s hsplit' _ => simp [hsplit] at hsplit'
    rw [hnil]
    exact .token k k' hsplit hk

/-- What a field holds before it is filled does not fill it. -/
theorem not_filled_of_piece {d : Derivation} {C C' : Nat → Prop} {c : Constraint}
    {links : List Nat} (hC : ∀ i, C i → ∃ r, d.expansion? i = some r)
    (h : ∀ i ∈ links, d.Piece C c i) : ¬ d.Filled C' c links := by
  intro hfilled
  cases hfilled with
  | node i _ => exact nomatch h i (by simp)
  | encoded i hretain _ =>
    cases h i (by simp) with
    | element i hretain' _ => simp [hretain] at hretain'
  | list is k _ _ hk =>
    cases h k (by simp) with
    | element k _ hopen =>
      obtain ⟨r, hr⟩ := hC k hopen
      simp [expansion?_eq_some_iff.mp hr] at hk
  | text is k _ _ hk =>
    cases h k (by simp) with
    | value k s _ hs => simp [hs] at hk
  | token i k hsplit _ =>
    cases h i (by simp) with
    | value i s hsplit' _ => simp [hsplit] at hsplit'

/-- A field whose last step opened a node that is not closed is not filled. -/
theorem not_filled_of_last {d : Derivation} {C : Nat → Prop} {t : NodeType} {before : List Nat}
    {i : Nat} {r : Expansion} (ht : takesOne d.encoding t ∨ takesMany d.encoding t)
    (hr : d.expansion? i = some r) (hi : ¬ C i) :
    ¬ d.Filled C t.constraint (before ++ [i]) := by
  have haction := expansion?_eq_some_iff.mp hr
  have htoken : t.constraint ≠ .token := ht.elim takesOne.ne_token takesMany.ne_token
  intro hfilled
  generalize hlinks : before ++ [i] = links at hfilled
  generalize hc : t.constraint = c at hfilled
  cases hfilled with
  | node j hj =>
    obtain ⟨-, rfl⟩ := List.append_singleton_inj.mp (hlinks.trans (List.nil_append [j]).symm)
    exact hi hj
  | encoded j _ hj =>
    obtain ⟨-, rfl⟩ := List.append_singleton_inj.mp (hlinks.trans (List.nil_append [j]).symm)
    exact hi hj
  | list is k _ _ hk =>
    obtain ⟨-, rfl⟩ := List.append_singleton_inj.mp hlinks
    simp [haction] at hk
  | text is k _ _ _ => exact htoken hc
  | token j k _ _ => exact htoken hc

/-! ## The slots of open and closed nodes -/

/-- Whether a step opened a node that is not among the open ones. -/
def Off (d : Derivation) (spine : List OpenNode) (i : Nat) : Prop :=
  (∃ r, d.expansion? i = some r) ∧ ∀ n ∈ spine, n.index ≠ i

/-- Whether the step of an open node is the last in the open field of the node above it, behind
what such a field may hold. -/
def Sits (d : Derivation) (C : Nat → Prop) (n up : OpenNode) : Prop :=
  ∃ t before, up.fieldType? = some t ∧ (takesOne d.encoding t ∨ takesMany d.encoding t) ∧
    d.linksAt up.slot = before ++ [n.index] ∧ ∀ i ∈ before, d.Piece C t.constraint i

theorem Sits.of_index_eq {d : Derivation} {C : Nat → Prop} {n m up : OpenNode}
    (h : d.Sits C n up) (hindex : n.index = m.index) : d.Sits C m up := by
  obtain ⟨t, before, ht, htakes, hlinks, hbefore⟩ := h
  exact ⟨t, before, ht, htakes, hindex ▸ hlinks, hbefore⟩

/-- What the slots hold if `spine` are the open nodes, of which the innermost may be filled. -/
structure SlotsHold (d : Derivation) (spine : List OpenNode) : Prop where
  stands : d.Stands spine
  closed : ∀ i r, d.expansion? i = some r → (∀ n ∈ spine, n.index ≠ i) →
    ∀ f t, r.fieldType? f = some t →
      d.Filled (d.Off spine) t.constraint (d.linksAt ⟨i, f⟩)
  passed : ∀ n ∈ spine, ∀ f t, f < n.field → n.rule.fieldType? f = some t →
    d.Filled (d.Off spine) t.constraint (d.linksAt ⟨n.index, f⟩)
  top : ∀ n ∈ spine.head?, ∀ t, n.fieldType? = some t →
    ∀ i ∈ d.linksAt n.slot, d.Piece (d.Off spine) t.constraint i
  below : ∀ n up, [n, up] <:+: spine → d.Sits (d.Off spine) n up

theorem Off.of_subset {d : Derivation} {spine spine' : List OpenNode} {i : Nat}
    (h : d.Off spine i) (hsub : ∀ n ∈ spine', ∃ m ∈ spine, m.index = n.index) :
    d.Off spine' i := by
  refine ⟨h.1, ?_⟩
  intro n hn hindex
  obtain ⟨m, hm, hmn⟩ := hsub n hn
  exact h.2 m hm (hmn.trans hindex)

/-- The node above a closed node has the number that it had. -/
theorem exists_index_eq {retain : Bool} {up m : OpenNode} {rest : List OpenNode}
    (hm : m ∈ up.receive retain :: rest) : ∃ m' ∈ up :: rest, m'.index = m.index := by
  rcases List.mem_cons.mp hm with rfl | hm
  · exact ⟨up, List.mem_cons_self, (up.index_receive _).symm⟩
  · exact ⟨m, List.mem_cons_of_mem up hm, rfl⟩

theorem fieldType?_lt {r : Expansion} {f : Nat} {t : NodeType} (h : r.fieldType? f = some t) :
    f < r.arity := by
  obtain ⟨c, hc, -⟩ := Option.map_eq_some_iff.mp h
  exact (List.getElem?_eq_some_iff.mp hc).1

namespace SlotsHold

variable {d : Derivation}

/-- A filled node has all its fields filled, and takes its place among the closed ones. -/
theorem closed_of_isFilled {n : OpenNode} {rest : List OpenNode} (h : d.SlotsHold (n :: rest))
    (hfilled : n.isFilled = true) {i : Nat} {r : Expansion} (hr : d.expansion? i = some r)
    (hi : ∀ m ∈ rest, m.index ≠ i) {f : Nat} {t : NodeType} (ht : r.fieldType? f = some t) :
    d.Filled (d.Off (n :: rest)) t.constraint (d.linksAt ⟨i, f⟩) := by
  by_cases hn : n.index = i
  · subst hn
    obtain rfl := Option.some.inj (hr.symm.trans (h.stands.expansion_eq n List.mem_cons_self))
    have harity : n.rule.arity ≤ n.field := of_decide_eq_true hfilled
    exact h.passed n List.mem_cons_self f t (Nat.lt_of_lt_of_le (fieldType?_lt ht) harity) ht
  · refine h.closed i r hr ?_ f t ht
    intro m hm
    rcases List.mem_cons.mp hm with rfl | hm
    · exact hn
    · exact hi m hm

section Close

variable {n up : OpenNode} {rest : List OpenNode} (h : d.SlotsHold (n :: up :: rest))

theorem off_close {i : Nat} (hi : d.Off (n :: up :: rest) i) :
    d.Off (up.receive d.encoding.retainVariadic :: rest) i := by
  refine hi.of_subset fun m hm => ?_
  obtain ⟨m', hm', heq⟩ := exists_index_eq hm
  exact ⟨m', List.mem_cons_of_mem n hm', heq⟩

include h in
/-- A filled node is off once it gave its place to the one above it. -/
theorem off_close_self : d.Off (up.receive d.encoding.retainVariadic :: rest) n.index := by
  refine ⟨⟨n.rule, h.stands.expansion_eq n List.mem_cons_self⟩, ?_⟩
  intro m hm
  obtain ⟨m', hm', heq⟩ := exists_index_eq hm
  exact heq ▸ Nat.ne_of_lt (h.stands.path.index_lt hm')

theorem filled_close {c : Constraint} {links : List Nat}
    (hfilled : d.Filled (d.Off (n :: up :: rest)) c links) :
    d.Filled (d.Off (up.receive d.encoding.retainVariadic :: rest)) c links :=
  hfilled.imp rfl (fun _ _ ha => ha) fun _ _ => off_close

theorem piece_close {c : Constraint} {i : Nat} (hi : d.Piece (d.Off (n :: up :: rest)) c i) :
    d.Piece (d.Off (up.receive d.encoding.retainVariadic :: rest)) c i :=
  hi.imp rfl (fun _ _ ha => ha) off_close

include h in
/-- What the filled node fills: the open field of the node above it, or it is one more of the
elements of that field. -/
theorem receive_cases : ∃ t, up.fieldType? = some t ∧
    (up.receive d.encoding.retainVariadic = up.advance ∧
        d.Filled (d.Off (up.receive d.encoding.retainVariadic :: rest)) t.constraint
          (d.linksAt up.slot) ∨
      up.receive d.encoding.retainVariadic = up ∧ ∀ i ∈ d.linksAt up.slot,
        d.Piece (d.Off (up.receive d.encoding.retainVariadic :: rest)) t.constraint i) := by
  obtain ⟨t, before, ht, htakes, hlinks, hbefore⟩ := h.below n up ⟨[], rest, rfl⟩
  refine ⟨t, ht, ?_⟩
  rcases htakes with hone | hmany
  · refine .inl ⟨OpenNode.receive_eq_advance ht hone, ?_⟩
    rw [hlinks, eq_nil_of_takesOne hone hbefore]
    exact filled_of_takesOne hone h.off_close_self
  · refine .inr ⟨OpenNode.receive_eq_self ht hmany, ?_⟩
    intro i hi
    rw [hlinks] at hi
    rcases List.mem_append.mp hi with hi | hi
    · exact piece_close (hbefore i hi)
    · obtain rfl := List.mem_singleton.mp hi
      rw [hmany.1]
      exact .element n.index hmany.2 h.off_close_self

include h in
theorem passed_close {m : OpenNode} (hm : m ∈ up.receive d.encoding.retainVariadic :: rest)
    {f : Nat} {t : NodeType} (hf : f < m.field) (ht : m.rule.fieldType? f = some t) :
    d.Filled (d.Off (up.receive d.encoding.retainVariadic :: rest)) t.constraint
      (d.linksAt ⟨m.index, f⟩) := by
  rcases List.mem_cons.mp hm with rfl | hm
  · rw [OpenNode.index_receive]
    rw [OpenNode.rule_receive] at ht
    by_cases hlt : f < up.field
    · exact filled_close (h.passed up (by simp) f t hlt ht)
    · obtain ⟨u, hu, ⟨hadvance, hfilled⟩ | ⟨hself, -⟩⟩ := h.receive_cases
      · rw [hadvance] at hf
        obtain rfl : f = up.field := Nat.le_antisymm (Nat.le_of_lt_succ hf) (Nat.le_of_not_lt hlt)
        obtain rfl : u = t := Option.some.inj (hu.symm.trans ht)
        exact hfilled
      · rw [hself] at hf
        exact absurd hf hlt
  · exact filled_close (h.passed m (by simp [hm]) f t hf ht)

include h in
theorem top_close {t : NodeType}
    (ht : (up.receive d.encoding.retainVariadic).fieldType? = some t) {i : Nat}
    (hi : i ∈ d.linksAt (up.receive d.encoding.retainVariadic).slot) :
    d.Piece (d.Off (up.receive d.encoding.retainVariadic :: rest)) t.constraint i := by
  obtain ⟨u, hu, ⟨hadvance, -⟩ | ⟨hself, hpieces⟩⟩ := h.receive_cases
  · -- the next field is empty
    have hnil := h.stands.links_behind up (by simp) up.advance.field (Nat.lt_succ_self _)
    rw [hadvance] at hi
    exact absurd (hnil ▸ hi) List.not_mem_nil
  · rw [hself] at ht hi
    obtain rfl : u = t := Option.some.inj (hu.symm.trans ht)
    exact hpieces i hi

include h in
theorem below_close {m up' : OpenNode}
    (hpair : [m, up'] <:+: up.receive d.encoding.retainVariadic :: rest) :
    d.Sits (d.Off (up.receive d.encoding.retainVariadic :: rest)) m up' := by
  have hsits : d.Sits (d.Off (n :: up :: rest)) m up' := by
    rcases List.infix_cons_iff.mp hpair with hprefix | hinfix
    · obtain ⟨rfl, rest', rfl⟩ := List.cons_prefix_cons.mp hprefix
      exact (h.below up up' ⟨[n], rest', rfl⟩).of_index_eq (up.index_receive _).symm
    · exact h.below m up' (List.infix_cons (List.infix_cons hinfix))
  obtain ⟨t, before, ht, htakes, hlinks, hbefore⟩ := hsits
  exact ⟨t, before, ht, htakes, hlinks, fun i hi => piece_close (hbefore i hi)⟩

include h in
/-- A filled node gives its place to the node above it. -/
theorem close (hn : n.isFilled = true) :
    d.SlotsHold (up.receive d.encoding.retainVariadic :: rest) where
  stands := h.stands.tail.of_le (up.index_receive _) (up.rule_receive _)
    (up.field_le_field_receive _)
  closed i r hr hi f t ht := by
    refine filled_close (h.closed_of_isFilled hn hr ?_ ht)
    intro m hm
    rcases List.mem_cons.mp hm with rfl | hm
    · rw [← m.index_receive d.encoding.retainVariadic]
      exact hi _ List.mem_cons_self
    · exact hi m (List.mem_cons_of_mem _ hm)
  passed m hm f t hf ht := h.passed_close hm hf ht
  top m hm t ht i hi := by
    obtain rfl := Option.mem_some.mp hm
    exact h.top_close ht hi
  below m up' hpair := h.below_close hpair

end Close

/-- Closing filled nodes keeps what the slots hold. -/
theorem settle {top : OpenNode} {rest : List OpenNode} (h : d.SlotsHold (top :: rest)) :
    d.SlotsHold (settle d.encoding.retainVariadic top rest) := by
  refine settle_induction d.encoding.retainVariadic (fun n up rest hn hs => hs.close hn) ?_ h
  intro n hn hs
  have hoff : ∀ i, d.Off [n] i → d.Off [] i := fun i hi => ⟨hi.1, by simp⟩
  refine ⟨.nil d, ?_, by simp, by simp, by simp⟩
  intro i r hr _ f t ht
  exact (hs.closed_of_isFilled hn hr (by simp) ht).imp rfl (fun _ _ ha => ha) fun j _ => hoff j

theorem empty (e : Encoding) : (Derivation.empty e).SlotsHold [] where
  stands := .nil _
  closed i r hr := absurd (lt_size_of_action? (expansion?_eq_some_iff.mp hr)) (Nat.not_lt_zero i)
  passed _ hn := absurd hn List.not_mem_nil
  top _ hn := absurd hn (by simp)
  below _ _ hpair := absurd (List.eq_nil_of_infix_nil hpair) (by simp)

/-! ### One more step -/

section Extend

variable (h : d.SlotsHold d.spine) (hd : d.SpineStands) {a : Action} {f : Effect}
  {spine : List OpenNode}
  (hspine : ∀ n ∈ spine, n.index = d.size ∨ ∃ m ∈ d.spine, m.index = n.index)

include hspine in
theorem off_extend {i : Nat} (hi : d.Off d.spine i) : (d.extend a f).Off spine i := by
  obtain ⟨⟨r, hr⟩, hoff⟩ := hi
  have hlt := lt_size_of_action? (expansion?_eq_some_iff.mp hr)
  refine ⟨⟨r, by rw [expansion?_extend_of_lt hlt, hr]⟩, ?_⟩
  intro n hn hindex
  rcases hspine n hn with hnew | ⟨m, hm, hmn⟩
  · omega
  · exact hoff m hm (hmn.trans hindex)

include hspine in
theorem filled_extend {c : Constraint} {links : List Nat}
    (hfilled : d.Filled (d.Off d.spine) c links) :
    (d.extend a f).Filled ((d.extend a f).Off spine) c links :=
  hfilled.imp rfl (fun _ _ => action?_extend_of_some a f) fun _ _ => off_extend hspine

include hspine in
theorem piece_extend {c : Constraint} {i : Nat} (hi : d.Piece (d.Off d.spine) c i) :
    (d.extend a f).Piece ((d.extend a f).Off spine) c i :=
  hi.imp rfl (fun _ _ => action?_extend_of_some a f) (off_extend hspine)

include h hd hspine in
/-- The slots of a closed node stay as they are. -/
theorem closed_extend {i : Nat} (hlt : i < d.size) {r : Expansion}
    (hr : (d.extend a f).expansion? i = some r) (hi : ∀ n ∈ d.spine, n.index ≠ i) {k : Nat}
    {t : NodeType} (ht : r.fieldType? k = some t) :
    (d.extend a f).Filled ((d.extend a f).Off spine) t.constraint
      ((d.extend a f).linksAt ⟨i, k⟩) := by
  have hhead : d.head? ≠ some ⟨i, k⟩ := by
    intro hhead
    obtain ⟨top, htop, hslot⟩ := Option.map_eq_some_iff.mp hhead
    exact hi top (List.mem_of_mem_head? htop) (Slot.mk.inj hslot).1
  rw [expansion?_extend_of_lt hlt] at hr
  rw [linksAt_extend_of_ne hd.headInBounds hhead]
  exact filled_extend hspine (h.closed i r hr hi k t ht)

include h hd hspine in
/-- So do the filled fields of an open node. -/
theorem passed_extend {n : OpenNode} (hn : n ∈ d.spine) {k : Nat} {t : NodeType}
    (hk : k < n.field) (ht : n.rule.fieldType? k = some t) :
    (d.extend a f).Filled ((d.extend a f).Off spine) t.constraint
      ((d.extend a f).linksAt ⟨n.index, k⟩) := by
  rw [linksAt_extend_of_ne hd.headInBounds (hd.head?_ne_of_mem hn (Nat.ne_of_lt hk))]
  exact filled_extend hspine (h.passed n hn k t hk ht)

include h hd hspine in
/-- So do the open fields of the nodes above the head. -/
theorem below_extend {n up : OpenNode} (hpair : [n, up] <:+: d.spine) :
    (d.extend a f).Sits ((d.extend a f).Off spine) n up := by
  obtain ⟨t, before, ht, htakes, hlinks, hbefore⟩ := h.below n up hpair
  have hhead : d.head? ≠ some up.slot := by
    intro hhead
    obtain ⟨top, htop, hslot⟩ := Option.map_eq_some_iff.mp hhead
    obtain ⟨rest, hs⟩ := List.head?_eq_some_iff.mp htop
    have hpath := hd.stands.path
    rw [hs] at hpair hpath
    have hup : up ∈ rest := by
      rcases List.infix_cons_iff.mp hpair with hprefix | hinfix
      · exact (List.cons_prefix_cons.mp hprefix).2.subset (by simp)
      · exact hinfix.subset (by simp)
    exact absurd (Slot.mk.inj hslot).1 (Nat.ne_of_gt (hpath.index_lt hup))
  refine ⟨t, before, ht, htakes, ?_, fun i hi => piece_extend hspine (hbefore i hi)⟩
  rw [linksAt_extend_of_ne hd.headInBounds hhead, hlinks]

include h hd hspine in
/-- The slot at the head is filled by an action that ends the field. -/
theorem filled_at_head {top : OpenNode} (htop : top ∈ d.spine.head?) {t : NodeType}
    (ht : top.fieldType? = some t) (ha : Ends d.encoding t a) :
    (d.extend a f).Filled ((d.extend a f).Off spine) t.constraint
      ((d.extend a f).linksAt top.slot) := by
  have hhead : d.head? = some top.slot := by rw [head?, htop]; rfl
  rw [linksAt_extend hd.headInBounds, if_pos hhead]
  refine filled_of_ends ha (fun i hi => piece_extend hspine (h.top top htop t ht i hi)) ?_
  rw [action?_extend, if_pos rfl]

end Extend

/-- A new node stands in the slot at the head, and its own slots are empty. -/
theorem opens (h : d.SlotsHold d.spine) (hd : d.SpineStands) (hroot : d.spine = [] → d.size = 0)
    (r : Expansion) (htakes : ∀ top ∈ d.spine.head?, ∃ t, top.fieldType? = some t ∧
      (takesOne d.encoding t ∨ takesMany d.encoding t)) :
    (d.extend (.applyRule (.expandTree r)) (.opens r)).SlotsHold (⟨d.size, r, 0⟩ :: d.spine) := by
  have hspine : ∀ n ∈ (⟨d.size, r, 0⟩ : OpenNode) :: d.spine,
      n.index = d.size ∨ ∃ m ∈ d.spine, m.index = n.index := by
    intro n hn
    rcases List.mem_cons.mp hn with rfl | hn
    · exact .inl rfl
    · exact .inr ⟨n, hn, rfl⟩
  refine
    { stands := hd.stands_extend_opens hroot r
      closed := ?closed
      passed := ?passed
      top := ?top
      below := ?below }
  case closed =>
    intro i r' hr hi f t ht
    have hlt := lt_size_of_action? (expansion?_eq_some_iff.mp hr)
    have hne := hi _ List.mem_cons_self
    rw [size_extend] at hlt
    exact closed_extend h hd hspine (by dsimp only at hne; omega) hr
      (fun n hn => hi n (List.mem_cons_of_mem _ hn)) ht
  case passed =>
    intro n hn f t hf ht
    rcases List.mem_cons.mp hn with rfl | hn
    · exact absurd hf (Nat.not_lt_zero f)
    · exact passed_extend h hd hspine hn hf ht
  case top =>
    intro n hn t ht i hi
    obtain rfl := Option.mem_some.mp hn
    have hhead : d.head? ≠ some ⟨d.size, 0⟩ := fun hhead =>
      Nat.lt_irrefl _ (hd.headInBounds.lt_size hhead)
    have hnil : (d.extend (.applyRule (.expandTree r)) (.opens r)).linksAt ⟨d.size, 0⟩ = [] := by
      rw [linksAt_extend_of_ne hd.headInBounds hhead, linksAt_eq_nil (Nat.le_refl _)]
    exact absurd (hnil ▸ hi) List.not_mem_nil
  case below =>
    intro n up hpair
    rcases List.infix_cons_iff.mp hpair with hprefix | hinfix
    · obtain ⟨rfl, rest, hs⟩ := List.cons_prefix_cons.mp hprefix
      have htop : up ∈ d.spine.head? := by rw [← hs]; rfl
      obtain ⟨t, ht, htakes⟩ := htakes up htop
      have hhead : d.head? = some up.slot := by rw [head?, htop]; rfl
      refine ⟨t, d.linksAt up.slot, ht, htakes, ?_, ?_⟩
      · rw [linksAt_extend hd.headInBounds, if_pos hhead]
      · exact fun i hi => piece_extend hspine (h.top up htop t ht i hi)
    · exact below_extend h hd hspine hinfix

/-- An action that ends the open field fills it. -/
theorem fills (h : d.SlotsHold d.spine) (hd : d.SpineStands) {top : OpenNode}
    {rest : List OpenNode} (hs : d.spine = top :: rest) {t : NodeType}
    (ht : top.fieldType? = some t) {a : Action} (ha : Ends d.encoding t a) :
    (d.extend a .fills).SlotsHold (top.advance :: rest) := by
  have hindex : ∀ n ∈ top.advance :: rest, ∃ m ∈ d.spine, m.index = n.index := by
    intro n hn
    rw [hs]
    rcases List.mem_cons.mp hn with rfl | hn
    · exact ⟨top, List.mem_cons_self, rfl⟩
    · exact ⟨n, List.mem_cons_of_mem top hn, rfl⟩
  have hspine : ∀ n ∈ top.advance :: rest,
      n.index = d.size ∨ ∃ m ∈ d.spine, m.index = n.index := fun n hn => .inr (hindex n hn)
  have htop : top ∈ d.spine.head? := by rw [hs]; rfl
  have hmem : top ∈ d.spine := List.mem_of_mem_head? htop
  have hrest : ∀ n ∈ rest, n ∈ d.spine := fun n hn => hs ▸ List.mem_cons_of_mem top hn
  refine
    { stands := hd.stands_extend_advance hs a
      closed := ?closed
      passed := ?passed
      top := ?top
      below := ?below }
  case closed =>
    intro i r hr hi f u hu
    have hlt := lt_size_of_action? (expansion?_eq_some_iff.mp hr)
    rw [size_extend] at hlt
    have hne : i ≠ d.size := by
      -- an action that ends a field opens no node
      rintro rfl
      rw [expansion?_eq_some_iff, action?_extend, if_pos rfl] at hr
      rw [Option.some.inj hr] at ha
      cases ha
    refine closed_extend h hd hspine (by omega) hr ?_ hu
    intro n hn
    rw [hs] at hn
    rcases List.mem_cons.mp hn with rfl | hn
    · exact hi n.advance List.mem_cons_self
    · exact hi n (List.mem_cons_of_mem _ hn)
  case passed =>
    intro n hn f u hf hu
    rcases List.mem_cons.mp hn with rfl | hn
    · rcases Nat.lt_or_ge f top.field with hlt | hge
      · exact passed_extend h hd hspine hmem hlt hu
      · obtain rfl : f = top.field := Nat.le_antisymm (Nat.le_of_lt_succ hf) hge
        obtain rfl : t = u := Option.some.inj (ht.symm.trans hu)
        exact filled_at_head h hd hspine htop ht ha
    · exact passed_extend h hd hspine (hrest n hn) hf hu
  case top =>
    intro n hn u hu i hi
    obtain rfl := Option.mem_some.mp hn
    have hnil : (d.extend a .fills).linksAt top.advance.slot = [] :=
      (hd.stands_extend a .fills).links_behind top hmem _ (Nat.lt_succ_self _)
    exact absurd (hnil ▸ hi) List.not_mem_nil
  case below =>
    intro n up hpair
    rcases List.infix_cons_iff.mp hpair with hprefix | hinfix
    · obtain ⟨rfl, rest', rfl⟩ := List.cons_prefix_cons.mp hprefix
      exact (below_extend h hd hspine ⟨[], rest', hs.symm⟩).of_index_eq rfl
    · exact below_extend h hd hspine (hs ▸ List.infix_cons hinfix)

/-- A piece of a text is added to the open field. -/
theorem stays (h : d.SlotsHold d.spine) (hd : d.SpineStands) {top : OpenNode}
    {rest : List OpenNode} (hs : d.spine = top :: rest) {t : NodeType}
    (ht : top.fieldType? = some t) (htoken : t.constraint = .token)
    (hsplit : d.encoding.splitLeaves = true) (text : String) :
    (d.extend (.generateToken (.value text)) .stays).SlotsHold d.spine := by
  have hspine : ∀ n ∈ d.spine, n.index = d.size ∨ ∃ m ∈ d.spine, m.index = n.index :=
    fun n hn => .inr ⟨n, hn, rfl⟩
  refine
    { stands := hd.stands_extend _ .stays
      closed := ?closed
      passed := fun n hn f u hf hu => passed_extend h hd hspine hn hf hu
      top := ?top
      below := fun n up hpair => below_extend h hd hspine hpair }
  case closed =>
    intro i r hr hi f u hu
    have hlt := lt_size_of_action? (expansion?_eq_some_iff.mp hr)
    rw [size_extend] at hlt
    have hne : i ≠ d.size := by
      rintro rfl
      rw [expansion?_eq_some_iff, action?_extend, if_pos rfl] at hr
      exact nomatch hr
    exact closed_extend h hd hspine (by omega) hr hi hu
  case top =>
    intro n hn u hu i hi
    have htop : top = n := by simpa [hs] using hn
    subst htop
    obtain rfl : t = u := Option.some.inj (ht.symm.trans hu)
    have hhead : d.head? = some top.slot := by rw [head?, hn]; rfl
    rw [linksAt_extend hd.headInBounds, if_pos hhead] at hi
    rcases List.mem_append.mp hi with hi | hi
    · exact piece_extend hspine (h.top top hn t ht i hi)
    · obtain rfl := List.mem_singleton.mp hi
      rw [htoken]
      exact .value d.size text hsplit (by rw [action?_extend, if_pos rfl])

/-- An accepted action keeps what the slots hold. -/
theorem apply {d' : Derivation} {a : Action} (h : d.SlotsHold d.spine) (hd : d.SpineStands)
    (ha : d.apply a = .ok d') : d'.SlotsHold d'.spine := by
  cases moves_of_apply hd.headOpen ha with
  | root r hs hsize => exact (h.opens hd (fun _ => hsize) r (by simp [hs])).settle
  | opens top rest t r hs ht htakes =>
    have hnew := h.opens hd (fun hnil => absurd hnil (by simp [hs])) r fun n hn =>
      ⟨t, by rw [hs] at hn; exact Option.mem_some.mp hn ▸ ht, htakes⟩
    exact hnew.settle
  | fills top rest t a hs ht hends =>
    rw [SpineStands.spine_extend_fills hs]
    exact (h.fills hd hs ht hends).settle
  | stays top rest t text hs ht htoken hsplit => exact h.stays hd hs ht htoken hsplit text

end SlotsHold

theorem Grown.slotsHold {e : Encoding} {admits : Option NodeType → Action → Prop}
    {d : Derivation} (h : Grown e admits d) : d.SlotsHold d.spine := by
  induction h with
  | empty => exact .empty e
  | apply a hd _ ha ih => exact ih.apply hd.spineStands ha

end TreeDerivation.Derivation
