import TreeDerivation.Proofs.Derivation.OpenFields

/-!
# How a derivation lays out a parse

Replaying the word of a parse puts its expansions into the steps in pre-order. `Parse.steps` says
which steps these are: each with its action, the slot that it fills and, for each field of an
expansion, the numbers of the steps in it (`Fill.allLinks`).

The replay is stated at an open field of any derivation (`applyAll_word`): the steps of the parse
are put at the end, the first of them is linked into the open field, nothing else changes, and the
nodes above close as far as they are filled. Replayed from nothing, the word of a parse gives the
steps of the parse and leaves nothing open (`replay_word`).
-/

namespace TreeDerivation

/-! ## Links and steps of a parse -/

/-- The numbers of the steps that open the elements of a list, if the first has number `i`. -/
def Parse.starts (i : Nat) : List Parse → List Nat
  | [] => []
  | p :: ps => i :: Parse.starts (i + p.word.length) ps

/-- The numbers of the steps linked into a field that is filled from number `i` on. -/
def Fill.links (i : Nat) : Fill → List Nat
  | .node _ => [i]
  | .list ps => Parse.starts i ps ++ [i + (Parse.words ps).length]
  | .text pieces => List.range' i (pieces.length + 1)
  | .token _ => [i]

/-- The numbers of the steps linked into each of the fields filled from number `i` on. -/
def Fill.allLinks (i : Nat) : List Fill → List (List Nat)
  | [] => []
  | f :: fs => f.links i :: Fill.allLinks (i + f.word.length) fs

/-- A step that opens no node. -/
def Step.plain (slot : Slot) (a : Action) : Step :=
  ⟨a, some slot, #[]⟩

/-- The slots of a step, given what is linked into each. -/
def slotsOf (links : List (List Nat)) : Array (Array Nat) :=
  (links.map List.toArray).toArray

/-- A step that opens a node whose fields are filled from number `i` on. -/
def Step.opening (parent : Option Slot) (r : Expansion) (i : Nat) (fs : List Fill) : Step :=
  ⟨.applyRule (.expandTree r), parent, slotsOf (Fill.allLinks i fs)⟩

mutual

/-- The steps of a parse of which the first has number `i` and fills `parent`. -/
def Parse.steps (i : Nat) (parent : Option Slot) : Parse → List Step
  | .expand r fs => Step.opening parent r (i + 1) fs :: Fill.allSteps i 0 (i + 1) fs

/-- The steps that fill a slot from number `i` on. -/
def Fill.steps (slot : Slot) (i : Nat) : Fill → List Step
  | .node p => p.steps i (some slot)
  | .list ps => Parse.eachSteps slot i ps ++ [.plain slot (.applyRule .closeVariadic)]
  | .text pieces =>
    (pieceActions pieces ++ [Action.generateToken .closeNode]).map (Step.plain slot)
  | .token t => [.plain slot (.generateToken t)]

/-- The steps that fill the fields of step `owner` from field `k` and number `i` on. -/
def Fill.allSteps (owner k i : Nat) : List Fill → List Step
  | [] => []
  | f :: fs => f.steps ⟨owner, k⟩ i ++ Fill.allSteps owner (k + 1) (i + f.word.length) fs

/-- The steps of the elements of a list in a slot, from number `i` on. -/
def Parse.eachSteps (slot : Slot) (i : Nat) : List Parse → List Step
  | [] => []
  | p :: ps => p.steps i (some slot) ++ Parse.eachSteps slot (i + p.word.length) ps

end

mutual

theorem Parse.length_steps (i : Nat) (parent : Option Slot) :
    ∀ p : Parse, (p.steps i parent).length = p.word.length
  | .expand r fs => by
    rw [Parse.steps, Parse.word, List.length_cons, List.length_cons, Fill.length_allSteps]

theorem Fill.length_steps (slot : Slot) (i : Nat) :
    ∀ f : Fill, (f.steps slot i).length = f.word.length
  | .node p => by rw [Fill.steps, Fill.word, Parse.length_steps]
  | .list ps => by
    rw [Fill.steps, Fill.word, List.length_append, List.length_append, Parse.length_eachSteps]
    rfl
  | .text pieces => by rw [Fill.steps, Fill.word, List.length_map]
  | .token t => by
    rw [Fill.steps, Fill.word]
    rfl

theorem Fill.length_allSteps (owner k i : Nat) :
    ∀ fs : List Fill, (Fill.allSteps owner k i fs).length = (Fill.words fs).length
  | [] => by
    rw [Fill.allSteps, Fill.words]
    rfl
  | f :: fs => by
    rw [Fill.allSteps, Fill.words, List.length_append, List.length_append, Fill.length_steps,
      Fill.length_allSteps]

theorem Parse.length_eachSteps (slot : Slot) (i : Nat) :
    ∀ ps : List Parse, (Parse.eachSteps slot i ps).length = (Parse.words ps).length
  | [] => by
    rw [Parse.eachSteps, Parse.words]
    rfl
  | p :: ps => by
    rw [Parse.eachSteps, Parse.words, List.length_append, List.length_append, Parse.length_steps,
      Parse.length_eachSteps]

end

/-! ## Linking steps into a slot -/

namespace Derivation

/-- Adds numbers of steps to a slot. -/
def attach (steps : Array Step) (slot : Slot) (numbers : List Nat) : Array Step :=
  steps.modify slot.action fun s =>
    { s with slots := s.slots.modify slot.field (· ++ numbers.toArray) }

/-- Adds the links of fields that are filled from number `i` on to the slots of step `owner`, from
field `k` on. -/
def attachAll (steps : Array Step) (owner k i : Nat) : List Fill → Array Step
  | [] => steps
  | f :: fs =>
    attachAll (attach steps ⟨owner, k⟩ (f.links i)) owner (k + 1) (i + f.word.length) fs

theorem linkInto_eq_attach (steps : Array Step) (slot : Slot) (i : Nat) :
    linkInto steps slot i = attach steps slot [i] := by
  simp [linkInto, attach]

@[simp] theorem size_attach (steps : Array Step) (slot : Slot) (numbers : List Nat) :
    (attach steps slot numbers).size = steps.size := by
  simp [attach]

theorem attach_nil (steps : Array Step) (slot : Slot) : attach steps slot [] = steps := by
  have hslots : ∀ slots : Array (Array Nat), slots.modify slot.field (· ++ #[]) = slots := by
    intro slots
    apply Array.ext_getElem?
    intro k
    simp [Array.getElem?_modify]
  apply Array.ext_getElem?
  intro j
  simp only [attach, Array.getElem?_modify]
  split
  · cases steps[j]? with
    | none => rfl
    | some s => simp only [Option.map_some, hslots]
  · rfl

theorem attach_attach (steps : Array Step) (slot : Slot) (is js : List Nat) :
    attach (attach steps slot is) slot js = attach steps slot (is ++ js) := by
  have hslots : ∀ slots : Array (Array Nat),
      (slots.modify slot.field (· ++ is.toArray)).modify slot.field (· ++ js.toArray) =
        slots.modify slot.field (· ++ (is ++ js).toArray) := by
    intro slots
    apply Array.ext_getElem?
    intro k
    simp only [Array.getElem?_modify]
    split
    · cases slots[k]? <;> simp
    · rfl
  apply Array.ext_getElem?
  intro j
  simp only [attach, Array.getElem?_modify]
  split
  · cases steps[j]? with
    | none => rfl
    | some s => simp [hslots]
  · rfl

/-- Linking into one of the first steps leaves those after them alone. -/
theorem attach_append {steps : Array Step} {slot : Slot} (h : slot.action < steps.size)
    (more : Array Step) (is : List Nat) :
    attach (steps ++ more) slot is = attach steps slot is ++ more := by
  apply Array.ext_getElem?
  intro j
  simp only [attach, Array.getElem?_modify, Array.getElem?_append, Array.size_modify]
  split
  · rename_i hj
    rw [if_pos (hj ▸ h), if_pos (hj ▸ h)]
  · split <;> simp_all

theorem attachAll_append {steps : Array Step} {owner : Nat} (h : owner < steps.size)
    (more : Array Step) (k i : Nat) (fs : List Fill) :
    attachAll (steps ++ more) owner k i fs = attachAll steps owner k i fs ++ more := by
  induction fs generalizing steps k i with
  | nil => rfl
  | cons f fs ih =>
    simp only [attachAll]
    rw [attach_append h, ih (by simpa using h)]

/-- Linking into the first free slot of the last step. -/
theorem attach_push (steps : Array Step) (a : Action) (parent : Option Slot)
    (before : List (List Nat)) (n : Nat) (is : List Nat) :
    attach (steps.push ⟨a, parent, slotsOf (before ++ List.replicate (n + 1) [])⟩)
        ⟨steps.size, before.length⟩ is =
      steps.push ⟨a, parent, slotsOf (before ++ [is] ++ List.replicate n [])⟩ := by
  have hslots : (slotsOf (before ++ List.replicate (n + 1) [])).modify before.length
      (· ++ is.toArray) = slotsOf (before ++ [is] ++ List.replicate n []) := by
    have hmodify := List.modifyTailIdx_add (List.modifyHead (· ++ is.toArray)) 0
      (before.map List.toArray) (#[] :: List.replicate n #[])
    rw [List.length_map, Nat.add_zero] at hmodify
    simpa [slotsOf, List.replicate_succ, List.modify] using hmodify
  apply Array.ext_getElem?
  intro j
  simp only [attach, Array.getElem?_modify, Array.getElem?_push]
  split
  · rename_i hj
    rw [if_pos hj.symm, if_pos hj.symm, Option.map_some, hslots]
  · rename_i hj
    rw [if_neg (Ne.symm hj), if_neg (Ne.symm hj)]

/-- The last step with the links of all its fields. -/
theorem attachAll_push (steps : Array Step) (a : Action) (parent : Option Slot)
    (before : List (List Nat)) (i : Nat) (fs : List Fill) :
    attachAll (steps.push ⟨a, parent, slotsOf (before ++ List.replicate fs.length [])⟩)
        steps.size before.length i fs =
      steps.push ⟨a, parent, slotsOf (before ++ Fill.allLinks i fs)⟩ := by
  induction fs generalizing before i with
  | nil => rfl
  | cons f fs ih =>
    have hlength : before.length + 1 = (before ++ [f.links i]).length := by simp
    rw [attachAll, List.length_cons, attach_push, hlength, ih, Fill.allLinks, List.append_assoc]
    rfl

/-! ## Replaying a parse -/

/-- A derivation after steps were added at its end, some of them linked into one slot. -/
def put (d : Derivation) (slot : Slot) (numbers : List Nat) (new : List Step)
    (spine : List OpenNode) : Derivation :=
  ⟨d.encoding, attach d.steps slot numbers ++ new.toArray, spine⟩

@[simp] theorem encoding_put (d : Derivation) (slot : Slot) (is : List Nat) (new : List Step)
    (spine : List OpenNode) : (d.put slot is new spine).encoding = d.encoding := rfl

@[simp] theorem spine_put (d : Derivation) (slot : Slot) (is : List Nat) (new : List Step)
    (spine : List OpenNode) : (d.put slot is new spine).spine = spine := rfl

@[simp] theorem size_put (d : Derivation) (slot : Slot) (is : List Nat) (new : List Step)
    (spine : List OpenNode) : (d.put slot is new spine).size = d.size + new.length := by
  simp [put, size]

theorem put_nil {d : Derivation} {spine : List OpenNode} (hs : d.spine = spine) (slot : Slot) :
    d.put slot [] [] spine = d := by
  rw [put, attach_nil, ← hs]
  simp

/-- Steps that are put into one slot in two portions. -/
theorem put_put {d : Derivation} {slot : Slot} (h : slot.action < d.size) (is js : List Nat)
    (new more : List Step) (spine spine' : List OpenNode) :
    (d.put slot is new spine).put slot js more spine' =
      d.put slot (is ++ js) (new ++ more) spine' := by
  have hsize : slot.action < (attach d.steps slot is).size := by rwa [size_attach]
  simp only [put]
  rw [attach_append hsize, attach_attach, Array.append_assoc]
  simp

/-- Extending a derivation at its head puts one step into the open slot. -/
theorem extend_eq_put {d : Derivation} {top : OpenNode} {rest : List OpenNode}
    (hs : d.spine = top :: rest) (a : Action) (f : Effect) :
    d.extend a f =
      d.put top.slot [d.size] [⟨a, some top.slot, Array.replicate f.arity #[]⟩] (d.moved f) := by
  simp [extend, linked, head?, hs, put, linkInto_eq_attach]

/-- At an open head the effect of an action is decided by the type of the open field. -/
theorem effect_eq_effectAt {d : Derivation} {top : OpenNode} {rest : List OpenNode} {t : NodeType}
    (hs : d.spine = top :: rest) (ht : top.fieldType? = some t) (a : Action) :
    d.effect a = effectAt d.encoding (some t.constraint) a := by
  simp [effect, isComplete, headType?, hs, ht]

theorem apply_of_effectAt {d : Derivation} {top : OpenNode} {rest : List OpenNode} {t : NodeType}
    {a : Action} {f : Effect} (hs : d.spine = top :: rest) (ht : top.fieldType? = some t)
    (h : effectAt d.encoding (some t.constraint) a = .ok f) :
    d.apply a = .ok (d.put top.slot [d.size] [⟨a, some top.slot, Array.replicate f.arity #[]⟩]
      (d.moved f)) := by
  rw [apply_of_effect ((effect_eq_effectAt hs ht a).trans h), extend_eq_put hs]

theorem apply_expand {d : Derivation} {top : OpenNode} {rest : List OpenNode} {t : NodeType}
    (hs : d.spine = top :: rest) (ht : top.fieldType? = some t) (htok : t.constraint ≠ .token)
    (r : Expansion) :
    d.apply (.applyRule (.expandTree r)) = .ok (d.put top.slot [d.size]
      [⟨.applyRule (.expandTree r), some top.slot, slotsOf (List.replicate r.arity [])⟩]
      (settle d.encoding.retainVariadic ⟨d.size, r, 0⟩ (top :: rest))) := by
  have h : effectAt d.encoding (some t.constraint) (.applyRule (.expandTree r)) =
      .ok (.opens r) := by
    cases hc : t.constraint with
    | token => exact absurd hc htok
    | node => rfl
    | variadic => rfl
  rw [apply_of_effectAt hs ht h]
  simp [moved, hs, Effect.arity, slotsOf]

/-- An action that fills the open field. -/
theorem apply_fills {d : Derivation} {top : OpenNode} {rest : List OpenNode} {t : NodeType}
    {a : Action} (hs : d.spine = top :: rest) (ht : top.fieldType? = some t)
    (h : effectAt d.encoding (some t.constraint) a = .ok .fills) :
    d.apply a = .ok (d.put top.slot [d.size] [.plain top.slot a]
      (settle d.encoding.retainVariadic top.advance rest)) := by
  rw [apply_of_effectAt hs ht h]
  simp [moved, hs, Effect.arity, Step.plain]

/-- An action after which the open field takes more. -/
theorem apply_stays {d : Derivation} {top : OpenNode} {rest : List OpenNode} {t : NodeType}
    {a : Action} (hs : d.spine = top :: rest) (ht : top.fieldType? = some t)
    (h : effectAt d.encoding (some t.constraint) a = .ok .stays) :
    d.apply a = .ok (d.put top.slot [d.size] [.plain top.slot a] (top :: rest)) := by
  rw [apply_of_effectAt hs ht h]
  simp [moved, hs, Effect.arity, Step.plain]

/-- The pieces of a text, put into the open slot one after the other. -/
theorem applyAll_pieceActions {d : Derivation} {top : OpenNode} {rest : List OpenNode}
    {t : NodeType} (hs : d.spine = top :: rest) (hb : top.index < d.size)
    (ht : top.fieldType? = some t) (htok : t.constraint = .token)
    (hsplit : d.encoding.splitLeaves = true) (pieces : List String) :
    d.applyAll (pieceActions pieces) = .ok (d.put top.slot (List.range' d.size pieces.length)
      ((pieceActions pieces).map (Step.plain top.slot)) (top :: rest)) := by
  induction pieces generalizing d with
  | nil => exact congrArg Except.ok (put_nil hs top.slot).symm
  | cons s pieces ih =>
    have heffect : effectAt d.encoding (some t.constraint) (.generateToken (.value s)) =
        .ok .stays := by
      rw [htok]
      simp [effectAt, Token.isClose, hsplit]
    rw [pieceActions, List.map_cons, applyAll_of_apply (apply_stays hs ht heffect)]
    refine (ih (spine_put _ _ _ _ _) ?_ hsplit).trans ?_
    · rw [size_put]
      omega
    · rw [put_put hb, size_put]
      rfl

/-- A new node after all its fields were filled, at the end of the steps. -/
theorem attachAll_put {d : Derivation} {top : OpenNode} {r : Expansion} {fs : List Fill}
    (hlength : fs.length = r.arity) (spine : List OpenNode) :
    attachAll (d.put top.slot [d.size] [⟨.applyRule (.expandTree r), some top.slot,
        slotsOf (List.replicate r.arity [])⟩] spine).steps d.size 0 (d.size + 1) fs ++
        (Fill.allSteps d.size 0 (d.size + 1) fs).toArray =
      attach d.steps top.slot [d.size] ++
        ((Parse.expand r fs).steps d.size (some top.slot)).toArray := by
  have hsize : (attach d.steps top.slot [d.size]).size = d.size := size_attach _ _ _
  have hpush := attachAll_push (attach d.steps top.slot [d.size]) (.applyRule (.expandTree r))
    (some top.slot) [] (d.size + 1) fs
  rw [hsize, hlength] at hpush
  simp only [List.nil_append, List.length_nil, Array.push_eq_append] at hpush
  simp only [put, hpush, Parse.steps, Step.opening]
  simp

mutual

/-- Replaying a parse at an open field puts its steps there, linked by the first of them, and
closes the nodes that are filled then. -/
theorem applyAll_word {admits : NodeType → Expansion → Prop} :
    ∀ (p : Parse) {d : Derivation} {top : OpenNode} {rest : List OpenNode} {t : NodeType},
      d.spine = top :: rest → top.index < d.size → top.fieldType? = some t →
      t.constraint ≠ .token → p.Fits d.encoding admits →
      d.applyAll p.word = .ok (d.put top.slot [d.size] (p.steps d.size (some top.slot))
        (settle d.encoding.retainVariadic (top.receive d.encoding.retainVariadic) rest))
  | .expand r fs, d, top, rest, t, hs, hb, ht, htok, hp => by
    rw [Parse.word, applyAll_of_apply (apply_expand hs ht htok r)]
    rw [Parse.Fits] at hp
    have hlength : fs.length = r.arity := by
      rw [Fill.length_eq_of_fitAll hp, Expansion.length_fieldTypes]
    -- the fields are filled at the new step, which is the last one
    refine (applyAll_fills fs (spine_put _ _ _ _ _) ?_ hp).trans ?_
    · rw [size_put]
      exact Nat.lt_succ_self d.size
    · have hfilled : (OpenNode.mk d.size r (0 + fs.length)).isFilled = true := by
        simp [OpenNode.isFilled, hlength]
      rw [size_put, encoding_put, settle_of_isFilled hfilled]
      simp only [List.length_singleton]
      rw [attachAll_put hlength]
      rfl

/-- Replaying what fills the open field. -/
theorem applyAll_fill {admits : NodeType → Expansion → Prop} :
    ∀ (f : Fill) {d : Derivation} {top : OpenNode} {rest : List OpenNode} {t : NodeType},
      d.spine = top :: rest → top.index < d.size → top.fieldType? = some t →
      f.Fits d.encoding admits t →
      d.applyAll f.word = .ok (d.put top.slot (f.links d.size) (f.steps top.slot d.size)
        (settle d.encoding.retainVariadic top.advance rest))
  | .node p, d, top, rest, t, hs, hb, ht, hf => by
    obtain ⟨hone, -, hp⟩ := hf
    rw [Fill.word, Fill.steps, Fill.links, applyAll_word p hs hb ht hone.ne_token hp,
      OpenNode.receive_eq_advance ht hone]
  | .list ps, d, top, rest, t, hs, hb, ht, hf => by
    obtain ⟨hmany, hps⟩ := hf
    have hclose : effectAt d.encoding (some t.constraint) (.applyRule .closeVariadic) =
        .ok .fills := by
      rw [hmany.1]
      simp [effectAt, hmany.2]
    rw [Fill.word, applyAll_of_applyAll (applyAll_elements ps hs hb ht hmany hps),
      applyAll_of_apply (apply_fills (spine_put _ _ _ _ _) ht hclose), applyAll_nil, put_put hb,
      size_put, Parse.length_eachSteps]
    rfl
  | .text pieces, d, top, rest, t, hs, hb, ht, hf => by
    obtain ⟨htok, hsplit⟩ := hf
    have hclose : effectAt d.encoding (some t.constraint) (.generateToken .closeNode) =
        .ok .fills := by
      rw [htok]
      simp [effectAt, Token.isClose]
    rw [Fill.word, applyAll_of_applyAll (applyAll_pieceActions hs hb ht htok hsplit pieces),
      applyAll_of_apply (apply_fills (spine_put _ _ _ _ _) ht hclose), applyAll_nil, put_put hb,
      size_put, Fill.steps, Fill.links, List.range'_concat, List.map_append]
    simp [pieceActions]
  | .token k, d, top, rest, t, hs, hb, ht, hf => by
    obtain ⟨htok, hsplit⟩ := hf
    have heffect : effectAt d.encoding (some t.constraint) (.generateToken k) = .ok .fills := by
      rw [htok]
      simp [effectAt, hsplit]
    rw [Fill.word, applyAll_of_apply (apply_fills hs ht heffect), applyAll_nil]
    rfl

/-- Replaying what fills all fields of a node from its open field on. -/
theorem applyAll_fills {admits : NodeType → Expansion → Prop} :
    ∀ (fs : List Fill) {d : Derivation} {n : OpenNode} {above : List OpenNode},
      d.spine = settle d.encoding.retainVariadic n above → n.index < d.size →
      Fill.FitAll d.encoding admits n.left fs →
      d.applyAll (Fill.words fs) = .ok ⟨d.encoding, attachAll d.steps n.index n.field d.size fs ++
        (Fill.allSteps n.index n.field d.size fs).toArray,
        settle d.encoding.retainVariadic { n with field := n.field + fs.length } above⟩
  | [], d, n, above, hs, hb, hfs => by
    rw [Fill.words, applyAll_nil, attachAll, Fill.allSteps, List.length_nil, Nat.add_zero, ← hs]
    simp
  | f :: fs, d, n, above, hs, hb, hfs => by
    -- a field is left, so the node is the head
    have hfilled : n.isFilled = false := by
      cases h : n.isFilled with
      | false => rfl
      | true =>
        rw [(n.left_eq_nil_iff).mpr h] at hfs
        exact absurd hfs (by simp [Fill.FitAll])
    obtain ⟨t, ht, hleft⟩ := OpenNode.exists_left_eq_cons hfilled
    rw [hleft] at hfs
    rw [settle_of_not_isFilled hfilled] at hs
    rw [Fill.words, applyAll_of_applyAll (applyAll_fill f hs hb ht hfs.1)]
    refine (applyAll_fills fs (d := d.put _ _ _ _) (n := n.advance) rfl ?_ hfs.2).trans ?_
    · rw [size_put]
      exact Nat.lt_add_right _ hb
    · have hsize : n.index < (attach d.steps n.slot (f.links d.size)).size := by
        rwa [size_attach]
      have hfield : n.field + 1 + fs.length = n.field + (f :: fs).length := by
        rw [List.length_cons]
        omega
      rw [size_put, Fill.length_steps]
      simp only [OpenNode.advance, encoding_put, hfield]
      rw [put, attachAll_append hsize, Fill.allSteps, attachAll, Array.append_assoc]
      simp [OpenNode.slot]

/-- Replaying the elements of an open-ended list. -/
theorem applyAll_elements {admits : NodeType → Expansion → Prop} :
    ∀ (ps : List Parse) {d : Derivation} {top : OpenNode} {rest : List OpenNode} {t : NodeType},
      d.spine = top :: rest → top.index < d.size → top.fieldType? = some t →
      takesMany d.encoding t → Parse.FitEach d.encoding admits t ps →
      d.applyAll (Parse.words ps) = .ok (d.put top.slot (Parse.starts d.size ps)
        (Parse.eachSteps top.slot d.size ps) (top :: rest))
  | [], d, top, rest, t, hs, hb, ht, hmany, hps => by
    rw [Parse.words, applyAll_nil, Parse.starts, Parse.eachSteps, put_nil hs]
  | p :: ps, d, top, rest, t, hs, hb, ht, hmany, hps => by
    have hword := applyAll_word p hs hb ht hmany.ne_token hps.1.2
    rw [OpenNode.receive_eq_self ht hmany,
      settle_of_not_isFilled (OpenNode.isFilled_of_fieldType? ht)] at hword
    rw [Parse.words, applyAll_of_applyAll hword]
    refine (applyAll_elements ps (spine_put _ _ _ _ _) ?_ ht hmany hps.2).trans ?_
    · rw [size_put]
      exact Nat.lt_add_right _ hb
    · rw [put_put hb, size_put, Parse.length_steps]
      rfl

end

/-- Replayed from nothing, the word of a parse gives the steps of the parse, and nothing is left
open. -/
theorem replay_word {e : Encoding} {admits : NodeType → Expansion → Prop} {p : Parse}
    (hp : p.Fits e admits) : replay e p.word = .ok ⟨e, (p.steps 0 none).toArray, []⟩ := by
  obtain ⟨r, fs⟩ := p
  rw [Parse.Fits] at hp
  have hlength : fs.length = r.arity := by
    rw [Fill.length_eq_of_fitAll hp, Expansion.length_fieldTypes]
  have hfilled : (OpenNode.mk 0 r fs.length).isFilled = true := by
    simp [OpenNode.isFilled, hlength]
  let step : Step := ⟨.applyRule (.expandTree r), none, slotsOf (List.replicate r.arity [])⟩
  let opened : Derivation := ⟨e, #[step], settle e.retainVariadic ⟨0, r, 0⟩ []⟩
  have hroot : (empty e).apply (.applyRule (.expandTree r)) = .ok opened := by
    rw [apply_of_effect (f := .opens r) (by rfl)]
    simp [extend, linked, moved, empty, head?, Effect.arity, size, slotsOf, opened, step]
  have hpush := attachAll_push #[] (.applyRule (.expandTree r)) none [] 1 fs
  rw [hlength] at hpush
  rw [Parse.word, replay, applyAll_of_apply hroot,
    applyAll_fills fs (d := opened) (n := ⟨0, r, 0⟩) rfl (by simp [opened, size]) hp]
  simp only [List.nil_append, List.length_nil, List.size_toArray, List.push_toArray] at hpush
  simp [settle, hfilled, size, hpush, Parse.steps, Step.opening, opened, step]

theorem isComplete_steps (e : Encoding) (p : Parse) :
    isComplete ⟨e, (p.steps 0 none).toArray, []⟩ = true := by
  obtain ⟨r, fs⟩ := p
  simp [isComplete, isEmpty, Parse.steps]

end Derivation

end TreeDerivation
