import Mathlib.Data.List.Forall2
import TreeDerivation.Proofs.Derivation.Language
import TreeDerivation.Proofs.Derivation.Run
import TreeDerivation.Proofs.Outcome

/-!
# What a derivation looks at

A derivation looks at no name and at no text. Of an action it sees the kind, and of an expansion the
constraints of its fields; where leaves are whole, one token is to it like any other (`Alike`). Two
words whose actions are alike, place by place, are accepted and rejected at the same places, and
after each place the two derivations have the same links, the same head and the same constraint at
it (`sameShape_attemptAll`).

So whether the types fit is decided elsewhere, by what a search admits; a derivation only keeps the
shape of its tree in order.

The two runs are not compared with each other but with a third one. `Action.bare` strips an action
of all names and texts, and a derivation of bare actions is the derivation of the actions, stripped
(`bare_attemptAll`): stripping commutes with the effect of an action (`effectAt_bare`), with closing
filled nodes (`settle_bare`) and with linking the new step (`bare_extend`). Actions that are alike
are the same when stripped (`Action.bare_eq_of_alike`).
-/

namespace TreeDerivation

/-! ## Actions without names and texts -/

namespace NodeType

/-- The type with its constraint only. -/
def bare (t : NodeType) : NodeType :=
  ⟨"", t.constraint⟩

end NodeType

namespace Expansion

/-- The expansion with the constraints of its fields only. -/
def bare (r : Expansion) : Expansion :=
  ⟨⟨"", .node⟩, r.children.map fun field => ("", field.2.bare)⟩

@[simp] theorem arity_bare (r : Expansion) : r.bare.arity = r.arity := by
  simp [arity, bare]

theorem fieldType?_bare (r : Expansion) (i : Nat) :
    r.bare.fieldType? i = (r.fieldType? i).map NodeType.bare := by
  simp only [fieldType?, bare, List.getElem?_map, Option.map_map]
  rfl

theorem bare_eq_iff {r r' : Expansion} : r.bare = r'.bare ↔
    r.fieldTypes.map NodeType.constraint = r'.fieldTypes.map NodeType.constraint := by
  have hbare : ∀ r : Expansion, r.bare.children =
      (r.fieldTypes.map NodeType.constraint).map fun c => ("", ⟨"", c⟩) := by
    intro r
    simp only [bare, fieldTypes, List.map_map]
    rfl
  have hinj : Function.Injective fun c : Constraint => ("", NodeType.mk "" c) := by
    intro c c' h
    exact (NodeType.mk.inj (Prod.mk.inj h).2).2
  rw [← (List.map_injective_iff.mpr hinj).eq_iff, ← hbare, ← hbare]
  exact ⟨congrArg children, fun h => congrArg (Expansion.mk ⟨"", .node⟩) h⟩

end Expansion

namespace Action

/-- The action without names and texts. Where leaves are whole, all tokens become the same. -/
def bare (e : Encoding) : Action → Action
  | .applyRule (.expandTree r) => .applyRule (.expandTree r.bare)
  | .applyRule .closeVariadic => .applyRule .closeVariadic
  | .generateToken t =>
    .generateToken (if t.isClose ∨ ¬ e.splitLeaves then .closeNode else .value "")

/-- Whether two actions are of one kind: expansions with as many fields of the same constraints,
list sentinels, pieces of text, leaf sentinels, or any two tokens where leaves are whole. -/
inductive Alike (e : Encoding) : Action → Action → Prop where
  | expansion (r r' : Expansion) :
    r.fieldTypes.map NodeType.constraint = r'.fieldTypes.map NodeType.constraint →
    Alike e (.applyRule (.expandTree r)) (.applyRule (.expandTree r'))
  | closeVariadic : Alike e (.applyRule .closeVariadic) (.applyRule .closeVariadic)
  | value (text text' : String) :
    Alike e (.generateToken (.value text)) (.generateToken (.value text'))
  | closeNode : Alike e (.generateToken .closeNode) (.generateToken .closeNode)
  | token (t t' : Token) : e.splitLeaves = false → Alike e (.generateToken t) (.generateToken t')

theorem bare_eq_of_alike {e : Encoding} {a b : Action} (h : Alike e a b) : a.bare e = b.bare e := by
  cases h with
  | expansion r r' h => rw [bare, bare, Expansion.bare_eq_iff.mpr h]
  | closeVariadic => rfl
  | value text text' => rfl
  | closeNode => rfl
  | token t t' h => simp [bare, h]

end Action

/-! ## Derivations without names and texts -/

namespace OpenNode

/-- The open node with the constraints of its fields only. -/
def bare (n : OpenNode) : OpenNode :=
  { n with rule := n.rule.bare }

@[simp] theorem isFilled_bare (n : OpenNode) : n.bare.isFilled = n.isFilled := by
  simp [isFilled, bare]

theorem fieldType?_bare (n : OpenNode) : n.bare.fieldType? = n.fieldType?.map NodeType.bare :=
  n.rule.fieldType?_bare n.field

theorem constraint_fieldType?_bare (n : OpenNode) :
    n.bare.fieldType?.map NodeType.constraint = n.fieldType?.map NodeType.constraint := by
  rw [fieldType?_bare, Option.map_map]
  rfl

@[simp] theorem receive_bare (retain : Bool) (n : OpenNode) :
    n.bare.receive retain = (n.receive retain).bare := by
  rw [receive, receive, constraint_fieldType?_bare]
  split <;> rfl

end OpenNode

theorem settle_bare (retain : Bool) (top : OpenNode) (rest : List OpenNode) :
    settle retain top.bare (rest.map OpenNode.bare) =
      (settle retain top rest).map OpenNode.bare := by
  induction rest generalizing top with
  | nil =>
    rw [List.map_nil, settle, settle, OpenNode.isFilled_bare]
    split <;> rfl
  | cons up rest ih =>
    rw [List.map_cons, settle, settle, OpenNode.isFilled_bare, OpenNode.receive_bare]
    split
    · exact ih _
    · rfl

/-- The step with a bare action. -/
def Step.bare (e : Encoding) (s : Step) : Step :=
  { s with action := s.action.bare e }

namespace Derivation

/-- The effect with a bare rule. -/
def Effect.bare : Effect → Effect
  | .opens rule => .opens rule.bare
  | .fills => .fills
  | .stays => .stays

@[simp] theorem Effect.arity_bare (f : Effect) : f.bare.arity = f.arity := by
  cases f with
  | opens rule => exact rule.arity_bare
  | fills => rfl
  | stays => rfl

/-- The derivation with bare actions and rules. -/
def bare (d : Derivation) : Derivation :=
  ⟨d.encoding, d.steps.map (Step.bare d.encoding), d.spine.map OpenNode.bare⟩

/-! ### What is seen of a bare derivation -/

section

variable (d : Derivation)

@[simp] theorem encoding_bare : d.bare.encoding = d.encoding := rfl

@[simp] theorem size_bare : d.bare.size = d.size :=
  Array.size_map

@[simp] theorem head?_bare : d.bare.head? = d.head? := by
  simp only [head?, bare, List.head?_map, Option.map_map]
  rfl

@[simp] theorem headConstraint?_bare : d.bare.headConstraint? = d.headConstraint? := by
  simp only [headConstraint?, headType?, bare, List.head?_map]
  cases d.spine.head? with
  | none => rfl
  | some top => exact top.constraint_fieldType?_bare

@[simp] theorem isComplete_bare : d.bare.isComplete = d.isComplete := by
  simp [isComplete, isEmpty, bare, Array.isEmpty]

theorem parent?_bare (i : Nat) : d.bare.parent? i = d.parent? i := by
  simp only [parent?, bare, Array.getElem?_map]
  cases d.steps[i]? <;> rfl

theorem slots?_bare (i : Nat) : d.bare.slots? i = d.slots? i := by
  simp only [slots?, bare, Array.getElem?_map]
  cases d.steps[i]? <;> rfl

end

/-! ### What an action does to a bare derivation -/

theorem effectAt_bare (e : Encoding) (c : Option Constraint) (a : Action) :
    effectAt e c (a.bare e) = (effectAt e c a).map Effect.bare := by
  rcases a with (r | _) | t
  · rcases c with _ | _ | _ | _ <;> rfl
  · rcases c with _ | _ | _ | _
    case some.variadic => simp only [effectAt, Action.bare]; split <;> rfl
    all_goals rfl
  · rcases c with _ | _ | _ | _
    case some.token =>
      by_cases hends : t.isClose ∨ ¬ e.splitLeaves
      · simp only [effectAt, Action.bare, if_pos hends]
        rfl
      · simp only [effectAt, Action.bare, if_neg hends]
        have hsplit : e.splitLeaves = true := by_contra fun h => hends (.inr h)
        rw [if_neg (by simp [Token.isClose, hsplit])]
        rfl
    all_goals rfl

theorem effect_bare (d : Derivation) (a : Action) :
    d.bare.effect (a.bare d.encoding) = (d.effect a).map Effect.bare := by
  cases h : d.isComplete with
  | true => rw [effect_of_isComplete h, effect_of_isComplete (by rw [isComplete_bare, h])]; rfl
  | false =>
    rw [effect_of_not_isComplete h, effect_of_not_isComplete (by rw [isComplete_bare, h]),
      encoding_bare, headConstraint?_bare, effectAt_bare]

theorem map_bare_linkInto (e : Encoding) (steps : Array Step) (slot : Slot) (i : Nat) :
    linkInto (steps.map (Step.bare e)) slot i = (linkInto steps slot i).map (Step.bare e) := by
  unfold linkInto
  apply Array.ext
  · simp
  · intro j h₁ h₂
    simp only [Array.getElem_map, Array.getElem_modify]
    split <;> rfl

theorem bare_extend (d : Derivation) (a : Action) (f : Effect) :
    (d.extend a f).bare = d.bare.extend (a.bare d.encoding) f.bare := by
  have hsteps : (d.linked a f.arity).map (Step.bare d.encoding) =
      d.bare.linked (a.bare d.encoding) f.bare.arity := by
    rw [linked, linked, head?_bare, size_bare, Effect.arity_bare]
    cases d.head? with
    | none => exact Array.map_push
    | some slot =>
      dsimp only
      rw [Array.map_push, ← map_bare_linkInto]
      rfl
  have hspine : (d.moved f).map OpenNode.bare = d.bare.moved f.bare := by
    cases f with
    | opens rule =>
      rw [moved, ← settle_bare]
      simp only [moved, Effect.bare, encoding_bare, size_bare]
      rfl
    | fills =>
      simp only [moved, Effect.bare, bare]
      cases d.spine with
      | nil => rfl
      | cons top rest => exact (settle_bare _ top.advance rest).symm
    | stays => rfl
  simp only [bare, extend] at *
  rw [hsteps, hspine]

/-- Trying actions on a bare derivation is trying them without names and texts. -/
theorem bare_attempt (d : Derivation) (a : Action) :
    (d.attempt a).bare = d.bare.attempt (a.bare d.encoding) := by
  have heffect := d.effect_bare a
  cases h : d.effect a with
  | ok f =>
    rw [h] at heffect
    rw [attempt_of_ok (apply_of_effect h), attempt_of_ok (apply_of_effect heffect), bare_extend]
  | error x =>
    rw [h] at heffect
    rw [attempt_of_error (apply_eq_error_iff.mpr ⟨x, h, rfl⟩),
      attempt_of_error (apply_eq_error_iff.mpr ⟨x, heffect, rfl⟩)]

theorem bare_attemptAll (d : Derivation) (w : List Action) :
    (d.attemptAll w).bare = d.bare.attemptAll (w.map (Action.bare d.encoding)) := by
  induction w generalizing d with
  | nil => rfl
  | cons a w ih =>
    show ((d.attempt a).attemptAll w).bare =
      (d.bare.attempt (a.bare d.encoding)).attemptAll (w.map (Action.bare d.encoding))
    rw [ih, encoding_attempt, bare_attempt]

/-! ## Words of actions that are alike -/

/-- Whether two derivations are the same but for names and texts: they have the same links, the same
open field, and something of the same kind fits it. -/
structure SameShape (d d' : Derivation) : Prop where
  size : d.size = d'.size
  head : d.head? = d'.head?
  headConstraint : d.headConstraint? = d'.headConstraint?
  parent : ∀ i, d.parent? i = d'.parent? i
  slots : ∀ i, d.slots? i = d'.slots? i
  complete : d.isComplete = d'.isComplete

theorem sameShape_of_bare_eq {d d' : Derivation} (h : d.bare = d'.bare) : d.SameShape d' where
  size := by rw [← size_bare, h, size_bare]
  head := by rw [← head?_bare, h, head?_bare]
  headConstraint := by rw [← headConstraint?_bare, h, headConstraint?_bare]
  parent i := by rw [← parent?_bare, h, parent?_bare]
  slots i := by rw [← slots?_bare, h, slots?_bare]
  complete := by rw [← isComplete_bare, h, isComplete_bare]

/-- Names and texts change neither whether an action fits nor what would fit in its place. -/
theorem map_effect_eq {d d' : Derivation} {a a' : Action} (hd : d.bare = d'.bare)
    (ha : a.bare d.encoding = a'.bare d'.encoding) :
    (d.effect a).map Effect.bare = (d'.effect a').map Effect.bare := by
  rw [← effect_bare, ← effect_bare, hd, ha]

theorem takes_iff_of_bare_eq {d d' : Derivation} {a a' : Action} (hd : d.bare = d'.bare)
    (ha : a.bare d.encoding = a'.bare d'.encoding) : d.Takes a ↔ d'.Takes a' := by
  have hmap : ∀ (d : Derivation) (a : Action),
      d.Takes a ↔ ∃ f, (d.effect a).map Effect.bare = .ok f := by
    intro d a
    simp only [takes_iff, map_eq_ok_iff]
    exact ⟨fun ⟨f, hf⟩ => ⟨f.bare, f, hf, rfl⟩, fun ⟨_, f, hf, _⟩ => ⟨f, hf⟩⟩
  rw [hmap, hmap, map_effect_eq hd ha]

theorem rejected_iff_of_bare_eq {d d' : Derivation} {a a' : Action} (hd : d.bare = d'.bare)
    (ha : a.bare d.encoding = a'.bare d'.encoding) (x : Expectation) :
    d.apply a = .error (Failure.of (.rejected x a d.size)) ↔
      d'.apply a' = .error (Failure.of (.rejected x a' d'.size)) := by
  rw [apply_eq_rejected_iff, apply_eq_rejected_iff, ← map_eq_error_iff (g := Effect.bare),
    map_effect_eq hd ha, map_eq_error_iff]

theorem map_bare_eq {e : Encoding} {w w' : List Action} (h : List.Forall₂ (Action.Alike e) w w') :
    w.map (Action.bare e) = w'.map (Action.bare e) := by
  induction h with
  | nil => rfl
  | cons hab _ ih => rw [List.map_cons, List.map_cons, Action.bare_eq_of_alike hab, ih]

/-- Two words of actions that are alike, place by place, are tried with the same success: at each
place both actions fit or neither does, what would fit in their place is the same, and the
derivations before and after it are the same but for names and texts. -/
theorem sameShape_attemptAll (e : Encoding) {w w' : List Action}
    (h : List.Forall₂ (Action.Alike e) w w') (n : Nat) :
    let d := (empty e).attemptAll (w.take n)
    let d' := (empty e).attemptAll (w'.take n)
    d.SameShape d' ∧
    ∀ a a', w[n]? = some a → w'[n]? = some a' →
      (d.Takes a ↔ d'.Takes a') ∧
      ∀ x, d.apply a = .error (Failure.of (.rejected x a d.size)) ↔
        d'.apply a' = .error (Failure.of (.rejected x a' d'.size)) := by
  intro d d'
  have hbare := map_bare_eq h
  have hd : d.bare = d'.bare := by
    show ((empty e).attemptAll (w.take n)).bare = ((empty e).attemptAll (w'.take n)).bare
    rw [bare_attemptAll, bare_attemptAll, List.map_take, List.map_take]
    exact congrArg (fun v => (empty e).bare.attemptAll (v.take n)) hbare
  refine ⟨sameShape_of_bare_eq hd, fun a a' ha ha' => ?_⟩
  have haction : a.bare d.encoding = a'.bare d'.encoding := by
    rw [(grown_attemptAll e (w.take n)).encoding_eq, (grown_attemptAll e (w'.take n)).encoding_eq]
    have hplace := congrArg (·[n]?) hbare
    simpa [ha, ha'] using hplace
  exact ⟨takes_iff_of_bare_eq hd haction, rejected_iff_of_bare_eq hd haction⟩

/-- Two words without a name or text in common, one of which closes a leaf where the other emits a
piece. Leaves are whole, so the list sentinel is rejected by both, the first token closes two nodes
and the second one meets a complete derivation. -/
theorem sameShape_attemptAll_names :
    let e : Encoding := { splitLeaves := false }
    let root (parent : NodeType) (field type : String) : Action :=
      .applyRule (.expandTree ⟨parent, [(field, ⟨type, .node⟩)]⟩)
    let leaf (name field type : String) : Action :=
      .applyRule (.expandTree ⟨⟨name, .node⟩, [(field, ⟨type, .token⟩)]⟩)
    let close : Action := .applyRule .closeVariadic
    let w := [root ⟨"A", .node⟩ "a" "B", leaf "B" "b" "str", close,
      .generateToken (.value "x"), .generateToken .closeNode]
    let w' := [root ⟨"", .token⟩ "" "D", leaf "E" "e" "F", close,
      .generateToken .closeNode, .generateToken (.value "y")]
    List.Forall₂ (Action.Alike e) w w' ∧
      ((empty e).attemptAll (w'.take 2)).apply close =
        .error (Failure.of (.rejected .token close 2)) ∧
      ((empty e).attemptAll w).SameShape ((empty e).attemptAll w') ∧
      ((empty e).attemptAll w).isComplete = true ∧
      ((empty e).attemptAll w).actions ≠ ((empty e).attemptAll w').actions := by
  intro e root leaf close w w'
  have halike : List.Forall₂ (Action.Alike e) w w' := by
    refine .cons (.expansion _ _ rfl) (.cons (.expansion _ _ rfl) (.cons .closeVariadic ?_))
    exact .cons (.token _ _ rfl) (.cons (.token _ _ rfl) .nil)
  obtain ⟨-, hplace⟩ := sameShape_attemptAll e halike 2
  obtain ⟨-, hrejected⟩ := hplace close close rfl rfl
  obtain ⟨hshape, -⟩ := sameShape_attemptAll e halike 5
  exact ⟨halike, (hrejected .token).mp (by decide), hshape, by decide, by decide⟩

end Derivation

end TreeDerivation
