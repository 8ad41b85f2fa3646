import TreeDerivation.Proofs.Derivation.Run

/-!
# What a rejection says

Which actions a derivation takes is decided by whether it is complete and by the constraint of its
open field: expansions fit everywhere but at a text (`takes_expandTree_iff`), tokens at a text only
(`takes_generateToken_iff`), and the list sentinel at an open-ended list
(`takes_closeVariadic_iff`).

What is said about a rejected action is decided case by case, elsewhere. The two agree: the words of
a rejection promise no more than the derivation would take, and an action that was rejected leaves
it as it was (`truthful_of_rejected`). Nothing is assumed of the derivation, so this holds of the
empty one and of a complete one too, which both have no head.
-/

namespace TreeDerivation.Derivation

variable {d : Derivation}

/-! ## Which actions fit -/

theorem not_takes_of_isComplete (h : d.isComplete = true) (a : Action) : ¬ d.Takes a := by
  rw [takes_iff, effect_of_isComplete h]
  simp

/-- An action fits if the derivation is not complete and it has an effect on the open field. -/
theorem takes_iff_effectAt {a : Action} : d.Takes a ↔
    d.isComplete = false ∧ ∃ f, effectAt d.encoding d.headConstraint? a = .ok f := by
  cases h : d.isComplete with
  | true => simp [not_takes_of_isComplete h]
  | false => simp [takes_iff, effect_of_not_isComplete h]

theorem takes_expandTree_iff {r : Expansion} : d.Takes (.applyRule (.expandTree r)) ↔
    d.isComplete = false ∧ d.headConstraint? ≠ some .token := by
  rw [takes_iff_effectAt]
  refine and_congr_right fun _ => ?_
  rcases d.headConstraint? with _ | _ | _ | _ <;> simp [effectAt]

theorem takes_generateToken_iff {k : Token} : d.Takes (.generateToken k) ↔
    d.isComplete = false ∧ d.headConstraint? = some .token := by
  rw [takes_iff_effectAt]
  refine and_congr_right fun _ => ?_
  rcases d.headConstraint? with _ | _ | _ | _ <;> simp [effectAt]

theorem takes_closeVariadic_iff : d.Takes (.applyRule .closeVariadic) ↔
    d.isComplete = false ∧ d.headConstraint? = some .variadic ∧
      d.encoding.retainVariadic = true := by
  rw [takes_iff_effectAt]
  refine and_congr_right fun _ => ?_
  rcases d.headConstraint? with _ | _ | _ | _
  case some.variadic => cases h : d.encoding.retainVariadic <;> simp [effectAt, h]
  all_goals simp [effectAt]

/-- The actions that fit a field of some type in every encoding: tokens for the text of a leaf,
expansions for all else. -/
inductive FitsField (t : NodeType) : Action → Prop where
  | token (k : Token) : t.constraint = .token → FitsField t (.generateToken k)
  | expansion (r : Expansion) : t.constraint ≠ .token → FitsField t (.applyRule (.expandTree r))

/-- What fits the type of the open field is taken. -/
theorem FitsField.takes {t : NodeType} {a : Action} (h : FitsField t a) (hd : d.isComplete = false)
    (ht : d.headType? = some t) : d.Takes a := by
  have hhead : d.headConstraint? = some t.constraint := by rw [headConstraint?, ht, Option.map_some]
  cases h with
  | token k htoken => exact takes_generateToken_iff.mpr ⟨hd, hhead.trans (congrArg some htoken)⟩
  | expansion r hne =>
    refine takes_expandTree_iff.mpr ⟨hd, fun htoken => hne ?_⟩
    exact Option.some.inj (hhead.symm.trans htoken)

/-! ## What is said about the others -/

/-- What is said about actions that do not fit a complete derivation, the text of a leaf, and any
other place. -/
inductive Says (d : Derivation) : Expectation → Prop where
  | complete : d.isComplete = true → Says d .nothing
  | text : d.isComplete = false → d.headConstraint? = some .token → Says d .token
  | node (x : Expectation) : x = .rule ∨ x = .expansion → d.isComplete = false →
    d.headConstraint? ≠ some .token → Says d x

theorem effectAt_eq_error {e : Encoding} {c : Option Constraint} {a : Action} {x : Expectation}
    (h : effectAt e c a = .error x) :
    x = .token ∧ c = some .token ∨ (x = .rule ∨ x = .expansion) ∧ c ≠ some .token := by
  rcases a with (r | _) | k
  · rcases c with _ | _ | _ | _ <;> simp_all [effectAt]
  · rcases c with _ | _ | _ | _
    case some.variadic => cases hretain : e.retainVariadic <;> simp_all [effectAt]
    all_goals simp_all [effectAt]
  · rcases c with _ | _ | _ | _ <;> simp_all [effectAt]

theorem says_of_effect {a : Action} {x : Expectation} (h : d.effect a = .error x) : d.Says x := by
  cases hd : d.isComplete with
  | true =>
    rw [effect_of_isComplete hd] at h
    cases h
    exact .complete hd
  | false =>
    rw [effect_of_not_isComplete hd] at h
    rcases effectAt_eq_error h with ⟨rfl, hhead⟩ | ⟨hx, hhead⟩
    · exact .text hd hhead
    · exact .node x hx hd hhead

/-- Whether the words about a rejected action are known ones, and what they promise is so. -/
structure Truthful (d : Derivation) (words : String) : Prop where
  known : words ∈ ["GenerateToken", "ApplyRule(ExpandTreeRule)", "ApplyRule",
    "no further action (derivation is complete)"]
  token : words = "GenerateToken" → ∀ k, d.Takes (.generateToken k)
  rule : words = "ApplyRule(ExpandTreeRule)" ∨ words = "ApplyRule" →
    (∀ r, d.Takes (.applyRule (.expandTree r))) ∧ ∀ k, ¬ d.Takes (.generateToken k)
  nothing : words = "no further action (derivation is complete)" →
    d.isComplete = true ∧ ∀ a, ¬ d.Takes a

theorem Says.truthful {x : Expectation} (h : d.Says x) : d.Truthful x.text := by
  cases h with
  | complete hd =>
    refine ⟨by decide, fun h => absurd h (by decide), fun h => absurd h (by decide), fun _ => ?_⟩
    exact ⟨hd, not_takes_of_isComplete hd⟩
  | text hd hhead =>
    refine ⟨by decide, fun _ k => ?_, fun h => absurd h (by decide), fun h => absurd h (by decide)⟩
    exact takes_generateToken_iff.mpr ⟨hd, hhead⟩
  | node _ hx hd hhead =>
    have hrule : (∀ r, d.Takes (.applyRule (.expandTree r))) ∧ ∀ k, ¬ d.Takes (.generateToken k) :=
      ⟨fun r => takes_expandTree_iff.mpr ⟨hd, hhead⟩,
        fun k hk => hhead (takes_generateToken_iff.mp hk).2⟩
    rcases hx with rfl | rfl <;>
      refine ⟨by decide, fun h => absurd h (by decide), fun _ => hrule, fun h => ?_⟩ <;>
      exact absurd h (by decide)

/-- An action that does not fit changes nothing, and the failure names it, its place among the
accepted actions, and in true words what would have fitted in its place. A complete derivation
rejects every action in the same words. -/
theorem truthful_of_rejected (d : Derivation) :
    (∀ a f, d.apply a = .error f →
      d.attempt a = d ∧
      ∃ x, f = Failure.of (.rejected x a d.size) ∧ f.kind = .invalidAction ∧
        f.index? = some d.size ∧ d.Truthful x.text) ∧
    (d.isComplete = true → ∀ a, ∃ x, d.apply a = .error (Failure.of (.rejected x a d.size)) ∧
      x.text = "no further action (derivation is complete)") := by
  refine ⟨fun a f hf => ?_, fun hd a => ?_⟩
  · obtain ⟨x, hx, rfl⟩ := apply_eq_error_iff.mp hf
    exact ⟨attempt_of_error hf, x, rfl, rfl, rfl, (says_of_effect hx).truthful⟩
  · exact ⟨.nothing, apply_eq_rejected_iff.mpr (effect_of_isComplete hd a), rfl⟩

/-- The list sentinel where a leaf is open, so any token would do, and again when the leaf is
closed, so nothing does. -/
theorem truthful_of_rejected_leaf :
    let root : Action := .applyRule (.expandTree ⟨⟨"Name", .node⟩, [("id", ⟨"str", .token⟩)]⟩)
    let d := (empty {}).attemptAll [root]
    let d' := (empty {}).attemptAll [root, .generateToken .closeNode]
    (∃ f, d.apply (.applyRule .closeVariadic) = .error f ∧
      d.attempt (.applyRule .closeVariadic) = d ∧ f.index? = some 1) ∧
    (∀ k, d.Takes (.generateToken k)) ∧
    ∃ x, d'.apply (.applyRule .closeVariadic) =
        .error (Failure.of (.rejected x (.applyRule .closeVariadic) 2)) ∧
      x.text = "no further action (derivation is complete)" := by
  intro root d d'
  have hrejected : d.apply (.applyRule .closeVariadic) =
      .error (Failure.of (.rejected .token (.applyRule .closeVariadic) 1)) := rfl
  obtain ⟨hsame, x, hx, -, hindex, htruthful⟩ := (truthful_of_rejected d).1 _ _ hrejected
  obtain rfl : Expectation.token = x := (Cause.rejected.inj (Failure.mk.inj hx).1).1
  refine ⟨⟨_, hrejected, hsame, hindex⟩, htruthful.token rfl, ?_⟩
  exact (truthful_of_rejected d').2 (by decide) _

end TreeDerivation.Derivation
