import TreeDerivation.Derivation.Basic

/-!
# Runs of a derivation

What applying actions does, as far as any later proof needs it: an accepted action has an effect and
extends the derivation by itself (`apply_eq_ok_iff`), any other one is rejected with the number of
actions before it (`apply_eq_error_iff`), words are applied piece by piece (`applyAll_append`), a
run records exactly its actions (`actions_replay`), and a complete derivation takes no action
(`eq_nil_of_applyAll_of_isComplete`).

`Grown` are the derivations that come from nothing by actions each of which met a condition at its
head. Each is what its own actions build (`Grown.replay_actions`), and with the condition that
always holds they are the derivations that some word builds (`grown_of_replay`). They are also all
that any attempts lead to, as an action that does not fit changes nothing (`grown_attemptAll`).
-/

namespace TreeDerivation.Derivation

/-! ## One action -/

theorem apply_eq_ok_iff {d d' : Derivation} {a : Action} :
    d.apply a = .ok d' ↔ ∃ f, d.effect a = .ok f ∧ d' = d.extend a f := by
  unfold apply
  cases h : d.effect a with
  | ok f => simp [eq_comm]
  | error x => simp

theorem apply_eq_error_iff {d : Derivation} {a : Action} {f : Failure} :
    d.apply a = .error f ↔ ∃ x, d.effect a = .error x ∧ f = Failure.of (.rejected x a d.size) := by
  unfold apply
  cases h : d.effect a with
  | ok f => simp
  | error x => simp [eq_comm]

/-- What is said about a rejected action is what its effect says. -/
theorem apply_eq_rejected_iff {d : Derivation} {a : Action} {x : Expectation} :
    d.apply a = .error (Failure.of (.rejected x a d.size)) ↔ d.effect a = .error x := by
  rw [apply_eq_error_iff]
  constructor
  · rintro ⟨y, hy, heq⟩
    obtain rfl : x = y := (Cause.rejected.inj (Failure.mk.inj heq).1).1
    exact hy
  · exact fun h => ⟨x, h, rfl⟩

/-- Whether an action fits. -/
def Takes (d : Derivation) (a : Action) : Prop :=
  ∃ d', d.apply a = .ok d'

theorem takes_iff {d : Derivation} {a : Action} : d.Takes a ↔ ∃ f, d.effect a = .ok f := by
  simp only [Takes, apply_eq_ok_iff]
  exact ⟨fun ⟨_, f, hf, _⟩ => ⟨f, hf⟩, fun ⟨f, hf⟩ => ⟨_, f, hf, rfl⟩⟩

theorem apply_of_effect {d : Derivation} {a : Action} {f : Effect} (h : d.effect a = .ok f) :
    d.apply a = .ok (d.extend a f) :=
  apply_eq_ok_iff.mpr ⟨f, h, rfl⟩

@[simp] theorem encoding_extend (d : Derivation) (a : Action) (f : Effect) :
    (d.extend a f).encoding = d.encoding := rfl

theorem map_action_linkInto (steps : Array Step) (slot : Slot) (i : Nat) :
    (linkInto steps slot i).map Step.action = steps.map Step.action := by
  unfold linkInto
  apply Array.ext
  · simp
  · intro j h₁ h₂
    simp only [Array.getElem_map, Array.getElem_modify]
    split <;> rfl

theorem actions_eq (d : Derivation) : d.actions = (d.steps.map Step.action).toList := by
  simp [actions]

@[simp] theorem actions_extend (d : Derivation) (a : Action) (f : Effect) :
    (d.extend a f).actions = d.actions ++ [a] := by
  simp only [actions_eq, extend, linked]
  split <;> simp [map_action_linkInto]

theorem length_actions (d : Derivation) : d.actions.length = d.size := by
  simp [actions, size]

theorem isEmpty_iff {d : Derivation} : d.isEmpty = true ↔ d.actions = [] := by
  simp [isEmpty, actions]

theorem isEmpty_extend (d : Derivation) (a : Action) (f : Effect) :
    (d.extend a f).isEmpty = false := by
  simp only [isEmpty, extend, linked]
  split <;> simp

theorem effect_of_isComplete {d : Derivation} (h : d.isComplete = true) (a : Action) :
    d.effect a = .error .nothing := by
  simp [effect, h]

/-- The constraint of the open field, if there is one. -/
def headConstraint? (d : Derivation) : Option Constraint :=
  d.headType?.map NodeType.constraint

theorem effect_of_not_isComplete {d : Derivation} (h : d.isComplete = false) (a : Action) :
    d.effect a = effectAt d.encoding d.headConstraint? a := by
  rw [effect, h]
  rfl

/-! ## Words of actions -/

@[simp] theorem applyAll_nil (d : Derivation) : d.applyAll [] = .ok d := rfl

theorem applyAll_cons (d : Derivation) (a : Action) (w : List Action) :
    d.applyAll (a :: w) = (d.apply a).bind (·.applyAll w) := rfl

theorem applyAll_append (d : Derivation) (u v : List Action) :
    d.applyAll (u ++ v) = (d.applyAll u).bind (·.applyAll v) := by
  induction u generalizing d with
  | nil => rfl
  | cons a u ih =>
    rw [List.cons_append, applyAll_cons, applyAll_cons]
    cases d.apply a with
    | ok d' => exact ih d'
    | error x => rfl

theorem applyAll_of_apply {d d' : Derivation} {a : Action} (h : d.apply a = .ok d')
    (w : List Action) : d.applyAll (a :: w) = d'.applyAll w := by
  rw [applyAll_cons, h]
  rfl

theorem applyAll_of_applyAll {d d' : Derivation} {u : List Action} (h : d.applyAll u = .ok d')
    (v : List Action) : d.applyAll (u ++ v) = d'.applyAll v := by
  rw [applyAll_append, h]
  rfl

/-- An accepted word has accepted beginnings, and the rest of it goes on from there. -/
theorem exists_of_applyAll_append {d d'' : Derivation} {u v : List Action}
    (h : d.applyAll (u ++ v) = .ok d'') :
    ∃ d', d.applyAll u = .ok d' ∧ d'.applyAll v = .ok d'' := by
  rw [applyAll_append] at h
  cases hu : d.applyAll u with
  | ok d' => exact ⟨d', rfl, by simpa [hu, Except.bind] using h⟩
  | error x => simp [hu, Except.bind] at h

theorem exists_of_applyAll_cons {d d'' : Derivation} {a : Action} {w : List Action}
    (h : d.applyAll (a :: w) = .ok d'') : ∃ d', d.apply a = .ok d' ∧ d'.applyAll w = .ok d'' := by
  rw [applyAll_cons] at h
  cases ha : d.apply a with
  | ok d' => exact ⟨d', rfl, by simpa [ha, Except.bind] using h⟩
  | error x => simp [ha, Except.bind] at h

/-- Every action of an accepted word was accepted after the actions before it. -/
theorem exists_apply_of_applyAll {d d' : Derivation} {u v : List Action} {a : Action}
    (h : d.applyAll (u ++ a :: v) = .ok d') :
    ∃ d₁ d₂, d.applyAll u = .ok d₁ ∧ d₁.apply a = .ok d₂ := by
  obtain ⟨d₁, hu, hrest⟩ := exists_of_applyAll_append h
  obtain ⟨d₂, ha, -⟩ := exists_of_applyAll_cons hrest
  exact ⟨d₁, d₂, hu, ha⟩

/-- A word is rejected at its first action that does not fit. -/
theorem exists_of_applyAll_eq_error {d : Derivation} {w : List Action} {f : Failure}
    (h : d.applyAll w = .error f) :
    ∃ u a v d', w = u ++ a :: v ∧ d.applyAll u = .ok d' ∧ d'.apply a = .error f := by
  induction w generalizing d with
  | nil => exact absurd h (by simp)
  | cons a w ih =>
    cases ha : d.apply a with
    | ok d₁ =>
      rw [applyAll_of_apply ha] at h
      obtain ⟨u, b, v, d', rfl, hu, hb⟩ := ih h
      exact ⟨a :: u, b, v, d', rfl, (applyAll_of_apply ha u).trans hu, hb⟩
    | error g =>
      rw [applyAll_cons, ha] at h
      exact ⟨[], a, w, d, rfl, rfl, ha.trans h⟩

/-- A complete derivation takes no further action. -/
theorem eq_nil_of_applyAll_of_isComplete {d d' : Derivation} {w : List Action}
    (hd : d.isComplete = true) (h : d.applyAll w = .ok d') : w = [] := by
  cases w with
  | nil => rfl
  | cons a w =>
    obtain ⟨d₁, h₁, -⟩ := exists_of_applyAll_cons h
    obtain ⟨f, hf, -⟩ := apply_eq_ok_iff.mp h₁
    rw [effect_of_isComplete hd] at hf
    exact absurd hf (by simp)

theorem actions_applyAll {d d' : Derivation} {w : List Action} (h : d.applyAll w = .ok d') :
    d'.actions = d.actions ++ w := by
  induction w generalizing d with
  | nil => rw [← Except.ok.inj h, List.append_nil]
  | cons a w ih =>
    obtain ⟨d₁, h₁, h₂⟩ := exists_of_applyAll_cons h
    obtain ⟨f, -, rfl⟩ := apply_eq_ok_iff.mp h₁
    rw [ih h₂, actions_extend, List.append_assoc]
    rfl

@[simp] theorem actions_empty (e : Encoding) : (empty e).actions = [] := rfl

theorem actions_replay {e : Encoding} {d : Derivation} {w : List Action}
    (h : replay e w = .ok d) : d.actions = w := by
  rw [actions_applyAll h, actions_empty, List.nil_append]

/-! ## Growth from nothing -/

/-- The derivations that come from nothing by actions that met a condition at their heads: the
condition is asked of the type of the open field, if there is one, and the action that it takes. -/
inductive Grown (e : Encoding) (admits : Option NodeType → Action → Prop) : Derivation → Prop where
  | empty : Grown e admits (.empty e)
  | apply {d d' : Derivation} (a : Action) : Grown e admits d → admits d.headType? a →
    d.apply a = .ok d' → Grown e admits d'

namespace Grown

variable {e : Encoding} {admits : Option NodeType → Action → Prop} {d : Derivation}

theorem encoding_eq (h : Grown e admits d) : d.encoding = e := by
  induction h with
  | empty => rfl
  | apply a _ _ ha ih =>
    obtain ⟨f, -, rfl⟩ := apply_eq_ok_iff.mp ha
    exact ih

/-- A grown derivation is what its own actions build. -/
theorem replay_actions (h : Grown e admits d) : replay e d.actions = .ok d := by
  induction h with
  | empty => rfl
  | @apply d d' a _ _ ha ih =>
    have hactions : d'.actions = d.actions ++ [a] := by
      obtain ⟨f, -, rfl⟩ := apply_eq_ok_iff.mp ha
      exact actions_extend d a f
    rw [hactions, replay, applyAll_of_applyAll ih, applyAll_of_apply ha, applyAll_nil]

theorem applyAll {d' : Derivation} {w : List Action} (h : Grown e (fun _ _ => True) d)
    (hw : d.applyAll w = .ok d') : Grown e (fun _ _ => True) d' := by
  induction w generalizing d with
  | nil => exact Except.ok.inj hw ▸ h
  | cons a w ih =>
    obtain ⟨d₁, h₁, h₂⟩ := exists_of_applyAll_cons hw
    exact ih (.apply a h trivial h₁) h₂

end Grown

theorem grown_of_replay {e : Encoding} {d : Derivation} {w : List Action}
    (h : replay e w = .ok d) : Grown e (fun _ _ => True) d :=
  Grown.empty.applyAll h

/-! ## Attempts -/

/-- The derivation after an action was tried: an action that does not fit changes nothing. -/
def attempt (d : Derivation) (a : Action) : Derivation :=
  match d.apply a with
  | .ok d' => d'
  | .error _ => d

theorem attempt_of_ok {d d' : Derivation} {a : Action} (h : d.apply a = .ok d') :
    d.attempt a = d' := by
  unfold attempt
  rw [h]

theorem attempt_of_error {d : Derivation} {a : Action} {f : Failure} (h : d.apply a = .error f) :
    d.attempt a = d := by
  unfold attempt
  rw [h]

@[simp] theorem encoding_attempt (d : Derivation) (a : Action) :
    (d.attempt a).encoding = d.encoding := by
  cases h : d.apply a with
  | ok d' =>
    obtain ⟨f, -, rfl⟩ := apply_eq_ok_iff.mp h
    rw [attempt_of_ok h, encoding_extend]
  | error f => rw [attempt_of_error h]

/-- The derivation after actions were tried one after the other. -/
def attemptAll (d : Derivation) (w : List Action) : Derivation :=
  w.foldl attempt d

/-- Whatever was tried, the derivation comes from nothing by the actions that fitted. -/
theorem grown_attemptAll (e : Encoding) (w : List Action) :
    Grown e (fun _ _ => True) ((empty e).attemptAll w) := by
  have hgrown : ∀ (w : List Action) (d : Derivation), Grown e (fun _ _ => True) d →
      Grown e (fun _ _ => True) (d.attemptAll w) := by
    intro w
    induction w with
    | nil => exact fun d hd => hd
    | cons a w ih =>
      intro d hd
      refine ih (d.attempt a) ?_
      unfold attempt
      split
      · exact .apply a hd trivial ‹_›
      · exact hd
  exact hgrown w _ .empty

end TreeDerivation.Derivation
