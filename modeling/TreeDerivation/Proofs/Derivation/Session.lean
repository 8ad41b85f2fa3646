import Mathlib.Data.List.Induction
import Mathlib.Logic.Function.Basic
import TreeDerivation.Proofs.Derivation.Run

/-!
# Sessions

A session keeps derivations in registers. It tries actions on them, skips those that do not fit,
and copies one register over another, in any order. Whatever else it did, a register holds the
derivation that its own accepted actions build from nothing (`Session.state_of_history`).

Which actions are a register's own is told by its lineage, read backwards from the end of the
session: where the register was overwritten, the lineage goes on in the register that was copied.
The state of a register is computed from its lineage alone (`Session.run_eq_attemptAll`), and a
derivation that comes from nothing is what its own actions build
(`Derivation.Grown.replay_actions`).
-/

namespace TreeDerivation

namespace Derivation

/-- Those of some actions that fit when they are tried one after the other. -/
def accepted (d : Derivation) : List Action → List Action
  | [] => []
  | a :: w =>
    match d.apply a with
    | .ok d' => a :: d'.accepted w
    | .error _ => d.accepted w

section

variable {d d' : Derivation} {a : Action} {f : Failure}

theorem accepted_of_ok (h : d.apply a = .ok d') (w : List Action) :
    d.accepted (a :: w) = a :: d'.accepted w := by
  rw [accepted, h]

theorem accepted_of_error (h : d.apply a = .error f) (w : List Action) :
    d.accepted (a :: w) = d.accepted w := by
  rw [accepted, h]

end

/-- Trying actions records those that fit. -/
theorem actions_attemptAll (d : Derivation) (w : List Action) :
    (d.attemptAll w).actions = d.actions ++ d.accepted w := by
  induction w generalizing d with
  | nil => exact (List.append_nil _).symm
  | cons a w ih =>
    show ((d.attempt a).attemptAll w).actions = _
    cases h : d.apply a with
    | ok d' =>
      have hactions := actions_applyAll (applyAll_of_apply h [])
      rw [attempt_of_ok h, accepted_of_ok h, ih, hactions, List.append_assoc, List.singleton_append]
    | error f => rw [attempt_of_error h, accepted_of_error h, ih]

/-- An action is rejected with the number of actions that were accepted before. -/
theorem exists_of_apply_eq_error {d : Derivation} {a : Action} {f : Failure}
    (h : d.apply a = .error f) :
    ∃ expected, f = Failure.of (.rejected expected a d.actions.length) := by
  obtain ⟨expected, -, rfl⟩ := apply_eq_error_iff.mp h
  exact ⟨expected, by rw [length_actions]⟩

end Derivation

namespace Session

/-- What a session does to its registers. -/
inductive Op (ρ : Type) where
  /-- Tries an action on a register. -/
  | attempt (register : ρ) (action : Action)
  /-- Copies a register over another one. -/
  | clone (source target : ρ)

/-- The register that is written. -/
def Op.target {ρ : Type} : Op ρ → ρ
  | .attempt r _ => r
  | .clone _ target => target

variable {ρ : Type} [DecidableEq ρ]

/-- The registers afterwards. -/
def Op.run (registers : ρ → Derivation) : Op ρ → ρ → Derivation
  | .attempt r a => Function.update registers r ((registers r).attempt a)
  | .clone source target => Function.update registers target (registers source)

/-- The registers after a session that begins with nothing derived in any of them. -/
def run (start : ρ → Encoding) (s : List (Op ρ)) : ρ → Derivation :=
  s.foldl Op.run fun r => .empty (start r)

/-- Where the content of a register comes from. -/
structure Lineage (ρ : Type) where
  /-- The register that it was begun in. -/
  origin : ρ
  /-- The actions that were tried on it and on what it was copied from, in order. -/
  attempted : List Action

/-- The lineage of a register, from the operations with the last one first. -/
def lineageBack : List (Op ρ) → ρ → Lineage ρ
  | [], r => ⟨r, []⟩
  | .attempt r' a :: earlier, r =>
    let l := lineageBack earlier r
    if r' = r then { l with attempted := l.attempted ++ [a] } else l
  | .clone source target :: earlier, r => lineageBack earlier (if target = r then source else r)

/-- The lineage of a register after a session. -/
def lineage (s : List (Op ρ)) (r : ρ) : Lineage ρ :=
  lineageBack s.reverse r

/-! ## One operation -/

variable (start : ρ → Encoding) (s : List (Op ρ))

theorem lineage_append_singleton (op : Op ρ) (r : ρ) :
    lineage (s ++ [op]) r = lineageBack (op :: s.reverse) r := by
  rw [lineage, List.reverse_append, List.reverse_singleton, List.singleton_append]

theorem lineage_attempt (r' r : ρ) (a : Action) :
    lineage (s ++ [.attempt r' a]) r =
      if r' = r then { lineage s r with attempted := (lineage s r).attempted ++ [a] }
      else lineage s r := by
  rw [lineage_append_singleton, lineageBack, lineage]

theorem lineage_clone (source target r : ρ) :
    lineage (s ++ [.clone source target]) r = lineage s (if target = r then source else r) := by
  rw [lineage_append_singleton, lineageBack, lineage]

theorem run_append (s' : List (Op ρ)) : run start (s ++ s') = s'.foldl Op.run (run start s) := by
  unfold run
  exact List.foldl_append

theorem Op.run_of_target_ne {registers : ρ → Derivation} {op : Op ρ} {r : ρ} (h : op.target ≠ r) :
    op.run registers r = registers r := by
  cases op with
  | attempt r' a => exact Function.update_of_ne (Ne.symm h) _ _
  | clone source target => exact Function.update_of_ne (Ne.symm h) _ _

theorem Op.run_attempt_of_ok {registers : ρ → Derivation} {r : ρ} {a : Action} {d : Derivation}
    (h : (registers r).apply a = .ok d) : (Op.attempt r a).run registers r = d := by
  rw [Op.run, Derivation.attempt_of_ok h, Function.update_self]

/-- An action that does not fit changes no register. -/
theorem Op.run_attempt_of_error {registers : ρ → Derivation} {r : ρ} {a : Action} {f : Failure}
    (h : (registers r).apply a = .error f) : (Op.attempt r a).run registers = registers := by
  rw [Op.run, Derivation.attempt_of_error h, Function.update_eq_self]

/-! ## Whole sessions -/

theorem foldl_run_of_target_ne {s : List (Op ρ)} {r : ρ} (h : ∀ op ∈ s, op.target ≠ r)
    (registers : ρ → Derivation) : s.foldl Op.run registers r = registers r := by
  induction s generalizing registers with
  | nil => rfl
  | cons op s ih =>
    rw [List.foldl_cons, ih fun op' hop' => h op' (List.mem_cons_of_mem op hop')]
    exact Op.run_of_target_ne (h op List.mem_cons_self)

/-- A register holds what trying the actions of its lineage leads to. -/
theorem run_eq_attemptAll (r : ρ) :
    run start s r =
      (Derivation.empty (start (lineage s r).origin)).attemptAll (lineage s r).attempted := by
  -- Lineages are read backwards, so the induction takes the last operation off.
  induction s using List.reverseRecOn generalizing r with
  | nil => rfl
  | append_singleton s op ih =>
    rw [run_append, List.foldl_cons, List.foldl_nil]
    cases op with
    | attempt r' a =>
      rw [lineage_attempt]
      by_cases hr : r' = r
      · subst hr
        rw [if_pos rfl, Op.run, Function.update_self, ih]
        unfold Derivation.attemptAll
        rw [List.foldl_append]
        rfl
      · have hother : (Op.attempt r' a).target ≠ r := hr
        rw [if_neg hr, Op.run_of_target_ne hother, ih]
    | clone source target =>
      rw [lineage_clone]
      by_cases hr : target = r
      · rw [if_pos hr, ← ih, Op.run, hr, Function.update_self]
      · have hother : (Op.clone source target).target ≠ r := hr
        rw [if_neg hr, Op.run_of_target_ne hother, ih]

/-- The state of a register is a function of what was accepted along its lineage, which is what it
records as its actions: a fresh derivation with the same encoding accepts each of them again and
comes to the same state. A copy has the same state, and operations on other registers do not change
it. An action that fits is recorded; one that is rejected changes no register and says how many
actions were accepted before. -/
theorem state_of_history (r : ρ) :
    (run start s r).encoding = start (lineage s r).origin ∧
    (run start s r).actions =
      (Derivation.empty (start (lineage s r).origin)).accepted (lineage s r).attempted ∧
    Derivation.replay (start (lineage s r).origin) (run start s r).actions = .ok (run start s r) ∧
    (∀ r', run start (s ++ [.clone r r']) r' = run start s r) ∧
    (∀ s' : List (Op ρ), (∀ op ∈ s', op.target ≠ r) → run start (s ++ s') r = run start s r) ∧
    (∀ a d, (run start s r).apply a = .ok d →
      run start (s ++ [.attempt r a]) r = d ∧ d.actions = (run start s r).actions ++ [a]) ∧
    (∀ a f, (run start s r).apply a = .error f →
      (∃ expected, f = Failure.of (.rejected expected a (run start s r).actions.length)) ∧
      f.index? = some (run start s r).actions.length ∧
      ∀ s' : List (Op ρ), run start (s ++ .attempt r a :: s') = run start (s ++ s')) := by
  have hgrown := Derivation.grown_attemptAll (start (lineage s r).origin) (lineage s r).attempted
  rw [← run_eq_attemptAll] at hgrown
  refine ⟨hgrown.encoding_eq, ?actions, hgrown.replay_actions, fun r' => ?copied,
    fun s' hs' => ?others, fun a d hd => ?accepted, fun a f hf => ?rejected⟩
  case actions =>
    rw [run_eq_attemptAll, Derivation.actions_attemptAll]
    rfl
  case copied =>
    rw [run_append, List.foldl_cons, List.foldl_nil, Op.run, Function.update_self]
  case others =>
    rw [run_append]
    exact foldl_run_of_target_ne hs' _
  case accepted =>
    rw [run_append, List.foldl_cons, List.foldl_nil]
    exact ⟨Op.run_attempt_of_ok hd, Derivation.actions_applyAll (Derivation.applyAll_of_apply hd [])⟩
  case rejected =>
    obtain ⟨expected, rfl⟩ := Derivation.exists_of_apply_eq_error hf
    refine ⟨⟨expected, rfl⟩, rfl, fun s' => ?_⟩
    rw [run_append, run_append, List.foldl_cons, Op.run_attempt_of_error hf]

/-- A register is copied after one action, and the copy is completed while the action that closes a
leaf is rejected by the original. -/
theorem state_of_history_copy :
    let name : Action := .applyRule (.expandTree ⟨⟨"Name", .node⟩, [("id", ⟨"Id", .node⟩)]⟩)
    let id : Action := .applyRule (.expandTree ⟨⟨"Id", .node⟩, []⟩)
    let start : Bool → Encoding := fun _ => {}
    let s : List (Op Bool) := [.attempt false name, .clone false true]
    run start (s ++ [.attempt true id]) false = run start s false ∧
    (run start (s ++ [.attempt true id]) true).isComplete = true ∧
    run start (s ++ [.attempt false (.generateToken .closeNode), .attempt true id]) =
      run start (s ++ [.attempt true id]) := by
  intro name id start s
  have hrejected : (run start s false).apply (.generateToken .closeNode) =
      .error (Failure.of (.rejected .rule (.generateToken .closeNode) 1)) := by decide
  obtain ⟨-, -, -, -, hothers, -, hrejections⟩ := state_of_history start s false
  obtain ⟨-, -, htrace⟩ := hrejections _ _ hrejected
  exact ⟨hothers _ (by simp [Op.target]), by decide, htrace _⟩

end Session

end TreeDerivation
