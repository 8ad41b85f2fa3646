import TreeDerivation.Proofs.CommandLine.RoundTrip
import TreeDerivation.Proofs.Derivation.Discipline
import TreeDerivation.Proofs.Derivation.Meaning
import TreeDerivation.Proofs.Derivation.Rejection

/-!
# What replaying a file comes to

A file that holds a word of actions is replayed in one of three ways, and which one is told by the
word and the encoding alone (`Program.outcome_of_replay`). Replaying fails at the first action that
does not fit (`FailsAtAction`), or it reports the field that the word leaves open
(`ReportsOpenField`), or it prints the tree (`PrintsTree`).

The report has words of its own for a derivation without a head. Without a head are the empty
derivation and the complete ones, by the discipline of the head, and of a complete one there is no
report; so these words stand for the empty word of actions and for nothing else. Any other report
names a field that takes whatever fits its type (`openDetail_of_ne_nil`).

That the tree of a complete derivation can be printed is certain where lists are open-ended only.
-/

namespace TreeDerivation

namespace Program

variable {e : Encoding} {w : List Action} {d : Derivation}

/-! ## The three outcomes -/

/-- Whether a replay fails at the first action of a word that does not fit, with its index. -/
def FailsAtAction (e : Encoding) (w : List Action) (result : Except Failure String) : Prop :=
  ∃ u a v d x, w = u ++ a :: v ∧ Derivation.replay e u = .ok d ∧
    d.apply a = .error (Failure.of (.rejected x a u.length)) ∧
    result = .error (Failure.of (.rejected x a u.length))

/-- Whether a replay reports that the derivation of a word is not complete. If there is an action,
the report is about a field of one of them, and whatever fits the type that it shows is accepted
after the word. -/
def ReportsOpenField (e : Encoding) (w : List Action) (colored : Bool)
    (result : Except Failure String) : Prop :=
  ∃ d detail, Derivation.replay e w = .ok d ∧ d.isComplete = false ∧
    result = .ok (statusLine colored "33" "incomplete" detail) ∧
    (detail = "no action applied" ↔ w = []) ∧
    (w ≠ [] → ∃ i k r t, i < w.length ∧ w[i]? = some (.applyRule (.expandTree r)) ∧
      r.fieldType? k = some t ∧
      detail = toString w.length ++ " action(s); next slot is field " ++ toString k ++
        " of action " ++ toString i ++ ", expecting " ++ t.display ∧
      ∀ a, Derivation.FitsField t a → ∃ d', Derivation.replay e (w ++ [a]) = .ok d')

/-- Whether a replay prints the tree of a complete derivation, if it has one, and it has one where
lists are open-ended. -/
def PrintsTree (e : Encoding) (w : List Action) (colored asJson : Bool)
    (result : Except Failure String) : Prop :=
  ∃ d, Derivation.replay e w = .ok d ∧ d.isComplete = true ∧
    result = d.tree.map (fun t =>
      if asJson then t.toJson.pretty ++ "\n"
      else statusLine colored "32" "complete" (toString w.length ++ " action(s)") ++
        t.pretty ++ "\n") ∧
    (e.retainVariadic = true → ∃ t, d.tree = .ok t)

/-! ## The report of an open field -/

/-- What begins with a number is not the text about the empty word. -/
theorem toString_append_ne (n : Nat) (rest : String) :
    toString n ++ rest ≠ "no action applied" := by
  intro h
  have hchars := congrArg String.toList h
  rw [String.toList_append, Nat.toString_eq_repr, Nat.toList_repr] at hchars
  obtain ⟨c, cs, hdigits⟩ := List.exists_cons_of_ne_nil (Nat.toDigits_ne_nil (n := n) (b := 10))
  have hmem : c ∈ Nat.toDigits 10 n := hdigits ▸ List.mem_cons_self
  have hdigit : c.isDigit = true := Nat.isDigit_of_mem_toDigits (by decide) (by decide) hmem
  rw [hdigits] at hchars
  obtain rfl : c = 'n' := (List.cons.inj hchars).1
  exact absurd hdigit (by decide)

/-- The report is about the open field, which takes whatever fits its type. -/
theorem openDetail_of_ne_nil (hreplay : Derivation.replay e w = .ok d)
    (hopen : d.isComplete = false) (hw : w ≠ []) :
    ∃ i k r t, i < w.length ∧ w[i]? = some (.applyRule (.expandTree r)) ∧
      r.fieldType? k = some t ∧
      openDetail d = toString w.length ++ " action(s); next slot is field " ++ toString k ++
        " of action " ++ toString i ++ ", expecting " ++ t.display ∧
      ∀ a, Derivation.FitsField t a → ∃ d', Derivation.replay e (w ++ [a]) = .ok d' := by
  have hactions := Derivation.actions_replay hreplay
  have hne : d.isEmpty = false := by
    rw [Bool.eq_false_iff, ne_eq, Derivation.isEmpty_iff, hactions]
    exact hw
  obtain ⟨slot, r, t, hhead, htype, haction, hfield⟩ :=
    (Derivation.grown_of_replay hreplay).disciplined.exists_openField hne hopen
  have hplace : w[slot.action]? = some (.applyRule (.expandTree r)) := hactions ▸ haction
  have hlt : slot.action < w.length := (List.getElem?_eq_some_iff.mp hplace).1
  refine ⟨slot.action, slot.field, r, t, hlt, hplace, hfield, ?detail, fun a ha => ?taken⟩
  case detail => rw [openDetail, hhead, htype, ← hactions, Derivation.length_actions]
  case taken =>
    obtain ⟨d', hd'⟩ := ha.takes hopen htype
    exact ⟨d', (Derivation.applyAll_of_applyAll hreplay [a]).trans
      (Derivation.applyAll_of_apply hd' [])⟩

theorem reportsOpenField (hreplay : Derivation.replay e w = .ok d) (hopen : d.isComplete = false)
    (colored : Bool) :
    ReportsOpenField e w colored (.ok (statusLine colored "33" "incomplete" (openDetail d))) := by
  refine ⟨d, openDetail d, hreplay, hopen, rfl, ?_, openDetail_of_ne_nil hreplay hopen⟩
  rcases eq_or_ne w [] with rfl | hw
  · obtain rfl := Except.ok.inj hreplay
    exact ⟨fun _ => rfl, fun _ => rfl⟩
  · obtain ⟨i, k, r, t, -, -, -, hdetail, -⟩ := openDetail_of_ne_nil hreplay hopen hw
    rw [hdetail]
    simp only [String.append_assoc]
    exact ⟨fun h => absurd h (toString_append_ne _ _), fun h => absurd h hw⟩

/-! ## Which outcome it is -/

theorem failsAtAction {f : Failure} (hreplay : Derivation.replay e w = .error f) :
    FailsAtAction e w (.error f) := by
  obtain ⟨u, a, v, d, hw, hu, ha⟩ := Derivation.exists_of_applyAll_eq_error hreplay
  obtain ⟨x, -, rfl⟩ := Derivation.apply_eq_error_iff.mp ha
  have hsize : d.size = u.length := by
    rw [← Derivation.length_actions, Derivation.actions_replay hu]
  rw [hsize] at ha ⊢
  exact ⟨u, a, v, d, x, hw, hu, ha, rfl⟩

/-- A word that is accepted has no action that does not fit. -/
theorem not_failsAtAction {result : Except Failure String}
    (hreplay : Derivation.replay e w = .ok d) : ¬ FailsAtAction e w result := by
  rintro ⟨u, a, v, d₁, x, rfl, hu, ha, -⟩
  obtain ⟨d₂, d₃, hu', ha'⟩ := Derivation.exists_apply_of_applyAll hreplay
  obtain rfl := Except.ok.inj (hu.symm.trans hu')
  exact absurd (ha.symm.trans ha') (by simp)

theorem not_printsTree {result : Except Failure String} {colored asJson : Bool}
    (hreplay : Derivation.replay e w = .ok d) (hopen : d.isComplete = false) :
    ¬ PrintsTree e w colored asJson result := by
  rintro ⟨d', hreplay', hcomplete, -⟩
  obtain rfl := Except.ok.inj (hreplay.symm.trans hreplay')
  exact absurd hcomplete (by simp [hopen])

theorem exists_tree_of_retain (hreplay : Derivation.replay e w = .ok d)
    (hcomplete : d.isComplete = true) (hretain : e.retainVariadic = true) :
    ∃ t, d.tree = .ok t := by
  have hgrown : Derivation.Grown e (Derivation.AdmitsTextFree e) d :=
    Derivation.grown_of_forall_prefix hreplay fun _ a _ d' _ _ =>
      Derivation.admitsTextFree_of_retain hretain d'.headType? a
  exact hgrown.exists_tree hcomplete

theorem printsTree (hreplay : Derivation.replay e w = .ok d) (hcomplete : d.isComplete = true)
    (colored asJson : Bool) :
    PrintsTree e w colored asJson
      ((d.tree.map (.complete d.size)).map (Replayed.output colored asJson)) := by
  refine ⟨d, hreplay, hcomplete, ?_, exists_tree_of_retain hreplay hcomplete⟩
  rw [← Derivation.actions_replay hreplay, Derivation.length_actions]
  cases d.tree <;> rfl

/-- The result of replaying a document is that of replaying its actions. -/
theorem replay_of_document {text : String} (hw : Json.document actionsOfJson? text = .ok w) :
    replay e text = (Derivation.replay e w).bind fun d =>
      if d.isComplete then d.tree.map (.complete d.size) else .ok (.unfinished d) := by
  rw [replay, hw]
  show ((Derivation.replay e w).bind fun d => _) = _
  congr 1

/-- A file that holds a word of actions is replayed in exactly one of the three ways. -/
theorem outcome_of_replay {m : Type → Type} [Monad m] [LawfulMonad m] {files : FileAccess m}
    {path text : String} (hfile : files.Holds path text)
    (htext : Json.document actionsOfJson? text = .ok w) (e : Encoding) (colored asJson : Bool) :
    ∃ result, perform files colored e (.replay path asJson) = pure result ∧
      (FailsAtAction e w result ∨ ReportsOpenField e w colored result ∨
        PrintsTree e w colored asJson result) ∧
      ¬ (FailsAtAction e w result ∧ ReportsOpenField e w colored result) ∧
      ¬ (FailsAtAction e w result ∧ PrintsTree e w colored asJson result) ∧
      ¬ (ReportsOpenField e w colored result ∧ PrintsTree e w colored asJson result) := by
  refine ⟨_, perform_replay hfile colored e asJson, ?_, ?_, ?_, ?_⟩
  · rw [replay_of_document htext]
    cases hreplay : Derivation.replay e w with
    | error f => exact .inl (failsAtAction hreplay)
    | ok d =>
      refine .inr ?_
      rw [Except.bind]
      cases hd : d.isComplete with
      | false => exact .inl (reportsOpenField hreplay hd colored)
      | true => exact .inr (printsTree hreplay hd colored asJson)
  · rintro ⟨hfails, d, -, hreplay, -⟩
    exact not_failsAtAction hreplay hfails
  · rintro ⟨hfails, d, hreplay, -⟩
    exact not_failsAtAction hreplay hfails
  · rintro ⟨⟨d, -, hreplay, hopen, -⟩, hprints⟩
    exact not_printsTree hreplay hopen hprints

/-- A node with a list and a text. A word that puts a text into the list is rejected at its second
action, one that stops after the list leaves the text open, and one that goes on to the end of the
text prints the tree. -/
theorem outcome_of_replay_sum :
    let sum : Action := .applyRule (.expandTree
      ⟨⟨"Sum", .node⟩, [("terms", ⟨"Term", .variadic⟩), ("text", ⟨"str", .token⟩)]⟩)
    let rejected : List Action := [sum, .generateToken (.value "x")]
    let unfinished : List Action := [sum, .applyRule .closeVariadic]
    let finished : List Action :=
      unfinished ++ [.generateToken (.value "x"), .generateToken .closeNode]
    let result : List Action → Except Failure String := fun w =>
      perform (m := Id) (everywhere ((actionsToJson w).pretty ++ "\n")) false {}
        (.replay "actions.json" false)
    FailsAtAction {} rejected (result rejected) ∧
      ReportsOpenField {} unfinished false (result unfinished) ∧
      PrintsTree {} finished false false (result finished) := by
  intro sum rejected unfinished finished result
  have houtcome : ∀ w, FailsAtAction {} w (result w) ∨ ReportsOpenField {} w false (result w) ∨
      PrintsTree {} w false false (result w) := by
    intro w
    let text := (actionsToJson w).pretty ++ "\n"
    have hfile : (everywhere text).Holds "actions.json" text := rfl
    have htext : Json.document actionsOfJson? text = .ok w :=
      document_pretty_line (writable_actionsToJson w) (actionsOfJson?_actionsToJson w _)
    obtain ⟨_, rfl, h, -⟩ := outcome_of_replay hfile htext {} false false
    exact h
  refine ⟨?rejected, ?unfinished, ?finished⟩
  case rejected =>
    obtain ⟨f, hreplay⟩ : ∃ f, Derivation.replay {} rejected = .error f := ⟨_, rfl⟩
    rcases houtcome rejected with hfails | ⟨d, -, haccepted, -⟩ | ⟨d, haccepted, -⟩
    · exact hfails
    · exact nomatch hreplay.symm.trans haccepted
    · exact nomatch hreplay.symm.trans haccepted
  case unfinished =>
    obtain ⟨d, hreplay, hopen⟩ :
        ∃ d, Derivation.replay {} unfinished = .ok d ∧ d.isComplete = false := ⟨_, rfl, rfl⟩
    rcases houtcome unfinished with hfails | hreports | hprints
    · exact absurd hfails (not_failsAtAction hreplay)
    · exact hreports
    · exact absurd hprints (not_printsTree hreplay hopen)
  case finished =>
    obtain ⟨d, hreplay, hcomplete⟩ :
        ∃ d, Derivation.replay {} finished = .ok d ∧ d.isComplete = true := ⟨_, rfl, rfl⟩
    rcases houtcome finished with hfails | ⟨d', -, haccepted, hopen, -⟩ | hprints
    · exact absurd hfails (not_failsAtAction hreplay)
    · obtain rfl := Except.ok.inj (hreplay.symm.trans haccepted)
      exact absurd hcomplete (by simp [hopen])
    · exact hprints

end Program

end TreeDerivation
