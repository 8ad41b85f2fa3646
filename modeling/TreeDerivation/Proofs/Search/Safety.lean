import TreeDerivation.Proofs.Derivation.Readable
import TreeDerivation.Proofs.Search.Rounds

/-!
# A search raises no failure of its own making

Whatever a search offers for a derivation, the derivation accepts (`exists_apply_of_offered`): what
`isAdmissible` and the split into rules and tokens let through is what an open field takes. So no
round fails by a rejected action.

A round may still fail because a complete derivation has no tree. Where lists stay open-ended this
does not happen, and where they are encoded as one expansion it takes a rule of a list with a text
in a field, which must come from the rules that the oracle answered (`ListRulesTextFree`).

What is left are the failures of the oracle: those it returns, which are passed on as they are, and
an answer of the wrong length.
-/

namespace TreeDerivation

variable {Query Memory State : Type}

/-! ## Offers are accepted -/

/-- A rule that is admissible where a field is open, or where nothing was derived yet, is one that
the field takes. -/
theorem exists_effect_of_isAdmissible {e : Encoding} {subtypes : Subtyping}
    {head : Option NodeType} {r : Rule} (htoken : head.map NodeType.constraint ≠ some .token)
    (h : isAdmissible e subtypes head r = true) :
    ∃ f, Derivation.effectAt e (head.map NodeType.constraint) (.applyRule r) = .ok f := by
  cases r with
  | expandTree r =>
    refine ⟨.opens r, ?_⟩
    cases head with
    | none => rfl
    | some t =>
      cases hc : t.constraint with
      | node => rw [Option.map_some, hc]; rfl
      | variadic => rw [Option.map_some, hc]; rfl
      | token => exact absurd (by rw [Option.map_some, hc]) htoken
  | closeVariadic =>
    simp only [isAdmissible, Bool.and_eq_true] at h
    obtain ⟨he, hhead⟩ := h
    cases head with
    | none => exact absurd hhead (by simp)
    | some t =>
      have ht : t.constraint = .variadic := by simpa using hhead
      exact ⟨.fills, by rw [Option.map_some, ht, Derivation.effectAt, if_pos he]⟩

/-- A derivation that is not complete accepts whatever is offered for it. -/
theorem exists_apply_of_offered {subtypes : Subtyping} {d : Derivation} {views : Views}
    {p : Score} {a : Action} (hopen : d.isComplete = false)
    (h : Offered d.encoding subtypes d views p a) : ∃ d', d.apply a = .ok d' := by
  have heffect : ∃ f, d.effect a = .ok f := by
    rw [Derivation.effect, if_neg (Bool.eq_false_iff.mp hopen)]
    cases a with
    | applyRule r => exact exists_effect_of_isAdmissible h.1 h.2.1
    | generateToken t => exact ⟨_, by rw [h.1, Derivation.effectAt]⟩
  obtain ⟨f, hf⟩ := heffect
  exact ⟨_, Derivation.apply_of_effect hf⟩

/-! ## Offers without texts in lists -/

/-- Whether all rules of lists among the answers of the oracle in the next round are free of
texts. -/
def ListRulesTextFree (oracle : Oracle Query Memory State) (s : Synthesis Memory State) : Prop :=
  ∀ answers, s.reply oracle = .ok answers → ∀ answer ∈ answers,
    ∀ r p, (Rule.expandTree r, p) ∈ answer.2.rules.items → r.parent.constraint = .variadic →
      r.TextFree

/-- Only a rule of a list is admissible where a list is encoded as one expansion. -/
theorem parent_eq_of_isAdmissible {e : Encoding} {subtypes : Subtyping} {t : NodeType}
    {r : Expansion} (h : isAdmissible e subtypes (some t) (.expandTree r) = true)
    (he : e.retainVariadic = false) (ht : t.constraint = .variadic) : r.parent = t := by
  simpa [isAdmissible, he, ht] using h

theorem admitsTextFree_of_offered {e : Encoding} {subtypes : Subtyping} {d : Derivation}
    {views : Views} {p : Score} {a : Action} (h : Offered e subtypes d views p a)
    (hviews : ∀ r p, (Rule.expandTree r, p) ∈ views.rules.items →
      r.parent.constraint = .variadic → r.TextFree) :
    Derivation.AdmitsTextFree e d.headType? a := by
  rcases hhead : d.headType? with _ | t
  · exact trivial
  · rcases a with (r | _) | k
    · intro he ht
      have hparent : r.parent = t := parent_eq_of_isAdmissible (hhead ▸ h.2.1) he ht
      exact hviews r p h.2.2 (by rw [hparent, ht])
    · exact trivial
    · exact trivial

/-! ## What a search fails with -/

namespace Synthesis

variable {oracle : Oracle Query Memory State} {config : Config} {subtypes : Subtyping}
  {memory memory' : Memory} {query : Query} {s s' : Synthesis Memory State}

/-- Whether the live derivations of a search have grown by actions that met a condition at their
heads. -/
structure LiveGrown (config : Config) (admits : Option NodeType → Action → Prop)
    (s : Synthesis Memory State) : Prop where
  config_eq : s.config = config
  grown : ∀ h ∈ s.live, Derivation.Grown config.encoding admits h.derivation

/-- Whether all that may be offered in the next round meets a condition. -/
def OffersMeet (oracle : Oracle Query Memory State) (admits : Option NodeType → Action → Prop)
    (s : Synthesis Memory State) : Prop :=
  ∀ answers, s.reply oracle = .ok answers → ∀ answer ∈ answers,
    ∀ (d : Derivation) (p : Score) (a : Action),
      Offered s.config.encoding s.subtypes d answer.2 p a → admits d.headType? a

theorem liveGrown_of_start (admits : Option NodeType → Action → Prop)
    (h : start config subtypes oracle memory query = (.ok s, memory')) :
    LiveGrown config admits s := by
  obtain ⟨hconfig, -, -, state, hlive⟩ := exists_of_start_eq_ok h
  refine ⟨hconfig, ?_⟩
  intro h hh
  rw [hlive] at hh
  obtain rfl := List.mem_singleton.mp hh
  exact .empty

theorem LiveGrown.roundStep {admits : Option NodeType → Action → Prop}
    {answers : List (State × Views)} {children : List (Child State)}
    (hs : LiveGrown config admits s) (hoffers : OffersMeet oracle admits s)
    (hstep : RoundStep oracle s answers children s') : LiveGrown config admits s' := by
  refine ⟨hstep.config_eq.trans hs.config_eq, ?_⟩
  intro h hh
  obtain ⟨c, hc, -, rfl⟩ := hstep.exists_of_mem_live hh
  obtain ⟨h, hext⟩ := hstep.extends_live c hc
  obtain ⟨i, views, p, -, hanswer, -, hoffered⟩ := hext.answered
  have hadmits := hoffers answers hstep.reply_eq _ (List.mem_of_getElem? hanswer)
    h.derivation p c.action hoffered
  exact .apply c.action (hs.grown h hext.mem_live) hadmits hext.apply_eq

/-- The live derivations before any item of a run have grown by actions that met a condition, if all
that was offered so far met it. -/
theorem liveGrown_of_take {admits : Option NodeType → Action → Prop}
    (hstart : start config subtypes oracle memory query = (.ok s, memory')) {n q : Nat}
    {item : Except Failure Round} (hitem : (s.take oracle n).1[q]? = some item)
    (hoffers : ∀ r, r < q → (s.take oracle r).2.config = config →
      OffersMeet oracle admits (s.take oracle r).2) :
    LiveGrown config admits (s.take oracle q).2 := by
  obtain ⟨rounds, rfl, hrounds⟩ := exists_rounds_of_take hitem
  have hrun : s.take oracle rounds.length =
      (rounds.map .ok, (s.take oracle rounds.length).2) := Prod.ext hrounds rfl
  exact take_induction hrun (motive := fun _ s => LiveGrown config admits s)
    (liveGrown_of_start admits hstart)
    (fun r _ _ hr hs hstep => hs.roundStep (hoffers r hr hs.config_eq) hstep)
    rounds.length (Nat.le_refl _)

/-- A selected offer fails only where it completes a derivation that has no tree. -/
theorem exists_of_ofOffer_eq_error {admits : Option NodeType → Action → Prop}
    (hs : LiveGrown config admits s) (hoffers : OffersMeet oracle admits s)
    {answers : List (State × Views)} (hanswers : s.reply oracle = .ok answers)
    {id capacity : Nat} {score : Score} {offer : Offer State} {f : Failure}
    (hmem : (score, offer) ∈ TopK.best capacity (s.offers answers).1)
    (h : Child.ofOffer id score offer = .error f) :
    ∃ d, Derivation.Grown config.encoding admits d ∧ d.isComplete = true ∧ d.tree = .error f := by
  obtain ⟨i, views, p, hlive, hanswer, hopen, -, hoffered⟩ := exists_of_mem_best hmem
  have hgrown := hs.grown offer.parent (List.mem_of_getElem? hlive)
  have hadmits := hoffers answers hanswers _ (List.mem_of_getElem? hanswer)
    offer.parent.derivation p offer.action hoffered
  rw [hs.config_eq, ← hgrown.encoding_eq] at hoffered
  obtain ⟨d', hd'⟩ := exists_apply_of_offered hopen hoffered
  rcases Child.ofOffer_eq_error h with happly | ⟨d, happly, hcomplete, htree⟩
  · exact absurd (hd'.symm.trans happly) (by simp)
  · exact ⟨d, .apply offer.action hgrown hadmits happly, hcomplete, htree⟩

theorem offersMeet_textFree (hs : s.config = config)
    (h : config.encoding.retainVariadic = true ∨ ListRulesTextFree oracle s) :
    OffersMeet oracle (Derivation.AdmitsTextFree config.encoding) s := by
  intro answers hanswers answer hanswer d p a hoffered
  rcases h with he | htables
  · exact Derivation.admitsTextFree_of_retain he _ a
  · rw [hs] at hoffered
    exact admitsTextFree_of_offered hoffered (htables answers hanswers answer hanswer)

/-- Every failure that a search yields was returned by the oracle when it was asked, or is no
rejected action. If lists stay open-ended, or if no rule of a list that the oracle answered so far
has a text in a field, then it was returned by the oracle or the oracle gave a wrong number of
answers. -/
theorem error_of_take
    (hstart : start config subtypes oracle memory query = (.ok s, memory')) {n q : Nat}
    {f : Failure} (herror : (s.take oracle n).1[q]? = some (.error f)) :
    (s.take oracle q).2.reply oracle = .error f ∨
      f.kind ≠ .invalidAction ∧
        (config.encoding.retainVariadic = true ∨
            (∀ r, r ≤ q → ListRulesTextFree oracle (s.take oracle r).2) →
          f.kind ≠ .incomplete ∧ ∃ answers, (s.take oracle q).2.reply oracle = .ok answers ∧
            answers.length ≠ (s.take oracle q).2.live.length ∧
            f = Failure.of (.answerCount answers.length (s.take oracle q).2.live.length)) := by
  rcases exists_of_next_eq_error (next_of_take herror) with hreply | ⟨answers, hreply, hcause⟩
  · exact .inl hreply
  · refine .inr ?_
    rcases hcause with ⟨hlength, rfl⟩ | ⟨id, score, offer, hmem, hoffer⟩
    · refine ⟨by simp [Failure.kind, Failure.of, Cause.kind], fun _ => ⟨?_, ?_⟩⟩
      · simp [Failure.kind, Failure.of, Cause.kind]
      · exact ⟨answers, hreply, hlength, rfl⟩
    · refine ⟨?_, ?_⟩
      · have hlive : LiveGrown config (fun _ _ => True) (s.take oracle q).2 :=
          liveGrown_of_take hstart herror fun _ _ _ _ _ _ _ _ _ _ _ => trivial
        obtain ⟨d, hgrown, hcomplete, htree⟩ := exists_of_ofOffer_eq_error hlive
          (fun _ _ _ _ _ _ _ _ => trivial) hreply hmem hoffer
        obtain ⟨j, rfl⟩ := hgrown.tree_eq_error hcomplete htree
        simp [Failure.kind, Failure.of, Cause.kind]
      · -- here every complete derivation has a tree
        intro htables
        have hmeet : ∀ r, r ≤ q → (s.take oracle r).2.config = config →
            OffersMeet oracle (Derivation.AdmitsTextFree config.encoding) (s.take oracle r).2 :=
          fun r hr hconfig => offersMeet_textFree hconfig (htables.imp_right fun h => h r hr)
        have hlive := liveGrown_of_take hstart herror fun r hr => hmeet r (Nat.le_of_lt hr)
        obtain ⟨d, hgrown, hcomplete, htree⟩ := exists_of_ofOffer_eq_error hlive
          (hmeet q (Nat.le_refl q) hlive.config_eq) hreply hmem hoffer
        obtain ⟨t, ht⟩ := hgrown.exists_tree hcomplete
        exact absurd (ht.symm.trans htree) (by simp)

end Synthesis

/-- An oracle that gives the same answer about every hypothesis, as often as its memory says, and
from then on answers about none. -/
def Oracle.fading (rules : List (Rule × Score)) (tokens : List (Token × Score)) :
    Oracle Unit Nat Unit where
  start rounds _ := (.ok (), rounds)
  answer rounds live :=
    match rounds with
    | 0 => (.ok [], 0)
    | rounds + 1 => (.ok (live.map fun _ => ((), .given rules tokens)), rounds)

section

variable {rules : List (Rule × Score)} {tokens : List (Token × Score)} {s : Synthesis Nat Unit}

theorem Oracle.reply_fading_zero (h : s.memory = 0) : s.reply (.fading rules tokens) = .ok [] := by
  rw [Synthesis.reply, h]
  rfl

theorem Oracle.reply_fading_succ {n : Nat} (h : s.memory = n + 1) :
    s.reply (.fading rules tokens) = .ok (s.live.map fun _ => ((), .given rules tokens)) := by
  rw [Synthesis.reply, h]
  rfl

theorem Oracle.eq_given_of_reply_fading {answers : List (Unit × Views)}
    (h : s.reply (.fading rules tokens) = .ok answers) {answer : Unit × Views}
    (hanswer : answer ∈ answers) : answer.2 = .given rules tokens := by
  cases hrounds : s.memory with
  | zero =>
    obtain rfl := Except.ok.inj ((reply_fading_zero hrounds).symm.trans h)
    exact absurd hanswer List.not_mem_nil
  | succ rounds =>
    obtain rfl := Except.ok.inj ((reply_fading_succ hrounds).symm.trans h)
    obtain ⟨-, -, rfl⟩ := List.mem_map.mp hanswer
    rfl

end

/-- Lists of one element, encoded as one expansion. If the element is a text, the third action
completes a derivation without a tree, and the search fails with it, but not by a rejected action.
If the element is a node and the oracle has fallen silent by then, the search says so. -/
theorem error_of_take_names :
    let names : Rule := .expandTree ⟨⟨"Names", .node⟩, [("ids", ⟨"Name", .variadic⟩)]⟩
    let text : Rule := .expandTree ⟨⟨"Name", .variadic⟩, [("0", ⟨"str", .token⟩)]⟩
    let node : Rule := .expandTree ⟨⟨"Name", .variadic⟩, [("0", ⟨"Name", .node⟩)]⟩
    let config : Config := { beamSize := 4, encoding := ⟨false, false⟩ }
    (let oracle := Oracle.fading [(names, .zero), (text, .zero)] [(.value "x", .zero)]
      ∃ s f, Synthesis.start config .exact oracle 3 () = (.ok s, 3) ∧
        (s.take oracle 3).1[2]? = some (.error f) ∧ f.kind ≠ .invalidAction ∧
        f = Failure.of (.notExpansion 2)) ∧
    (let oracle := Oracle.fading [(names, .zero), (node, .zero)] []
      ∃ s f, Synthesis.start config .exact oracle 2 () = (.ok s, 2) ∧
        (∀ r, r ≤ 2 → ListRulesTextFree oracle (s.take oracle r).2) ∧
        (s.take oracle 3).1[2]? = some (.error f) ∧ f.kind ≠ .invalidAction ∧
        f = Failure.of (.answerCount 0 1)) := by
  intro names text node config
  refine ⟨?text, ?silent⟩
  case text =>
    intro oracle
    obtain ⟨s, hstart, herror, hmemory⟩ : ∃ s,
        Synthesis.start config .exact oracle 3 () = (.ok s, 3) ∧
          (s.take oracle 3).1[2]? = some (.error (Failure.of (.notExpansion 2))) ∧
          (s.take oracle 2).2.memory = 1 := by
      refine ⟨_, rfl, ?_, ?_⟩
      · decide +kernel
      · decide +kernel
    refine ⟨s, _, hstart, herror, ?_, rfl⟩
    rcases Synthesis.error_of_take hstart herror with hfailed | ⟨hkind, -⟩
    · exact absurd ((Oracle.reply_fading_succ hmemory).symm.trans hfailed) (by simp)
    · exact hkind
  case silent =>
    intro oracle
    obtain ⟨s, f, hstart, herror, hmemory, hlive⟩ : ∃ s f,
        Synthesis.start config .exact oracle 2 () = (.ok s, 2) ∧
          (s.take oracle 3).1[2]? = some (.error f) ∧ (s.take oracle 2).2.memory = 0 ∧
          (s.take oracle 2).2.live.length = 1 := by
      refine ⟨_, Failure.of (.answerCount 0 1), rfl, ?_, ?_, ?_⟩
      · decide +kernel
      · decide +kernel
      · decide +kernel
    have htables : ∀ r, r ≤ 2 → ListRulesTextFree oracle (s.take oracle r).2 := by
      intro r _ answers hanswers answer hanswer rule p hrule hvariadic
      rw [Oracle.eq_given_of_reply_fading hanswers hanswer] at hrule
      have hlisted : (Rule.expandTree rule, p) ∈ [(names, Score.zero), (node, .zero)] := hrule
      simp only [List.mem_cons, List.not_mem_nil, or_false, Prod.mk.injEq, names, node,
        Rule.expandTree.injEq] at hlisted
      rcases hlisted with ⟨rfl, -⟩ | ⟨rfl, -⟩
      · exact absurd hvariadic (by decide)
      · simp [Expansion.TextFree, Expansion.fieldTypes]
    have hreply : (s.take oracle 2).2.reply oracle = .ok [] := Oracle.reply_fading_zero hmemory
    rcases Synthesis.error_of_take hstart herror with hfailed | ⟨hkind, hcount⟩
    · exact absurd (hreply.symm.trans hfailed) (by simp)
    · obtain ⟨-, answers, hanswers, -, hf⟩ := hcount (.inr htables)
      obtain rfl : [] = answers := Except.ok.inj (hreply.symm.trans hanswers)
      rw [hlive] at hf
      exact ⟨s, f, hstart, htables, herror, hkind, hf⟩

end TreeDerivation
