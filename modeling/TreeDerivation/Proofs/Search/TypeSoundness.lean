import TreeDerivation.Proofs.Search.AuditTrail
import TreeDerivation.Proofs.Search.Safety
import TreeDerivation.Proofs.Tree.Typing

/-!
# What a search finds is well-typed

A search checks one rule at a time, against the type of the open field. All checks together make
the tree of every candidate well-typed (`Synthesis.wellTyped_of_take`): a derivation whose rules
were all admissible at their heads is a parse of admissible rules, and the tree is the reading of
that parse.

Where lists are encoded as one expansion, a search asks of the rule of a list only that it is of the
type of the list. That its fields are nodes of that type, too, must come from the rules that the
oracle answered (`ListRulesUniform`).
-/

namespace TreeDerivation

variable {Query Memory State : Type}

/-- Whether all rules of lists among the answers of the oracle in the next round have nodes of the
type of the list in all their fields. -/
def ListRulesUniform (oracle : Oracle Query Memory State) (s : Synthesis Memory State) : Prop :=
  ∀ answers, s.reply oracle = .ok answers → ∀ answer ∈ answers,
    ∀ r p, (Rule.expandTree r, p) ∈ answer.2.rules.items → r.parent.constraint = .variadic →
      ∀ u ∈ r.fieldTypes, u = ⟨r.parent.typeName, .node⟩

/-- Whether an action, if it opens a node at a head, is admissible there and encodes only uniform
lists. -/
def AdmitsTyped (e : Encoding) (subtypes : Subtyping) : Option NodeType → Action → Prop
  | some t, .applyRule (.expandTree r) =>
    isAdmissible e subtypes (some t) (.expandTree r) = true ∧ ListsUniform e t r
  | _, _ => True

theorem admitsTyped_of_offered {e : Encoding} {subtypes : Subtyping} {d : Derivation}
    {views : Views} {p : Score} {a : Action} (h : Offered e subtypes d views p a)
    (hviews : e.retainVariadic = true ∨ ∀ r p, (Rule.expandTree r, p) ∈ views.rules.items →
      r.parent.constraint = .variadic → ∀ u ∈ r.fieldTypes, u = ⟨r.parent.typeName, .node⟩) :
    AdmitsTyped e subtypes d.headType? a := by
  rcases hhead : d.headType? with _ | t
  · exact trivial
  · rcases a with (r | _) | k
    · have hadmissible : isAdmissible e subtypes (some t) (.expandTree r) = true := hhead ▸ h.2.1
      refine ⟨hadmissible, ?_⟩
      intro he ht
      rcases hviews with he' | hviews
      · exact absurd he' (by simp [he])
      · have hparent : r.parent = t := parent_eq_of_isAdmissible hadmissible he ht
        have hfields := hviews r p h.2.2 (by rw [hparent, ht])
        rwa [hparent] at hfields
    · exact trivial
    · exact trivial

/-- The nodes of the tree of a derivation are typed if its rules were all admissible at their
heads. -/
theorem Derivation.Grown.nodesTyped {e : Encoding} {subtypes : Subtyping} {d : Derivation}
    (h : Grown e (AdmitsTyped e subtypes) d) (hd : d.isComplete = true) {t : Ast}
    (ht : d.tree = .ok t) : t.NodesTyped subtypes := by
  obtain ⟨p, hp, htree⟩ := h.exists_tree_eq_read hd
  have hread : p.read 0 = .ok t := mapError_eq_ok_iff.mp (htree.symm.trans ht)
  have huniform : p.Fits e (ListsUniform e) := hp.imp fun _ _ hr => hr.2
  have htyped : p.Fits e (RuleTyped e subtypes) :=
    hp.imp fun _ _ hr => ruleTyped_of_isAdmissible hr.1
  exact (Parse.nodesTyped_iff huniform hread).mpr htyped

namespace Synthesis

variable {oracle : Oracle Query Memory State} {config : Config} {subtypes : Subtyping}
  {memory memory' : Memory} {query : Query} {s s' : Synthesis Memory State}

theorem offersMeet_typed (hconfig : s.config = config) (hsubtypes : s.subtypes = subtypes)
    (h : config.encoding.retainVariadic = true ∨ ListRulesUniform oracle s) :
    OffersMeet oracle (AdmitsTyped config.encoding subtypes) s := by
  intro answers hanswers answer hanswer d p a hoffered
  rw [hconfig, hsubtypes] at hoffered
  exact admitsTyped_of_offered hoffered (h.imp_right fun h => h answers hanswers answer hanswer)

/-- The tree of every candidate of a search is well-typed, if lists stay open-ended, or if the rules
of lists that the oracle answered so far have nodes of the type of the list in all their fields. -/
theorem wellTyped_of_take
    (hstart : start config subtypes oracle memory query = (.ok s, memory')) {n q : Nat}
    {round : Round} (hround : (s.take oracle n).1[q]? = some (.ok round))
    (htables : config.encoding.retainVariadic = true ∨
      ∀ r, r ≤ q → ListRulesUniform oracle (s.take oracle r).2) :
    ∀ c ∈ round.candidates, c.ast.WellTyped subtypes := by
  have hsubtypes : ∀ r, r ≤ q → (s.take oracle r).2.subtypes = subtypes := by
    obtain ⟨rounds, rfl, hrounds⟩ := exists_rounds_of_take hround
    have hrun : s.take oracle rounds.length =
        (rounds.map .ok, (s.take oracle rounds.length).2) := Prod.ext hrounds rfl
    exact fun r hr => (Audited.take hstart hrun r hr).subtypes_eq
  have hmeet : ∀ r, r ≤ q → (s.take oracle r).2.config = config →
      OffersMeet oracle (AdmitsTyped config.encoding subtypes) (s.take oracle r).2 :=
    fun r hr hconfig =>
      offersMeet_typed hconfig (hsubtypes r hr) (htables.imp_right fun h => h r hr)
  have hlive := liveGrown_of_take hstart hround fun r hr => hmeet r (Nat.le_of_lt hr)
  obtain ⟨answers, children, hstep, rfl⟩ := exists_of_next_eq_ok (next_of_take hround)
  intro c hc
  obtain ⟨child, hchild, hcandidate⟩ := List.mem_filterMap.mp hc
  obtain ⟨t, ht, rfl⟩ := Option.map_eq_some_iff.mp hcandidate
  obtain ⟨h, hext⟩ := hstep.extends_live child hchild
  obtain ⟨i, views, p, -, hanswer, -, hoffered⟩ := hext.answered
  have hadmits := hmeet q (Nat.le_refl q) hlive.config_eq answers hstep.reply_eq _
    (List.mem_of_getElem? hanswer) h.derivation p child.action hoffered
  have hgrown : Derivation.Grown config.encoding (AdmitsTyped config.encoding subtypes)
      child.hypothesis.derivation :=
    .apply child.action (hlive.grown h hext.mem_live) hadmits hext.apply_eq
  have hcomplete : child.hypothesis.derivation.isComplete = true := by
    rw [← hext.isSome_tree, ht]
    rfl
  have htree := hext.tree_eq t ht
  have hmeans := (Derivation.tree_eq_ok_iff_means hgrown.replay_actions hcomplete).mp htree
  exact ⟨hgrown.nodesTyped hcomplete htree, hmeans.derivable⟩

end Synthesis

/-- A list of one statement, encoded as one expansion, found in three rounds: the statement is typed
by the list, though the rule of the list does not show in the tree. -/
theorem wellTyped_of_take_pass :
    let module : Rule := .expandTree ⟨⟨"Module", .node⟩, [("body", ⟨"stmt", .variadic⟩)]⟩
    let one : Rule := .expandTree ⟨⟨"stmt", .variadic⟩, [("0", ⟨"stmt", .node⟩)]⟩
    let pass : Rule := .expandTree ⟨⟨"Pass", .node⟩, []⟩
    let oracle := Oracle.constant [(module, .zero), (one, .zero), (pass, .zero)] []
    let config : Config := { beamSize := 2, encoding := { retainVariadic := false } }
    let subtypes := Subtyping.ofPairs [("Pass", "stmt")]
    let tree := Ast.node "Module" [.mk "body" "stmt" (.list [.node "Pass" []])]
    ∃ s round, Synthesis.start config subtypes oracle () () = (.ok s, ()) ∧
      (s.take oracle 3).1[2]? = some (.ok round) ∧
      (∀ r, r ≤ 2 → ListRulesUniform oracle (s.take oracle r).2) ∧
      round.candidates = [⟨.zero, tree⟩] ∧ tree.WellTyped subtypes := by
  intro module one pass oracle config subtypes tree
  obtain ⟨s, hstart, hround⟩ : ∃ s,
      Synthesis.start config subtypes oracle () () = (.ok s, ()) ∧
        (s.take oracle 3).1[2]? =
          some (.ok ⟨[⟨.zero, tree⟩], [⟨4, some 3, .zero, .applyRule pass, true⟩]⟩) := by
    refine ⟨_, rfl, ?_⟩
    decide +kernel
  have htables : ∀ r, r ≤ 2 → ListRulesUniform oracle (s.take oracle r).2 := by
    intro r _ answers hanswers answer hanswer rule p hrule hvariadic
    obtain rfl := Except.ok.inj hanswers
    obtain ⟨h, -, rfl⟩ := List.mem_map.mp hanswer
    have hlisted :
        (Rule.expandTree rule, p) ∈ [(module, Score.zero), (one, .zero), (pass, .zero)] := hrule
    simp only [List.mem_cons, List.not_mem_nil, or_false, Prod.mk.injEq, module, one, pass,
      Rule.expandTree.injEq] at hlisted
    rcases hlisted with ⟨rfl, -⟩ | ⟨rfl, -⟩ | ⟨rfl, -⟩
    · exact nomatch hvariadic
    · simp [Expansion.fieldTypes]
    · exact nomatch hvariadic
  exact ⟨s, _, hstart, hround, htables, rfl,
    Synthesis.wellTyped_of_take hstart hround (.inr htables) ⟨.zero, tree⟩ List.mem_cons_self⟩

end TreeDerivation
