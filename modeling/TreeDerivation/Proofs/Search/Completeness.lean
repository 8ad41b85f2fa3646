import TreeDerivation.Proofs.Search.Ranking
import TreeDerivation.Proofs.Search.TypeSoundness
import TreeDerivation.Proofs.Tree.Canonical

/-!
# A search that prunes nothing finds every tree with typed nodes

What a search asks of rules excludes exactly the trees whose nodes are not typed: each rule among
the actions of a tree is admissible at its head if and only if the nodes of the tree are typed
(`rulesAdmissible_iff_nodesTyped`). So a tree with typed nodes is found in as many rounds as it has
actions, if the oracle lists each of its actions when it is due and there is room for all offers
(`exists_candidate_of_take`).

The run is followed one round at a time. Some live hypothesis has derived the actions so far; the
next action is offered for it, hence selected, and the extension lives on unless the actions are
used up (`exists_child_of_next`, `exists_live_of_take`).
-/

namespace TreeDerivation

/-! ## Which rules of a tree are admissible -/

section Admissible

variable {e : Encoding} {subtypes : Subtyping} {tokenize : String → List String} {t : Ast}
  {w : List Action}

/-- Whether every rule of a word is admissible at the head that the actions before it lead to. -/
def RulesAdmissible (e : Encoding) (subtypes : Subtyping) (w : List Action) : Prop :=
  ∀ u r v, w = u ++ .applyRule r :: v →
    ∃ d, Derivation.replay e u = .ok d ∧ isAdmissible e subtypes d.headType? r = true

/-- The sentinel of a list is admissible wherever it is accepted. -/
theorem isAdmissible_of_apply_closeVariadic {d d' : Derivation}
    (h : d.apply (.applyRule .closeVariadic) = .ok d') :
    isAdmissible d.encoding subtypes d.headType? .closeVariadic = true := by
  obtain ⟨f, hf, -⟩ := Derivation.apply_eq_ok_iff.mp h
  rw [Derivation.effect] at hf
  split at hf
  next => exact absurd hf (by simp)
  next =>
    cases hhead : d.headType? with
    | none =>
      rw [hhead] at hf
      exact absurd hf (by simp [Derivation.effectAt])
    | some t =>
      rw [hhead, Option.map_some] at hf
      rcases Derivation.effectAt_eq_ok hf with ⟨r, hr, -⟩ | ⟨-, -, ht, he⟩ | ⟨k, hk, -⟩
      · exact absurd hr (by simp)
      · simp [isAdmissible, ht, he]
      · exact absurd hk (by simp)

/-- The word of a tree opens with the rule of a node. -/
theorem constraint_rule_of_actions {p : Parse} (h : t.actions e tokenize = .ok p.word) :
    p.rule.parent.constraint = .node := by
  rw [Ast.actions, mapError_eq_ok_iff] at h
  obtain ⟨u, fields, v, -, -, hword⟩ := Ast.rootActions_eq_ok_iff.mp h
  obtain ⟨r, fs⟩ := p
  rw [Parse.word, openNode] at hword
  injection hword with hroot
  injection hroot with hroot
  injection hroot with hroot
  rw [Parse.rule, hroot]

theorem rulesAdmissible_of_nodesTyped (h : t.actions e tokenize = .ok w)
    (ht : t.NodesTyped subtypes) : RulesAdmissible e subtypes w := by
  obtain ⟨p, hfits, rfl, hread⟩ := exists_parse_of_actions h
  have huniform : p.Fits e (ListsUniform e) := hfits.imp fun _ _ => listsUniform_of_canonical
  have htyped : p.Fits e (RuleTyped e subtypes) :=
    (Parse.nodesTyped_iff huniform hread).mp ((Ast.nodesTyped_mapLeaves t).mpr ht)
  have hadmissible : p.Fits e fun t r => isAdmissible e subtypes (some t) (.expandTree r) = true :=
    p.fits_combine (fun _ _ => isAdmissible_of_ruleTyped) hfits htyped
  obtain ⟨d', hreplay, -, -⟩ := Derivation.tree_of_replay_word hfits
  intro u r v hword
  rw [hword] at hreplay
  obtain ⟨d, d₁, hu, hr⟩ := Derivation.exists_apply_of_applyAll hreplay
  refine ⟨d, hu, ?_⟩
  cases r with
  | expandTree r =>
    rcases Derivation.admits_of_fits hadmissible hword hu hr with ⟨rfl, rfl⟩ | ⟨t, hhead, hr⟩
    · have hroot := constraint_rule_of_actions h
      simp [isAdmissible, Derivation.headType?, Derivation.empty, hroot]
    · rw [hhead]
      exact hr
  | closeVariadic =>
    rw [← (Derivation.grown_of_replay hu).encoding_eq]
    exact isAdmissible_of_apply_closeVariadic hr

theorem nodesTyped_of_rulesAdmissible (h : t.actions e tokenize = .ok w)
    (hw : RulesAdmissible e subtypes w) : t.NodesTyped subtypes := by
  obtain ⟨p, hfits, rfl, hread⟩ := exists_parse_of_actions h
  obtain ⟨d, hreplay, hcomplete, htree⟩ := Derivation.tree_of_replay_word hfits
  rw [hread] at htree
  have hgrown : Derivation.Grown e (AdmitsTyped e subtypes) d := by
    refine Derivation.grown_of_forall_prefix hreplay ?_
    intro u a v d' hword hu
    cases hhead : d'.headType? with
    | none => exact trivial
    | some t =>
      rcases a with (r | _) | k
      · obtain ⟨d₁, hu₁, hadmissible⟩ := hw u _ v hword
        obtain rfl : d₁ = d' := Except.ok.inj (hu₁.symm.trans hu)
        rw [hhead] at hadmissible
        rw [hword] at hreplay
        obtain ⟨d₂, d₃, hu₂, hr⟩ := Derivation.exists_apply_of_applyAll hreplay
        obtain rfl : d₂ = d₁ := Except.ok.inj (hu₂.symm.trans hu)
        rcases Derivation.admits_of_fits hfits hword hu hr with ⟨rfl, -⟩ | ⟨t', ht', hcanonical⟩
        · exact nomatch hhead
        · obtain rfl : t = t' := Option.some.inj (hhead.symm.trans ht')
          exact ⟨hadmissible, listsUniform_of_canonical hcanonical⟩
      · exact trivial
      · exact trivial
  exact (Ast.nodesTyped_mapLeaves t).mp (hgrown.nodesTyped hcomplete htree)

/-- Every rule among the actions of a tree is admissible where it is applied exactly if the nodes of
the tree are typed. -/
theorem rulesAdmissible_iff_nodesTyped (h : t.actions e tokenize = .ok w) :
    RulesAdmissible e subtypes w ↔ t.NodesTyped subtypes :=
  ⟨nodesTyped_of_rulesAdmissible h, rulesAdmissible_of_nodesTyped h⟩

end Admissible

/-! ## A run that has room for a word -/

variable {Query Memory State : Type}

/-- The actions of the view that a search reads for a derivation, with their log-probabilities:
tokens where the text of a leaf is open, rules everywhere else. -/
def Views.readFor (views : Views) (d : Derivation) : List (Action × Score) :=
  if d.headType?.map NodeType.constraint = some .token then
    views.tokens.items.map fun (token, p) => (.generateToken token, p)
  else views.rules.items.map fun (rule, p) => (.applyRule rule, p)

/-- What a search reads for a derivation may extend it, if it is no rule or an admissible one. -/
theorem offered_of_mem_readFor {e : Encoding} {subtypes : Subtyping} {d : Derivation}
    {views : Views} {a : Action} {p : Score} (h : (a, p) ∈ views.readFor d)
    (hrule : ∀ r, a = .applyRule r → isAdmissible e subtypes d.headType? r = true) :
    Offered e subtypes d views p a := by
  rw [Views.readFor] at h
  split at h
  next htoken =>
    obtain ⟨⟨token, q⟩, hmem, heq⟩ := List.mem_map.mp h
    obtain ⟨rfl, rfl⟩ := Prod.mk.inj heq
    exact ⟨htoken, hmem⟩
  next htoken =>
    obtain ⟨⟨rule, q⟩, hmem, heq⟩ := List.mem_map.mp h
    obtain ⟨rfl, rfl⟩ := Prod.mk.inj heq
    exact ⟨htoken, hrule rule rfl, hmem⟩

/-- Whether the oracle guides the next round along a word: for each live hypothesis that has derived
a beginning of the word, the view that is read gives the next action of the word, at a
log-probability that keeps the score a number. -/
def Guides (oracle : Oracle Query Memory State) (w : List Action) (s : Synthesis Memory State) :
    Prop :=
  ∀ answers, s.reply oracle = .ok answers →
    ∀ (i : Nat) (h : Hypothesis State) (state : State) (views : Views),
      s.live[i]? = some h → answers[i]? = some (state, views) →
      ∀ a v, w = h.derivation.actions ++ a :: v →
        ∃ p, (a, p) ∈ views.readFor h.derivation ∧ (h.score.add p).isNaN = false

/-- Whether at most so many offers of the next round have a number for a score. -/
def OffersFit (oracle : Oracle Query Memory State) (capacity : Nat)
    (s : Synthesis Memory State) : Prop :=
  ∀ answers, s.reply oracle = .ok answers →
    ((s.offers answers).1.filter fun offer => !offer.1.isNaN).length ≤ capacity

/-- A run of rounds that may derive a word: there are rounds enough, and as long as the word is not
used up the oracle guides along it and the beam has room for all offers beside the candidates of the
rounds before. -/
structure HasRoomFor (oracle : Oracle Query Memory State) (config : Config)
    (s : Synthesis Memory State) (rounds : List Round) (w : List Action) : Prop where
  length_le : w.length ≤ rounds.length
  guides : ∀ q, q < w.length → Guides oracle w (s.take oracle q).2
  fits : ∀ q, q < w.length → OffersFit oracle
    (config.beamSize - ((rounds.take q).flatMap Round.candidates).length) (s.take oracle q).2

section Run

variable {oracle : Oracle Query Memory State} {config : Config} {subtypes : Subtyping}
  {memory memory' : Memory} {query : Query} {s s' : Synthesis Memory State} {rounds : List Round}
  {w : List Action} {d : Derivation}

/-- A round with room for all offers extends a hypothesis that has derived a beginning of a word by
the next action of the word. -/
theorem exists_child_of_next {round : Round} {h : Hypothesis State} {a : Action} {v : List Action}
    (hnext : s.next oracle = (some (.ok round), s')) (hguides : Guides oracle w s)
    (hfits : OffersFit oracle s.placesLeft s) (hlive : h ∈ s.live)
    (hopen : h.derivation.isComplete = false) (hword : w = h.derivation.actions ++ a :: v)
    (hrule : ∀ r, a = .applyRule r →
      isAdmissible s.config.encoding s.subtypes h.derivation.headType? r = true) :
    ∃ children, round = Synthesis.report children ∧
      s'.live = children.filterMap Child.live? ∧
      ∃ c ∈ children, h.derivation.apply a = .ok c.hypothesis.derivation ∧
        c.tree?.isSome = c.hypothesis.derivation.isComplete ∧
        ∀ t, c.tree? = some t → c.hypothesis.derivation.tree = .ok t := by
  obtain ⟨answers, children, memory, hreply, hlength, hchildren, hreport, rfl⟩ :=
    Synthesis.exists_extend_of_next_eq_ok hnext
  obtain ⟨i, hi⟩ := List.getElem?_of_mem hlive
  obtain ⟨⟨state, views⟩, hanswer⟩ : ∃ answer, answers[i]? = some answer := by
    have hlt := (List.getElem?_eq_some_iff.mp hi).1
    exact ⟨_, List.getElem?_eq_getElem (hlength ▸ hlt)⟩
  obtain ⟨p, hmem, hnumber⟩ := hguides answers hreply i h state views hi hanswer a v hword
  have hoffers := Synthesis.mem_offers hi hanswer hopen (offered_of_mem_readFor hmem hrule)
  have hbest := TopK.mem_best_of_length_le hoffers hnumber (hfits answers hreply)
  obtain ⟨id, c, hc, hoffer⟩ := Synthesis.exists_ofOffer_of_extend hchildren hbest
  obtain ⟨d, tree?, happly, rfl, hsome, htree⟩ := Child.ofOffer_eq_ok hoffer
  exact ⟨children, hreport, rfl, _, hc, happly, hsome, htree⟩

theorem exists_child_of_take
    (hstart : Synthesis.start config subtypes oracle memory query = (.ok s, memory'))
    (hrun : s.take oracle rounds.length = (rounds.map .ok, s'))
    (hroom : HasRoomFor oracle config s rounds w)
    (hadmissible : RulesAdmissible config.encoding subtypes w) {q : Nat} (hq : q < w.length)
    {h : Hypothesis State} (hlive : h ∈ (s.take oracle q).2.live)
    (hreplay : Derivation.replay config.encoding (w.take q) = .ok h.derivation) :
    ∃ children, rounds[q]? = some (Synthesis.report children) ∧
      (s.take oracle (q + 1)).2.live = children.filterMap Child.live? ∧
      ∃ c ∈ children,
        Derivation.replay config.encoding (w.take (q + 1)) = .ok c.hypothesis.derivation ∧
        c.tree?.isSome = c.hypothesis.derivation.isComplete ∧
        ∀ t, c.tree? = some t → c.hypothesis.derivation.tree = .ok t := by
  have hlt : q < rounds.length := Nat.lt_of_lt_of_le hq hroom.length_le
  have hround := List.getElem?_eq_getElem hlt
  have hbefore := Audited.take hstart hrun q (Nat.le_of_lt hlt)
  have hplaces : (s.take oracle q).2.placesLeft =
      config.beamSize - ((rounds.take q).flatMap Round.candidates).length := by
    rw [Synthesis.placesLeft, hbefore.config_eq, found_of_take hstart hrun q (Nat.le_of_lt hlt)]
  have hword : w = w.take q ++ w[q] :: w.drop (q + 1) := by
    rw [List.getElem_cons_drop, List.take_append_drop]
  have hrule : ∀ r, w[q] = .applyRule r → isAdmissible (s.take oracle q).2.config.encoding
      (s.take oracle q).2.subtypes h.derivation.headType? r = true := by
    intro r hr
    obtain ⟨d, hd, hadmissible⟩ := hadmissible (w.take q) r (w.drop (q + 1)) (hr ▸ hword)
    obtain rfl : d = h.derivation := Except.ok.inj (hd.symm.trans hreplay)
    rwa [hbefore.config_eq, hbefore.subtypes_eq]
  rw [← Derivation.actions_replay hreplay] at hword
  obtain ⟨children, hreport, hnext, c, hc, happly, hsome, htree⟩ := exists_child_of_next
    (Synthesis.next_of_take_rounds hrun hround) (hroom.guides q hq) (hplaces ▸ hroom.fits q hq)
    hlive (hbefore.live_open h hlive) hword hrule
  refine ⟨children, by rw [hround, hreport], hnext, c, hc, ?_, hsome, htree⟩
  rw [List.take_succ_eq_append_getElem hq, Derivation.replay,
    Derivation.applyAll_of_applyAll hreplay, Derivation.applyAll_of_apply happly,
    Derivation.applyAll_nil]

/-- As long as the word is not used up, some live hypothesis has derived as much of it as there were
rounds. -/
theorem exists_live_of_take
    (hstart : Synthesis.start config subtypes oracle memory query = (.ok s, memory'))
    (hrun : s.take oracle rounds.length = (rounds.map .ok, s'))
    (hroom : HasRoomFor oracle config s rounds w)
    (hadmissible : RulesAdmissible config.encoding subtypes w)
    (hreplay : Derivation.replay config.encoding w = .ok d) :
    ∀ q, q < w.length → ∃ h ∈ (s.take oracle q).2.live,
      Derivation.replay config.encoding (w.take q) = .ok h.derivation := by
  intro q
  induction q with
  | zero =>
    intro _
    obtain ⟨-, -, -, state, hlive⟩ := Synthesis.exists_of_start_eq_ok hstart
    refine ⟨⟨0, none, .zero, .empty config.encoding, state⟩, ?_, rfl⟩
    rw [Synthesis.take, hlive]
    exact List.mem_cons_self
  | succ q ih =>
    intro hq
    obtain ⟨h, hlive, hh⟩ := ih (Nat.lt_of_succ_lt hq)
    obtain ⟨children, -, hnext, c, hc, hchild, hsome, -⟩ :=
      exists_child_of_take hstart hrun hroom hadmissible (Nat.lt_of_succ_lt hq) hlive hh
    -- the rest of the word still goes on from there
    have hopen : c.hypothesis.derivation.isComplete = false := by
      rw [← List.take_append_drop (q + 1) w] at hreplay
      obtain ⟨d₁, hd₁, hrest⟩ := Derivation.exists_of_applyAll_append hreplay
      obtain rfl : d₁ = c.hypothesis.derivation := Except.ok.inj (hd₁.symm.trans hchild)
      refine Bool.eq_false_iff.mpr fun hcomplete => ?_
      have hnil := Derivation.eq_nil_of_applyAll_of_isComplete hcomplete hrest
      rw [List.drop_eq_nil_iff] at hnil
      omega
    refine ⟨c.hypothesis, ?_, hchild⟩
    rw [hnext, List.mem_filterMap]
    refine ⟨c, hc, ?_⟩
    rw [Child.live?, if_pos]
    rw [← Option.not_isSome, hsome, hopen]
    rfl

/-- The round with as many rounds up to it as a word has actions reports the tree of the word. -/
theorem exists_candidate_of_take
    (hstart : Synthesis.start config subtypes oracle memory query = (.ok s, memory'))
    (hrun : s.take oracle rounds.length = (rounds.map .ok, s'))
    (hroom : HasRoomFor oracle config s rounds w)
    (hadmissible : RulesAdmissible config.encoding subtypes w)
    (hreplay : Derivation.replay config.encoding w = .ok d) (hcomplete : d.isComplete = true) :
    ∃ q round c, w.length = q + 1 ∧ rounds[q]? = some round ∧ c ∈ round.candidates ∧
      d.tree = .ok c.ast := by
  obtain ⟨q, hlength⟩ : ∃ q, w.length = q + 1 := by
    refine Nat.exists_eq_add_one.mpr (List.length_pos_iff.mpr ?_)
    rintro rfl
    obtain rfl : .empty config.encoding = d := Except.ok.inj hreplay
    exact nomatch hcomplete
  have hq : q < w.length := by omega
  obtain ⟨h, hlive, hh⟩ := exists_live_of_take hstart hrun hroom hadmissible hreplay q hq
  obtain ⟨children, hround, -, c, hc, hchild, hsome, htree⟩ :=
    exists_child_of_take hstart hrun hroom hadmissible hq hlive hh
  rw [← hlength, List.take_length, hreplay] at hchild
  obtain rfl : d = c.hypothesis.derivation := Except.ok.inj hchild
  obtain ⟨t, ht⟩ := Option.isSome_iff_exists.mp (hsome.trans hcomplete)
  refine ⟨q, _, ⟨c.hypothesis.score, t⟩, hlength, hround, ?_, htree t ht⟩
  refine List.mem_filterMap.mpr ⟨c, hc, ?_⟩
  rw [Child.candidate?, ht]
  rfl

end Run

/-- Of the trees that have actions, a search may find exactly those whose nodes are typed: every
rule among the actions is admissible where it is applied exactly if the nodes are typed, and then
any run with room for the actions reports, with its round for the last of them, the tree that they
rebuild. That is the tree itself if the tokenizer loses nothing of its leaves. -/
theorem candidate_of_nodesTyped {config : Config} {subtypes : Subtyping}
    {tokenize : String → List String} {t : Ast} {w : List Action}
    (hactions : t.actions config.encoding tokenize = .ok w) :
    (RulesAdmissible config.encoding subtypes w ↔ t.NodesTyped subtypes) ∧
    (t.NodesTyped subtypes →
      ∀ (oracle : Oracle Query Memory State) (memory memory' : Memory) (query : Query)
        (s s' : Synthesis Memory State) (rounds : List Round),
        Synthesis.start config subtypes oracle memory query = (.ok s, memory') →
        s.take oracle rounds.length = (rounds.map .ok, s') →
        HasRoomFor oracle config s rounds w →
        ∃ q round c d, w.length = q + 1 ∧ rounds[q]? = some round ∧ c ∈ round.candidates ∧
          Derivation.replay config.encoding w = .ok d ∧ d.tree = .ok c.ast ∧
          ((∀ v ∈ t.leafTexts, String.join (tokenize v) = v) → c.ast = t)) := by
  refine ⟨rulesAdmissible_iff_nodesTyped hactions, ?_⟩
  intro htyped oracle memory memory' query s s' rounds hstart hrun hroom
  have hadmissible := rulesAdmissible_of_nodesTyped hactions htyped
  obtain ⟨p, hfits, rfl, hread⟩ := exists_parse_of_actions hactions
  obtain ⟨d, hreplay, hcomplete, htree⟩ := Derivation.tree_of_replay_word hfits
  obtain ⟨q, round, c, hlength, hround, hc, hast⟩ :=
    exists_candidate_of_take hstart hrun hroom hadmissible hreplay hcomplete
  refine ⟨q, round, c, d, hlength, hround, hc, hreplay, hast, ?_⟩
  intro htokenize
  rw [hread, hast] at htree
  have hc : c.ast = t.mapLeaves (config.encoding.respell tokenize) := Except.ok.inj htree
  rw [hc, Ast.mapLeaves_eq_self]
  intro v hv
  rw [Encoding.respell, htokenize v hv, ite_self]

/-- A list of one statement, encoded as one expansion. The first round finds another tree and gives
one place away, and the place that is left leads to the list in three rounds. -/
theorem candidate_of_nodesTyped_pass :
    let module : Rule := .expandTree ⟨⟨"Module", .node⟩, [("body", ⟨"stmt", .variadic⟩)]⟩
    let one : Rule := .expandTree ⟨⟨"stmt", .variadic⟩, [("0", ⟨"stmt", .node⟩)]⟩
    let pass : Rule := .expandTree ⟨⟨"Pass", .node⟩, []⟩
    let oracle := Oracle.constant [(module, .zero), (one, .zero), (pass, .zero)] []
    let config : Config := { beamSize := 2, encoding := { retainVariadic := false } }
    let subtypes := Subtyping.ofPairs [("Pass", "stmt")]
    let tree := Ast.node "Module" [.mk "body" "stmt" (.list [.node "Pass" []])]
    let w : List Action := [.applyRule module, .applyRule one, .applyRule pass]
    let rounds : List Round := [
      ⟨[⟨.zero, .node "Pass" []⟩], [⟨1, some 0, .zero, .applyRule module, false⟩,
        ⟨2, some 0, .zero, .applyRule pass, true⟩]⟩,
      ⟨[], [⟨3, some 1, .zero, .applyRule one, false⟩]⟩,
      ⟨[⟨.zero, tree⟩], [⟨4, some 3, .zero, .applyRule pass, true⟩]⟩]
    tree.actions config.encoding (fun text => [text]) = .ok w ∧
      RulesAdmissible config.encoding subtypes w ∧
      ∃ s s', Synthesis.start config subtypes oracle () () = (.ok s, ()) ∧
        s.take oracle rounds.length = (rounds.map .ok, s') ∧ HasRoomFor oracle config s rounds w ∧
        ∃ q round c, w.length = q + 1 ∧ rounds[q]? = some round ∧ c ∈ round.candidates ∧
          c.ast = tree := by
  intro module one pass oracle config subtypes tree w rounds
  have hactions : tree.actions config.encoding (fun text => [text]) = .ok w := rfl
  have htyped : tree.NodesTyped subtypes := ⟨⟨⟨rfl, trivial⟩, trivial⟩, trivial⟩
  obtain ⟨s, s', hstart, hrun, hlive, hoffers⟩ :
      ∃ s s', Synthesis.start config subtypes oracle () () = (.ok s, ()) ∧
        s.take oracle rounds.length = (rounds.map .ok, s') ∧
        (∀ q, q < w.length → ∀ h ∈ (s.take oracle q).2.live,
          h.score = .zero ∧ h.derivation.headType?.map NodeType.constraint ≠ some .token) ∧
        ∀ q, q < w.length → ∀ answers, (s.take oracle q).2.reply oracle = .ok answers →
          (((s.take oracle q).2.offers answers).1.filter fun offer => !offer.1.isNaN).length ≤
            config.beamSize - ((rounds.take q).flatMap Round.candidates).length := by
    refine ⟨_, _, rfl, Prod.ext ?_ rfl, ?_, ?_⟩
    · dsimp only
      decide +kernel
    · decide +kernel
    · intro q hq answers hanswers
      obtain rfl := Except.ok.inj hanswers
      clear hanswers
      revert q
      decide +kernel
  have hnumber : (Score.zero.add .zero).isNaN = false := by decide +kernel
  have hroom : HasRoomFor oracle config s rounds w := by
    refine ⟨Nat.le_refl 3, ?_, hoffers⟩
    intro q hq answers hanswers i h state views hi hanswer a v hword
    obtain rfl := Except.ok.inj hanswers
    obtain ⟨hscore, hhead⟩ := hlive q hq h (List.mem_of_getElem? hi)
    obtain ⟨-, -, heq⟩ := List.mem_map.mp (List.mem_of_getElem? hanswer)
    obtain ⟨rfl, rfl⟩ := Prod.mk.inj heq
    have ha : a ∈ w := hword ▸ List.mem_append_right _ List.mem_cons_self
    refine ⟨.zero, ?_, hscore ▸ hnumber⟩
    rw [Views.readFor, if_neg hhead]
    exact List.mem_map_of_mem (f := fun a => (a, Score.zero)) ha
  obtain ⟨hadmissible, hfound⟩ :=
    @candidate_of_nodesTyped Unit Unit Unit config subtypes _ tree w hactions
  obtain ⟨q, round, c, d, hlength, hround, hc, -, -, htree⟩ :=
    hfound htyped oracle () () () s s' rounds hstart hrun hroom
  exact ⟨hactions, hadmissible.mpr htyped, s, s', hstart, hrun, hroom, q, round, c, hlength, hround,
    hc, htree fun v hv => nomatch hv⟩

end TreeDerivation
