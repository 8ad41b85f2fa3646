import TreeDerivation.Proofs.Search.Ranking

/-!
# No derivation is explored twice

If an oracle never lists a rule or a token twice for one hypothesis (`Oracle.RepeatFree`), then a
round offers no action twice for one hypothesis, and its selector keeps no offer twice. The
hypotheses that a round extends are those that the round before has numbered, so over all rounds no
hypothesis is extended by one action twice (`ExtendedOnce`).

That is all that the chains of records need in order to differ: a chain is read back to the root
action by action, and at each step the parent and the action name one record (`Chain.id_eq`). What
the search holds live and what it yields inherit this from the records behind them
(`explored_once_of_take`).

The condition on the lists is needed: nothing in a search compares derivations, so an entry that is
listed twice is explored twice. And what is never repeated are derivations. Two of them may build
the same tree.
-/

namespace TreeDerivation

variable {Query Memory State : Type}

/-! ## Lists without repetition -/

/-- Whether neither list of the views has a rule or a token twice, whatever the scores. -/
structure Views.RepeatFree (views : Views) : Prop where
  rules : (views.rules.items.map Prod.fst).Nodup
  tokens : (views.tokens.items.map Prod.fst).Nodup

/-- Whether no list in an answer of the oracle has a rule or a token twice. -/
def Oracle.RepeatFree (oracle : Oracle Query Memory State) : Prop :=
  ∀ memory live answers, (oracle.answer memory live).1 = .ok answers →
    ∀ answer ∈ answers, answer.2.RepeatFree

theorem Oracle.repeatFree_constant {rules : List (Rule × Score)} {tokens : List (Token × Score)}
    (hrules : (rules.map Prod.fst).Nodup) (htokens : (tokens.map Prod.fst).Nodup) :
    (Oracle.constant rules tokens).RepeatFree := by
  intro memory live answers hanswers answer hanswer
  obtain rfl := Except.ok.inj hanswers
  obtain ⟨h, -, rfl⟩ := List.mem_map.mp hanswer
  exact ⟨hrules, htokens⟩

/-! ## One round -/

/-- What a record shows of the offer behind it: the hypothesis that was extended, and the action. -/
def Progress.shown (p : Progress) : Option Nat × Action :=
  (p.parent, p.action)

/-- A hypothesis is offered no action twice. -/
theorem nodup_shown_offersFor (encoding : Encoding) (subtypes : Subtyping) (h : Hypothesis State)
    {answer : State × Views} (hviews : answer.2.RepeatFree) :
    ((offersFor encoding subtypes h answer).1.map fun x => x.2.shown).Nodup := by
  obtain ⟨state, views⟩ := answer
  have htokens : (views.tokens.items.map fun x => (h.id, Action.generateToken x.1)).Nodup := by
    have hmap := hviews.tokens.map (f := fun token => (h.id, Action.generateToken token))
      fun a b hab => Action.generateToken.inj (Prod.mk.inj hab).2
    rwa [List.map_map] at hmap
  have hrules : (views.rules.items.map fun x => (h.id, Action.applyRule x.1)).Nodup := by
    have hmap := hviews.rules.map (f := fun rule => (h.id, Action.applyRule rule))
      fun a b hab => Action.applyRule.inj (Prod.mk.inj hab).2
    rwa [List.map_map] at hmap
  rw [offersFor]
  dsimp only
  split
  next => exact List.nodup_nil
  next =>
    split
    next =>
      rw [List.map_map]
      exact htokens
    next =>
      rw [List.map_map]
      exact hrules.sublist (List.filter_sublist.map _)

namespace Synthesis

variable {s : Synthesis Memory State}

/-- No offer of a round shows the same hypothesis and the same action as another one. -/
theorem nodup_shown_offers {answers : List (State × Views)}
    (hids : s.live.Pairwise fun a b => a.id < b.id) (hlength : answers.length = s.live.length)
    (hanswers : ∀ answer ∈ answers, answer.2.RepeatFree) :
    ((s.offers answers).1.map fun x => x.2.shown).Nodup := by
  have hzip : (s.live.zip answers).Pairwise fun x y => x.1.id < y.1.id := by
    have hfst : (s.live.zip answers).map Prod.fst = s.live :=
      List.map_fst_zip (Nat.le_of_eq hlength.symm)
    refine List.pairwise_map (R := fun a b : Hypothesis State => a.id < b.id) |>.mp ?_
    rwa [hfst]
  rw [offers_eq_flatMap, List.map_flatMap]
  refine List.pairwise_flatMap.mpr ⟨?_, hzip.imp ?_⟩
  · intro x hx
    exact nodup_shown_offersFor _ _ x.1 (hanswers x.2 (List.of_mem_zip hx).2)
  · intro x y hxy a ha b hb hab
    obtain ⟨⟨score, offer⟩, hoffer, rfl⟩ := List.mem_map.mp ha
    obtain ⟨⟨score', offer'⟩, hoffer', rfl⟩ := List.mem_map.mp hb
    have hparent : offer.parent = x.1 := (exists_of_mem_offersFor hoffer).1
    have hparent' : offer'.parent = y.1 := (exists_of_mem_offersFor hoffer').1
    have hid : offer.parent.id = offer'.parent.id := (Prod.mk.inj hab).1
    rw [hparent, hparent'] at hid
    exact Nat.ne_of_lt hxy hid

/-- A round reports no offer twice, if none was made twice. -/
theorem nodup_shown_of_extend {offers : List (Score × Offer State)} {capacity : Nat}
    {children : List (Child State)} (hoffers : (offers.map fun x => x.2.shown).Nodup)
    (h : s.extend (TopK.best capacity offers) = .ok children) :
    ((report children).progress.map Progress.shown).Nodup := by
  have hselected : ((TopK.best capacity offers).map fun x => x.2.shown).Nodup :=
    TopK.nodup_best hoffers capacity
  have hinj : Function.Injective fun shown : Nat × Action => (some shown.1, shown.2) :=
    fun a b hab => Prod.ext (Option.some.inj (Prod.mk.inj hab).1) (Prod.mk.inj hab).2
  have hprogress := congrArg (List.map fun x => (x.1, x.2.2)) (map_progress_of_extend h)
  have hshown : (report children).progress.map Progress.shown =
      ((TopK.best capacity offers).map fun x => x.2.shown).map
        fun shown => (some shown.1, shown.2) := by
    rw [report, List.map_map, List.map_map]
    rw [List.map_map, List.map_map, List.map_map, List.map_map] at hprogress
    exact hprogress
  rw [hshown]
  exact hselected.map hinj

/-- An extension has a new number and extends what was live before. -/
theorem number_of_extend {answers : List (State × Views)} {capacity : Nat}
    {children : List (Child State)}
    (h : s.extend (TopK.best capacity (s.offers answers).1) = .ok children) {c : Child State}
    (hc : c ∈ children) :
    s.nextId ≤ c.hypothesis.id ∧ c.hypothesis.id < s.nextId + children.length ∧
      ∃ h ∈ s.live, c.hypothesis.parent = some h.id := by
  have hid := List.mem_map_of_mem (f := (·.hypothesis.id)) hc
  rw [map_id_of_extend h, List.mem_range'_1] at hid
  obtain ⟨parent, hext⟩ := exists_of_extend_eq_ok h c hc
  exact ⟨hid.1, hid.2, parent, hext.mem_live, hext.parent_eq⟩

end Synthesis

/-! ## The invariant of a search -/

/-- What the rounds so far and the search after them must have in common so that no hypothesis is
ever extended by the same action twice: all that was extended has a smaller number than what is
live, and that has a smaller number than what is to come. -/
structure ExtendedOnce (rounds : List Round) (s : Synthesis Memory State) : Prop where
  nodup_shown : ((records rounds).map Progress.shown).Nodup
  parent_lt : ∀ p ∈ records rounds, ∀ h ∈ s.live, ∃ id, p.parent = some id ∧ id < h.id
  id_lt : ∀ h ∈ s.live, h.id < s.nextId

namespace ExtendedOnce

variable {oracle : Oracle Query Memory State} {rounds : List Round} {round : Round}
  {s s' : Synthesis Memory State}

theorem of_start {config : Config} {subtypes : Subtyping} {memory memory' : Memory} {query : Query}
    (h : Synthesis.start config subtypes oracle memory query = (.ok s, memory')) :
    ExtendedOnce [] s := by
  obtain ⟨-, -, hnextId, state, hlive⟩ := Synthesis.exists_of_start_eq_ok h
  refine ⟨List.nodup_nil, fun p hp => absurd hp List.not_mem_nil, ?_⟩
  intro h hh
  rw [hlive] at hh
  obtain rfl := List.mem_singleton.mp hh
  rw [hnextId]
  exact Nat.one_pos

/-- A round keeps the invariant. -/
theorem next (horacle : oracle.RepeatFree) (hs : ExtendedOnce rounds s) (hbest : BestFirst s.live)
    (h : s.next oracle = (some (.ok round), s')) : ExtendedOnce (rounds ++ [round]) s' := by
  obtain ⟨answers, children, memory, hreply, hlength, hchildren, rfl, rfl⟩ :=
    Synthesis.exists_extend_of_next_eq_ok h
  have hlive : ∀ h ∈ children.filterMap Child.live?, ∃ c ∈ children, h = c.hypothesis := by
    intro h hh
    obtain ⟨c, hc, hsome⟩ := List.mem_filterMap.mp hh
    exact ⟨c, hc, (Child.eq_of_live?_eq_some hsome).2⟩
  refine { nodup_shown := ?nodup, parent_lt := ?parents, id_lt := ?ids }
  case nodup =>
    have hshown : ((Synthesis.report children).progress.map Progress.shown).Nodup :=
      Synthesis.nodup_shown_of_extend
        (Synthesis.nodup_shown_offers hbest.ids hlength (horacle _ _ answers hreply)) hchildren
    rw [records_append, List.map_append, List.nodup_append']
    refine ⟨hs.nodup_shown, hshown, ?_⟩
    intro shown hearlier hlater
    obtain ⟨p, hp, rfl⟩ := List.mem_map.mp hearlier
    obtain ⟨p', hp', hsame⟩ := List.mem_map.mp hlater
    obtain ⟨c, hc, rfl⟩ := List.mem_map.mp hp'
    obtain ⟨-, -, h, hh, hparent⟩ := Synthesis.number_of_extend hchildren hc
    obtain ⟨id, hid, hlt⟩ := hs.parent_lt p hp h hh
    have hparents : c.hypothesis.parent = p.parent := (Prod.mk.inj hsame).1
    rw [hparent, hid] at hparents
    exact Nat.ne_of_gt hlt (Option.some.inj hparents)
  case parents =>
    intro p hp h hh
    obtain ⟨c, hc, rfl⟩ := hlive h hh
    obtain ⟨hnew, -, h, hh, -⟩ := Synthesis.number_of_extend hchildren hc
    rw [records_append] at hp
    rcases List.mem_append.mp hp with hearlier | hlater
    · obtain ⟨id, hid, hlt⟩ := hs.parent_lt p hearlier h hh
      have hbefore := hs.id_lt h hh
      exact ⟨id, hid, by omega⟩
    · obtain ⟨c', hc', rfl⟩ := List.mem_map.mp hlater
      obtain ⟨-, -, h', hh', hparent⟩ := Synthesis.number_of_extend hchildren hc'
      have hbefore := hs.id_lt h' hh'
      exact ⟨h'.id, hparent, by omega⟩
  case ids =>
    intro h hh
    obtain ⟨c, hc, rfl⟩ := hlive h hh
    exact (Synthesis.number_of_extend hchildren hc).2.1

/-- The rounds of a search keep the invariant. -/
theorem take {config : Config} {subtypes : Subtyping} {memory memory' : Memory} {query : Query}
    (horacle : oracle.RepeatFree)
    (hstart : Synthesis.start config subtypes oracle memory query = (.ok s, memory'))
    (hrun : s.take oracle rounds.length = (rounds.map .ok, s')) :
    BestFirst s'.live ∧ ExtendedOnce rounds s' := by
  have hall := Synthesis.rounds_take_induction hrun
    (motive := fun earlier t => BestFirst t.live ∧ ExtendedOnce earlier t)
    ⟨Synthesis.bestFirst_of_start hstart, of_start hstart⟩
    (fun _ _ _ hbefore hnext => ⟨Synthesis.bestFirst_of_next hnext hbefore.1,
      hbefore.2.next horacle hbefore.1 hnext⟩) rounds.length (Nat.le_refl _)
  rwa [List.take_length, hrun] at hall

end ExtendedOnce

/-! ## Chains differ -/

/-- A chain leads to one record, if no two records extend one hypothesis by one action. -/
theorem Chain.id_eq {records : List Progress} (hshown : (records.map Progress.shown).Nodup)
    {id id' : Nat} {w : List Action} (h : Chain records id w) (h' : Chain records id' w) :
    id = id' := by
  induction h generalizing id' with
  | root =>
    generalize hw : [] = w at h'
    cases h' with
    | root => rfl
    | step p hp hparent _ => exact absurd hw (by simp)
  | @step parent w p hp hparent _ ih =>
    generalize hw : w ++ [p.action] = w' at h'
    cases h' with
    | root => exact absurd hw (by simp)
    | step p' hp' hparent' hchain' =>
      obtain ⟨rfl, haction⟩ := List.append_inj' hw rfl
      obtain rfl := ih hchain'
      have hsame : p.shown = p'.shown :=
        Prod.ext (hparent.trans hparent'.symm) (List.singleton_inj.mp haction)
      rw [List.inj_on_of_nodup_map hshown hp hp' hsame]

/-! ## Lists in step -/

theorem exists_forall₂ {α β γ : Type} {P : α → γ → Prop} {Q : β → γ → Prop} {xs : List α}
    {ys : List β} (h : List.Forall₂ (fun x y => ∃ z, P x z ∧ Q y z) xs ys) :
    ∃ zs, List.Forall₂ P xs zs ∧ List.Forall₂ Q ys zs := by
  induction h with
  | nil => exact ⟨[], .nil, .nil⟩
  | cons hxy _ ih =>
    obtain ⟨z, hxz, hyz⟩ := hxy
    obtain ⟨zs, hxs, hys⟩ := ih
    exact ⟨z :: zs, .cons hxz hxs, .cons hyz hys⟩

/-- What stands in step with items that have nothing in common is told apart. -/
theorem nodup_of_forall₂ {β γ : Type} {Q : β → γ → Prop} {ys : List β} {zs : List γ}
    (h : List.Forall₂ Q ys zs) (hys : ys.Pairwise fun y y' => ∀ z, Q y z → ¬ Q y' z) :
    zs.Nodup := by
  induction h with
  | nil => exact List.nodup_nil
  | @cons y z ys zs hyz hrest ih =>
    obtain ⟨hhead, htail⟩ := List.pairwise_cons.mp hys
    refine List.nodup_cons.mpr ⟨?_, ih htail⟩
    intro hz
    obtain ⟨i, hi, rfl⟩ := List.getElem_of_mem hz
    have hi' : i < ys.length := hrest.length_eq ▸ hi
    exact hhead ys[i] (List.getElem_mem hi') _ hyz (hrest.get hi' hi)

/-! ## The search -/

/-- That the rounds of a search have explored no derivation twice, and what is live after them
neither. A record stands for the word on its chain. -/
structure ExploredOnce (encoding : Encoding) (rounds : List Round)
    (live : List (Hypothesis State)) : Prop where
  exists_chain : ∀ p ∈ records rounds, ∃ w, Chain (records rounds) p.id w
  /-- No two records have a word in common. -/
  records_differ : (records rounds).Pairwise fun p p' =>
    ∀ w, Chain (records rounds) p.id w → ¬ Chain (records rounds) p'.id w
  /-- No two live hypotheses have taken the same actions. -/
  live_differ : (live.map fun h => h.derivation.actions).Nodup
  /-- The candidates are what the words of the complete records build, in order, and no two of these
  words are the same. -/
  candidates_differ : ∃ words : List (List Action), words.Nodup ∧
    List.Forall₂ (fun p w => Chain (records rounds) p.id w)
      ((records rounds).filter Progress.isComplete) words ∧
    List.Forall₂ (fun c w => ∃ d, Derivation.replay encoding w = .ok d ∧ d.tree = .ok c.ast)
      (rounds.flatMap Round.candidates) words

section Run

variable {oracle : Oracle Query Memory State} {config : Config} {subtypes : Subtyping}
  {memory memory' : Memory} {query : Query} {s s' : Synthesis Memory State} {rounds : List Round}

/-- The candidates of all rounds belong to the complete records of all rounds, in order. -/
theorem forall₂_candidates_of_take
    (hstart : Synthesis.start config subtypes oracle memory query = (.ok s, memory'))
    (hrun : s.take oracle rounds.length = (rounds.map .ok, s')) :
    List.Forall₂ (fun p c => ∃ w, Chain (records rounds) p.id w ∧
        ∃ d, Derivation.replay config.encoding w = .ok d ∧ d.tree = .ok c.ast)
      ((records rounds).filter Progress.isComplete) (rounds.flatMap Round.candidates) := by
  have hrounds : List.Forall₂ (fun r r' => r = r' ∧ r ∈ rounds) rounds rounds :=
    List.forall₂_same.mpr fun r hr => ⟨rfl, hr⟩
  rw [records, List.filter_flatMap]
  refine List.rel_flatMap hrounds ?_
  rintro round _ ⟨rfl, hround⟩
  refine ((candidates_of_take hstart hrun hround).flip).imp ?_
  rintro p c ⟨-, w, d, hchain, hreplay, htree⟩
  exact ⟨w, hchain, d, hreplay, htree⟩

/-- No derivation is explored twice by rounds that succeeded. -/
theorem exploredOnce_of_rounds (horacle : oracle.RepeatFree)
    (hstart : Synthesis.start config subtypes oracle memory query = (.ok s, memory'))
    (hrun : s.take oracle rounds.length = (rounds.map .ok, s')) :
    ExploredOnce config.encoding rounds s'.live := by
  have haudited := Audited.of_take hstart hrun
  obtain ⟨hbest, hextended⟩ := ExtendedOnce.take horacle hstart hrun
  have hrecords : (records rounds).Pairwise fun p p' =>
      ∀ w, Chain (records rounds) p.id w → ¬ Chain (records rounds) p'.id w := by
    refine (List.pairwise_map.mp haudited.nodup_ids).imp ?_
    intro p p' hne w hchain hchain'
    exact hne (hchain.id_eq hextended.nodup_shown hchain')
  refine ⟨?_, hrecords, ?_, ?_⟩
  · intro p hp
    obtain ⟨round, hround, hp⟩ := List.mem_flatMap.mp hp
    obtain ⟨q, hq⟩ := List.getElem?_of_mem hround
    obtain ⟨w, -, hchain, -⟩ := record_chain_of_take hstart hrun hq hp
    exact ⟨w, hchain⟩
  · refine List.pairwise_map.mpr (hbest.ids.imp_of_mem ?_)
    intro h h' hh hh' hlt hsame
    obtain ⟨w, hchain, hreplay, -⟩ := haudited.live_chain h hh
    obtain ⟨w', hchain', hreplay', -⟩ := haudited.live_chain h' hh'
    rw [Derivation.actions_replay hreplay, Derivation.actions_replay hreplay'] at hsame
    rw [← hsame] at hchain'
    exact Nat.ne_of_lt hlt (hchain.id_eq hextended.nodup_shown hchain')
  · obtain ⟨words, hchains, hcandidates⟩ :=
      exists_forall₂ (forall₂_candidates_of_take hstart hrun)
    exact ⟨words, nodup_of_forall₂ hchains (hrecords.filter _), hchains, hcandidates⟩

/-- A search whose oracle lists nothing twice explores no derivation twice: after any number of
items, no two records have the same word, no two live hypotheses have taken the same actions and no
two candidates come from the same derivation. -/
theorem exploredOnce_of_take (horacle : oracle.RepeatFree)
    (hstart : Synthesis.start config subtypes oracle memory query = (.ok s, memory')) (n : Nat) :
    ExploredOnce config.encoding (roundsOf (s.take oracle n).1) (s.take oracle n).2.live := by
  obtain ⟨s', hrun, hlive⟩ := Synthesis.exists_take_roundsOf oracle s n
  rw [← hlive]
  exact exploredOnce_of_rounds horacle hstart hrun

end Run

/-- Two rules that can follow each other for ever. In two rounds a search explores four derivations,
of which two are complete and one is live. -/
theorem exploredOnce_of_take_chain :
    let stop : Rule := .expandTree ⟨⟨"Chain", .node⟩, []⟩
    let link : Rule := .expandTree ⟨⟨"Chain", .node⟩, [("rest", ⟨"Chain", .node⟩)]⟩
    let oracle := Oracle.constant [(stop, .zero), (link, .zero)] []
    let first : Round := ⟨[⟨.zero, .node "Chain" []⟩],
      [⟨1, some 0, .zero, .applyRule stop, true⟩, ⟨2, some 0, .zero, .applyRule link, false⟩]⟩
    let second : Round := ⟨[⟨.zero, .node "Chain"
        [.mk "rest" "Chain" (.single (.node "Chain" []))]⟩],
      [⟨3, some 2, .zero, .applyRule stop, true⟩, ⟨4, some 2, .zero, .applyRule link, false⟩]⟩
    ∃ s s', Synthesis.start { beamSize := 4 } .exact oracle () () = (.ok s, ()) ∧
      s.take oracle 2 = ([.ok first, .ok second], s') ∧
      ExploredOnce {} [first, second] s'.live := by
  intro stop link oracle first second
  have horacle : oracle.RepeatFree := Oracle.repeatFree_constant (by decide) (by decide)
  obtain ⟨s, s', hstart, htake⟩ :
      ∃ s s', Synthesis.start { beamSize := 4 } .exact oracle () () = (.ok s, ()) ∧
        s.take oracle 2 = ([.ok first, .ok second], s') := by
    refine ⟨_, _, rfl, Prod.ext ?_ rfl⟩
    dsimp only
    decide +kernel
  have hexplored := exploredOnce_of_take horacle hstart 2
  rw [htake] at hexplored
  exact ⟨s, s', hstart, htake, hexplored⟩

end TreeDerivation
