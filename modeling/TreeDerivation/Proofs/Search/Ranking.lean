import TreeDerivation.Proofs.Search.AuditTrail
import TreeDerivation.Proofs.Search.TopK

/-!
# What a round selects

The answers of the oracle give one table of next actions for each live hypothesis. `entries` lists
what may be selected of them, each entry with its place, and `ranking` sorts the entries: the better
score first, of equal scores the one of the earlier hypothesis, and of one hypothesis the one that
its table lists first.

A round reports the first places of this ranking, as many as the candidates of the rounds before
have left in the beam (`selection_of_take`). So scores are always numbers, and the live hypotheses
stand best first (`BestFirst`).
-/

namespace TreeDerivation

variable {Query Memory State : Type}

/-! ## The ranking of all entries -/

/-- One entry of the answers that may be selected. -/
structure Entry where
  /-- The place of the hypothesis among those that are live. -/
  hypothesis : Nat
  /-- The place of the entry in the table of the hypothesis. -/
  index : Nat
  /-- The number of the hypothesis. -/
  parent : Nat
  /-- The score of the hypothesis and the log-probability of the entry, added up. -/
  score : Score
  action : Action

/-- The entries for one hypothesis: all of its tokens where the text of a leaf is open, and the
admissible ones of its rules everywhere else. -/
def entriesFor (encoding : Encoding) (subtypes : Subtyping) (i : Nat) (h : Hypothesis State)
    (views : Views) : List Entry :=
  let head := h.derivation.headType?
  if head.map NodeType.constraint = some .token then
    views.tokens.items.zipIdx.map fun ((token, p), j) =>
      ⟨i, j, h.id, h.score.add p, .generateToken token⟩
  else
    (views.rules.items.zipIdx.filter fun entry =>
      isAdmissible encoding subtypes head entry.1.1).map fun ((rule, p), j) =>
        ⟨i, j, h.id, h.score.add p, .applyRule rule⟩

/-- The entries for all live hypotheses. -/
def entries (encoding : Encoding) (subtypes : Subtyping) (live : List (Hypothesis State))
    (answers : List (State × Views)) : List Entry :=
  (live.zip answers).zipIdx.flatMap fun ((h, answer), i) =>
    entriesFor encoding subtypes i h answer.2

/-- Whether an entry is selected no later than another one. -/
def Entry.precedes (a b : Entry) : Bool :=
  b.score.rank < a.score.rank ∨ a.score.rank = b.score.rank ∧
    (a.hypothesis < b.hypothesis ∨ a.hypothesis = b.hypothesis ∧ a.index ≤ b.index)

/-- The entries whose score is a number, in the order in which they are selected. -/
def ranking (all : List Entry) : List Entry :=
  (all.filter fun a => !a.score.isNaN).mergeSort Entry.precedes

namespace Entry

theorem precedes_iff {a b : Entry} : a.precedes b = true ↔ b.score.rank < a.score.rank ∨
    a.score.rank = b.score.rank ∧
      (a.hypothesis < b.hypothesis ∨ a.hypothesis = b.hypothesis ∧ a.index ≤ b.index) := by
  rw [precedes, decide_eq_true_iff]

theorem precedes_trans (a b c : Entry) (hab : a.precedes b = true) (hbc : b.precedes c = true) :
    a.precedes c = true := by
  rw [precedes_iff] at hab hbc ⊢
  omega

theorem precedes_total (a b : Entry) : (a.precedes b || b.precedes a) = true := by
  rw [Bool.or_eq_true, precedes_iff, precedes_iff]
  omega

/-- Whether an entry stands before another one in the answers. -/
def Before (a b : Entry) : Prop :=
  a.hypothesis < b.hypothesis ∨ a.hypothesis = b.hypothesis ∧ a.index < b.index

end Entry

theorem pairwise_entriesFor (encoding : Encoding) (subtypes : Subtyping) (i : Nat)
    (h : Hypothesis State) (views : Views) :
    (entriesFor encoding subtypes i h views).Pairwise Entry.Before := by
  rw [entriesFor]
  split
  · exact List.pairwise_map.mpr ((pairwise_zipIdx _).imp fun hlt => .inr ⟨rfl, hlt⟩)
  · exact List.pairwise_map.mpr
      (((pairwise_zipIdx _).sublist List.filter_sublist).imp fun hlt => .inr ⟨rfl, hlt⟩)

theorem of_mem_entriesFor {encoding : Encoding} {subtypes : Subtyping} {i : Nat}
    {h : Hypothesis State} {views : Views} {a : Entry}
    (ha : a ∈ entriesFor encoding subtypes i h views) : a.hypothesis = i ∧ a.parent = h.id := by
  rw [entriesFor] at ha
  split at ha
  · obtain ⟨x, -, rfl⟩ := List.mem_map.mp ha
    exact ⟨rfl, rfl⟩
  · obtain ⟨x, -, rfl⟩ := List.mem_map.mp ha
    exact ⟨rfl, rfl⟩

/-- The entries are listed by hypothesis and then by place in the table. -/
theorem pairwise_entries (encoding : Encoding) (subtypes : Subtyping)
    (live : List (Hypothesis State)) (answers : List (State × Views)) :
    (entries encoding subtypes live answers).Pairwise Entry.Before := by
  refine List.pairwise_flatMap.mpr ⟨fun x _ => pairwise_entriesFor _ _ _ _ _, ?_⟩
  refine (pairwise_zipIdx _).imp ?_
  intro x y hxy a ha b hb
  left
  rw [(of_mem_entriesFor ha).1, (of_mem_entriesFor hb).1]
  exact hxy

/-- Two entries that precede each other are the same. -/
theorem eq_of_precedes {all : List Entry} (hall : all.Pairwise Entry.Before) {a b : Entry}
    (ha : a ∈ all) (hb : b ∈ all) (hab : a.precedes b = true) (hba : b.precedes a = true) :
    a = b := by
  have hnodup : (all.map fun a => (a.hypothesis, a.index)).Nodup := by
    refine List.pairwise_map.mpr (hall.imp ?_)
    intro x y hxy heq
    obtain ⟨hhypothesis, hindex⟩ := Prod.mk.inj heq
    rw [Entry.Before] at hxy
    omega
  refine List.inj_on_of_nodup_map hnodup ha hb ?_
  rw [Entry.precedes_iff] at hab hba
  exact Prod.ext (by dsimp only; omega) (by dsimp only; omega)

/-- What a selector keeps of the entries are the first places of their ranking. -/
theorem best_entries {α : Type} {all : List Entry} (hall : all.Pairwise Entry.Before)
    (payload : Entry → α) (capacity : Nat) :
    TopK.best capacity (all.map fun a => (a.score, payload a)) =
      ((ranking all).take capacity).map fun a => (a.score, payload a) := by
  refine TopK.best_eq_take_mergeSort Entry.precedes_trans Entry.precedes_total ?_ ?_ ?_ capacity
  · exact fun a b hlt => Entry.precedes_iff.mpr (.inl hlt)
  · refine hall.imp ?_
    intro a b hbefore heq
    rw [Entry.Before] at hbefore
    rw [Entry.precedes_iff]
    omega
  · exact fun a ha b hb => eq_of_precedes hall ha hb

/-! ## Offers are entries -/

/-- What an offer shows in the report of a round: the hypothesis that it extends and its action. -/
def Offer.shown (offer : Offer State) : Nat × Action :=
  (offer.parent.id, offer.action)

/-- What an entry shows in the report of a round. -/
def Entry.shown (a : Entry) : Nat × Action :=
  (a.parent, a.action)

/-- The offers for a hypothesis are its entries, with the hypothesis and the state of the answer. -/
theorem offersFor_eq_map {encoding : Encoding} {subtypes : Subtyping} {h : Hypothesis State}
    (hopen : h.derivation.isComplete = false) (i : Nat) (answer : State × Views) :
    (offersFor encoding subtypes h answer).1 =
      (entriesFor encoding subtypes i h answer.2).map fun a =>
        (a.score, ⟨h, answer.1, a.action⟩) := by
  obtain ⟨state, views⟩ := answer
  simp only [offersFor, entriesFor, hopen, Bool.false_eq_true, if_false]
  split
  next =>
    conv_lhs => rw [← List.zipIdx_map_fst 0 views.tokens.items]
    rw [List.map_map, List.map_map]
    rfl
  next =>
    conv_lhs => rw [← List.zipIdx_map_fst 0 views.rules.items]
    rw [List.filter_map, List.map_map, List.map_map]
    rfl

theorem map_offersFor {encoding : Encoding} {subtypes : Subtyping} {h : Hypothesis State}
    (hopen : h.derivation.isComplete = false) (i : Nat) (answer : State × Views) :
    (offersFor encoding subtypes h answer).1.map (Prod.map id Offer.shown) =
      (entriesFor encoding subtypes i h answer.2).map fun a => (a.score, a.shown) := by
  rw [offersFor_eq_map hopen i, List.map_map]
  refine List.map_congr_left ?_
  intro a ha
  have hshown : a.shown = (h.id, a.action) := Prod.ext (of_mem_entriesFor ha).2 rfl
  rw [hshown]
  rfl

namespace Synthesis

/-- The offers of a round, hypothesis by hypothesis. -/
theorem offers_eq_flatMap (s : Synthesis Memory State) (answers : List (State × Views)) :
    (s.offers answers).1 = (s.live.zip answers).flatMap fun x =>
      (offersFor s.config.encoding s.subtypes x.1 x.2).1 := by
  rw [offers]
  dsimp only
  rw [List.map_map, ← List.flatMap_def]
  rfl

theorem offers_eq_flatMap_zipIdx (s : Synthesis Memory State) (answers : List (State × Views)) :
    (s.offers answers).1 = (s.live.zip answers).zipIdx.flatMap fun x =>
      (offersFor s.config.encoding s.subtypes x.1.1 x.1.2).1 := by
  have hzip : s.live.zip answers = (s.live.zip answers).zipIdx.map Prod.fst :=
    (List.zipIdx_map_fst 0 _).symm
  rw [offers_eq_flatMap, hzip, List.flatMap_map, ← hzip]

theorem map_offers {s : Synthesis Memory State}
    (hopen : ∀ h ∈ s.live, h.derivation.isComplete = false) (answers : List (State × Views)) :
    (s.offers answers).1.map (Prod.map id Offer.shown) =
      (entries s.config.encoding s.subtypes s.live answers).map fun a => (a.score, a.shown) := by
  rw [offers_eq_flatMap_zipIdx, entries, List.map_flatMap, List.map_flatMap]
  refine List.flatMap_congr ?_
  rintro ⟨⟨h, answer⟩, i⟩ hmem
  exact map_offersFor (hopen h (List.of_mem_zip (List.fst_mem_of_mem_zipIdx hmem)).1) i answer

/-! ## Extensions of what was selected -/

variable {s : Synthesis Memory State} {selected : List (Score × Offer State)}
  {children : List (Child State)}

/-- The extensions report what was selected, in order. -/
theorem map_progress_of_extend (h : s.extend selected = .ok children) :
    (children.map Child.progress).map (fun p => (p.parent, p.score, p.action)) =
      (selected.map (Prod.map id Offer.shown)).map fun x => (some x.2.1, x.1, x.2.2) := by
  have hkeep := map_eq_map_of_mapM_eq_ok
    (g := fun c => (c.progress.parent, c.progress.score, c.progress.action))
    (k := fun x => (some x.1.2.parent.id, x.1.1, x.1.2.action)) h (by
      rintro ⟨⟨score, offer⟩, id⟩ c hc
      obtain ⟨d, tree?, -, rfl, -⟩ := Child.ofOffer_eq_ok hc
      rfl)
  conv_rhs => rw [← List.zipIdx_map_fst s.nextId selected]
  rw [List.map_map, List.map_map, List.map_map]
  exact hkeep

theorem map_score_of_extend (h : s.extend selected = .ok children) :
    children.map (·.hypothesis.score) = selected.map Prod.fst := by
  have hprogress := congrArg (List.map fun x => x.2.1) (map_progress_of_extend h)
  simpa only [List.map_map, Function.comp_def, Child.progress, Prod.map_fst, id_eq] using hprogress

/-- A round reports the first places of the ranking. -/
theorem progress_of_extend_best {capacity : Nat} {answers : List (State × Views)}
    (hopen : ∀ h ∈ s.live, h.derivation.isComplete = false)
    (h : s.extend (TopK.best capacity (s.offers answers).1) = .ok children) :
    (report children).progress.map (fun p => (p.parent, p.score, p.action)) =
      ((ranking (entries s.config.encoding s.subtypes s.live answers)).take capacity).map
        fun a => (some a.parent, a.score, a.action) := by
  rw [report, map_progress_of_extend h, TopK.best_map, map_offers hopen,
    best_entries (pairwise_entries _ _ _ _), List.map_map]
  rfl

end Synthesis

/-! ## Live hypotheses stand best first -/

/-- Whether all scores are numbers, better ones come first and numbers of hypotheses increase. -/
structure BestFirst (live : List (Hypothesis State)) : Prop where
  not_isNaN : ∀ h ∈ live, h.score.isNaN = false
  ids : live.Pairwise fun a b => a.id < b.id
  scores : live.Pairwise fun a b => b.score.rank ≤ a.score.rank

namespace Synthesis

variable {s : Synthesis Memory State} {children : List (Child State)} {capacity : Nat}
  {offers : List (Score × Offer State)}

theorem not_isNaN_of_extend_best (h : s.extend (TopK.best capacity offers) = .ok children)
    {c : Child State} (hc : c ∈ children) : c.hypothesis.score.isNaN = false := by
  have hscore := List.mem_map_of_mem (f := (·.hypothesis.score)) hc
  rw [map_score_of_extend h] at hscore
  obtain ⟨x, hx, hxs⟩ := List.mem_map.mp hscore
  rw [← hxs]
  exact TopK.not_isNaN_of_mem_best hx

/-- The extensions of the best offers stand best first. -/
theorem scores_of_extend_best (h : s.extend (TopK.best capacity offers) = .ok children) :
    children.Pairwise fun a b => b.hypothesis.score.rank ≤ a.hypothesis.score.rank := by
  have hbest := List.pairwise_map (f := Prod.fst) (R := fun a b : Score => b.rank ≤ a.rank) |>.mpr
    (TopK.pairwise_best capacity offers)
  rw [← map_score_of_extend h] at hbest
  exact List.pairwise_map.mp hbest

/-- So do the open ones among them. -/
theorem bestFirst_of_extend_best (h : s.extend (TopK.best capacity offers) = .ok children) :
    BestFirst (children.filterMap Child.live?) := by
  have hids : children.Pairwise fun a b => a.hypothesis.id < b.hypothesis.id := by
    have hrange := List.pairwise_lt_range' (s := s.nextId) (n := children.length)
    rw [← map_id_of_extend h] at hrange
    exact List.pairwise_map.mp hrange
  refine ⟨?_, ?_, ?_⟩
  · intro h' hh'
    obtain ⟨c, hc, hlive⟩ := List.mem_filterMap.mp hh'
    obtain ⟨-, rfl⟩ := Child.eq_of_live?_eq_some hlive
    exact not_isNaN_of_extend_best h hc
  · refine List.pairwise_filterMap.mpr (hids.imp ?_)
    intro a b hab x hx y hy
    obtain ⟨-, rfl⟩ := Child.eq_of_live?_eq_some hx
    obtain ⟨-, rfl⟩ := Child.eq_of_live?_eq_some hy
    exact hab
  · refine List.pairwise_filterMap.mpr ((scores_of_extend_best h).imp ?_)
    intro a b hab x hx y hy
    obtain ⟨-, rfl⟩ := Child.eq_of_live?_eq_some hx
    obtain ⟨-, rfl⟩ := Child.eq_of_live?_eq_some hy
    exact hab

/-- Whatever a search does next, what is live after it stands best first. -/
theorem bestFirst_of_next {oracle : Oracle Query Memory State} {s s' : Synthesis Memory State}
    {item : Option (Except Failure Round)} (h : s.next oracle = (item, s'))
    (hs : BestFirst s.live) : BestFirst s'.live := by
  rcases live_of_next h with hlive | ⟨capacity, offers, children, hchildren, hlive⟩
  · rw [hlive]
    exact hs
  · rw [hlive]
    exact bestFirst_of_extend_best hchildren

theorem bestFirst_of_start {config : Config} {subtypes : Subtyping}
    {oracle : Oracle Query Memory State} {memory memory' : Memory} {query : Query}
    (h : start config subtypes oracle memory query = (.ok s, memory')) : BestFirst s.live := by
  obtain ⟨-, -, -, state, hlive⟩ := exists_of_start_eq_ok h
  rw [hlive]
  refine ⟨?_, List.pairwise_singleton _ _, List.pairwise_singleton _ _⟩
  intro h' hh'
  obtain rfl := List.mem_singleton.mp hh'
  rfl

end Synthesis

/-! ## A run -/

section Run

variable {oracle : Oracle Query Memory State} {config : Config} {subtypes : Subtyping}
  {memory memory' : Memory} {query : Query} {s s' : Synthesis Memory State} {rounds : List Round}

theorem found_of_start
    (h : Synthesis.start config subtypes oracle memory query = (.ok s, memory')) :
    s.found = 0 := by
  obtain ⟨state, rfl⟩ := Synthesis.exists_eq_of_start_eq_ok h
  rfl

/-- What was found so far are the candidates of the rounds so far. -/
theorem found_of_take
    (hstart : Synthesis.start config subtypes oracle memory query = (.ok s, memory'))
    (hrun : s.take oracle rounds.length = (rounds.map .ok, s')) :
    ∀ q, q ≤ rounds.length →
      (s.take oracle q).2.found = ((rounds.take q).flatMap Round.candidates).length := by
  refine Synthesis.rounds_take_induction
    (motive := fun earlier t => t.found = (earlier.flatMap Round.candidates).length) hrun
    (found_of_start hstart) ?_
  intro q round _ hfound hnext
  obtain ⟨answers, children, memory, -, -, -, rfl, hs'⟩ :=
    Synthesis.exists_extend_of_next_eq_ok hnext
  rw [List.flatMap_append, List.length_append, ← hfound, List.flatMap_singleton, hs']
  rfl

/-- Each round of a search reports the first entries of the ranking of all entries, as many as the
candidates of the rounds before it have left of the beam. No score in a report is ever anything but
a number, and what is live stands best first, also after a round that failed. -/
theorem selection_of_take
    (hstart : Synthesis.start config subtypes oracle memory query = (.ok s, memory'))
    (hrun : s.take oracle rounds.length = (rounds.map .ok, s')) :
    (∀ q round, rounds[q]? = some round →
      ∃ answers, (s.take oracle q).2.reply oracle = .ok answers ∧
        answers.length = (s.take oracle q).2.live.length ∧
        round.progress.map (fun p => (p.parent, p.score, p.action)) =
          ((ranking (entries config.encoding subtypes (s.take oracle q).2.live answers)).take
            (config.beamSize - ((rounds.take q).flatMap Round.candidates).length)).map
              fun a => (some a.parent, a.score, a.action)) ∧
    (∀ round ∈ rounds, (∀ p ∈ round.progress, p.score.isNaN = false) ∧
      ∀ c ∈ round.candidates, c.score.isNaN = false) ∧
    ∀ n, BestFirst (s.take oracle n).2.live := by
  refine ⟨?_, ?_, ?_⟩
  · intro q round hq
    have hlt : q < rounds.length := (List.getElem?_eq_some_iff.mp hq).1
    have hbefore := Audited.take hstart hrun q (Nat.le_of_lt hlt)
    have hfound := found_of_take hstart hrun q (Nat.le_of_lt hlt)
    obtain ⟨answers, children, -, hreply, hlength, hchildren, rfl, -⟩ :=
      Synthesis.exists_extend_of_next_eq_ok (Synthesis.next_of_take_rounds hrun hq)
    refine ⟨answers, hreply, hlength, ?_⟩
    rw [Synthesis.progress_of_extend_best hbefore.live_open hchildren, hbefore.config_eq,
      hbefore.subtypes_eq, Synthesis.placesLeft, hbefore.config_eq, hfound]
  · intro round hround
    obtain ⟨q, hq⟩ := List.getElem?_of_mem hround
    obtain ⟨answers, children, -, -, -, hchildren, rfl, -⟩ :=
      Synthesis.exists_extend_of_next_eq_ok (Synthesis.next_of_take_rounds hrun hq)
    refine ⟨?_, ?_⟩
    · intro p hp
      obtain ⟨c, hc, rfl⟩ := List.mem_map.mp hp
      exact Synthesis.not_isNaN_of_extend_best hchildren hc
    · intro candidate hcandidate
      obtain ⟨c, hc, hsome⟩ := List.mem_filterMap.mp hcandidate
      obtain ⟨t, -, rfl⟩ := Option.map_eq_some_iff.mp hsome
      exact Synthesis.not_isNaN_of_extend_best hchildren hc
  · exact fun n => Synthesis.live_take_induction
      (fun _ _ _ hnext hs => Synthesis.bestFirst_of_next hnext hs) n s
      (Synthesis.bestFirst_of_start hstart)

end Run

/-- Four rules, one of which has no number for a score, and a beam of two places. Of three equal
scores the first two are selected; one of them completes a tree, so one place is left after it. -/
theorem selection_of_take_stmt :
    let module : Rule := .expandTree ⟨⟨"Module", .node⟩, [("body", ⟨"stmt", .node⟩)]⟩
    let stmt : Rule := .expandTree ⟨⟨"stmt", .node⟩, []⟩
    let rules := [(module, .zero), (leafless, .nan), (stmt, .zero), (leafless, .zero)]
    let oracle := Oracle.constant rules []
    let first : Round := ⟨[⟨.zero, .node "stmt" []⟩],
      [⟨1, some 0, .zero, .applyRule module, false⟩, ⟨2, some 0, .zero, .applyRule stmt, true⟩]⟩
    let second : Round := ⟨[⟨.zero, .node "Module" [.mk "body" "stmt" (.single (.node "stmt" []))]⟩],
      [⟨3, some 1, .zero, .applyRule stmt, true⟩]⟩
    ∃ s s', Synthesis.start { beamSize := 2 } .exact oracle () () = (.ok s, ()) ∧
      s.take oracle 2 = ([.ok first, .ok second], s') ∧
      second.progress.map (fun p => (p.parent, p.score, p.action)) =
        ((ranking (entries {} .exact (s.take oracle 1).2.live [((), .given rules [])])).take 1).map
          (fun a => (some a.parent, a.score, a.action)) ∧
      BestFirst (s.take oracle 1).2.live := by
  intro module stmt rules oracle first second
  obtain ⟨s, s', hstart, htake, hreply⟩ :
      ∃ s s', Synthesis.start { beamSize := 2 } .exact oracle () () = (.ok s, ()) ∧
        s.take oracle 2 = ([.ok first, .ok second], s') ∧
        (s.take oracle 1).2.reply oracle = .ok [((), .given rules [])] := by
    refine ⟨_, _, rfl, Prod.ext ?_ rfl, rfl⟩
    dsimp only
    decide +kernel
  have hrun : s.take oracle [first, second].length = ([first, second].map .ok, s') := htake
  obtain ⟨hrounds, -, hlive⟩ := selection_of_take hstart hrun
  obtain ⟨answers, hanswers, -, hselected⟩ := hrounds 1 second rfl
  obtain rfl := Except.ok.inj (hanswers.symm.trans hreply)
  exact ⟨s, s', hstart, htake, hselected, hlive 1⟩

end TreeDerivation
