import TreeDerivation.Proofs.Search.Beam
import TreeDerivation.Proofs.Search.Ranking
import TreeDerivation.Search.Collected

/-!
# What is collected of a search

Items are drawn one by one. Up to the first failure they are rounds; a failure is handed on, and
what stands behind it is not drawn (`Collected.draw_append_error`). Of rounds alone all reports are
kept, and the candidates are sorted. The sort is stable: what it does not have to move it leaves in
order, so candidates with one score stay as they were found (`Collected.Keeps`), and it sees nothing
of the limits between rounds.

A search reports the candidates of a round best first (`Synthesis.pairwise_candidates_of_next`), so
sorting them together with those of the other rounds does not change their order among themselves
(`Collected.keepsRounds_of_pairwise`). To tell equal candidates of different rounds apart, each is
paired with the number of its round.
-/

namespace TreeDerivation

variable {Query Memory State : Type}

/-! ## Sorting by score -/

namespace Score

theorem atLeast_trans (a b c : Score) (hab : a.atLeast b = true) (hbc : b.atLeast c = true) :
    a.atLeast c = true :=
  decide_eq_true (Nat.le_trans (of_decide_eq_true hbc) (of_decide_eq_true hab))

theorem atLeast_total (a b : Score) : (a.atLeast b || b.atLeast a) = true := by
  rw [Bool.or_eq_true]
  exact (Nat.le_total b.rank a.rank).imp decide_eq_true decide_eq_true

end Score

section Sorting

variable {α : Type} (score : α → Score)

/-- Items by descending score. -/
def byScore (items : List α) : List α :=
  items.mergeSort fun a b => (score a).atLeast (score b)

theorem perm_byScore (items : List α) : (byScore score items).Perm items :=
  List.mergeSort_perm items _

theorem pairwise_byScore (items : List α) :
    (byScore score items).Pairwise fun a b => (score b).rank ≤ (score a).rank := by
  refine (List.pairwise_mergeSort ?_ ?_ items).imp of_decide_eq_true
  · exact fun a b c => Score.atLeast_trans _ _ _
  · exact fun a b => Score.atLeast_total _ _

/-- Those of the items that stand best first before they are sorted stand the same after. -/
theorem filter_byScore {p : α → Bool} {items : List α}
    (h : (items.filter p).Pairwise fun a b => (score b).rank ≤ (score a).rank) :
    (byScore score items).filter p = items.filter p := by
  have hsub : (items.filter p).Sublist (byScore score items) := by
    refine List.sublist_mergeSort ?_ ?_ (h.imp decide_eq_true) List.filter_sublist
    · exact fun a b c => Score.atLeast_trans _ _ _
    · exact fun a b => Score.atLeast_total _ _
  have hboth := hsub.filter p
  rw [List.filter_filter] at hboth
  simp only [Bool.and_self] at hboth
  exact (hboth.eq_of_length ((perm_byScore score items).filter p).length_eq.symm).symm

theorem map_byScore {β : Type} (f : β → α) (items : List β) :
    (byScore (score ∘ f) items).map f = byScore score (items.map f) :=
  List.map_mergeSort fun _ _ _ _ => rfl

end Sorting

/-! ## Drawing items -/

namespace Collected

/-- Items are rounds to the end, or up to the first failure. -/
theorem rounds_or_error (items : List (Except Failure Round)) :
    (∃ rounds : List Round, items = rounds.map .ok) ∨
      ∃ (rounds : List Round) (f : Failure) (rest : List (Except Failure Round)),
        items = rounds.map .ok ++ .error f :: rest := by
  induction items with
  | nil => exact .inl ⟨[], rfl⟩
  | cons item items ih =>
    cases item with
    | error f => exact .inr ⟨[], f, items, rfl⟩
    | ok round =>
      rcases ih with ⟨rounds, rfl⟩ | ⟨rounds, f, rest, rfl⟩
      · exact .inl ⟨round :: rounds, rfl⟩
      · exact .inr ⟨round :: rounds, f, rest, rfl⟩

theorem draw_append_error (c : Collected) (rounds : List Round) (f : Failure)
    (rest : List (Except Failure Round)) :
    c.draw (rounds.map .ok ++ .error f :: rest) = (.error f, rest) := by
  induction rounds generalizing c with
  | nil => rfl
  | cons round rounds ih => exact ih (c.add round)

theorem foldl_add (c : Collected) (rounds : List Round) :
    rounds.foldl add c = ⟨c.progress ++ rounds.map Round.progress,
      c.candidates ++ rounds.flatMap Round.candidates⟩ := by
  induction rounds generalizing c with
  | nil => simp
  | cons round rounds ih => simp [ih, add]

theorem draw_rounds (c : Collected) (rounds : List Round) :
    c.draw (rounds.map .ok) = (.ok (rounds.foldl add c).ranked, []) := by
  induction rounds generalizing c with
  | nil => rfl
  | cons round rounds ih => exact ih (c.add round)

/-- What rounds amount to. -/
def ofRounds (rounds : List Round) : Collected :=
  ⟨rounds.map Round.progress, byScore Candidate.score (rounds.flatMap Round.candidates)⟩

theorem draw_empty_rounds (rounds : List Round) :
    empty.draw (rounds.map .ok) = (.ok (ofRounds rounds), []) := by
  rw [draw_rounds, foldl_add]
  rfl

theorem collect_rounds (rounds : List Round) : collect (rounds.map .ok) = .ok (ofRounds rounds) :=
  congrArg Prod.fst (draw_empty_rounds rounds)

/-- What is kept of rounds that were collected: all reports, round by round, and all candidates, the
best first and those with one score as they were found. -/
structure Keeps (c : Collected) (rounds : List Round) : Prop where
  progress_eq : c.progress = rounds.map Round.progress
  perm : c.candidates.Perm (rounds.flatMap Round.candidates)
  bestFirst : c.candidates.Pairwise fun a b => b.score.rank ≤ a.score.rank
  ties : ∀ s : Score, (c.candidates.filter fun a => a.score = s) =
    (rounds.flatMap Round.candidates).filter fun a => a.score = s

theorem keeps_ofRounds (rounds : List Round) : (ofRounds rounds).Keeps rounds where
  progress_eq := rfl
  perm := perm_byScore _ _
  bestFirst := pairwise_byScore _ _
  ties := by
    intro s
    refine filter_byScore _ (List.pairwise_of_forall_mem_list ?_)
    intro a ha b hb
    have hscore : a.score = s := by simpa using (List.mem_filter.mp ha).2
    have hscore' : b.score = s := by simpa using (List.mem_filter.mp hb).2
    exact Nat.le_of_eq (congrArg Score.rank (hscore'.trans hscore.symm))

/-! ## The rounds of the candidates -/

/-- The candidates of rounds, each with the number of its round. -/
def numbered (rounds : List Round) (first : Nat) : List (Candidate × Nat) :=
  (rounds.zipIdx first).flatMap fun (round, q) => round.candidates.map fun a => (a, q)

theorem map_fst_numbered (rounds : List Round) (first : Nat) :
    (numbered rounds first).map Prod.fst = rounds.flatMap Round.candidates := by
  induction rounds generalizing first with
  | nil => rfl
  | cons round rounds ih =>
    have hrest := ih (first + 1)
    rw [numbered] at hrest ⊢
    rw [List.zipIdx_cons, List.flatMap_cons, List.map_append, hrest, List.flatMap_cons,
      List.map_map]
    exact congrArg (· ++ _) (List.map_id _)

theorem le_of_mem_numbered {rounds : List Round} {first : Nat} {x : Candidate × Nat}
    (hx : x ∈ numbered rounds first) : first ≤ x.2 := by
  obtain ⟨⟨round, q⟩, hround, hx⟩ := List.mem_flatMap.mp hx
  obtain ⟨a, -, rfl⟩ := List.mem_map.mp hx
  have hle : first ≤ (round, q).2 := List.le_snd_of_mem_zipIdx hround
  exact hle

/-- Those with one number are the candidates of the round with that number. -/
theorem filter_numbered {rounds : List Round} {q : Nat} {round : Round}
    (hq : rounds[q]? = some round) (first : Nat) :
    ((numbered rounds first).filter fun x => x.2 = first + q) =
      round.candidates.map fun a => (a, first + q) := by
  induction rounds generalizing q first with
  | nil => exact absurd hq (by simp)
  | cons r rounds ih =>
    have hsplit : numbered (r :: rounds) first =
        (r.candidates.map fun a => (a, first)) ++ numbered rounds (first + 1) := rfl
    rw [hsplit, List.filter_append]
    cases q with
    | zero =>
      obtain rfl : r = round := by simpa using hq
      have hhere : ((r.candidates.map fun a => (a, first)).filter fun x => x.2 = first + 0) =
          r.candidates.map fun a => (a, first) :=
        List.filter_eq_self.mpr (List.forall_mem_map.mpr fun _ _ => decide_eq_true rfl)
      have hlater : ((numbered rounds (first + 1)).filter fun x => x.2 = first + 0) = [] := by
        refine List.filter_eq_nil_iff.mpr fun x hx => ?_
        have hle := le_of_mem_numbered hx
        rw [decide_eq_true_eq]
        omega
      rw [hhere, hlater, List.append_nil]
      rfl
    | succ q =>
      have hearlier :
          ((r.candidates.map fun a => (a, first)).filter fun x => x.2 = first + (q + 1)) = [] :=
        List.filter_eq_nil_iff.mpr (List.forall_mem_map.mpr fun _ _ => by simp)
      have hnumber : first + (q + 1) = first + 1 + q := by omega
      rw [hearlier, List.nil_append, hnumber]
      exact ih (by simpa using hq) (first + 1)

/-- Whether the candidates of each round stand in it in the order in which the round brought them.
Each candidate is paired with the number of the round that it comes from. -/
def KeepsRounds (c : Collected) (rounds : List Round) : Prop :=
  ∃ origins : List (Candidate × Nat), origins.map Prod.fst = c.candidates ∧
    ∀ q round, rounds[q]? = some round →
      ((origins.filter fun x => x.2 = q).map Prod.fst) = round.candidates

theorem keepsRounds_of_pairwise {rounds : List Round}
    (h : ∀ round ∈ rounds, round.candidates.Pairwise fun a b => b.score.rank ≤ a.score.rank) :
    (ofRounds rounds).KeepsRounds rounds := by
  refine ⟨byScore (Candidate.score ∘ Prod.fst) (numbered rounds 0), ?_, ?_⟩
  · rw [map_byScore, map_fst_numbered]
    rfl
  · intro q round hq
    have hround := filter_numbered hq 0
    rw [Nat.zero_add] at hround
    have hsorted := h round (List.mem_of_getElem? hq)
    rw [filter_byScore, hround, List.map_map]
    · exact List.map_id _
    · rw [hround]
      exact List.pairwise_map.mpr hsorted

end Collected

/-! ## The rounds of a search -/

namespace Synthesis

/-- A round reports as many complete extensions as it brings candidates. -/
theorem length_candidates_report (children : List (Child State)) :
    ((report children).progress.filter Progress.isComplete).length =
      (report children).candidates.length := by
  induction children with
  | nil => rfl
  | cons c children ih =>
    rw [report] at ih ⊢
    cases htree : c.tree? with
    | none =>
      have hcandidate : c.candidate? = none := by rw [Child.candidate?, htree]; rfl
      have hopen : ¬ c.progress.isComplete = true := by simp [Child.progress, htree]
      rw [List.map_cons, List.filter_cons_of_neg hopen, List.filterMap_cons_none hcandidate]
      exact ih
    | some t =>
      have hcandidate : c.candidate? = some ⟨c.hypothesis.score, t⟩ := by
        rw [Child.candidate?, htree]
        rfl
      have hcomplete : c.progress.isComplete = true := by simp [Child.progress, htree]
      rw [List.map_cons, List.filter_cons_of_pos hcomplete,
        List.filterMap_cons_some hcandidate, List.length_cons, List.length_cons]
      exact congrArg (· + 1) ih

theorem length_candidates_of_next {oracle : Oracle Query Memory State}
    {s s' : Synthesis Memory State} {round : Round} (h : s.next oracle = (some (.ok round), s')) :
    (round.progress.filter Progress.isComplete).length = round.candidates.length := by
  obtain ⟨answers, children, -, rfl⟩ := exists_of_next_eq_ok h
  exact length_candidates_report children

/-- The candidates of a round come best first. -/
theorem pairwise_candidates_of_next {oracle : Oracle Query Memory State}
    {s s' : Synthesis Memory State} {round : Round} (h : s.next oracle = (some (.ok round), s')) :
    round.candidates.Pairwise fun a b => b.score.rank ≤ a.score.rank := by
  obtain ⟨answers, children, memory, -, -, hchildren, rfl, -⟩ := exists_extend_of_next_eq_ok h
  have hscores := scores_of_extend_best hchildren
  refine List.pairwise_filterMap.mpr (hscores.imp ?_)
  intro a b hab x hx y hy
  obtain ⟨t, -, rfl⟩ := Option.map_eq_some_iff.mp hx
  obtain ⟨u, -, rfl⟩ := Option.map_eq_some_iff.mp hy
  exact hab

/-- The items of a search that did not fail are rounds, each of which is what the search before it
yields next. -/
theorem exists_rounds_of_forall_ne_error {oracle : Oracle Query Memory State}
    {s : Synthesis Memory State} {n : Nat} (h : ∀ f, .error f ∉ (s.take oracle n).1) :
    ∃ rounds : List Round, (s.take oracle n).1 = rounds.map .ok ∧
      ∀ q round, rounds[q]? = some round →
        (s.take oracle q).2.next oracle = (some (.ok round), (s.take oracle (q + 1)).2) := by
  rcases Collected.rounds_or_error (s.take oracle n).1 with ⟨rounds, hrounds⟩ |
    ⟨rounds, f, rest, hitems⟩
  · refine ⟨rounds, hrounds, fun q round hq => next_of_take (n := n) ?_⟩
    rw [hrounds, List.getElem?_map, hq]
    rfl
  · refine absurd ?_ (h f)
    rw [hitems]
    exact List.mem_append_right _ List.mem_cons_self

end Synthesis

/-- What is collected of a search: no more candidates than the beam has places, as many as there are
reports of complete extensions, and those of each round in the order in which the round brought
them. -/
structure Collected.OfSearch (config : Config) (rounds : List Round) (c : Collected) : Prop where
  length_le : c.candidates.length ≤ config.beamSize
  length_eq : c.candidates.length = (c.progress.flatten.filter Progress.isComplete).length
  keepsRounds : c.KeepsRounds rounds

theorem length_filter_isComplete {rounds : List Round}
    (h : ∀ round ∈ rounds,
      (round.progress.filter Progress.isComplete).length = round.candidates.length) :
    ((rounds.map Round.progress).flatten.filter Progress.isComplete).length =
      (rounds.flatMap Round.candidates).length := by
  induction rounds with
  | nil => rfl
  | cons round rounds ih =>
    obtain ⟨hround, hrounds⟩ := List.forall_mem_cons.mp h
    rw [List.map_cons, List.flatten_cons, List.filter_append, List.length_append, hround,
      ih hrounds, List.flatMap_cons, List.length_append]

theorem candidatesOf_map_ok (rounds : List Round) :
    candidatesOf (rounds.map .ok) = rounds.flatMap Round.candidates := by
  induction rounds with
  | nil => rfl
  | cons round rounds ih =>
    rw [List.map_cons, ← List.singleton_append, candidatesOf_append, candidatesOf_ok, ih,
      List.flatMap_cons]

theorem ofSearch_ofRounds {oracle : Oracle Query Memory State} {config : Config}
    {subtypes : Subtyping} {memory memory' : Memory} {query : Query} {s : Synthesis Memory State}
    (hstart : Synthesis.start config subtypes oracle memory query = (.ok s, memory')) {n : Nat}
    (hnever : ∀ f, .error f ∉ (s.take oracle n).1) :
    ∃ rounds, (s.take oracle n).1 = rounds.map .ok ∧
      (Collected.ofRounds rounds).OfSearch config rounds := by
  obtain ⟨rounds, hitems, hnext⟩ := Synthesis.exists_rounds_of_forall_ne_error hnever
  have hcounted : Synthesis.Counted config (s.take oracle n).1 (s.take oracle n).2 :=
    Synthesis.items_take_induction oracle s (.of_start hstart)
      (fun _ _ _ _ hs hcall => hs.next hcall) n
  have hbeam : (rounds.flatMap Round.candidates).length ≤ config.beamSize := by
    rw [← candidatesOf_map_ok, ← hitems, ← hcounted.found_eq]
    exact hcounted.found_le
  have hlength : (Collected.ofRounds rounds).candidates.length =
      (rounds.flatMap Round.candidates).length := (perm_byScore _ _).length_eq
  have hround : ∀ round ∈ rounds, ∃ t t' : Synthesis Memory State,
      t.next oracle = (some (.ok round), t') := by
    intro round hmem
    obtain ⟨q, hq⟩ := List.getElem?_of_mem hmem
    exact ⟨_, _, hnext q round hq⟩
  refine ⟨rounds, hitems, hlength ▸ hbeam, hlength.trans (length_filter_isComplete ?_).symm,
    Collected.keepsRounds_of_pairwise ?_⟩
  · intro round hmem
    obtain ⟨t, t', ht⟩ := hround round hmem
    exact Synthesis.length_candidates_of_next ht
  · intro round hmem
    obtain ⟨t, t', ht⟩ := hround round hmem
    exact Synthesis.pairwise_candidates_of_next ht

/-- The first failure among items is the outcome, and what stands behind it is not drawn. Rounds
alone give all their reports and all their candidates, the best first and those with one score as
they were found, however the candidates are divided into rounds. What is collected of a search
keeps within the beam, has a candidate for each report of a complete extension, and keeps the order
of each round; this holds of the items of any number of calls, and so of a search that has ended. -/
theorem collected_of_items :
    (∀ items : List (Except Failure Round),
      (∃ rounds c, items = rounds.map .ok ∧ Collected.empty.draw items = (.ok c, []) ∧
        Collected.collect items = .ok c ∧ c.Keeps rounds) ∨
      ∃ (rounds : List Round) (f : Failure) (rest : List (Except Failure Round)),
        items = rounds.map .ok ++ .error f :: rest ∧
        Collected.empty.draw items = (.error f, rest) ∧ Collected.collect items = .error f) ∧
    (∀ (rounds rounds' : List Round) (c c' : Collected),
      rounds.flatMap Round.candidates = rounds'.flatMap Round.candidates →
      Collected.collect (rounds.map .ok) = .ok c → Collected.collect (rounds'.map .ok) = .ok c' →
      c.candidates = c'.candidates) ∧
    ∀ (oracle : Oracle Query Memory State) (config : Config) (subtypes : Subtyping)
      (memory memory' : Memory) (query : Query) (s : Synthesis Memory State),
      Synthesis.start config subtypes oracle memory query = (.ok s, memory') →
      ∀ n, (∀ f, .error f ∉ (s.take oracle n).1) →
        ∃ rounds c, (s.take oracle n).1 = rounds.map .ok ∧
          Collected.collect (s.take oracle n).1 = .ok c ∧ c.OfSearch config rounds := by
  refine ⟨fun items => ?items, ?divided, ?search⟩
  case items =>
    rcases Collected.rounds_or_error items with ⟨rounds, rfl⟩ | ⟨rounds, f, rest, rfl⟩
    · exact .inl ⟨rounds, Collected.ofRounds rounds, rfl, Collected.draw_empty_rounds rounds,
        Collected.collect_rounds rounds, Collected.keeps_ofRounds rounds⟩
    · have hdraw := Collected.draw_append_error Collected.empty rounds f rest
      exact .inr ⟨rounds, f, rest, rfl, hdraw, congrArg Prod.fst hdraw⟩
  case divided =>
    intro rounds rounds' c c' hsame hc hc'
    obtain rfl := Except.ok.inj ((Collected.collect_rounds rounds).symm.trans hc)
    obtain rfl := Except.ok.inj ((Collected.collect_rounds rounds').symm.trans hc')
    exact congrArg (byScore Candidate.score) hsame
  case search =>
    intro oracle config subtypes memory memory' query s hstart n hnever
    obtain ⟨rounds, hitems, hsearch⟩ := ofSearch_ofRounds hstart hnever
    refine ⟨rounds, Collected.ofRounds rounds, hitems, ?_, hsearch⟩
    rw [hitems]
    exact Collected.collect_rounds rounds

/-- A search that ends after two rounds, the second of which brings the better candidate. -/
theorem collected_of_items_wrapper :
    let one : Score := ⟨0x3ff0000000000000⟩
    let two : Score := ⟨0x4000000000000000⟩
    let wrapper : Rule := .expandTree ⟨⟨"Wrapper", .node⟩, [("inner", ⟨"Leafless", .node⟩)]⟩
    let oracle := Oracle.constant [(wrapper, one), (leafless, one)] []
    let bare : Candidate := ⟨one, .node "Leafless" []⟩
    let wrapped : Candidate :=
      ⟨two, .node "Wrapper" [.mk "inner" "Leafless" (.single (.node "Leafless" []))]⟩
    let first : Round := ⟨[bare], [⟨1, some 0, one, .applyRule wrapper, false⟩,
      ⟨2, some 0, one, .applyRule leafless, true⟩]⟩
    let second : Round := ⟨[wrapped], [⟨3, some 1, two, .applyRule leafless, true⟩]⟩
    ∃ s c, Synthesis.start { beamSize := 2 } .exact oracle () () = (.ok s, ()) ∧
      (s.take oracle 3).1 = [.ok first, .ok second] ∧ (s.take oracle 3).2.goesOn = false ∧
      Collected.collect (s.take oracle 3).1 = .ok c ∧ c.candidates = [wrapped, bare] ∧
      c.OfSearch { beamSize := 2 } [first, second] := by
  intro one two wrapper oracle bare wrapped first second
  obtain ⟨s, hstart, hitems, hend⟩ :
      ∃ s, Synthesis.start { beamSize := 2 } .exact oracle () () = (.ok s, ()) ∧
        (s.take oracle 3).1 = [.ok first, .ok second] ∧ (s.take oracle 3).2.goesOn = false := by
    refine ⟨_, rfl, ?_, ?_⟩
    · decide +kernel
    · decide +kernel
  obtain ⟨-, -, hsearch⟩ := @collected_of_items Unit Unit Unit
  obtain ⟨rounds, c, hrounds, hcollect, hof⟩ :=
    hsearch oracle { beamSize := 2 } .exact () () () s hstart 3 (by simp [hitems])
  obtain rfl : [first, second] = rounds := by
    refine List.map_injective_iff.mpr (fun _ _ => Except.ok.inj) (Eq.trans ?_ hrounds)
    exact hitems.symm
  have hsorted := Except.ok.inj
    ((Collected.collect_rounds [first, second]).symm.trans (hrounds ▸ hcollect))
  have hworse : ¬ bare.score.atLeast wrapped.score = true := by decide +kernel
  have hsort : byScore Candidate.score [bare, wrapped] = [wrapped, bare] := by
    simp [byScore, List.mergeSort, List.MergeSort.Internal.splitInTwo, hworse]
  refine ⟨s, c, hstart, hitems, hend, hcollect, ?_, hof⟩
  rw [← hsorted]
  exact hsort

end TreeDerivation
