import TreeDerivation.Proofs.Search.AuditTrail

/-!
# The beam bounds a search

A search has `beamSize` places. A candidate takes one of them for good, a live hypothesis takes one
until the next round. A round selects no more offers than there are places left, and each of them
turns into a candidate or lives on (`length_extensions`), so a round that succeeds never leaves more
candidates and live hypotheses than places (`WithinBeam`), however long the tables of the oracle
are.

At the start of a search without places its one hypothesis is live all the same. Such a search has
no round, so the bound on candidates and live hypotheses is one on what rounds leave; that on the
candidates alone holds at all times.
-/

namespace TreeDerivation

variable {Query Memory State : Type}

/-- The candidates of all rounds among the items of a search. -/
def candidatesOf (items : List (Except Failure Round)) : List Candidate :=
  (items.filterMap Except.toOption).flatMap Round.candidates

@[simp] theorem candidatesOf_append (items items' : List (Except Failure Round)) :
    candidatesOf (items ++ items') = candidatesOf items ++ candidatesOf items' := by
  rw [candidatesOf, candidatesOf, candidatesOf, List.filterMap_append, List.flatMap_append]

@[simp] theorem candidatesOf_ok (round : Round) : candidatesOf [.ok round] = round.candidates :=
  List.flatMap_singleton Round.candidates round

/-! ## One round -/

theorem TopK.length_best_le {α : Type} (capacity : Nat) (offers : List (Score × α)) :
    (best capacity offers).length ≤ capacity := by
  rw [best_eq_take_rankAll]
  exact List.length_take_le capacity _

/-- Every extension is a candidate or lives on. -/
theorem length_extensions (children : List (Child State)) :
    children.length = (children.filterMap Child.candidate?).length +
      (children.filterMap Child.live?).length := by
  induction children with
  | nil => rfl
  | cons c children ih =>
    cases htree : c.tree? with
    | none =>
      have hcandidate : c.candidate? = none := by rw [Child.candidate?, htree]; rfl
      have hlive : c.live? = some c.hypothesis := by rw [Child.live?, htree]; rfl
      rw [List.filterMap_cons_none hcandidate, List.filterMap_cons_some hlive, List.length_cons,
        List.length_cons, ih, Nat.add_assoc]
    | some t =>
      have hcandidate : c.candidate? = some ⟨c.hypothesis.score, t⟩ := by
        rw [Child.candidate?, htree]
        rfl
      have hlive : c.live? = none := by rw [Child.live?, htree]; rfl
      rw [List.filterMap_cons_some hcandidate, List.filterMap_cons_none hlive, List.length_cons,
        List.length_cons, ih]
      omega

/-- What a round reports and leaves live, measured against the beam; so many candidates were found
before it. -/
structure WithinBeam (beamSize found : Nat) (round : Round) (live : List (Hypothesis State)) :
    Prop where
  /-- There was a place left, so that subtracting what was found leaves the places. -/
  found_lt : found < beamSize
  /-- Every report is that of a candidate or of a hypothesis that lives on. -/
  length_progress : round.progress.length = round.candidates.length + live.length
  /-- No more was selected than there were places left. -/
  length_progress_le : round.progress.length ≤ beamSize - found
  /-- All candidates so far and what is live have their places. -/
  length_le : found + round.candidates.length + live.length ≤ beamSize

namespace Synthesis

theorem found_lt_of_goesOn {s : Synthesis Memory State} (h : s.goesOn = true) :
    s.found < s.config.beamSize := by
  simp only [goesOn, Bool.and_eq_true, decide_eq_true_eq] at h
  exact h.1.1.2

theorem length_of_extend {s : Synthesis Memory State} {selected : List (Score × Offer State)}
    {children : List (Child State)} (h : s.extend selected = .ok children) :
    children.length = selected.length := by
  have hlength := (mapM_eq_ok_iff.mp h).length_eq
  rw [List.length_zipIdx] at hlength
  exact hlength.symm

/-- A round that succeeds keeps within the beam. -/
theorem withinBeam_of_next {oracle : Oracle Query Memory State} {s s' : Synthesis Memory State}
    {round : Round} (h : s.next oracle = (some (.ok round), s')) :
    WithinBeam s.config.beamSize s.found round s'.live := by
  have hfound : s.found < s.config.beamSize := found_lt_of_goesOn (goesOn_of_next_eq_some h)
  obtain ⟨answers, children, memory, -, -, hchildren, rfl, rfl⟩ := exists_extend_of_next_eq_ok h
  have hselected : children.length ≤ s.config.beamSize - s.found := by
    rw [length_of_extend hchildren]
    exact TopK.length_best_le s.placesLeft _
  have hprogress : (report children).progress.length = children.length := List.length_map _
  have hsplit := length_extensions children
  refine ⟨hfound, hprogress.trans hsplit, hprogress ▸ hselected, ?_⟩
  rw [report, settleRound]
  dsimp only
  omega

/-- What a call does to the number of candidates. -/
theorem found_of_next {oracle : Oracle Query Memory State} {s s' : Synthesis Memory State}
    {item : Option (Except Failure Round)} (h : s.next oracle = (item, s')) :
    s'.config = s.config ∧ s'.found = s.found + (candidatesOf item.toList).length := by
  rcases item with _ | f | round
  · rw [eq_finish_of_next_eq_none h]
    exact ⟨rfl, rfl⟩
  · obtain ⟨memory, answers, rfl⟩ := exists_finish_of_next_eq_error h
    exact ⟨rfl, rfl⟩
  · obtain ⟨answers, children, memory, -, -, -, rfl, rfl⟩ := exists_extend_of_next_eq_ok h
    refine ⟨rfl, ?_⟩
    rw [Option.toList_some, candidatesOf_ok]
    rfl

/-! ## A run -/

/-- What a search counts, given the items that it yielded: the candidates, for which the beam has
places. -/
structure Counted (config : Config) (items : List (Except Failure Round))
    (s : Synthesis Memory State) : Prop where
  config_eq : s.config = config
  found_eq : s.found = (candidatesOf items).length
  found_le : s.found ≤ config.beamSize

theorem Counted.of_start {config : Config} {subtypes : Subtyping}
    {oracle : Oracle Query Memory State} {memory memory' : Memory} {query : Query}
    {s : Synthesis Memory State}
    (h : start config subtypes oracle memory query = (.ok s, memory')) : Counted config [] s := by
  obtain ⟨state, rfl⟩ := exists_eq_of_start_eq_ok h
  exact ⟨rfl, rfl, Nat.zero_le _⟩

/-- Every call counts the candidates that it brings. -/
theorem Counted.next {oracle : Oracle Query Memory State} {config : Config}
    {items : List (Except Failure Round)} {item : Option (Except Failure Round)}
    {s s' : Synthesis Memory State} (hs : Counted config items s)
    (h : s.next oracle = (item, s')) : Counted config (items ++ item.toList) s' := by
  obtain ⟨hconfig, hfound⟩ := found_of_next h
  refine ⟨hconfig.trans hs.config_eq, ?_, ?_⟩
  · rw [hfound, hs.found_eq, candidatesOf_append, List.length_append]
  · rw [hfound]
    rcases item with _ | f | round
    · exact hs.found_le
    · exact hs.found_le
    · have hround := (withinBeam_of_next h).length_le
      rw [hs.config_eq] at hround
      rw [Option.toList_some, candidatesOf_ok]
      omega

end Synthesis

/-- After any number of calls a search has found no more candidates than its beam has places, and
counts them. So whatever the oracle answers, a round that succeeds next finds places left, reports
no more than these, and leaves no more candidates and live hypotheses than there are places. -/
theorem beam_of_take {oracle : Oracle Query Memory State} {config : Config}
    {subtypes : Subtyping} {memory memory' : Memory} {query : Query} {s : Synthesis Memory State}
    (hstart : Synthesis.start config subtypes oracle memory query = (.ok s, memory')) (n : Nat) :
    (s.take oracle n).2.found = (candidatesOf (s.take oracle n).1).length ∧
      (candidatesOf (s.take oracle n).1).length ≤ config.beamSize ∧
      ∀ round s', (s.take oracle n).2.next oracle = (some (.ok round), s') →
        WithinBeam config.beamSize (candidatesOf (s.take oracle n).1).length round s'.live := by
  have hcounted : Synthesis.Counted config (s.take oracle n).1 (s.take oracle n).2 :=
    Synthesis.items_take_induction oracle s (.of_start hstart)
      (fun _ _ _ _ hs hnext => hs.next hnext) n
  refine ⟨hcounted.found_eq, hcounted.found_eq ▸ hcounted.found_le, ?_⟩
  intro round s' hnext
  have hround := Synthesis.withinBeam_of_next hnext
  rwa [hcounted.config_eq, hcounted.found_eq] at hround

/-- A beam of two places. The first round fills one of them for good and leaves the other to a live
hypothesis, so the second round can select only one of its offers, which completes a tree. -/
theorem beam_of_take_wrapper :
    let wrapper : Rule := .expandTree ⟨⟨"Wrapper", .node⟩, [("inner", ⟨"Leafless", .node⟩)]⟩
    let oracle := Oracle.constant [(leafless, .zero), (wrapper, .zero), (leafless, .zero)] []
    let second : Round := ⟨[⟨.zero, .node "Wrapper"
        [.mk "inner" "Leafless" (.single (.node "Leafless" []))]⟩],
      [⟨3, some 2, .zero, .applyRule leafless, true⟩]⟩
    ∃ s s', Synthesis.start { beamSize := 2 } .exact oracle () () = (.ok s, ()) ∧
      (candidatesOf (s.take oracle 1).1).length = 1 ∧
      (s.take oracle 1).2.next oracle = (some (.ok second), s') ∧
      WithinBeam 2 1 second s'.live := by
  intro wrapper oracle second
  obtain ⟨s, hstart, hfirst, hitem⟩ :
      ∃ s, Synthesis.start { beamSize := 2 } .exact oracle () () = (.ok s, ()) ∧
        (candidatesOf (s.take oracle 1).1).length = 1 ∧
        ((s.take oracle 1).2.next oracle).1 = some (.ok second) := by
    refine ⟨_, rfl, ?_, ?_⟩
    · decide +kernel
    · decide +kernel
  have hnext : (s.take oracle 1).2.next oracle =
      (some (.ok second), ((s.take oracle 1).2.next oracle).2) := Prod.ext hitem rfl
  obtain ⟨-, -, hround⟩ := beam_of_take hstart 1
  have hwithin := hround second _ hnext
  rw [hfirst] at hwithin
  exact ⟨s, _, hstart, hfirst, hnext, hwithin⟩

end TreeDerivation
