import TreeDerivation.Proofs.Outcome
import TreeDerivation.Proofs.Search.Selection

/-!
# What a round does

A round that succeeds is a `RoundStep`: the oracle gave one answer for each live hypothesis, each
extension comes from a live hypothesis and the answer at its position (`Child.Extends`), and the
report, the next live hypotheses and the numbering are read off the extensions. A round that fails
was failed by the oracle, by a wrong number of answers, or by a selected offer that could not be
carried out (`exists_of_next_eq_error`), and is the last.

A run of rounds that succeeded is taken apart by `exists_roundStep_of_take`, so that what a round
keeps is kept by a run (`take_induction`).
-/

namespace TreeDerivation

variable {Query Memory State : Type}

/-! ## Extensions -/

/-- How an extension comes from a live hypothesis: at its position the oracle gave the state and
offered the action, the score adds up, and the derivation accepted the action. -/
structure Child.Extends (encoding : Encoding) (subtypes : Subtyping)
    (live : List (Hypothesis State)) (answers : List (State × Views)) (c : Child State)
    (h : Hypothesis State) : Prop where
  answered : ∃ (i : Nat) (views : Views) (p : Score), live[i]? = some h ∧
    answers[i]? = some (c.hypothesis.state, views) ∧ c.hypothesis.score = h.score.add p ∧
    Offered encoding subtypes h.derivation views p c.action
  parent_eq : c.hypothesis.parent = some h.id
  apply_eq : h.derivation.apply c.action = .ok c.hypothesis.derivation
  isSome_tree : c.tree?.isSome = c.hypothesis.derivation.isComplete
  tree_eq : ∀ t, c.tree? = some t → c.hypothesis.derivation.tree = .ok t

theorem Child.Extends.mem_live {encoding : Encoding} {subtypes : Subtyping}
    {live : List (Hypothesis State)} {answers : List (State × Views)} {c : Child State}
    {h : Hypothesis State} (hc : c.Extends encoding subtypes live answers h) : h ∈ live := by
  obtain ⟨i, -, -, hi, -⟩ := hc.answered
  exact List.mem_of_getElem? hi

namespace Child

variable {id : Nat} {score : Score} {offer : Offer State}

theorem ofOffer_of_apply {d : Derivation}
    (hd : offer.parent.derivation.apply offer.action = .ok d) :
    ofOffer id score offer = (if d.isComplete then d.tree.map some else .ok none).map fun tree? =>
      ⟨⟨id, some offer.parent.id, score, d, offer.state⟩, offer.action, tree?⟩ := by
  rw [ofOffer, hd]
  cases hcomplete : d.isComplete with
  | true =>
    cases htree : d.tree with
    | ok t => simp [bind, Except.bind, Except.map, pure, Except.pure, hcomplete, htree]
    | error f => simp [bind, Except.bind, Except.map, hcomplete, htree]
  | false => simp [bind, Except.bind, Except.map, pure, Except.pure, hcomplete]

/-- An offer that was carried out: its action was accepted, and the extension has a tree exactly if
it is complete. -/
theorem ofOffer_eq_ok {c : Child State} (h : ofOffer id score offer = .ok c) :
    ∃ d tree?, offer.parent.derivation.apply offer.action = .ok d ∧
      c = ⟨⟨id, some offer.parent.id, score, d, offer.state⟩, offer.action, tree?⟩ ∧
      tree?.isSome = d.isComplete ∧ ∀ t, tree? = some t → d.tree = .ok t := by
  cases hd : offer.parent.derivation.apply offer.action with
  | error f => exact absurd h (by simp [ofOffer, hd, bind, Except.bind])
  | ok d =>
    rw [ofOffer_of_apply hd] at h
    cases hcomplete : d.isComplete with
    | true =>
      cases htree : d.tree with
      | ok t =>
        rw [hcomplete, htree] at h
        obtain rfl := Except.ok.inj h
        exact ⟨d, some t, rfl, rfl, hcomplete.symm, by simp [htree]⟩
      | error f => exact absurd h (by simp [hcomplete, htree, Except.map])
    | false =>
      rw [hcomplete] at h
      obtain rfl := Except.ok.inj h
      exact ⟨d, none, rfl, rfl, hcomplete.symm, by simp⟩

/-- An offer fails if its action is rejected or if it completes a derivation without a tree. -/
theorem ofOffer_eq_error {f : Failure} (h : ofOffer id score offer = .error f) :
    offer.parent.derivation.apply offer.action = .error f ∨
      ∃ d, offer.parent.derivation.apply offer.action = .ok d ∧ d.isComplete = true ∧
        d.tree = .error f := by
  cases hd : offer.parent.derivation.apply offer.action with
  | error g => exact .inl (by simpa [ofOffer, hd, bind, Except.bind] using h)
  | ok d =>
    rw [ofOffer_of_apply hd] at h
    cases hcomplete : d.isComplete with
    | true =>
      cases htree : d.tree with
      | ok t => exact absurd h (by simp [hcomplete, htree, Except.map])
      | error g => exact .inr ⟨d, rfl, hcomplete, by simpa [hcomplete, htree, Except.map] using h⟩
    | false => exact absurd h (by simp [hcomplete, Except.map])

/-- An extension lives on if it has no tree. -/
theorem eq_of_live?_eq_some {c : Child State} {h : Hypothesis State} (hlive : c.live? = some h) :
    c.tree? = none ∧ h = c.hypothesis := by
  unfold live? at hlive
  split at hlive
  next htree => exact ⟨Option.isNone_iff_eq_none.mp htree, (Option.some.inj hlive).symm⟩
  next => exact absurd hlive (by simp)

end Child

/-! ## The items of a search -/

/-- The rounds among the items of a search. -/
def roundsOf (items : List (Except Failure Round)) : List Round :=
  items.filterMap Except.toOption

@[simp] theorem roundsOf_append (items items' : List (Except Failure Round)) :
    roundsOf (items ++ items') = roundsOf items ++ roundsOf items' :=
  List.filterMap_append

@[simp] theorem roundsOf_ok (round : Round) : roundsOf [.ok round] = [round] := rfl

@[simp] theorem roundsOf_error (f : Failure) : roundsOf [.error f] = [] := rfl

/-! ## The start of a search -/

namespace Synthesis

/-- A search starts with the empty derivation as its one hypothesis. -/
theorem exists_eq_of_start_eq_ok {config : Config} {subtypes : Subtyping}
    {oracle : Oracle Query Memory State} {memory memory' : Memory} {query : Query}
    {s : Synthesis Memory State}
    (h : start config subtypes oracle memory query = (.ok s, memory')) :
    ∃ state, s = { config, subtypes, memory := memory', found := 0, nextId := 1, steps := 0
                   live := [⟨0, none, .zero, .empty config.encoding, state⟩]
                   finished := false, answers := [] } := by
  rw [start] at h
  split at h
  next => exact absurd h (by simp)
  next state memory₁ _ =>
    obtain ⟨hs, rfl⟩ := Prod.mk.inj h
    exact ⟨state, (Except.ok.inj hs).symm⟩

theorem exists_of_start_eq_ok {config : Config} {subtypes : Subtyping}
    {oracle : Oracle Query Memory State} {memory memory' : Memory} {query : Query}
    {s : Synthesis Memory State}
    (h : start config subtypes oracle memory query = (.ok s, memory')) :
    s.config = config ∧ s.subtypes = subtypes ∧ s.nextId = 1 ∧
      ∃ state, s.live = [⟨0, none, .zero, .empty config.encoding, state⟩] := by
  obtain ⟨state, rfl⟩ := exists_eq_of_start_eq_ok h
  exact ⟨rfl, rfl, rfl, state, rfl⟩

/-! ## One round -/

/-- What the oracle replies when it is asked in the next round. -/
def reply (oracle : Oracle Query Memory State) (s : Synthesis Memory State) :
    Except Failure (List (State × Views)) :=
  (oracle.answer s.memory s.live).1

/-- A round that succeeds, with the answers of the oracle and the extensions that it brings. -/
structure RoundStep (oracle : Oracle Query Memory State) (s : Synthesis Memory State)
    (answers : List (State × Views)) (children : List (Child State))
    (s' : Synthesis Memory State) : Prop where
  reply_eq : s.reply oracle = .ok answers
  length_answers : answers.length = s.live.length
  extends_live : ∀ c ∈ children, ∃ h, c.Extends s.config.encoding s.subtypes s.live answers h
  ids_eq : children.map (·.hypothesis.id) = List.range' s.nextId children.length
  live_eq : s'.live = children.filterMap Child.live?
  nextId_eq : s'.nextId = s.nextId + children.length
  config_eq : s'.config = s.config
  subtypes_eq : s'.subtypes = s.subtypes

/-- What is live after a round are extensions without a tree. -/
theorem RoundStep.exists_of_mem_live {oracle : Oracle Query Memory State}
    {s s' : Synthesis Memory State} {answers : List (State × Views)}
    {children : List (Child State)} (hstep : RoundStep oracle s answers children s')
    {h : Hypothesis State} (hh : h ∈ s'.live) :
    ∃ c ∈ children, c.tree? = none ∧ h = c.hypothesis := by
  rw [hstep.live_eq] at hh
  obtain ⟨c, hc, hlive⟩ := List.mem_filterMap.mp hh
  exact ⟨c, hc, Child.eq_of_live?_eq_some hlive⟩

/-- Extensions are numbered in order. -/
theorem map_id_of_extend {s : Synthesis Memory State} {selected : List (Score × Offer State)}
    {children : List (Child State)} (h : s.extend selected = .ok children) :
    children.map (·.hypothesis.id) = List.range' s.nextId children.length := by
  have hids := map_eq_map_of_mapM_eq_ok (g := fun c => c.hypothesis.id) (k := Prod.snd) h (by
    rintro ⟨⟨score, offer⟩, id⟩ c hc
    obtain ⟨d, tree?, -, rfl, -⟩ := Child.ofOffer_eq_ok hc
    rfl)
  rw [List.zipIdx_map_snd] at hids
  have hlength := congrArg List.length hids
  rw [List.length_map, List.length_range'] at hlength
  rw [hids, hlength]

theorem exists_of_extend_eq_ok {s : Synthesis Memory State} {answers : List (State × Views)}
    {capacity : Nat} {children : List (Child State)}
    (h : s.extend (TopK.best capacity (s.offers answers).1) = .ok children) :
    ∀ c ∈ children, ∃ h, c.Extends s.config.encoding s.subtypes s.live answers h := by
  intro c hc
  obtain ⟨⟨⟨score, offer⟩, id⟩, hmem, hoffer⟩ := exists_mem_of_mapM_eq_ok h hc
  obtain ⟨d, tree?, happly, rfl, hsome, htree⟩ := Child.ofOffer_eq_ok hoffer
  obtain ⟨i, views, p, hlive, hanswer, -, hscore, hoffered⟩ :=
    exists_of_mem_best (List.fst_mem_of_mem_zipIdx hmem)
  exact ⟨offer.parent, ⟨i, views, p, hlive, hanswer, hscore, hoffered⟩, rfl, happly, hsome, htree⟩

/-- Every selected offer is carried out. -/
theorem exists_ofOffer_of_extend {s : Synthesis Memory State}
    {selected : List (Score × Offer State)} {children : List (Child State)}
    (h : s.extend selected = .ok children) {score : Score} {offer : Offer State}
    (hmem : (score, offer) ∈ selected) :
    ∃ id, ∃ c ∈ children, Child.ofOffer id score offer = .ok c := by
  obtain ⟨i, hi⟩ := List.getElem?_of_mem hmem
  have hnumbered : ((score, offer), s.nextId + i) ∈ selected.zipIdx s.nextId :=
    List.mk_add_mem_zipIdx_iff_getElem?.mpr hi
  obtain ⟨c, hc, hoffer⟩ := exists_of_mem_of_mapM_eq_ok h hnumbered
  exact ⟨s.nextId + i, c, hc, hoffer⟩

/-- The search while the oracle answers: the memory is already that after the answer. -/
def asked (s : Synthesis Memory State) (memory : Memory) : Synthesis Memory State :=
  { s with memory, steps := s.steps + 1, answers := [] }

theorem next_of_not_goesOn {s : Synthesis Memory State} (h : s.goesOn = false)
    (oracle : Oracle Query Memory State) : s.next oracle = (none, s.finish) := by
  rw [next, if_neg (by simp [h])]

theorem next_of_goesOn {s : Synthesis Memory State} (h : s.goesOn = true)
    (oracle : Oracle Query Memory State) :
    s.next oracle = match oracle.answer s.memory s.live with
      | (.ok answers, memory) =>
        (some ((s.asked memory).advance answers).1, ((s.asked memory).advance answers).2)
      | (.error f, memory) => (some (.error f), (s.asked memory).finish) := by
  rw [next, if_pos h]
  rfl

/-- A call yields an item exactly if the search goes on. -/
theorem isSome_next (oracle : Oracle Query Memory State) (s : Synthesis Memory State) :
    (s.next oracle).1.isSome = s.goesOn := by
  cases h : s.goesOn with
  | false =>
    rw [next_of_not_goesOn h]
    rfl
  | true =>
    rw [next_of_goesOn h]
    split <;> rfl

theorem goesOn_of_next_eq_some {oracle : Oracle Query Memory State} {s s' : Synthesis Memory State}
    {item : Except Failure Round} (h : s.next oracle = (some item, s')) : s.goesOn = true := by
  rw [← isSome_next oracle s, h]
  rfl

/-- A round passes on a failure of the oracle and works on its answers. -/
theorem exists_of_next_eq_some {oracle : Oracle Query Memory State} {s s' : Synthesis Memory State}
    {item : Except Failure Round} (h : s.next oracle = (some item, s')) :
    (∃ f memory, s.reply oracle = .error f ∧ item = .error f ∧ s' = (s.asked memory).finish) ∨
      ∃ answers memory, s.reply oracle = .ok answers ∧
        (s.asked memory).advance answers = (item, s') := by
  rw [next_of_goesOn (goesOn_of_next_eq_some h)] at h
  split at h
  next answers memory hanswer =>
    obtain ⟨hitem, hs'⟩ := Prod.mk.inj h
    exact .inr ⟨answers, memory, congrArg Prod.fst hanswer, Prod.ext (Option.some.inj hitem) hs'⟩
  next f memory hanswer =>
    obtain ⟨hitem, hs'⟩ := Prod.mk.inj h
    exact .inl ⟨f, memory, congrArg Prod.fst hanswer, (Option.some.inj hitem).symm, hs'.symm⟩

theorem advance_of_length_eq {s : Synthesis Memory State} {answers : List (State × Views)}
    (hlength : answers.length = s.live.length) :
    s.advance answers = match s.extend (TopK.best s.placesLeft (s.offers answers).1) with
      | .ok children => (.ok (report children),
        settleRound { s with answers := (s.offers answers).2 } children)
      | .error f => (.error f, finish { s with answers := (s.offers answers).2 }) := by
  rw [advance, if_neg (not_not_intro hlength)]
  rfl

theorem exists_of_advance_eq_ok {s s' : Synthesis Memory State} {answers : List (State × Views)}
    {round : Round} (h : s.advance answers = (.ok round, s')) :
    answers.length = s.live.length ∧
      ∃ children, s.extend (TopK.best s.placesLeft (s.offers answers).1) = .ok children ∧
        round = report children ∧
        s' = settleRound { s with answers := (s.offers answers).2 } children := by
  by_cases hlength : answers.length = s.live.length
  · rw [advance_of_length_eq hlength] at h
    split at h
    next children hchildren =>
      obtain ⟨hround, hs'⟩ := Prod.mk.inj h
      exact ⟨hlength, children, hchildren, (Except.ok.inj hround).symm, hs'.symm⟩
    next => exact absurd h (by simp)
  · rw [advance, if_pos hlength] at h
    exact absurd h (by simp)

theorem exists_of_advance_eq_error {s s' : Synthesis Memory State}
    {answers : List (State × Views)} {f : Failure} (h : s.advance answers = (.error f, s')) :
    answers.length ≠ s.live.length ∧
        f = Failure.of (.answerCount answers.length s.live.length) ∨
      ∃ id score offer, (score, offer) ∈ TopK.best s.placesLeft (s.offers answers).1 ∧
        Child.ofOffer id score offer = .error f := by
  by_cases hlength : answers.length = s.live.length
  · rw [advance_of_length_eq hlength] at h
    split at h
    next => exact absurd h (by simp)
    next g hextend =>
      obtain ⟨hround, -⟩ := Prod.mk.inj h
      obtain rfl : g = f := Except.error.inj hround
      obtain ⟨⟨⟨score, offer⟩, id⟩, hmem, hoffer⟩ := exists_of_mapM_eq_error hextend
      exact .inr ⟨id, score, offer, List.fst_mem_of_mem_zipIdx hmem, hoffer⟩
  · rw [advance, if_pos hlength] at h
    obtain ⟨hround, -⟩ := Prod.mk.inj h
    exact .inl ⟨hlength, (Except.error.inj hround).symm⟩

/-- A failure after the oracle has answered ends the search. -/
theorem exists_finish_of_advance_eq_error {s s' : Synthesis Memory State}
    {answers : List (State × Views)} {f : Failure} (h : s.advance answers = (.error f, s')) :
    ∃ kept, s' = finish { s with answers := kept } := by
  by_cases hlength : answers.length = s.live.length
  · rw [advance_of_length_eq hlength] at h
    split at h
    next => exact absurd h (by simp)
    next => exact ⟨_, (Prod.mk.inj h).2.symm⟩
  · rw [advance, if_pos hlength] at h
    exact ⟨s.answers, (Prod.mk.inj h).2.symm⟩

/-- What a round that succeeds computes: it extends the best of all offers. -/
theorem exists_extend_of_next_eq_ok {oracle : Oracle Query Memory State}
    {s s' : Synthesis Memory State} {round : Round} (h : s.next oracle = (some (.ok round), s')) :
    ∃ answers children memory, s.reply oracle = .ok answers ∧
      answers.length = s.live.length ∧
      s.extend (TopK.best s.placesLeft (s.offers answers).1) = .ok children ∧
      round = report children ∧
      s' = settleRound { s.asked memory with answers := (s.offers answers).2 } children := by
  rcases exists_of_next_eq_some h with ⟨f, memory, -, hitem, -⟩ |
    ⟨answers, memory, hreply, hadvance⟩
  · exact absurd hitem (by simp)
  · obtain ⟨hlength, children, hchildren, hround, hs'⟩ := exists_of_advance_eq_ok hadvance
    exact ⟨answers, children, memory, hreply, hlength, hchildren, hround, hs'⟩

/-- What a round that succeeds does. -/
theorem exists_of_next_eq_ok {oracle : Oracle Query Memory State} {s s' : Synthesis Memory State}
    {round : Round} (h : s.next oracle = (some (.ok round), s')) :
    ∃ answers children, RoundStep oracle s answers children s' ∧ round = report children := by
  obtain ⟨answers, children, memory, hreply, hlength, hchildren, hround, rfl⟩ :=
    exists_extend_of_next_eq_ok h
  refine ⟨answers, children, ?_, hround⟩
  exact
    { reply_eq := hreply
      length_answers := hlength
      extends_live := exists_of_extend_eq_ok hchildren
      ids_eq := map_id_of_extend hchildren
      live_eq := rfl
      nextId_eq := rfl
      config_eq := rfl
      subtypes_eq := rfl }

/-- Why a round fails: the oracle failed, gave a wrong number of answers, or offered an action that
could not be carried out. -/
theorem exists_of_next_eq_error {oracle : Oracle Query Memory State}
    {s s' : Synthesis Memory State} {f : Failure} (h : s.next oracle = (some (.error f), s')) :
    s.reply oracle = .error f ∨
      ∃ answers, s.reply oracle = .ok answers ∧
        (answers.length ≠ s.live.length ∧
            f = Failure.of (.answerCount answers.length s.live.length) ∨
          ∃ id score offer, (score, offer) ∈ TopK.best s.placesLeft (s.offers answers).1 ∧
            Child.ofOffer id score offer = .error f) := by
  rcases exists_of_next_eq_some h with ⟨g, memory, hreply, hitem, -⟩ |
    ⟨answers, memory, hreply, hadvance⟩
  · obtain rfl : f = g := Except.error.inj hitem
    exact .inl hreply
  · have herror := exists_of_advance_eq_error hadvance
    exact .inr ⟨answers, hreply, herror⟩

/-! ## Runs -/

theorem take_succ_of_next {oracle : Oracle Query Memory State} {s s' : Synthesis Memory State}
    {item : Except Failure Round} (h : s.next oracle = (some item, s')) (n : Nat) :
    s.take oracle (n + 1) = (item :: (s'.take oracle n).1, (s'.take oracle n).2) := by
  rw [take, h]

theorem take_succ_of_next_eq_none {oracle : Oracle Query Memory State}
    {s s' : Synthesis Memory State} (h : s.next oracle = (none, s')) (n : Nat) :
    s.take oracle (n + 1) = ([], s') := by
  rw [take, h]

/-- The item with number `q` of a run is what the search after `q` items yields next. -/
theorem next_of_take {oracle : Oracle Query Memory State} {s : Synthesis Memory State} {n q : Nat}
    {item : Except Failure Round} (h : (s.take oracle n).1[q]? = some item) :
    (s.take oracle q).2.next oracle = (some item, (s.take oracle (q + 1)).2) := by
  induction n generalizing s q with
  | zero => exact absurd h (by simp [take])
  | succ n ih =>
    cases hnext : s.next oracle with
    | mk first s₁ =>
      cases first with
      | none => exact absurd h (by simp [take_succ_of_next_eq_none hnext])
      | some first =>
        rw [take_succ_of_next hnext] at h
        cases q with
        | zero =>
          obtain rfl : first = item := by simpa using h
          rw [take_succ_of_next hnext, take, take]
          exact hnext
        | succ q =>
          rw [take_succ_of_next hnext, take_succ_of_next hnext]
          exact ih (by simpa using h)

/-- Each round of a run of rounds that succeeded is what the search before it yields next. -/
theorem next_of_take_rounds {oracle : Oracle Query Memory State} {s s' : Synthesis Memory State}
    {rounds : List Round} (h : s.take oracle rounds.length = (rounds.map .ok, s')) {q : Nat}
    {round : Round} (hq : rounds[q]? = some round) :
    (s.take oracle q).2.next oracle = (some (.ok round), (s.take oracle (q + 1)).2) := by
  apply next_of_take (n := rounds.length)
  rw [h, List.getElem?_map, hq]
  rfl

theorem exists_roundStep_of_take {oracle : Oracle Query Memory State}
    {s s' : Synthesis Memory State} {rounds : List Round}
    (h : s.take oracle rounds.length = (rounds.map .ok, s')) {q : Nat} {round : Round}
    (hq : rounds[q]? = some round) :
    ∃ answers children, RoundStep oracle (s.take oracle q).2 answers children
      (s.take oracle (q + 1)).2 ∧ round = report children :=
  exists_of_next_eq_ok (next_of_take_rounds h hq)

/-- What holds at the start of a run and is kept by the calls that yield its rounds holds after all
of them. -/
theorem rounds_take_induction {oracle : Oracle Query Memory State} {s s' : Synthesis Memory State}
    {rounds : List Round} (hrun : s.take oracle rounds.length = (rounds.map .ok, s'))
    {motive : List Round → Synthesis Memory State → Prop} (hstart : motive [] s)
    (hround : ∀ q round, q < rounds.length →
      motive (rounds.take q) (s.take oracle q).2 →
      (s.take oracle q).2.next oracle = (some (.ok round), (s.take oracle (q + 1)).2) →
      motive (rounds.take q ++ [round]) (s.take oracle (q + 1)).2) :
    ∀ q, q ≤ rounds.length → motive (rounds.take q) (s.take oracle q).2 := by
  intro q
  induction q with
  | zero => exact fun _ => hstart
  | succ q ih =>
    intro hq
    have hitem := List.getElem?_eq_getElem (l := rounds) hq
    rw [List.take_add_one, hitem, Option.toList_some]
    exact hround q _ hq (ih (Nat.le_of_succ_le hq)) (next_of_take_rounds hrun hitem)

/-- What holds at the start of a run and is kept by each of its rounds holds after all of them. -/
theorem take_induction {oracle : Oracle Query Memory State} {s s' : Synthesis Memory State}
    {rounds : List Round} (hrun : s.take oracle rounds.length = (rounds.map .ok, s'))
    {motive : List Round → Synthesis Memory State → Prop} (hstart : motive [] s)
    (hround : ∀ q answers children, q < rounds.length →
      motive (rounds.take q) (s.take oracle q).2 →
      RoundStep oracle (s.take oracle q).2 answers children (s.take oracle (q + 1)).2 →
      motive (rounds.take q ++ [report children]) (s.take oracle (q + 1)).2) :
    ∀ q, q ≤ rounds.length → motive (rounds.take q) (s.take oracle q).2 := by
  refine rounds_take_induction hrun hstart ?_
  intro q round hq hbefore hnext
  obtain ⟨answers, children, hstep, rfl⟩ := exists_of_next_eq_ok hnext
  exact hround q answers children hq hbefore hstep

/-! ## The end of a run -/

theorem next_of_finished {s : Synthesis Memory State} (h : s.finished = true)
    (oracle : Oracle Query Memory State) : s.next oracle = (none, s.finish) :=
  next_of_not_goesOn (by simp [goesOn, h]) oracle

/-- A round that fails ends the search and changes nothing that is live. -/
theorem exists_finish_of_next_eq_error {oracle : Oracle Query Memory State}
    {s s' : Synthesis Memory State} {f : Failure} (h : s.next oracle = (some (.error f), s')) :
    ∃ memory answers, s' = finish { s.asked memory with answers } := by
  rcases exists_of_next_eq_some h with ⟨g, memory, -, -, rfl⟩ | ⟨answers, memory, -, hadvance⟩
  · exact ⟨memory, [], rfl⟩
  · obtain ⟨kept, rfl⟩ := exists_finish_of_advance_eq_error hadvance
    exact ⟨memory, kept, rfl⟩

theorem finished_of_next_eq_error {oracle : Oracle Query Memory State}
    {s s' : Synthesis Memory State} {f : Failure} (h : s.next oracle = (some (.error f), s')) :
    s'.finished = true := by
  obtain ⟨memory, answers, rfl⟩ := exists_finish_of_next_eq_error h
  rfl

theorem eq_finish_of_next_eq_none {oracle : Oracle Query Memory State}
    {s s' : Synthesis Memory State} (h : s.next oracle = (none, s')) : s' = s.finish := by
  have hgoes : s.goesOn = false := by
    rw [← isSome_next oracle s, h]
    rfl
  rw [next_of_not_goesOn hgoes] at h
  exact (Prod.mk.inj h).2.symm

/-- A run is prolonged by one call. -/
theorem take_succ_eq (oracle : Oracle Query Memory State) (n : Nat) (s : Synthesis Memory State) :
    s.take oracle (n + 1) =
      ((s.take oracle n).1 ++ ((s.take oracle n).2.next oracle).1.toList,
        ((s.take oracle n).2.next oracle).2) := by
  induction n generalizing s with
  | zero =>
    cases hnext : s.next oracle with
    | mk item s₁ =>
      rw [take, take, hnext]
      cases item with
      | none => rfl
      | some item => rfl
  | succ n ih =>
    cases hnext : s.next oracle with
    | mk item s₁ =>
      cases item with
      | none =>
        have hend : s₁.next oracle = (none, s₁) := by
          rw [eq_finish_of_next_eq_none hnext]
          exact next_of_finished rfl oracle
        rw [take_succ_of_next_eq_none hnext, take_succ_of_next_eq_none hnext, hend]
        rfl
      | some item =>
        rw [take_succ_of_next hnext, ih, take_succ_of_next hnext]
        rfl

/-- What is live after a call is what was live before it, or the open ones among the extensions of
the best offers. -/
theorem live_of_next {oracle : Oracle Query Memory State} {s s' : Synthesis Memory State}
    {item : Option (Except Failure Round)} (h : s.next oracle = (item, s')) :
    s'.live = s.live ∨ ∃ capacity offers children,
      s.extend (TopK.best capacity offers) = .ok children ∧
        s'.live = children.filterMap Child.live? := by
  rcases item with _ | f | round
  · rw [eq_finish_of_next_eq_none h]
    exact .inl rfl
  · obtain ⟨memory, answers, rfl⟩ := exists_finish_of_next_eq_error h
    exact .inl rfl
  · obtain ⟨answers, children, memory, -, -, hchildren, -, rfl⟩ := exists_extend_of_next_eq_ok h
    exact .inr ⟨_, _, children, hchildren, rfl⟩

/-- What holds of the items so far and the search after them, and is kept by every call, holds after
a run. -/
theorem items_take_induction (oracle : Oracle Query Memory State) (s : Synthesis Memory State)
    {motive : List (Except Failure Round) → Synthesis Memory State → Prop} (hstart : motive [] s)
    (hnext : ∀ items t item t', motive items t → t.next oracle = (item, t') →
      motive (items ++ item.toList) t') :
    ∀ n, motive (s.take oracle n).1 (s.take oracle n).2 := by
  intro n
  induction n with
  | zero => exact hstart
  | succ n ih =>
    rw [take_succ_eq]
    exact hnext _ _ _ _ ih rfl

/-- What every call keeps of what is live, a run keeps. -/
theorem live_take_induction {oracle : Oracle Query Memory State}
    {motive : List (Hypothesis State) → Prop}
    (hnext : ∀ (s s' : Synthesis Memory State) item, s.next oracle = (item, s') → motive s.live →
      motive s'.live) (n : Nat) (s : Synthesis Memory State) (hs : motive s.live) :
    motive (s.take oracle n).2.live :=
  items_take_induction oracle s (motive := fun _ t => motive t.live) hs
    (fun _ t item t' ht hcall => hnext t t' item hcall ht) n

/-- The rounds among the items of a run are a run by themselves, and what is live after them is live
to the end: nothing but a failed round may follow. -/
theorem exists_take_roundsOf (oracle : Oracle Query Memory State) (s : Synthesis Memory State)
    (n : Nat) : ∃ s', s.take oracle (roundsOf (s.take oracle n).1).length =
        ((roundsOf (s.take oracle n).1).map .ok, s') ∧ s'.live = (s.take oracle n).2.live := by
  -- unless the search has finished, it is where its rounds have left it
  have hrun := items_take_induction oracle s
    (motive := fun items t => ∃ s', s.take oracle (roundsOf items).length =
        ((roundsOf items).map .ok, s') ∧ s'.live = t.live ∧ (s' = t ∨ t.finished = true))
    ⟨s, rfl, rfl, .inl rfl⟩ (by
      rintro items t item t' ⟨s', hrun, hlive, hat⟩ hnext
      rcases item with _ | f | round
      · rw [Option.toList_none, List.append_nil, eq_finish_of_next_eq_none hnext]
        exact ⟨s', hrun, hlive, .inr rfl⟩
      · obtain ⟨memory, answers, rfl⟩ := exists_finish_of_next_eq_error hnext
        rw [Option.toList_some, roundsOf_append, roundsOf_error, List.append_nil]
        exact ⟨s', hrun, hlive, .inr rfl⟩
      · have hopen : t.finished = false := by
          have hgoes := goesOn_of_next_eq_some hnext
          simp only [goesOn, Bool.and_eq_true, Bool.not_eq_true'] at hgoes
          exact hgoes.1.1.1
        obtain rfl : s' = t := hat.resolve_right (by simp [hopen])
        rw [Option.toList_some, roundsOf_append, roundsOf_ok, List.length_append,
          List.length_singleton, take_succ_eq, hrun, hnext, List.map_append]
        exact ⟨t', rfl, rfl, .inl rfl⟩) n
  obtain ⟨s', hrun, hlive, -⟩ := hrun
  exact ⟨s', hrun, hlive⟩

/-- All items of a run before another one are rounds that succeeded. -/
theorem exists_rounds_of_take {oracle : Oracle Query Memory State} {s : Synthesis Memory State}
    {n q : Nat} {item : Except Failure Round} (h : (s.take oracle n).1[q]? = some item) :
    ∃ rounds : List Round, rounds.length = q ∧ (s.take oracle q).1 = rounds.map .ok := by
  induction q generalizing s n with
  | zero => exact ⟨[], rfl, rfl⟩
  | succ q ih =>
    cases n with
    | zero => exact absurd h (by simp [take])
    | succ n =>
      cases hnext : s.next oracle with
      | mk first s₁ =>
        cases first with
        | none => exact absurd h (by simp [take_succ_of_next_eq_none hnext])
        | some first =>
          rw [take_succ_of_next hnext, List.getElem?_cons_succ] at h
          cases first with
          | error f =>
            have hfinished := next_of_finished (finished_of_next_eq_error hnext) oracle
            cases n with
            | zero => exact absurd h (by simp [take])
            | succ n => exact absurd h (by simp [take_succ_of_next_eq_none hfinished])
          | ok round =>
            obtain ⟨rounds, hlength, hrounds⟩ := ih h
            refine ⟨round :: rounds, by rw [List.length_cons, hlength], ?_⟩
            rw [take_succ_of_next hnext, hrounds, List.map_cons]

end Synthesis

end TreeDerivation
