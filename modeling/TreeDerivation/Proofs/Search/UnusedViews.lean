import TreeDerivation.Proofs.Search.Lockstep
import TreeDerivation.Proofs.Search.Ranking

/-!
# Views that are not read

An oracle answers with two views, and a search reads one of them: that of the tokens where the text
of a leaf is open, that of the rules everywhere else. So two oracles that differ in nothing but
views that are not read bring forth the same search (`observed_eq_of_agrees`).

The view that is read is read twice, first to list what may be selected, and then to look the
selected entries up by their places (`rereadAll`). Both readings go to the same view and find it
computed once: after the first one the second changes nothing (`rereadAll_best`).
-/

namespace TreeDerivation

variable {Query Memory Memory₁ Memory₂ State : Type}

/-! ## Two oracles that differ in views that are not read -/

/-- The memory of an oracle after a search was started and it was asked about lists of hypotheses,
one after the other. -/
def Oracle.memoryAfter (oracle : Oracle Query Memory State) (memory : Memory) (query : Query)
    (asked : List (List (Hypothesis State))) : Memory :=
  asked.foldl (fun memory live => (oracle.answer memory live).2) (oracle.start memory query).2

/-- Whether two oracles start alike, and at equal points of their histories give replies to equal
lists of hypotheses that agree as far as they are read. -/
structure Oracle.Agrees (oracle₁ : Oracle Query Memory₁ State) (memory₁ : Memory₁)
    (oracle₂ : Oracle Query Memory₂ State) (memory₂ : Memory₂) (query : Query) : Prop where
  start_eq : (oracle₁.start memory₁ query).1 = (oracle₂.start memory₂ query).1
  answer : ∀ asked live, RepliesAgree live
    (oracle₁.answer (oracle₁.memoryAfter memory₁ query asked) live).1
    (oracle₂.answer (oracle₂.memoryAfter memory₂ query asked) live).1

/-- What is seen of a search after at most `n` rounds: its items and what is live, or why it did not
start. -/
def Synthesis.observed (config : Config) (subtypes : Subtyping)
    (oracle : Oracle Query Memory State) (memory : Memory) (query : Query) (n : Nat) :
    Except Failure (List (Except Failure Round) × List (Hypothesis State)) :=
  (start config subtypes oracle memory query).1.map fun s =>
    ((s.take oracle n).1, (s.take oracle n).2.live)

theorem Oracle.memoryAfter_append (oracle : Oracle Query Memory State) (memory : Memory)
    (query : Query) (asked : List (List (Hypothesis State))) (live : List (Hypothesis State)) :
    oracle.memoryAfter memory query (asked ++ [live]) =
      (oracle.answer (oracle.memoryAfter memory query asked) live).2 :=
  List.foldl_concat ..

namespace Oracle.Agrees

variable {oracle₁ : Oracle Query Memory₁ State} {memory₁ : Memory₁}
  {oracle₂ : Oracle Query Memory₂ State} {memory₂ : Memory₂} {query : Query}

/-- From their starts on, two oracles that agree cannot be told apart by a run. -/
theorem take_eq (h : oracle₁.Agrees memory₁ oracle₂ memory₂ query)
    {s : Synthesis Memory₁ State} {t : Synthesis Memory₂ State} (hst : s.Together t)
    (hs : s.memory = (oracle₁.start memory₁ query).2)
    (ht : t.memory = (oracle₂.start memory₂ query).2) (n : Nat) :
    ((s.take oracle₁ n).1, (s.take oracle₁ n).2.live) =
      ((t.take oracle₂ n).1, (t.take oracle₂ n).2.live) := by
  -- the memories are matched by what both oracles were asked about so far
  let matched (m₁ : Memory₁) (m₂ : Memory₂) : Prop := ∃ asked,
    m₁ = oracle₁.memoryAfter memory₁ query asked ∧ m₂ = oracle₂.memoryAfter memory₂ query asked
  have hmatched : ∀ m₁ m₂ live, matched m₁ m₂ →
      RepliesAgree live (oracle₁.answer m₁ live).1 (oracle₂.answer m₂ live).1 ∧
        matched (oracle₁.answer m₁ live).2 (oracle₂.answer m₂ live).2 := by
    rintro _ _ live ⟨asked, rfl, rfl⟩
    refine ⟨h.answer asked live, asked ++ [live], ?_, ?_⟩
    · exact (oracle₁.memoryAfter_append memory₁ query asked live).symm
    · exact (oracle₂.memoryAfter_append memory₂ query asked live).symm
  have hfirst : matched s.memory t.memory := ⟨[], hs, ht⟩
  obtain ⟨hitems, htogether, -⟩ := hst.take oracle₁ oracle₂ matched hmatched hfirst n
  exact Prod.ext hitems htogether.live_eq

/-- Two oracles that agree on what is read bring forth the same search. -/
theorem observed_eq (h : oracle₁.Agrees memory₁ oracle₂ memory₂ query) (config : Config)
    (subtypes : Subtyping) (n : Nat) :
    Synthesis.observed config subtypes oracle₁ memory₁ query n =
      Synthesis.observed config subtypes oracle₂ memory₂ query n := by
  have hstart := h.start_eq
  have htake := fun s t hst hs ht => h.take_eq (s := s) (t := t) hst hs ht n
  rw [Synthesis.observed, Synthesis.observed, Synthesis.start, Synthesis.start]
  cases hreply₁ : oracle₁.start memory₁ query with
  | mk reply₁ changed₁ =>
    cases hreply₂ : oracle₂.start memory₂ query with
    | mk reply₂ changed₂ =>
      rw [hreply₁, hreply₂] at hstart htake
      obtain rfl : reply₁ = reply₂ := hstart
      cases reply₁ with
      | error f => rfl
      | ok state =>
        exact congrArg Except.ok (htake _ _ ⟨⟨rfl, rfl, rfl, rfl, rfl, rfl, rfl⟩, rfl, rfl⟩ rfl rfl)

end Oracle.Agrees

/-! ## The second reading -/

/-- The place of an entry in the views of an answer. -/
inductive Place where
  | rule (index : Nat)
  | token (index : Nat)

/-- The place of the hypothesis of an entry, and that of the entry in the views about it. -/
def Entry.place (a : Entry) : Nat × Place :=
  match a.action with
  | .applyRule _ => (a.hypothesis, .rule a.index)
  | .generateToken _ => (a.hypothesis, .token a.index)

/-- Reads the entry at a place: its action, and the views after the reading. -/
def Views.read (v : Views) : Place → Option Action × Views
  | .rule j => (v.rules.items[j]?.map fun entry => .applyRule entry.1, v.readRules)
  | .token j => (v.tokens.items[j]?.map fun entry => .generateToken entry.1, v.readTokens)

/-- Looks up the entry at a place, and the answers after the reading. -/
def reread (live : List (Hypothesis State)) (answers : List (State × Views))
    (place : Nat × Place) : Option (Offer State) × List (State × Views) :=
  match live[place.1]?, answers[place.1]? with
  | some h, some (state, views) =>
    let (action?, views) := views.read place.2
    (action?.map fun action => ⟨h, state, action⟩, answers.set place.1 (state, views))
  | _, _ => (none, answers)

/-- Looks up what was selected, one after the other. -/
def rereadAll (live : List (Hypothesis State)) (answers : List (State × Views)) :
    List (Score × (Nat × Place)) → List (Score × Option (Offer State)) × List (State × Views)
  | [] => ([], answers)
  | (score, place) :: rest =>
    let (offer?, answers) := reread live answers place
    let (offers, answers) := rereadAll live answers rest
    ((score, offer?) :: offers, answers)

@[simp] theorem Deferred.items_force {α : Type} (d : Deferred α) : d.force.items = d.items := by
  cases d <;> rfl

@[simp] theorem Deferred.force_force {α : Type} (d : Deferred α) : d.force.force = d.force := by
  cases d <;> rfl

/-- The views after the reading that the search does for a derivation. -/
def Views.forcedFor (d : Derivation) (v : Views) : Views :=
  if d.ReadsTokens then v.readTokens else v.readRules

theorem Views.forcedFor_of_reads {d : Derivation} (h : d.ReadsTokens) (v : Views) :
    v.forcedFor d = v.readTokens :=
  if_pos h

theorem Views.forcedFor_of_not_reads {d : Derivation} (h : ¬ d.ReadsTokens) (v : Views) :
    v.forcedFor d = v.readRules :=
  if_neg h

theorem offersFor_snd {encoding : Encoding} {subtypes : Subtyping} {h : Hypothesis State}
    (hopen : h.derivation.isComplete = false) (answer : State × Views) :
    (offersFor encoding subtypes h answer).2 = (answer.1, answer.2.forcedFor h.derivation) := by
  obtain ⟨state, views⟩ := answer
  simp only [offersFor, hopen, Bool.false_eq_true, if_false]
  split
  next htokens => rw [Views.forcedFor_of_reads htokens]
  next hrules => rw [Views.forcedFor_of_not_reads hrules]

/-- An entry is found at its place, and reading it once more changes nothing. -/
theorem read_of_mem_entriesFor {encoding : Encoding} {subtypes : Subtyping} {i : Nat}
    {h : Hypothesis State} {views : Views} {a : Entry}
    (ha : a ∈ entriesFor encoding subtypes i h views) :
    (views.forcedFor h.derivation).read a.place.2 =
      (some a.action, views.forcedFor h.derivation) := by
  rw [entriesFor] at ha
  split at ha
  next htokens =>
    obtain ⟨⟨⟨token, p⟩, j⟩, hmem, rfl⟩ := List.mem_map.mp ha
    have hentry := List.mk_mem_zipIdx_iff_getElem?.mp hmem
    rw [Views.forcedFor_of_reads htokens]
    simp [Entry.place, Views.read, Views.readTokens, hentry]
  next hrules =>
    obtain ⟨⟨⟨rule, p⟩, j⟩, hmem, rfl⟩ := List.mem_map.mp ha
    have hentry := List.mk_mem_zipIdx_iff_getElem?.mp (List.mem_of_mem_filter hmem)
    rw [Views.forcedFor_of_not_reads hrules]
    simp [Entry.place, Views.read, Views.readRules, hentry]

theorem place_fst (a : Entry) : a.place.1 = a.hypothesis := by
  rw [Entry.place]
  split <;> rfl

theorem reread_of_mem_entriesFor {encoding : Encoding} {subtypes : Subtyping} {i : Nat}
    {h : Hypothesis State} {state : State} {views : Views} {live : List (Hypothesis State)}
    {answers : List (State × Views)} (hlive : live[i]? = some h)
    (hanswer : answers[i]? = some (state, views.forcedFor h.derivation)) {a : Entry}
    (ha : a ∈ entriesFor encoding subtypes i h views) :
    reread live answers a.place = (some ⟨h, state, a.action⟩, answers) := by
  have hplace : a.place.1 = i := (place_fst a).trans (of_mem_entriesFor ha).1
  rw [reread, hplace, hlive, hanswer]
  dsimp only
  rw [read_of_mem_entriesFor ha]
  obtain ⟨hlt, hget⟩ := List.getElem?_eq_some_iff.mp hanswer
  rw [← hget, List.set_getElem_self]
  rfl

theorem rereadAll_map {live : List (Hypothesis State)} {answers : List (State × Views)}
    {selected : List Entry} (h : ∀ a ∈ selected, (reread live answers a.place).2 = answers) :
    rereadAll live answers (selected.map fun a => (a.score, a.place)) =
      (selected.map fun a => (a.score, (reread live answers a.place).1), answers) := by
  induction selected with
  | nil => rfl
  | cons a selected ih =>
    obtain ⟨ha, hselected⟩ := List.forall_mem_cons.mp h
    rw [List.map_cons, rereadAll]
    dsimp only
    rw [ha, ih hselected, List.map_cons]

namespace Synthesis

theorem getElem?_offers_snd {s : Synthesis Memory State} {answers : List (State × Views)} {i : Nat}
    {h : Hypothesis State} {answer : State × Views} (hopen : h.derivation.isComplete = false)
    (hlive : s.live[i]? = some h) (hanswer : answers[i]? = some answer) :
    (s.offers answers).2[i]? = some (answer.1, answer.2.forcedFor h.derivation) := by
  have hzip : (s.live.zip answers)[i]? = some (h, answer) :=
    List.getElem?_zip_eq_some.mpr ⟨hlive, hanswer⟩
  simp only [offers, List.map_map, List.getElem?_map, hzip, Option.map_some, Function.comp_apply]
  rw [offersFor_snd hopen]

/-- The second reading finds the offer of every entry and leaves the answers as the first reading
left them. -/
theorem reread_of_mem_entries {s : Synthesis Memory State}
    (hopen : ∀ h ∈ s.live, h.derivation.isComplete = false) {answers : List (State × Views)}
    {a : Entry} (ha : a ∈ entries s.config.encoding s.subtypes s.live answers) :
    (reread s.live (s.offers answers).2 a.place).2 = (s.offers answers).2 := by
  obtain ⟨⟨⟨h, state, views⟩, i⟩, hmem, ha⟩ := List.mem_flatMap.mp ha
  obtain ⟨hlive, hanswer⟩ :=
    List.getElem?_zip_eq_some.mp (List.mk_mem_zipIdx_iff_getElem?.mp hmem)
  have hread := getElem?_offers_snd (hopen h (List.mem_of_getElem? hlive)) hlive hanswer
  rw [reread_of_mem_entriesFor hlive hread ha]

theorem map_some_offers {s : Synthesis Memory State}
    (hopen : ∀ h ∈ s.live, h.derivation.isComplete = false) (answers : List (State × Views)) :
    (s.offers answers).1.map (Prod.map id some) =
      (entries s.config.encoding s.subtypes s.live answers).map fun a =>
        (a.score, (reread s.live (s.offers answers).2 a.place).1) := by
  rw [offers_eq_flatMap_zipIdx, entries, List.map_flatMap, List.map_flatMap]
  refine List.flatMap_congr ?_
  rintro ⟨⟨h, state, views⟩, i⟩ hmem
  obtain ⟨hlive, hanswer⟩ :=
    List.getElem?_zip_eq_some.mp (List.mk_mem_zipIdx_iff_getElem?.mp hmem)
  have hcomplete := hopen h (List.mem_of_getElem? hlive)
  have hread := getElem?_offers_snd hcomplete hlive hanswer
  rw [offersFor_eq_map hcomplete i, List.map_map]
  refine List.map_congr_left ?_
  intro a ha
  rw [reread_of_mem_entriesFor hlive hread ha]
  rfl

/-- Reading what was selected a second time finds the selected offers, and leaves the answers as the
first reading left them. -/
theorem rereadAll_best {s : Synthesis Memory State}
    (hopen : ∀ h ∈ s.live, h.derivation.isComplete = false) (answers : List (State × Views))
    (capacity : Nat) :
    rereadAll s.live (s.offers answers).2 (TopK.best capacity
        ((entries s.config.encoding s.subtypes s.live answers).map fun a => (a.score, a.place))) =
      ((TopK.best capacity (s.offers answers).1).map (Prod.map id some), (s.offers answers).2) := by
  have hentries := pairwise_entries s.config.encoding s.subtypes s.live answers
  rw [TopK.best_map, map_some_offers hopen, best_entries hentries, best_entries hentries]
  refine rereadAll_map ?_
  intro a ha
  have hmem := (List.mergeSort_perm _ _).mem_iff.mp (List.mem_of_mem_take ha)
  exact reread_of_mem_entries hopen (List.mem_of_mem_filter hmem)

theorem open_of_start_take {config : Config} {subtypes : Subtyping}
    {oracle : Oracle Query Memory State} {memory memory' : Memory} {query : Query}
    {s : Synthesis Memory State}
    (h : start config subtypes oracle memory query = (.ok s, memory')) (n : Nat) :
    ∀ h ∈ (s.take oracle n).2.live, h.derivation.isComplete = false := by
  obtain ⟨s', hrun, hlive⟩ := exists_take_roundsOf oracle s n
  rw [← hlive]
  exact (Audited.of_take h hrun).live_open

end Synthesis

/-! ## One view is read, once -/

/-- Whether of two deferred views exactly that was computed which the search reads for a derivation,
by one computation. -/
structure Views.ReadOnce (d : Derivation) (v : Views) : Prop where
  isForced_tokens : v.tokens.isForced = true ↔ d.ReadsTokens
  isForced_rules : v.rules.isForced = true ↔ ¬ d.ReadsTokens
  runs_tokens : v.tokens.runs = if d.ReadsTokens then 1 else 0
  runs_rules : v.rules.runs = if d.ReadsTokens then 0 else 1

theorem Views.readOnce_deferred (d : Derivation) (rules : Unit → List (Rule × Score))
    (tokens : Unit → List (Token × Score)) : ((deferred rules tokens).forcedFor d).ReadOnce d := by
  by_cases h : d.ReadsTokens
  · rw [forcedFor_of_reads h]
    constructor <;> simp [deferred, readTokens, Deferred.force, Deferred.isForced, Deferred.known?,
      Deferred.runs, h]
  · rw [forcedFor_of_not_reads h]
    constructor <;> simp [deferred, readRules, Deferred.force, Deferred.isForced, Deferred.known?,
      Deferred.runs, h]

/-- How a round, from one state of the search to the next, reads the answers. -/
structure RoundReads (s : Synthesis Memory State) (answers : List (State × Views)) (round : Round)
    (s' : Synthesis Memory State) : Prop where
  length_answers : s'.answers.length = s.live.length
  /-- After the round one view about each live hypothesis was computed, once. -/
  readOnce : ∀ (i : Nat) (h : Hypothesis State), s.live[i]? = some h → ∃ state views,
    s'.answers[i]? = some (state, views) ∧ views.ReadOnce h.derivation
  /-- The best places are looked up in a second reading, which leaves the answers as they are, and
  the round extends what is found there. -/
  reread : ∃ selected children,
    rereadAll s.live s'.answers (TopK.best s.placesLeft
        ((entries s.config.encoding s.subtypes s.live answers).map fun a => (a.score, a.place))) =
      (selected.map (Prod.map id some), s'.answers) ∧
    s.extend selected = .ok children ∧ round = Synthesis.report children

theorem Synthesis.roundReads_of_next {oracle : Oracle Query Memory State}
    {s s' : Synthesis Memory State} {round : Round} {answers : List (State × Views)}
    (hopen : ∀ h ∈ s.live, h.derivation.isComplete = false)
    (hnext : s.next oracle = (some (.ok round), s')) (hreply : s.reply oracle = .ok answers)
    (hdeferred : ∀ a ∈ answers, ∃ rules tokens, a.2 = .deferred rules tokens) :
    RoundReads s answers round s' := by
  obtain ⟨given, children, memory, hgiven, hlength, hchildren, hround, rfl⟩ :=
    exists_extend_of_next_eq_ok hnext
  obtain rfl : given = answers := Except.ok.inj (hgiven.symm.trans hreply)
  refine ⟨?_, ?_, _, children, rereadAll_best hopen given s.placesLeft, hchildren, hround⟩
  · change (s.offers given).2.length = s.live.length
    simp [offers, hlength]
  · intro i h hlive
    have hi : i < given.length := hlength ▸ (List.getElem?_eq_some_iff.mp hlive).1
    obtain ⟨rules, tokens, hviews⟩ := hdeferred given[i] (List.getElem_mem hi)
    have hread := getElem?_offers_snd (hopen h (List.mem_of_getElem? hlive)) hlive
      (List.getElem?_eq_getElem hi)
    refine ⟨_, _, hread, ?_⟩
    rw [hviews]
    exact Views.readOnce_deferred h.derivation rules tokens

/-- An oracle that agrees on what is read brings forth the same search, round by round. And if the
answers in a round defer their views, then the round computes one view of each, that of the tokens
exactly where the text of a leaf is open, and computes it once, though it reads it twice. -/
theorem observed_eq_of_agrees (config : Config) (subtypes : Subtyping)
    (oracle : Oracle Query Memory State) (memory : Memory) (query : Query) :
    (∀ (OtherMemory : Type) (other : Oracle Query OtherMemory State) (otherMemory : OtherMemory),
      oracle.Agrees memory other otherMemory query →
        ∀ n, Synthesis.observed config subtypes oracle memory query n =
          Synthesis.observed config subtypes other otherMemory query n) ∧
    ∀ s memory', Synthesis.start config subtypes oracle memory query = (.ok s, memory') →
      ∀ n round s' answers, (s.take oracle n).2.next oracle = (some (.ok round), s') →
        (s.take oracle n).2.reply oracle = .ok answers →
        (∀ a ∈ answers, ∃ rules tokens, a.2 = .deferred rules tokens) →
        RoundReads (s.take oracle n).2 answers round s' := by
  refine ⟨fun _ _ _ hagree n => hagree.observed_eq config subtypes n, ?_⟩
  intro s memory' hstart n round s' answers hnext hreply hdeferred
  exact Synthesis.roundReads_of_next (Synthesis.open_of_start_take hstart n) hnext hreply hdeferred

/-- An oracle that defers the same views about every hypothesis. -/
def Oracle.deferring (rules : List (Rule × Score)) (tokens : List (Token × Score)) :
    Oracle Unit Unit Unit where
  start _ _ := (.ok (), ())
  answer _ live := (.ok (live.map fun _ => ((), .deferred (fun _ => rules) fun _ => tokens)), ())

/-- An oracle that gives of two views the one that is read. -/
def Oracle.sparing (rules : List (Rule × Score)) (tokens : List (Token × Score)) :
    Oracle Unit Unit Unit where
  start _ _ := (.ok (), ())
  answer _ live := (.ok (live.map fun h =>
    ((), if h.derivation.ReadsTokens then .given [] tokens else .given rules [])), ())

theorem Oracle.agrees_sparing (rules : List (Rule × Score)) (tokens : List (Token × Score)) :
    (deferring rules tokens).Agrees () (sparing rules tokens) () () := by
  refine ⟨rfl, fun asked live => .ok ⟨by simp, ?_⟩⟩
  intro i h a b hh ha hb
  rw [List.getElem?_map, hh] at ha hb
  obtain rfl := Option.some.inj ha
  obtain rfl := Option.some.inj hb
  refine ⟨rfl, ?_, ?_⟩
  · intro htokens
    dsimp only
    rw [if_pos htokens]
    rfl
  · intro hrules
    dsimp only
    rw [if_neg hrules]
    rfl

/-- A node with a text: in the second round the view of the tokens is computed, once. -/
theorem observed_eq_of_agrees_name :
    let name : Rule := .expandTree ⟨⟨"Name", .node⟩, [("text", ⟨"str", .token⟩)]⟩
    let oracle := Oracle.deferring [(name, .zero)] [(.value "x", .zero)]
    let spare := Oracle.sparing [(name, .zero)] [(.value "x", .zero)]
    let config : Config := { encoding := { splitLeaves := false } }
    let second : Round :=
      ⟨[⟨.zero, .node "Name" [.mk "text" "str" (.single (.leaf "str" "x"))]⟩],
        [⟨2, some 1, .zero, .generateToken (.value "x"), true⟩]⟩
    oracle.Agrees () spare () () ∧
    (∀ n, Synthesis.observed config .exact oracle () () n =
      Synthesis.observed config .exact spare () () n) ∧
    ∃ s s' answers, Synthesis.start config .exact oracle () () = (.ok s, ()) ∧
      (s.take oracle 1).2.next oracle = (some (.ok second), s') ∧
      (s.take oracle 1).2.reply oracle = .ok answers ∧
      (∀ a ∈ answers, ∃ rules tokens, a.2 = .deferred rules tokens) ∧
      RoundReads (s.take oracle 1).2 answers second s' := by
  intro name oracle spare config second
  have hagree : oracle.Agrees () spare () () := Oracle.agrees_sparing _ _
  obtain ⟨hobserved, hreads⟩ := observed_eq_of_agrees config .exact oracle () ()
  obtain ⟨s, hstart, hitem⟩ :
      ∃ s, Synthesis.start config .exact oracle () () = (.ok s, ()) ∧
        ((s.take oracle 1).2.next oracle).1 = some (.ok second) := by
    refine ⟨_, rfl, ?_⟩
    decide +kernel
  have hnext : (s.take oracle 1).2.next oracle =
      (some (.ok second), ((s.take oracle 1).2.next oracle).2) := Prod.ext hitem rfl
  have hdeferred : ∀ a ∈ (s.take oracle 1).2.live.map fun _ => ((),
      Views.deferred (fun _ => [(name, .zero)]) fun _ => [(.value "x", .zero)]),
      ∃ rules tokens, a.2 = .deferred rules tokens := by
    intro a ha
    obtain ⟨h, -, rfl⟩ := List.mem_map.mp ha
    exact ⟨_, _, rfl⟩
  exact ⟨hagree, hobserved Unit spare () hagree, s, _, _, hstart, hnext, rfl, hdeferred,
    hreads s () hstart 1 second _ _ hnext rfl hdeferred⟩

end TreeDerivation
