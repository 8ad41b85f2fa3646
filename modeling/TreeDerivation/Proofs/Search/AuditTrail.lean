import Mathlib.Data.List.Nodup
import TreeDerivation.Proofs.Derivation.Run
import TreeDerivation.Proofs.Search.Rounds

/-!
# The reports of a search tell its whole history

Each extension is reported with its number and that of the hypothesis it extends. So the reports of
all rounds are a tree of records, and the actions on the way from the root to a record (`Chain`) are
those of the hypothesis behind it.

`Audited` is what the reports of the rounds so far say about the search after them; a round keeps it
(`Audited.roundStep`), hence every run does. What the theorem says about a single round (where its
records come from, and what its candidates are) follows from the invariant before that round.
-/

namespace TreeDerivation

variable {Query Memory State : Type}

/-! ## Records and their chains -/

/-- The records of all rounds, in the order of their reports. -/
def records (rounds : List Round) : List Progress :=
  rounds.flatMap Round.progress

theorem records_append (rounds : List Round) (round : Round) :
    records (rounds ++ [round]) = records rounds ++ round.progress := by
  simp [records]

/-- The actions on the chain of parents from the root to a record. -/
inductive Chain (records : List Progress) : Nat → List Action → Prop where
  | root : Chain records 0 []
  | step {parent : Nat} {w : List Action} (p : Progress) : p ∈ records →
    p.parent = some parent → Chain records parent w → Chain records p.id (w ++ [p.action])

theorem Chain.mono {earlier later : List Progress} {id : Nat} {w : List Action}
    (h : Chain earlier id w) (hsub : ∀ p ∈ earlier, p ∈ later) : Chain later id w := by
  induction h with
  | root => exact .root
  | step p hp hparent _ ih => exact .step p (hsub p hp) hparent ih

/-- A record has one chain, if the records are told apart by their numbers. -/
theorem Chain.unique {records : List Progress} (hids : (records.map Progress.id).Nodup)
    (hpos : ∀ p ∈ records, p.id ≠ 0) {id : Nat} {w w' : List Action} (h : Chain records id w)
    (h' : Chain records id w') : w = w' := by
  induction h generalizing w' with
  | root =>
    generalize hid : 0 = id at h'
    cases h' with
    | root => rfl
    | step p hp hparent _ => exact absurd hid.symm (hpos p hp)
  | step p hp hparent _ ih =>
    generalize hid : p.id = id at h'
    cases h' with
    | root => exact absurd hid (hpos p hp)
    | step p' hp' hparent' hchain' =>
      obtain rfl : p = p' := List.inj_on_of_nodup_map hids hp hp' hid
      obtain rfl := Option.some.inj (hparent.symm.trans hparent')
      rw [ih hchain']

/-! ## The records of a round -/

/-- The hypotheses that live on are those whose records are open, in the same order. -/
theorem map_live_eq (children : List (Child State)) :
    (children.filterMap Child.live?).map (fun h => (h.id, h.parent, h.score)) =
      ((children.map Child.progress).filter fun p => !p.isComplete).map
        fun p => (p.id, p.parent, p.score) := by
  induction children with
  | nil => rfl
  | cons c children ih =>
    cases htree : c.tree? with
    | none => simpa [Child.live?, Child.progress, htree] using ih
    | some t => simpa [Child.live?, Child.progress, htree] using ih

/-- The candidates of a round belong to its complete records, in the same order. -/
theorem forall₂_candidates {R : Candidate → Progress → Prop} {children : List (Child State)}
    (h : ∀ c ∈ children, ∀ t, c.tree? = some t → R ⟨c.hypothesis.score, t⟩ c.progress) :
    List.Forall₂ R (children.filterMap Child.candidate?)
      ((children.map Child.progress).filter Progress.isComplete) := by
  induction children with
  | nil => exact .nil
  | cons c children ih =>
    have hrest := ih fun c' hc' => h c' (List.mem_cons_of_mem c hc')
    rw [List.map_cons]
    cases htree : c.tree? with
    | none =>
      have hcandidate : c.candidate? = none := by rw [Child.candidate?, htree]; rfl
      have hopen : ¬ c.progress.isComplete = true := by simp [Child.progress, htree]
      rw [List.filterMap_cons_none hcandidate, List.filter_cons_of_neg hopen]
      exact hrest
    | some t =>
      have hcandidate : c.candidate? = some ⟨c.hypothesis.score, t⟩ := by
        rw [Child.candidate?, htree]
        rfl
      have hcomplete : c.progress.isComplete = true := by simp [Child.progress, htree]
      rw [List.filterMap_cons_some hcandidate, List.filter_cons_of_pos hcomplete]
      exact .cons (h c List.mem_cons_self t htree) hrest

/-! ## The invariant of a search -/

/-- What the reports of the rounds so far say about the search after them. -/
structure Audited (config : Config) (subtypes : Subtyping) (rounds : List Round)
    (s : Synthesis Memory State) : Prop where
  config_eq : s.config = config
  subtypes_eq : s.subtypes = subtypes
  nextId_eq : s.nextId = (records rounds).length + 1
  ids_eq : (records rounds).map Progress.id = List.range' 1 (records rounds).length
  live_root : rounds = [] → ∀ h ∈ s.live, h.id = 0
  live_eq : ∀ last, rounds.getLast? = some last →
    s.live.map (fun h => (h.id, h.parent, h.score)) =
      (last.progress.filter fun p => !p.isComplete).map fun p => (p.id, p.parent, p.score)
  live_open : ∀ h ∈ s.live, h.derivation.isComplete = false
  live_chain : ∀ h ∈ s.live, ∃ w, Chain (records rounds) h.id w ∧
    Derivation.replay config.encoding w = .ok h.derivation ∧ w.length = rounds.length

namespace Audited

variable {oracle : Oracle Query Memory State} {config : Config} {subtypes : Subtyping}
  {rounds : List Round} {s s' : Synthesis Memory State} {answers : List (State × Views)}
  {children : List (Child State)}

theorem nodup_ids (ha : Audited config subtypes rounds s) :
    ((records rounds).map Progress.id).Nodup := by
  rw [ha.ids_eq]
  exact List.nodup_range'

theorem id_ne_zero (ha : Audited config subtypes rounds s) {p : Progress}
    (hp : p ∈ records rounds) : p.id ≠ 0 := by
  have hid := List.mem_map_of_mem (f := Progress.id) hp
  rw [ha.ids_eq, List.mem_range'_1] at hid
  omega

/-- A search starts with nothing to report: its one hypothesis is the empty derivation. -/
theorem of_start {memory memory' : Memory} {query : Query}
    (h : Synthesis.start config subtypes oracle memory query = (.ok s, memory')) :
    Audited config subtypes [] s := by
  obtain ⟨hconfig, hsubtypes, hnextId, state, hlive⟩ := Synthesis.exists_of_start_eq_ok h
  exact
    { config_eq := hconfig
      subtypes_eq := hsubtypes
      nextId_eq := hnextId
      ids_eq := rfl
      live_root := by simp [hlive]
      live_eq := by simp
      live_open := by simp [hlive, Derivation.isComplete, Derivation.isEmpty, Derivation.empty]
      live_chain := by
        intro h hh
        rw [hlive] at hh
        obtain rfl := List.mem_singleton.mp hh
        exact ⟨[], .root, rfl, rfl⟩ }

/-- The derivation of an extension is what the chain of its record builds. -/
theorem exists_chain (ha : Audited config subtypes rounds s)
    (hstep : Synthesis.RoundStep oracle s answers children s') {c : Child State}
    (hc : c ∈ children) : ∃ w,
      Chain (records (rounds ++ [Synthesis.report children])) c.progress.id w ∧
        Derivation.replay config.encoding w = .ok c.hypothesis.derivation ∧
        w.length = rounds.length + 1 := by
  obtain ⟨h, hext⟩ := hstep.extends_live c hc
  obtain ⟨w, hchain, hreplay, hlength⟩ := ha.live_chain h hext.mem_live
  have hmem : c.progress ∈ records (rounds ++ [Synthesis.report children]) := by
    rw [records_append]
    exact List.mem_append_right _ (List.mem_map_of_mem hc)
  have hearlier : ∀ p ∈ records rounds, p ∈ records (rounds ++ [Synthesis.report children]) := by
    intro p hp
    rw [records_append]
    exact List.mem_append_left _ hp
  refine ⟨w ++ [c.action], .step c.progress hmem hext.parent_eq (hchain.mono hearlier), ?_, ?_⟩
  · rw [Derivation.replay, Derivation.applyAll_of_applyAll hreplay,
      Derivation.applyAll_of_apply hext.apply_eq, Derivation.applyAll_nil]
  · rw [List.length_append, hlength, List.length_singleton]

/-- A round keeps the invariant. -/
theorem roundStep (ha : Audited config subtypes rounds s)
    (hstep : Synthesis.RoundStep oracle s answers children s') :
    Audited config subtypes (rounds ++ [Synthesis.report children]) s' := by
  have hids : (children.map Child.progress).map Progress.id =
      List.range' ((records rounds).length + 1) children.length := by
    rw [List.map_map, ← ha.nextId_eq, ← hstep.ids_eq]
    rfl
  refine
    { config_eq := hstep.config_eq.trans ha.config_eq
      subtypes_eq := hstep.subtypes_eq.trans ha.subtypes_eq
      nextId_eq := ?nextId
      ids_eq := ?ids
      live_root := by simp
      live_eq := ?live
      live_open := ?isOpen
      live_chain := ?chain }
  case nextId =>
    rw [hstep.nextId_eq, ha.nextId_eq, records_append, List.length_append, Synthesis.report,
      List.length_map]
    omega
  case ids =>
    rw [records_append, List.map_append, ha.ids_eq, Synthesis.report, hids, List.length_append,
      List.length_map, ← List.range'_append_1, Nat.add_comm 1]
  case live =>
    intro last hlast
    rw [List.getLast?_concat] at hlast
    obtain rfl := Option.some.inj hlast
    rw [hstep.live_eq, map_live_eq]
    rfl
  case isOpen =>
    intro h hh
    obtain ⟨c, hc, htree, rfl⟩ := hstep.exists_of_mem_live hh
    obtain ⟨h, hext⟩ := hstep.extends_live c hc
    rw [← hext.isSome_tree, htree]
    rfl
  case chain =>
    intro h hh
    obtain ⟨c, hc, -, rfl⟩ := hstep.exists_of_mem_live hh
    obtain ⟨w, hchain, hreplay, hlength⟩ := ha.exists_chain hstep hc
    exact ⟨w, hchain, hreplay, by rw [hlength, List.length_append, List.length_singleton]⟩

/-- The first rounds of a search leave it as their reports say. -/
theorem take {memory memory' : Memory} {query : Query}
    (hstart : Synthesis.start config subtypes oracle memory query = (.ok s, memory'))
    (hrun : s.take oracle rounds.length = (rounds.map .ok, s')) :
    ∀ q, q ≤ rounds.length → Audited config subtypes (rounds.take q) (s.take oracle q).2 :=
  Synthesis.take_induction hrun (of_start hstart) fun _ _ _ _ ha hstep => ha.roundStep hstep

theorem of_take {memory memory' : Memory} {query : Query}
    (hstart : Synthesis.start config subtypes oracle memory query = (.ok s, memory'))
    (hrun : s.take oracle rounds.length = (rounds.map .ok, s')) :
    Audited config subtypes rounds s' := by
  have hall := take hstart hrun rounds.length (Nat.le_refl _)
  rwa [List.take_length, hrun] at hall

end Audited

/-! ## The audit trail -/

/-- What the reports of all rounds of a search say, given the hypotheses that are live after the
last of them. -/
structure AuditTrail (encoding : Encoding) (rounds : List Round)
    (live : List (Hypothesis State)) : Prop where
  /-- The records are numbered without gaps. -/
  ids_eq : (records rounds).map Progress.id = List.range' 1 (records rounds).length
  /-- The first round extends the root. -/
  first_parent : ∀ first, rounds[0]? = some first → ∀ p ∈ first.progress, p.parent = some 0
  /-- Each further round extends what the round before it left open. -/
  later_parent : ∀ q earlier later, rounds[q]? = some earlier → rounds[q + 1]? = some later →
    ∀ p ∈ later.progress, ∃ m ∈ earlier.progress, m.isComplete = false ∧ p.parent = some m.id
  /-- The live hypotheses are the open records of the last round, in their order. -/
  live_eq : ∀ last, rounds.getLast? = some last →
    live.map (fun h => (h.id, h.parent, h.score)) =
      (last.progress.filter fun p => !p.isComplete).map fun p => (p.id, p.parent, p.score)
  live_open : ∀ h ∈ live, h.derivation.isComplete = false
  chain_unique : ∀ id w w', Chain (records rounds) id w → Chain (records rounds) id w' → w = w'
  /-- The chain of a record builds a derivation, with one action for each round so far, and the
  record says whether that is complete. -/
  record_chain : ∀ q round, rounds[q]? = some round → ∀ p ∈ round.progress,
    ∃ w d, Chain (records rounds) p.id w ∧ Derivation.replay encoding w = .ok d ∧
      d.size = q + 1 ∧ d.isComplete = p.isComplete
  /-- A live hypothesis is what the chain of its record builds, with one action for each round. -/
  live_chain : ∀ h ∈ live, h.derivation.size = rounds.length ∧
    ∃ w, Chain (records rounds) h.id w ∧ Derivation.replay encoding w = .ok h.derivation
  /-- The candidates of a round are the trees that the chains of its complete records build. -/
  candidates : ∀ round ∈ rounds, List.Forall₂ (fun c p => c.score = p.score ∧
      ∃ w d, Chain (records rounds) p.id w ∧ Derivation.replay encoding w = .ok d ∧
        d.tree = .ok c.ast)
    round.candidates (round.progress.filter Progress.isComplete)

/-- What a round, from one state of the search to the next, says about its records: each extends a
live hypothesis by an action that the oracle offered at the position of the hypothesis, scored by
both, and if it stays open it carries the state that the oracle gave there. -/
def Sourced (encoding : Encoding) (subtypes : Subtyping) (oracle : Oracle Query Memory State)
    (s s' : Synthesis Memory State) (round : Round) : Prop :=
  ∃ answers, s.reply oracle = .ok answers ∧ answers.length = s.live.length ∧
    ∀ p ∈ round.progress, ∃ (i : Nat) (h : Hypothesis State) (state : State) (views : Views)
      (lp : Score), s.live[i]? = some h ∧ answers[i]? = some (state, views) ∧
        p.parent = some h.id ∧ p.score = h.score.add lp ∧
        Offered encoding subtypes h.derivation views lp p.action ∧
        ∀ h' ∈ s'.live, h'.id = p.id → h'.state = state

theorem Synthesis.RoundStep.sourced {oracle : Oracle Query Memory State}
    {s s' : Synthesis Memory State} {answers : List (State × Views)}
    {children : List (Child State)} (hstep : RoundStep oracle s answers children s') :
    Sourced s.config.encoding s.subtypes oracle s s' (report children) := by
  refine ⟨answers, hstep.reply_eq, hstep.length_answers, ?_⟩
  intro p hp
  obtain ⟨c, hc, rfl⟩ := List.mem_map.mp hp
  obtain ⟨h, hext⟩ := hstep.extends_live c hc
  obtain ⟨i, views, lp, hlive, hanswer, hscore, hoffered⟩ := hext.answered
  refine ⟨i, h, c.hypothesis.state, views, lp, hlive, hanswer, hext.parent_eq, hscore, hoffered, ?_⟩
  intro h' hh' hid
  obtain ⟨c', hc', -, rfl⟩ := hstep.exists_of_mem_live hh'
  have hnodup : (children.map (·.hypothesis.id)).Nodup := by
    rw [hstep.ids_eq]
    exact List.nodup_range'
  rw [List.inj_on_of_nodup_map hnodup hc' hc hid]

section Trail

variable {oracle : Oracle Query Memory State} {config : Config} {subtypes : Subtyping}
  {memory memory' : Memory} {query : Query} {s s' : Synthesis Memory State} {rounds : List Round}

theorem first_parent_of_take
    (hstart : Synthesis.start config subtypes oracle memory query = (.ok s, memory'))
    (hrun : s.take oracle rounds.length = (rounds.map .ok, s')) {first : Round}
    (hfirst : rounds[0]? = some first) {p : Progress} (hp : p ∈ first.progress) :
    p.parent = some 0 := by
  obtain ⟨answers, children, hstep, rfl⟩ := Synthesis.exists_roundStep_of_take hrun hfirst
  obtain ⟨c, hc, rfl⟩ := List.mem_map.mp hp
  obtain ⟨h, hext⟩ := hstep.extends_live c hc
  have hroot :=
    (Audited.take hstart hrun 0 (Nat.zero_le _)).live_root List.take_zero h hext.mem_live
  exact hext.parent_eq.trans (congrArg some hroot)

theorem later_parent_of_take
    (hstart : Synthesis.start config subtypes oracle memory query = (.ok s, memory'))
    (hrun : s.take oracle rounds.length = (rounds.map .ok, s')) {q : Nat} {earlier later : Round}
    (hearlier : rounds[q]? = some earlier) (hlater : rounds[q + 1]? = some later) {p : Progress}
    (hp : p ∈ later.progress) :
    ∃ m ∈ earlier.progress, m.isComplete = false ∧ p.parent = some m.id := by
  obtain ⟨answers, children, hstep, rfl⟩ := Synthesis.exists_roundStep_of_take hrun hlater
  obtain ⟨c, hc, rfl⟩ := List.mem_map.mp hp
  obtain ⟨h, hext⟩ := hstep.extends_live c hc
  have hlt : q + 1 < rounds.length := (List.getElem?_eq_some_iff.mp hlater).1
  have hlast : (rounds.take (q + 1)).getLast? = some earlier := by
    rw [List.take_add_one, hearlier, Option.toList_some, List.getLast?_concat]
  have hlive := List.mem_map_of_mem (f := fun h => (h.id, h.parent, h.score)) hext.mem_live
  rw [(Audited.take hstart hrun _ (Nat.le_of_lt hlt)).live_eq earlier hlast] at hlive
  obtain ⟨m, hm, hsame⟩ := List.mem_map.mp hlive
  obtain ⟨hm, hopen⟩ := List.mem_filter.mp hm
  refine ⟨m, hm, by simpa using hopen, ?_⟩
  rw [(Prod.mk.inj hsame).1]
  exact hext.parent_eq

/-- The chain of a record, among the records of all rounds, builds the derivation behind it. -/
theorem exists_chain_of_take
    (hstart : Synthesis.start config subtypes oracle memory query = (.ok s, memory'))
    (hrun : s.take oracle rounds.length = (rounds.map .ok, s')) {q : Nat}
    {answers : List (State × Views)} {children : List (Child State)}
    (hround : rounds[q]? = some (Synthesis.report children))
    (hstep : Synthesis.RoundStep oracle (s.take oracle q).2 answers children
      (s.take oracle (q + 1)).2) {c : Child State} (hc : c ∈ children) :
    ∃ w, Chain (records rounds) c.progress.id w ∧
      Derivation.replay config.encoding w = .ok c.hypothesis.derivation ∧
      c.hypothesis.derivation.size = q + 1 := by
  have hlt : q < rounds.length := (List.getElem?_eq_some_iff.mp hround).1
  obtain ⟨w, hchain, hreplay, hlength⟩ :=
    (Audited.take hstart hrun q (Nat.le_of_lt hlt)).exists_chain hstep hc
  refine ⟨w, hchain.mono ?_, hreplay, ?_⟩
  · intro p hp
    have htake : rounds.take q ++ [Synthesis.report children] = rounds.take (q + 1) := by
      rw [List.take_add_one, hround, Option.toList_some]
    rw [htake] at hp
    obtain ⟨earlier, hearlier, hp⟩ := List.mem_flatMap.mp hp
    exact List.mem_flatMap.mpr ⟨earlier, List.mem_of_mem_take hearlier, hp⟩
  · rw [← Derivation.length_actions, Derivation.actions_replay hreplay, hlength,
      List.length_take_of_le (Nat.le_of_lt hlt)]

theorem record_chain_of_take
    (hstart : Synthesis.start config subtypes oracle memory query = (.ok s, memory'))
    (hrun : s.take oracle rounds.length = (rounds.map .ok, s')) {q : Nat} {round : Round}
    (hround : rounds[q]? = some round) {p : Progress} (hp : p ∈ round.progress) :
    ∃ w d, Chain (records rounds) p.id w ∧ Derivation.replay config.encoding w = .ok d ∧
      d.size = q + 1 ∧ d.isComplete = p.isComplete := by
  obtain ⟨answers, children, hstep, rfl⟩ := Synthesis.exists_roundStep_of_take hrun hround
  obtain ⟨c, hc, rfl⟩ := List.mem_map.mp hp
  obtain ⟨h, hext⟩ := hstep.extends_live c hc
  obtain ⟨w, hchain, hreplay, hsize⟩ := exists_chain_of_take hstart hrun hround hstep hc
  exact ⟨w, c.hypothesis.derivation, hchain, hreplay, hsize, hext.isSome_tree.symm⟩

theorem candidates_of_take
    (hstart : Synthesis.start config subtypes oracle memory query = (.ok s, memory'))
    (hrun : s.take oracle rounds.length = (rounds.map .ok, s')) {round : Round}
    (hround : round ∈ rounds) : List.Forall₂ (fun c p => c.score = p.score ∧
      ∃ w d, Chain (records rounds) p.id w ∧ Derivation.replay config.encoding w = .ok d ∧
        d.tree = .ok c.ast)
    round.candidates (round.progress.filter Progress.isComplete) := by
  obtain ⟨q, hq⟩ := List.getElem?_of_mem hround
  obtain ⟨answers, children, hstep, rfl⟩ := Synthesis.exists_roundStep_of_take hrun hq
  refine forall₂_candidates ?_
  intro c hc t ht
  obtain ⟨h, hext⟩ := hstep.extends_live c hc
  obtain ⟨w, hchain, hreplay, -⟩ := exists_chain_of_take hstart hrun hq hstep hc
  exact ⟨rfl, w, c.hypothesis.derivation, hchain, hreplay, hext.tree_eq t ht⟩

/-- The reports of a search up to any round that succeeded tell its whole history: they number the
extensions, link each to the round before, hold the live hypotheses and the candidates, and the
chains of parents replay to the derivations behind them. Each record of a round stems from the
answer at the position of the hypothesis that it extends. -/
theorem audit_trail_of_take
    (hstart : Synthesis.start config subtypes oracle memory query = (.ok s, memory'))
    (hrun : s.take oracle rounds.length = (rounds.map .ok, s')) :
    AuditTrail config.encoding rounds s'.live ∧
      ∀ q round, rounds[q]? = some round →
        Sourced config.encoding subtypes oracle (s.take oracle q).2 (s.take oracle (q + 1)).2
          round := by
  have haudited := Audited.take hstart hrun rounds.length (Nat.le_refl _)
  rw [List.take_length, hrun] at haudited
  refine ⟨?_, ?_⟩
  · exact
      { ids_eq := haudited.ids_eq
        first_parent := fun _ hfirst _ hp => first_parent_of_take hstart hrun hfirst hp
        later_parent := fun _ _ _ hearlier hlater _ hp =>
          later_parent_of_take hstart hrun hearlier hlater hp
        live_eq := haudited.live_eq
        live_open := haudited.live_open
        chain_unique := fun _ _ _ h h' =>
          h.unique haudited.nodup_ids (fun _ hp => haudited.id_ne_zero hp) h'
        record_chain := fun _ _ hround _ hp => record_chain_of_take hstart hrun hround hp
        live_chain := by
          intro h hh
          obtain ⟨w, hchain, hreplay, hlength⟩ := haudited.live_chain h hh
          refine ⟨?_, w, hchain, hreplay⟩
          rw [← Derivation.length_actions, Derivation.actions_replay hreplay, hlength]
        candidates := fun _ hround => candidates_of_take hstart hrun hround }
  · intro q round hq
    obtain ⟨answers, children, hstep, rfl⟩ := Synthesis.exists_roundStep_of_take hrun hq
    have hlt : q < rounds.length := (List.getElem?_eq_some_iff.mp hq).1
    have hbefore := Audited.take hstart hrun q (Nat.le_of_lt hlt)
    have hsourced := hstep.sourced
    rwa [hbefore.config_eq, hbefore.subtypes_eq] at hsourced

end Trail

/-- An oracle without memory that gives the same answer about every hypothesis. -/
def Oracle.constant (rules : List (Rule × Score)) (tokens : List (Token × Score)) :
    Oracle Unit Unit Unit where
  start _ _ := (.ok (), ())
  answer _ live := (.ok (live.map fun _ => ((), .given rules tokens)), ())

/-- The rule of a node without fields. -/
def leafless : Rule :=
  .expandTree ⟨⟨"Leafless", .node⟩, []⟩

/-- Two rounds of a search with two rules, one of which ends a chain and one goes on with it. Going
on scores better, so the offers change places: the second round extends record 1, and what is live
after it has gone on twice. -/
theorem audit_trail_of_take_chain :
    let one : Score := ⟨0x3ff0000000000000⟩
    let two : Score := ⟨0x4000000000000000⟩
    let stop : Rule := .expandTree ⟨⟨"Chain", .node⟩, []⟩
    let link : Rule := .expandTree ⟨⟨"Chain", .node⟩, [("rest", ⟨"Chain", .node⟩)]⟩
    let oracle := Oracle.constant [(stop, .zero), (link, one)] []
    let first : Round := ⟨[⟨.zero, .node "Chain" []⟩],
      [⟨1, some 0, one, .applyRule link, false⟩, ⟨2, some 0, .zero, .applyRule stop, true⟩]⟩
    let second : Round := ⟨[⟨one, .node "Chain"
        [.mk "rest" "Chain" (.single (.node "Chain" []))]⟩],
      [⟨3, some 1, two, .applyRule link, false⟩, ⟨4, some 1, one, .applyRule stop, true⟩]⟩
    let rounds := [first, second]
    ∃ s s', Synthesis.start { beamSize := 4 } .exact oracle () () = (.ok s, ()) ∧
      s.take oracle rounds.length = (rounds.map .ok, s') ∧
      s'.live.map (fun h => (h.id, h.parent, h.score, h.derivation.actions)) =
        [(3, some 1, two, [.applyRule link, .applyRule link])] ∧
      AuditTrail {} rounds s'.live ∧
      ∀ q round, rounds[q]? = some round →
        Sourced {} .exact oracle (s.take oracle q).2 (s.take oracle (q + 1)).2 round := by
  intro one two stop link oracle first second rounds
  obtain ⟨s, s', hstart, hrun, hlive⟩ :
      ∃ s s', Synthesis.start { beamSize := 4 } .exact oracle () () = (.ok s, ()) ∧
        s.take oracle rounds.length = (rounds.map .ok, s') ∧
        s'.live.map (fun h => (h.id, h.parent, h.score, h.derivation.actions)) =
          [(3, some 1, two, [.applyRule link, .applyRule link])] := by
    refine ⟨_, _, rfl, Prod.ext ?_ rfl, ?_⟩
    · dsimp only
      decide +kernel
    · decide +kernel
  exact ⟨s, s', hstart, hrun, hlive, audit_trail_of_take hstart hrun⟩

end TreeDerivation
