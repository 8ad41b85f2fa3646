import TreeDerivation.Proofs.Search.Beam
import TreeDerivation.Proofs.Search.Lockstep

/-!
# How a search ends

A search may be called on after its end. `after` is the search after any number of calls and `item?`
what one of them yields, while `take` stops where the items stop. To say when the oracle is asked,
its memory is given a log of what it is asked about (`Oracle.logged`); the log changes no item.

A call asks the oracle exactly if it yields an item, and a search that does not go on never goes on
again. So a failure, a full beam and a round that leaves nothing live each end the search at once
(`Ends`).

The bound on the number of rounds is looked at nowhere but in the decision to go on. So a bounded
search yields what the unbounded one yields, as far as the bound reaches (`SameUpTo.take`).
-/

namespace TreeDerivation

variable {Query Memory State : Type}

/-- The oracle with a log: its memory also lists what it was asked about, in order. -/
def Oracle.logged (oracle : Oracle Query Memory State) :
    Oracle Query (Memory × List (List (Hypothesis State))) State where
  start memory query :=
    let (reply, changed) := oracle.start memory.1 query
    (reply, changed, memory.2)
  answer memory live :=
    let (reply, changed) := oracle.answer memory.1 live
    (reply, changed, memory.2 ++ [live])

namespace Synthesis

/-! ## Calls and questions -/

/-- The search after `n` calls, also beyond its end. -/
def after (oracle : Oracle Query Memory State) (s : Synthesis Memory State) :
    Nat → Synthesis Memory State
  | 0 => s
  | n + 1 => ((s.after oracle n).next oracle).2

/-- What the call after `n` others yields. -/
def item? (oracle : Oracle Query Memory State) (s : Synthesis Memory State) (n : Nat) :
    Option (Except Failure Round) :=
  ((s.after oracle n).next oracle).1

/-- The search with a log in its memory. -/
def withLog (s : Synthesis Memory State) (log : List (List (Hypothesis State))) :
    Synthesis (Memory × List (List (Hypothesis State))) State :=
  { s with memory := (s.memory, log) }

/-- What the oracle is asked about in the first `n` calls. -/
def questions (oracle : Oracle Query Memory State) (s : Synthesis Memory State) (n : Nat) :
    List (List (Hypothesis State)) :=
  ((s.withLog []).after oracle.logged n).memory.2

/-- Whether the search is over after `n` calls: no call yields anything or asks the oracle. -/
def IsOver (oracle : Oracle Query Memory State) (s : Synthesis Memory State) (n : Nat) : Prop :=
  ∀ m, n ≤ m → s.item? oracle m = none ∧ s.questions oracle (m + 1) = s.questions oracle n

variable {oracle : Oracle Query Memory State} {s : Synthesis Memory State}

theorem take_snd_eq_after (oracle : Oracle Query Memory State) (s : Synthesis Memory State)
    (n : Nat) : (s.take oracle n).2 = s.after oracle n := by
  induction n with
  | zero => rfl
  | succ n ih => rw [take_succ_eq, after, ih]

/-- The log changes nothing but itself. -/
theorem take_withLog (oracle : Oracle Query Memory State) (s : Synthesis Memory State) (n : Nat) :
    (s.take oracle n).1 = ((s.withLog []).take oracle.logged n).1 ∧
      (s.take oracle n).2.Together ((s.withLog []).take oracle.logged n).2 ∧
      (s.take oracle n).2.memory = ((s.withLog []).take oracle.logged n).2.memory.1 := by
  have hstart : s.Together (s.withLog []) := ⟨⟨rfl, rfl, rfl, rfl, rfl, rfl, rfl⟩, rfl, rfl⟩
  refine hstart.take oracle oracle.logged (fun m₁ m₂ => m₁ = m₂.1) ?_ rfl n
  rintro m₁ m₂ live rfl
  exact ⟨RepliesAgree.refl live _, rfl⟩

theorem item?_withLog (oracle : Oracle Query Memory State) (s : Synthesis Memory State) (n : Nat) :
    (s.withLog []).item? oracle.logged n = s.item? oracle n := by
  obtain ⟨-, htogether, hmemory⟩ := take_withLog oracle s n
  rw [take_snd_eq_after, take_snd_eq_after] at htogether hmemory
  refine (htogether.next oracle oracle.logged fun _ => ?_).1.symm
  rw [reply, hmemory, htogether.live_eq]
  exact RepliesAgree.refl _ _

/-- The oracle is asked once for each item. -/
theorem length_questions (oracle : Oracle Query Memory State) (s : Synthesis Memory State)
    (n : Nat) : (s.questions oracle n).length = (s.take oracle n).1.length := by
  rw [questions, ← take_snd_eq_after, (take_withLog oracle s n).1]
  refine items_take_induction oracle.logged (s.withLog [])
    (motive := fun items t => t.memory.2.length = items.length) rfl ?_ n
  intro items t item t' ht hnext
  have hmemory := (frame_next oracle.logged t).1
  have hasked := isSome_next oracle.logged t
  rw [hnext] at hmemory hasked
  dsimp only at hmemory hasked
  rw [hmemory, ← hasked, List.length_append, ← ht]
  cases item with
  | none => rfl
  | some item => exact List.length_append

/-! ## The end -/

theorem steps_lt_of_goesOn {N : Nat} (hN : s.config.maxSteps = some N) (h : s.goesOn = true) :
    s.steps < N := by
  simp only [goesOn, hN, Option.any_some, Bool.and_eq_true, Bool.not_eq_true',
    decide_eq_false_iff_not, Nat.not_le] at h
  exact h.2

theorem goesOn_of_full (h : s.config.beamSize ≤ s.found) : s.goesOn = false := by
  simp [goesOn, Nat.not_lt.mpr h]

theorem goesOn_of_nothing_live (h : s.live = []) : s.goesOn = false := by
  simp [goesOn, h]

theorem after_of_not_goesOn {n : Nat} (h : (s.after oracle n).goesOn = false) :
    ∀ m, n ≤ m → (s.after oracle m).goesOn = false := by
  intro m hm
  induction hm with
  | refl => exact h
  | step _ ih =>
    rw [after, next_of_not_goesOn ih]
    rfl

theorem questions_succ_of_not_goesOn {n : Nat} (h : (s.after oracle n).goesOn = false) :
    s.questions oracle (n + 1) = s.questions oracle n := by
  have hlogged := (take_withLog oracle s n).2.1.goesOn_eq
  rw [take_snd_eq_after, take_snd_eq_after, h] at hlogged
  rw [questions, after, next_of_not_goesOn hlogged.symm]
  rfl

/-- A search that does not go on is over. -/
theorem isOver_of_not_goesOn {n : Nat} (h : (s.after oracle n).goesOn = false) :
    s.IsOver oracle n := by
  intro m hm
  have hstopped := after_of_not_goesOn h
  refine ⟨?_, ?_⟩
  · rw [item?, next_of_not_goesOn (hstopped m hm)]
  · induction hm with
    | refl => exact questions_succ_of_not_goesOn h
    | step hm ih => rw [questions_succ_of_not_goesOn (hstopped _ (Nat.le_succ_of_le hm)), ih]

theorem isOver_of_item?_eq_error {n : Nat} {f : Failure}
    (h : s.item? oracle n = some (.error f)) : s.IsOver oracle (n + 1) := by
  have hnext : (s.after oracle n).next oracle = (some (.error f), s.after oracle (n + 1)) :=
    Prod.ext h rfl
  refine isOver_of_not_goesOn ?_
  simp [goesOn, finished_of_next_eq_error hnext]

theorem isOver_of_item?_eq_none {n : Nat} (h : s.item? oracle n = none) : s.IsOver oracle n := by
  have hitem : ((s.after oracle n).next oracle).1 = none := h
  refine isOver_of_not_goesOn ?_
  rw [← isSome_next oracle, hitem]
  rfl

/-- A search whose candidates fill the beam is over. -/
theorem isOver_of_full {config : Config} {subtypes : Subtyping} {memory memory' : Memory}
    {query : Query} (hstart : start config subtypes oracle memory query = (.ok s, memory'))
    {n : Nat} (h : config.beamSize ≤ (candidatesOf (s.take oracle n).1).length) : s.IsOver oracle n := by
  have hcounted : Counted config (s.take oracle n).1 (s.take oracle n).2 :=
    items_take_induction oracle s (.of_start hstart) (fun _ _ _ _ hs hnext => hs.next hnext) n
  refine isOver_of_not_goesOn (goesOn_of_full ?_)
  rw [← take_snd_eq_after, hcounted.config_eq, hcounted.found_eq]
  exact h

/-! ## A bound on the number of rounds -/

/-- A run counts its items as steps, and a bound on the steps holds. -/
theorem steps_take (oracle : Oracle Query Memory State) (h : s.steps = 0) (n : Nat) :
    (s.take oracle n).2.steps = (s.take oracle n).1.length ∧
      ∀ N, s.config.maxSteps = some N → (s.take oracle n).1.length ≤ N := by
  have hcount := items_take_induction oracle s
    (motive := fun items t => t.config = s.config ∧ t.steps = items.length ∧
      ∀ N, s.config.maxSteps = some N → items.length ≤ N)
    ⟨rfl, h, fun N _ => Nat.zero_le N⟩ (by
      rintro items t item t' ⟨hconfig, hsteps, hbound⟩ hnext
      obtain ⟨-, hsteps', hconfig'⟩ := frame_next oracle t
      rw [hnext] at hsteps' hconfig'
      refine ⟨hconfig'.trans hconfig, ?_, ?_⟩
      · rw [hsteps', hsteps, List.length_append]
      · intro N hN
        cases item with
        | none => simpa using hbound N hN
        | some item =>
          have hlt := steps_lt_of_goesOn (hconfig ▸ hN) (goesOn_of_next_eq_some hnext)
          rw [List.length_append, ← hsteps]
          exact hlt) n
  exact hcount.2

/-- A search without a bound and one that is at the same point but may make `N` steps. -/
structure SameUpTo (N : Nat) (free bounded : Synthesis Memory State) : Prop
    extends free.InStep bounded where
  memory_eq : free.memory = bounded.memory
  steps_eq : free.steps = bounded.steps
  maxSteps_free : free.config.maxSteps = none
  maxSteps_bounded : bounded.config.maxSteps = some N

namespace SameUpTo

variable {N : Nat} {free bounded : Synthesis Memory State}

theorem goesOn_eq (h : SameUpTo N free bounded) (hsteps : free.steps < N) :
    free.goesOn = bounded.goesOn := by
  have hbound : bounded.steps < N := h.steps_eq ▸ hsteps
  rw [goesOn, goesOn, h.finished_eq, h.found_eq, h.beamSize_eq, h.live_eq, h.maxSteps_free,
    h.maxSteps_bounded]
  simp [hbound]

/-- Before the bound is reached, a call yields the same item from both and keeps them together. -/
theorem next (h : SameUpTo N free bounded) (hsteps : free.steps < N)
    (oracle : Oracle Query Memory State) :
    (free.next oracle).1 = (bounded.next oracle).1 ∧
      SameUpTo N (free.next oracle).2 (bounded.next oracle).2 := by
  have hgoes := h.goesOn_eq hsteps
  have hreplies : RepliesAgree free.live (free.reply oracle) (bounded.reply oracle) := by
    rw [reply, reply, h.memory_eq, h.live_eq]
    exact RepliesAgree.refl _ _
  obtain ⟨hitem, hstep⟩ := h.toInStep.next oracle oracle hgoes fun _ => hreplies
  obtain ⟨hmemory₁, hsteps₁, hconfig₁⟩ := frame_next oracle free
  obtain ⟨hmemory₂, hsteps₂, hconfig₂⟩ := frame_next oracle bounded
  refine ⟨hitem, { hstep with
    memory_eq := ?memory
    steps_eq := ?steps
    maxSteps_free := hconfig₁ ▸ h.maxSteps_free
    maxSteps_bounded := hconfig₂ ▸ h.maxSteps_bounded }⟩
  case memory => rw [hmemory₁, hmemory₂, hgoes, h.memory_eq, h.live_eq]
  case steps => rw [hsteps₁, hsteps₂, hitem, h.steps_eq]

/-- The bound cuts the items off when so many steps were made. -/
theorem take (h : SameUpTo N free bounded) (oracle : Oracle Query Memory State) (n : Nat) :
    (bounded.take oracle n).1 = (free.take oracle n).1.take (N - free.steps) := by
  induction n generalizing free bounded with
  | zero => rw [Synthesis.take, Synthesis.take, List.take_nil]
  | succ n ih =>
    by_cases hsteps : free.steps < N
    · obtain ⟨hitem, hnext⟩ := h.next hsteps oracle
      have hcounted := (frame_next oracle free).2.1
      have hrest := ih hnext
      rcases hfree : free.next oracle with ⟨item, free'⟩
      rcases hbounded : bounded.next oracle with ⟨item', bounded'⟩
      rw [hfree, hbounded] at hitem hrest
      rw [hfree] at hcounted
      obtain rfl : item = item' := hitem
      cases item with
      | none =>
        rw [take_succ_of_next_eq_none hfree, take_succ_of_next_eq_none hbounded, List.take_nil]
      | some item =>
        have hleft : N - free.steps = (N - free'.steps) + 1 := by
          rw [show free'.steps = free.steps + 1 from hcounted]
          omega
        rw [take_succ_of_next hfree, take_succ_of_next hbounded, hleft, List.take_succ_cons]
        exact congrArg (item :: ·) hrest
    · have hover : bounded.goesOn = false := by
        refine Bool.eq_false_iff.mpr fun hgoes => hsteps ?_
        rw [h.steps_eq]
        exact steps_lt_of_goesOn h.maxSteps_bounded hgoes
      have hleft : N - free.steps = 0 := Nat.sub_eq_zero_of_le (Nat.le_of_not_lt hsteps)
      rw [take_succ_of_next_eq_none (next_of_not_goesOn hover oracle), hleft, List.take_zero]

end SameUpTo

/-- The start of a search does not look at the bound. -/
theorem start_of_maxSteps {config : Config} {subtypes : Subtyping} {memory memory' : Memory}
    {query : Query} (h : start config subtypes oracle memory query = (.ok s, memory'))
    (bound : Option Nat) :
    start { config with maxSteps := bound } subtypes oracle memory query =
      (.ok { s with config := { config with maxSteps := bound } }, memory') := by
  rw [start] at h ⊢
  split at h
  next => exact absurd h (by simp)
  next state changed _ =>
    obtain ⟨hs, rfl⟩ := Prod.mk.inj h
    obtain rfl := Except.ok.inj hs
    rfl

/-- Started without a bound or with one, a search yields the same items up to the bound. -/
theorem exists_take_eq_take {config : Config} {subtypes : Subtyping} {memory memory' : Memory}
    {query : Query} (hstart : start config subtypes oracle memory query = (.ok s, memory'))
    (N : Nat) : ∃ free bounded,
      start { config with maxSteps := none } subtypes oracle memory query = (.ok free, memory') ∧
      start { config with maxSteps := some N } subtypes oracle memory query =
        (.ok bounded, memory') ∧
      ∀ n, (bounded.take oracle n).1 = (free.take oracle n).1.take N := by
  have hleft : N - s.steps = N := by
    obtain ⟨state, rfl⟩ := exists_eq_of_start_eq_ok hstart
    exact Nat.sub_zero N
  have hsame : SameUpTo N { s with config := { config with maxSteps := none } }
      { s with config := { config with maxSteps := some N } } :=
    ⟨⟨rfl, rfl, rfl, rfl, rfl, rfl, rfl⟩, rfl, rfl, rfl, rfl⟩
  refine ⟨_, _, start_of_maxSteps hstart none, start_of_maxSteps hstart (some N), ?_⟩
  intro n
  exact (hsame.take oracle n).trans (congrArg (List.take · _) hleft)

end Synthesis

/-! ## Every search ends as it should -/

/-- How a search ends, told by what its calls yield and by what its oracle is asked about. -/
structure Ends (oracle : Oracle Query Memory State) (s : Synthesis Memory State) : Prop where
  /-- A log in the memory of the oracle does not change what is yielded. -/
  logged : ∀ n, (s.withLog []).item? oracle.logged n = s.item? oracle n
  /-- The oracle is asked once for each item. -/
  length_questions : ∀ n, (s.questions oracle n).length = (s.take oracle n).1.length
  steps_eq : ∀ n, (s.after oracle n).steps = (s.questions oracle n).length
  length_questions_le : ∀ N, s.config.maxSteps = some N → ∀ n, (s.questions oracle n).length ≤ N
  /-- A failure is the last item. -/
  over_of_error : ∀ n f, s.item? oracle n = some (.error f) → s.IsOver oracle (n + 1)
  /-- After a call that yields nothing, and in this call, the oracle is not asked. -/
  over_of_none : ∀ n, s.item? oracle n = none → s.IsOver oracle n
  over_of_full : ∀ n, s.config.beamSize ≤ (candidatesOf (s.take oracle n).1).length →
    s.IsOver oracle n
  over_of_nothing_live : ∀ n, (s.after oracle n).live = [] → s.IsOver oracle n

/-- A search ends at once with a failure, a full beam or nothing live, asks its oracle once for each
item and never after its end, and a bound on its rounds cuts its items off after so many. -/
theorem ends_of_start {oracle : Oracle Query Memory State} {config : Config}
    {subtypes : Subtyping} {memory memory' : Memory} {query : Query} {s : Synthesis Memory State}
    (hstart : Synthesis.start config subtypes oracle memory query = (.ok s, memory')) :
    Ends oracle s ∧ ∀ N, ∃ free bounded,
      Synthesis.start { config with maxSteps := none } subtypes oracle memory query =
        (.ok free, memory') ∧
      Synthesis.start { config with maxSteps := some N } subtypes oracle memory query =
        (.ok bounded, memory') ∧
      ∀ n, (bounded.take oracle n).1 = (free.take oracle n).1.take N := by
  obtain ⟨state, hs⟩ := Synthesis.exists_eq_of_start_eq_ok hstart
  have hconfig : s.config = config := by rw [hs]
  have hsteps := Synthesis.steps_take (s := s) oracle (by rw [hs])
  refine ⟨?_, Synthesis.exists_take_eq_take hstart⟩
  refine
    { logged := Synthesis.item?_withLog oracle s
      length_questions := Synthesis.length_questions oracle s
      steps_eq := ?steps
      length_questions_le := ?bound
      over_of_error := fun _ _ => Synthesis.isOver_of_item?_eq_error
      over_of_none := fun _ => Synthesis.isOver_of_item?_eq_none
      over_of_full := fun _ hfull => Synthesis.isOver_of_full hstart (hconfig ▸ hfull)
      over_of_nothing_live := fun _ hlive =>
        Synthesis.isOver_of_not_goesOn (Synthesis.goesOn_of_nothing_live hlive) }
  case steps =>
    intro n
    rw [Synthesis.length_questions, ← Synthesis.take_snd_eq_after]
    exact (hsteps n).1
  case bound =>
    intro N hN n
    rw [Synthesis.length_questions]
    exact (hsteps n).2 N hN

/-- An oracle that gives as many answers as its memory says, one less each time. -/
def Oracle.waning (rules : List (Rule × Score)) : Oracle Unit Nat Unit where
  start left _ := (.ok (), left)
  answer left _ := (.ok (List.replicate left ((), .given rules [])), left - 1)

/-- The second answer comes short, so the second item is the failure and the search is over. -/
theorem ends_of_start_waning :
    let wrapper : Rule := .expandTree ⟨⟨"Wrapper", .node⟩, [("inner", ⟨"Leafless", .node⟩)]⟩
    let oracle := Oracle.waning [(wrapper, .zero)]
    ∃ s, Synthesis.start {} .exact oracle 1 () = (.ok s, 1) ∧
      s.item? oracle 1 = some (.error (Failure.of (.answerCount 0 1))) ∧
      s.IsOver oracle 2 ∧ (s.questions oracle 5).length = 2 ∧
      ∃ bounded, Synthesis.start { maxSteps := some 1 } .exact oracle 1 () = (.ok bounded, 1) ∧
        (bounded.take oracle 5).1.length = 1 := by
  intro wrapper oracle
  obtain ⟨s, hstart, hfailed, hitems⟩ :
      ∃ s, Synthesis.start {} .exact oracle 1 () = (.ok s, 1) ∧
        s.item? oracle 1 = some (.error (Failure.of (.answerCount 0 1))) ∧
        (s.take oracle 5).1.length = 2 := by
    refine ⟨_, rfl, ?_, ?_⟩
    · decide +kernel
    · decide +kernel
  obtain ⟨hends, hcut⟩ := ends_of_start hstart
  obtain ⟨free, bounded, hfree, hbounded, htake⟩ := hcut 1
  obtain rfl : free = s := by
    rw [hstart] at hfree
    exact (Except.ok.inj (Prod.mk.inj hfree).1).symm
  refine ⟨free, hstart, hfailed, hends.over_of_error 1 _ hfailed, ?_, bounded, hbounded, ?_⟩
  · rw [hends.length_questions, hitems]
  · rw [htake, List.length_take, hitems]
    rfl

end TreeDerivation
