import TreeDerivation.Search.Admissible
import TreeDerivation.Search.Basic
import TreeDerivation.Search.Config
import TreeDerivation.Search.TopK

/-!
# Beam search over actions

A synthesis is a running search. Each round asks the oracle about all live hypotheses, offers every
admissible next action with its cumulative score to a selector with as many places as the beam has
left, and extends the hypotheses by the selected actions. Complete derivations become candidates and
give up their place for good, the others are the live hypotheses of the next round.

A search ends when the beam is full, nothing is live, the rounds are used up, or a round failed.
-/

namespace TreeDerivation

/-- A next action for a hypothesis, with the state of the hypothesis that it would lead to. -/
structure Offer (State : Type) where
  parent : Hypothesis State
  state : State
  action : Action

/-- The offers for one hypothesis, and the answer after the view it needs was read: tokens where
the text of a leaf is open, rules everywhere else. -/
def offersFor {State : Type} (encoding : Encoding) (subtypes : Subtyping) (h : Hypothesis State)
    (answer : State × Views) : List (Score × Offer State) × (State × Views) :=
  let (state, views) := answer
  let head := h.derivation.headType?
  if h.derivation.isComplete then ([], answer)
  else if head.map NodeType.constraint = some .token then
    (views.tokens.items.map fun (token, p) => (h.score.add p, ⟨h, state, .generateToken token⟩),
      (state, views.readTokens))
  else
    ((views.rules.items.filter fun entry => isAdmissible encoding subtypes head entry.1).map
      fun (rule, p) => (h.score.add p, ⟨h, state, .applyRule rule⟩),
      (state, views.readRules))

/-- A hypothesis extended by one action; its tree if it is complete. -/
structure Child (State : Type) where
  hypothesis : Hypothesis State
  action : Action
  tree? : Option Ast

namespace Child

variable {State : Type}

/-- Extends a hypothesis by the action of an offer. -/
def ofOffer (id : Nat) (score : Score) (offer : Offer State) : Except Failure (Child State) := do
  let derivation ← offer.parent.derivation.apply offer.action
  let tree? ← if derivation.isComplete then derivation.tree.map some else pure none
  return ⟨⟨id, some offer.parent.id, score, derivation, offer.state⟩, offer.action, tree?⟩

/-- The report of the extension. -/
def progress (c : Child State) : Progress :=
  ⟨c.hypothesis.id, c.hypothesis.parent, c.hypothesis.score, c.action, c.tree?.isSome⟩

/-- The candidate, if the derivation is complete. -/
def candidate? (c : Child State) : Option Candidate :=
  c.tree?.map fun ast => ⟨c.hypothesis.score, ast⟩

/-- The hypothesis for the next round, if the derivation is not complete. -/
def live? (c : Child State) : Option (Hypothesis State) :=
  if c.tree?.isNone then some c.hypothesis else none

end Child

/-- A running search. -/
structure Synthesis (Memory State : Type) where
  config : Config
  subtypes : Subtyping
  memory : Memory
  /-- The hypotheses that the next round extends. -/
  live : List (Hypothesis State)
  /-- How many candidates were found. -/
  found : Nat
  nextId : Nat
  /-- How many times the oracle was asked. -/
  steps : Nat
  finished : Bool
  /-- What the oracle answered in the last round, as far as it was read. -/
  answers : List (State × Views)

namespace Synthesis

variable {Query Memory State : Type}

/-- Starts a search with one hypothesis, the empty derivation. -/
def start (config : Config) (subtypes : Subtyping) (oracle : Oracle Query Memory State)
    (memory : Memory) (query : Query) : Except Failure (Synthesis Memory State) × Memory :=
  match oracle.start memory query with
  | (.error f, memory) => (.error f, memory)
  | (.ok state, memory) =>
    (.ok {
      config, subtypes, memory
      live := [⟨0, none, .zero, .empty config.encoding, state⟩]
      found := 0
      nextId := 1
      steps := 0
      finished := false
      answers := [] }, memory)

/-- Whether there is another round. -/
def goesOn (s : Synthesis Memory State) : Bool :=
  !s.finished && s.found < s.config.beamSize && !s.live.isEmpty &&
    !s.config.maxSteps.any (· ≤ s.steps)

/-- How many places the beam has left. -/
def placesLeft (s : Synthesis Memory State) : Nat :=
  s.config.beamSize - s.found

/-- The search after its end. -/
def finish (s : Synthesis Memory State) : Synthesis Memory State :=
  { s with finished := true }

/-- All offers for the live hypotheses, and the answers as far as they were read. -/
def offers (s : Synthesis Memory State) (answers : List (State × Views)) :
    List (Score × Offer State) × List (State × Views) :=
  let read := (s.live.zip answers).map fun (h, answer) =>
    offersFor s.config.encoding s.subtypes h answer
  ((read.map Prod.fst).flatten, read.map Prod.snd)

/-- Extends hypotheses by the selected offers, numbering the extensions in order. -/
def extend (s : Synthesis Memory State) (selected : List (Score × Offer State)) :
    Except Failure (List (Child State)) :=
  (selected.zipIdx s.nextId).mapM fun ((score, offer), id) => Child.ofOffer id score offer

/-- The search after a round that brought forth the given extensions. -/
def settleRound (s : Synthesis Memory State) (children : List (Child State)) :
    Synthesis Memory State :=
  { s with
    live := children.filterMap Child.live?
    found := s.found + (children.filterMap Child.candidate?).length
    nextId := s.nextId + children.length }

/-- What a round reports. -/
def report (children : List (Child State)) : Round :=
  ⟨children.filterMap Child.candidate?, children.map Child.progress⟩

/-- The rest of a round, after the oracle has answered. -/
def advance (s : Synthesis Memory State) (answers : List (State × Views)) :
    Except Failure Round × Synthesis Memory State :=
  if answers.length ≠ s.live.length then
    (.error (Failure.of (.answerCount answers.length s.live.length)), s.finish)
  else
    let (offers, answers) := s.offers answers
    let s := { s with answers }
    match s.extend (TopK.best s.placesLeft offers) with
    | .ok children => (.ok (report children), s.settleRound children)
    | .error f => (.error f, s.finish)

/-- The next round, if there is one. A round that fails is the last. -/
def next (oracle : Oracle Query Memory State) (s : Synthesis Memory State) :
    Option (Except Failure Round) × Synthesis Memory State :=
  if s.goesOn then
    let s := { s with steps := s.steps + 1, answers := [] }
    match oracle.answer s.memory s.live with
    | (.ok answers, memory) =>
      let (round, s) := advance { s with memory } answers
      (some round, s)
    | (.error f, memory) => (some (.error f), { s with memory, finished := true })
  else
    (none, s.finish)

/-- The first rounds of a search, at most `n`, and the search after them. -/
def take (oracle : Oracle Query Memory State) (s : Synthesis Memory State) :
    Nat → List (Except Failure Round) × Synthesis Memory State
  | 0 => ([], s)
  | n + 1 =>
    match s.next oracle with
    | (some round, s) =>
      let (rounds, s) := take oracle s n
      (round :: rounds, s)
    | (none, s) => ([], s)

end Synthesis

end TreeDerivation
