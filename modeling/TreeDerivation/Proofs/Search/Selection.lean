import TreeDerivation.Proofs.Search.TopK
import TreeDerivation.Search.Synthesis

/-!
# What a search may select

A selector keeps nothing but what it was offered (`TopK.mem_of_mem_best`). What a search offers for
a hypothesis is `Offered`: a token of the answer where the text of a leaf is open, an admissible
rule of the answer everywhere else, each scored by the hypothesis and its log-probability.

So whatever a round selects belongs to one position: a live hypothesis and the answer that the
oracle gave for it (`Synthesis.exists_of_mem_best`). Conversely, whatever may extend a live
hypothesis is among the offers (`Synthesis.mem_offers`).
-/

namespace TreeDerivation

/-! ## Offers -/

/-- Whether an action may extend a derivation, going by the views that the oracle answered, and the
log-probability that the answer gives it. -/
def Offered (encoding : Encoding) (subtypes : Subtyping) (d : Derivation) (views : Views)
    (p : Score) : Action → Prop
  | .applyRule r => d.headType?.map NodeType.constraint ≠ some .token ∧
      isAdmissible encoding subtypes d.headType? r = true ∧ (r, p) ∈ views.rules.items
  | .generateToken t => d.headType?.map NodeType.constraint = some .token ∧
      (t, p) ∈ views.tokens.items

variable {Memory State : Type}

theorem exists_of_mem_offersFor {encoding : Encoding} {subtypes : Subtyping}
    {h : Hypothesis State} {answer : State × Views} {score : Score} {offer : Offer State}
    (hmem : (score, offer) ∈ (offersFor encoding subtypes h answer).1) :
    offer.parent = h ∧ offer.state = answer.1 ∧ h.derivation.isComplete = false ∧
      ∃ p, score = h.score.add p ∧
        Offered encoding subtypes h.derivation answer.2 p offer.action := by
  obtain ⟨state, views⟩ := answer
  simp only [offersFor] at hmem
  split at hmem
  next => exact absurd hmem (by simp)
  next hopen =>
    have hopen := Bool.eq_false_iff.mpr hopen
    split at hmem
    next htoken =>
      obtain ⟨⟨t, p⟩, ht, heq⟩ := List.mem_map.mp hmem
      obtain ⟨rfl, rfl⟩ := Prod.mk.inj heq
      exact ⟨rfl, rfl, hopen, p, rfl, htoken, ht⟩
    next hrule =>
      obtain ⟨⟨r, p⟩, hr, heq⟩ := List.mem_map.mp hmem
      obtain ⟨rfl, rfl⟩ := Prod.mk.inj heq
      obtain ⟨hr, hadmissible⟩ := List.mem_filter.mp hr
      exact ⟨rfl, rfl, hopen, p, rfl, hrule, hadmissible, hr⟩

/-- Whatever may extend a derivation is offered for it. -/
theorem mem_offersFor {encoding : Encoding} {subtypes : Subtyping} {h : Hypothesis State}
    {state : State} {views : Views} {p : Score} {a : Action}
    (hopen : h.derivation.isComplete = false)
    (hoffered : Offered encoding subtypes h.derivation views p a) :
    (h.score.add p, ⟨h, state, a⟩) ∈ (offersFor encoding subtypes h (state, views)).1 := by
  simp only [offersFor, hopen, Bool.false_eq_true, if_false]
  cases a with
  | applyRule r =>
    obtain ⟨hrule, hadmissible, hr⟩ := hoffered
    rw [if_neg hrule]
    exact List.mem_map.mpr ⟨(r, p), List.mem_filter.mpr ⟨hr, hadmissible⟩, rfl⟩
  | generateToken t =>
    obtain ⟨htoken, ht⟩ := hoffered
    rw [if_pos htoken]
    exact List.mem_map.mpr ⟨(t, p), ht, rfl⟩

namespace Synthesis

theorem mem_offers {s : Synthesis Memory State} {answers : List (State × Views)} {i : Nat}
    {h : Hypothesis State} {state : State} {views : Views} {p : Score} {a : Action}
    (hlive : s.live[i]? = some h) (hanswer : answers[i]? = some (state, views))
    (hopen : h.derivation.isComplete = false)
    (hoffered : Offered s.config.encoding s.subtypes h.derivation views p a) :
    (h.score.add p, ⟨h, state, a⟩) ∈ (s.offers answers).1 := by
  have hzip : (h, state, views) ∈ s.live.zip answers :=
    List.mem_of_getElem? (List.getElem?_zip_eq_some.mpr ⟨hlive, hanswer⟩)
  simp only [offers, List.map_map, List.mem_flatten, List.mem_map]
  exact ⟨_, ⟨(h, state, views), hzip, rfl⟩, mem_offersFor hopen hoffered⟩

/-- Every selected offer extends a live hypothesis by an action from the answer at its position. -/
theorem exists_of_mem_best {s : Synthesis Memory State} {answers : List (State × Views)}
    {capacity : Nat} {score : Score} {offer : Offer State}
    (hmem : (score, offer) ∈ TopK.best capacity (s.offers answers).1) :
    ∃ (i : Nat) (views : Views) (p : Score), s.live[i]? = some offer.parent ∧
      answers[i]? = some (offer.state, views) ∧ offer.parent.derivation.isComplete = false ∧
      score = offer.parent.score.add p ∧
      Offered s.config.encoding s.subtypes offer.parent.derivation views p offer.action := by
  have hoffers := TopK.mem_of_mem_best hmem
  simp only [offers, List.map_map, List.mem_flatten, List.mem_map] at hoffers
  obtain ⟨_, ⟨⟨h, answer⟩, hzip, rfl⟩, hoffer⟩ := hoffers
  obtain ⟨i, hi⟩ := List.getElem?_of_mem hzip
  obtain ⟨hlive, hanswer⟩ := List.getElem?_zip_eq_some.mp hi
  obtain ⟨rfl, hstate, hopen, p, hscore, hoffered⟩ := exists_of_mem_offersFor hoffer
  exact ⟨i, answer.2, p, hlive, by rw [hanswer, hstate], hopen, hscore, hoffered⟩

end Synthesis

end TreeDerivation
