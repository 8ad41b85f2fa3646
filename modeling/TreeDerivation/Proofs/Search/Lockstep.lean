import TreeDerivation.Proofs.Search.Rounds

/-!
# Two searches in lockstep

What a round does depends on the answers of the oracle and on a part of the search: what is live,
the counts, and the fixed settings. `InStep` says that two searches have this part in common. Their
oracles may differ, also in their memories, and so may the bounds on the number of rounds and the
answers kept from the last round.

The answers about a hypothesis count only as far as they are read: the state, and one of the two
views (`Views.Agree`). If the replies agree that far and both searches go on, a call yields the same
item from both and leaves them in step (`InStep.next`). Two searches that also agree in their bounds
and steps stay together through a whole run, if their oracles are matched by a relation of their
memories (`Together.take`).
-/

namespace TreeDerivation

variable {Query Memory Memory₁ Memory₂ State : Type}

/-! ## Answers as far as they are read -/

/-- Whether the text of a leaf is open: the search then reads the view of the tokens, and that of
the rules everywhere else. -/
def Derivation.ReadsTokens (d : Derivation) : Prop :=
  d.headType?.map NodeType.constraint = some .token

instance (d : Derivation) : Decidable d.ReadsTokens :=
  inferInstanceAs (Decidable (_ = _))

/-- Whether the view that is read for a derivation has the same entries. -/
structure Views.Agree (d : Derivation) (v w : Views) : Prop where
  tokens : d.ReadsTokens → v.tokens.items = w.tokens.items
  rules : ¬ d.ReadsTokens → v.rules.items = w.rules.items

theorem Views.Agree.refl (d : Derivation) (v : Views) : v.Agree d v :=
  ⟨fun _ => rfl, fun _ => rfl⟩

/-- Whether two lists of answers about the live hypotheses are the same as far as they are read. -/
structure AnswersAgree (live : List (Hypothesis State)) (as bs : List (State × Views)) : Prop where
  length_eq : as.length = bs.length
  answer : ∀ (i : Nat) (h : Hypothesis State) (a b : State × Views), live[i]? = some h →
    as[i]? = some a → bs[i]? = some b → a.1 = b.1 ∧ a.2.Agree h.derivation b.2

theorem AnswersAgree.refl (live : List (Hypothesis State)) (as : List (State × Views)) :
    AnswersAgree live as as := by
  refine ⟨rfl, ?_⟩
  intro i h a b _ ha hb
  obtain rfl := Option.some.inj (ha.symm.trans hb)
  exact ⟨rfl, Views.Agree.refl _ _⟩

/-- Whether two replies are the same failure, or answers that agree. -/
inductive RepliesAgree (live : List (Hypothesis State)) :
    Except Failure (List (State × Views)) → Except Failure (List (State × Views)) → Prop where
  | error (f : Failure) : RepliesAgree live (.error f) (.error f)
  | ok {as bs : List (State × Views)} : AnswersAgree live as bs →
    RepliesAgree live (.ok as) (.ok bs)

theorem RepliesAgree.refl (live : List (Hypothesis State))
    (reply : Except Failure (List (State × Views))) : RepliesAgree live reply reply := by
  cases reply with
  | error f => exact .error f
  | ok answers => exact .ok (AnswersAgree.refl live answers)

/-- The offers for a hypothesis depend on what is read of the answer. -/
theorem offersFor_congr {encoding : Encoding} {subtypes : Subtyping} {h : Hypothesis State}
    {a b : State × Views} (hstate : a.1 = b.1) (hviews : a.2.Agree h.derivation b.2) :
    (offersFor encoding subtypes h a).1 = (offersFor encoding subtypes h b).1 := by
  obtain ⟨state, v⟩ := a
  obtain ⟨state', w⟩ := b
  obtain rfl : state = state' := hstate
  simp only [offersFor]
  split
  · rfl
  · split
    next htoken => rw [show v.tokens.items = w.tokens.items from hviews.tokens htoken]
    next hrule => rw [show v.rules.items = w.rules.items from hviews.rules hrule]

namespace Synthesis

/-! ## One call -/

/-- Whether two searches have in common what a round depends on. -/
structure InStep (s : Synthesis Memory₁ State) (t : Synthesis Memory₂ State) : Prop where
  beamSize_eq : s.config.beamSize = t.config.beamSize
  encoding_eq : s.config.encoding = t.config.encoding
  subtypes_eq : s.subtypes = t.subtypes
  live_eq : s.live = t.live
  found_eq : s.found = t.found
  nextId_eq : s.nextId = t.nextId
  finished_eq : s.finished = t.finished

theorem offers_congr {s : Synthesis Memory₁ State} {t : Synthesis Memory₂ State}
    (h : s.InStep t) {as bs : List (State × Views)} (hanswers : AnswersAgree s.live as bs) :
    (s.offers as).1 = (t.offers bs).1 := by
  simp only [offers, List.map_map, ← h.encoding_eq, ← h.subtypes_eq, ← h.live_eq]
  congr 1
  refine List.ext_getElem (by simp [hanswers.length_eq]) ?_
  intro i hi hi'
  simp only [List.length_map, List.length_zip, Nat.lt_min] at hi hi'
  have hagree := hanswers.answer i s.live[i] as[i] bs[i] (List.getElem?_eq_getElem hi.1)
    (List.getElem?_eq_getElem hi.2) (List.getElem?_eq_getElem hi'.2)
  rw [List.getElem_map, List.getElem_map, List.getElem_zip, List.getElem_zip]
  exact offersFor_congr hagree.1 hagree.2

namespace InStep

variable {s : Synthesis Memory₁ State} {t : Synthesis Memory₂ State}

theorem finish (h : s.InStep t) : s.finish.InStep t.finish :=
  { h with finished_eq := rfl }

theorem asked (h : s.InStep t) (memory₁ : Memory₁) (memory₂ : Memory₂) :
    (s.asked memory₁).InStep (t.asked memory₂) :=
  { h with }

/-- Answers that agree bring the same round. -/
theorem advance (h : s.InStep t) {as bs : List (State × Views)}
    (hanswers : AnswersAgree s.live as bs) :
    (s.advance as).1 = (t.advance bs).1 ∧ (s.advance as).2.InStep (t.advance bs).2 := by
  by_cases hlength : as.length = s.live.length
  · have hlength' : bs.length = t.live.length := by
      rw [← hanswers.length_eq, hlength, h.live_eq]
    have hplaces : s.placesLeft = t.placesLeft := by
      rw [placesLeft, placesLeft, h.beamSize_eq, h.found_eq]
    have hextend : s.extend (TopK.best s.placesLeft (s.offers as).1) =
        t.extend (TopK.best t.placesLeft (t.offers bs).1) := by
      rw [offers_congr h hanswers, hplaces, Synthesis.extend, Synthesis.extend, h.nextId_eq]
    rw [advance_of_length_eq hlength, advance_of_length_eq hlength', hextend]
    split
    next children _ =>
      refine ⟨rfl, { h with live_eq := rfl, found_eq := ?_, nextId_eq := ?_ }⟩
      · exact congrArg (· + _) h.found_eq
      · exact congrArg (· + _) h.nextId_eq
    next => exact ⟨rfl, { h with finished_eq := rfl }⟩
  · have hlength' : ¬ bs.length = t.live.length := by
      rw [← hanswers.length_eq, ← h.live_eq]
      exact hlength
    rw [Synthesis.advance, Synthesis.advance, if_pos hlength, if_pos hlength', hanswers.length_eq,
      h.live_eq]
    exact ⟨rfl, h.finish⟩

/-- Two searches in step, of which both go on or neither, yield the same item and stay in step. -/
theorem next (h : s.InStep t) (oracle₁ : Oracle Query Memory₁ State)
    (oracle₂ : Oracle Query Memory₂ State) (hgoes : s.goesOn = t.goesOn)
    (hreplies : s.goesOn = true → RepliesAgree s.live (s.reply oracle₁) (t.reply oracle₂)) :
    (s.next oracle₁).1 = (t.next oracle₂).1 ∧ (s.next oracle₁).2.InStep (t.next oracle₂).2 := by
  cases hs : s.goesOn with
  | false =>
    rw [next_of_not_goesOn hs, next_of_not_goesOn (hgoes ▸ hs)]
    exact ⟨rfl, h.finish⟩
  | true =>
    rw [next_of_goesOn hs, next_of_goesOn (hgoes ▸ hs)]
    have hagree := hreplies hs
    rw [reply, reply] at hagree
    cases hreply₁ : oracle₁.answer s.memory s.live with
    | mk reply₁ memory₁ =>
      cases hreply₂ : oracle₂.answer t.memory t.live with
      | mk reply₂ memory₂ =>
        rw [hreply₁, hreply₂] at hagree
        cases hagree with
        | error f => exact ⟨rfl, (h.asked memory₁ memory₂).finish⟩
        | ok hanswers =>
          obtain ⟨hitem, hstep⟩ := (h.asked memory₁ memory₂).advance hanswers
          exact ⟨congrArg some hitem, hstep⟩

end InStep

/-! ## What a call leaves of the rest -/

theorem frame_advance (s : Synthesis Memory State) (answers : List (State × Views)) :
    (s.advance answers).2.memory = s.memory ∧ (s.advance answers).2.steps = s.steps ∧
      (s.advance answers).2.config = s.config := by
  rw [advance]
  split
  · exact ⟨rfl, rfl, rfl⟩
  · dsimp only
    split <;> exact ⟨rfl, rfl, rfl⟩

/-- The oracle is asked in the calls that yield an item, and these are counted. -/
theorem frame_next (oracle : Oracle Query Memory State) (s : Synthesis Memory State) :
    (s.next oracle).2.memory =
        (if s.goesOn then (oracle.answer s.memory s.live).2 else s.memory) ∧
      (s.next oracle).2.steps = s.steps + (s.next oracle).1.toList.length ∧
      (s.next oracle).2.config = s.config := by
  cases h : s.goesOn with
  | false =>
    rw [next_of_not_goesOn h]
    exact ⟨rfl, rfl, rfl⟩
  | true =>
    rw [next_of_goesOn h, if_pos rfl]
    split
    next answers memory hreply =>
      obtain ⟨hmemory, hsteps, hconfig⟩ := frame_advance (s.asked memory) answers
      rw [hreply]
      exact ⟨hmemory, hsteps, hconfig⟩
    next f memory hreply =>
      rw [hreply]
      exact ⟨rfl, rfl, rfl⟩

/-! ## Runs -/

/-- Whether two searches in step also have the same bound and as many steps behind them. -/
structure Together (s : Synthesis Memory₁ State) (t : Synthesis Memory₂ State) : Prop
    extends s.InStep t where
  maxSteps_eq : s.config.maxSteps = t.config.maxSteps
  steps_eq : s.steps = t.steps

namespace Together

variable {s : Synthesis Memory₁ State} {t : Synthesis Memory₂ State}

theorem goesOn_eq (h : s.Together t) : s.goesOn = t.goesOn := by
  rw [goesOn, goesOn, h.finished_eq, h.found_eq, h.beamSize_eq, h.live_eq, h.maxSteps_eq,
    h.steps_eq]

theorem next (h : s.Together t) (oracle₁ : Oracle Query Memory₁ State)
    (oracle₂ : Oracle Query Memory₂ State)
    (hreplies : s.goesOn = true → RepliesAgree s.live (s.reply oracle₁) (t.reply oracle₂)) :
    (s.next oracle₁).1 = (t.next oracle₂).1 ∧ (s.next oracle₁).2.Together (t.next oracle₂).2 := by
  obtain ⟨hitem, hstep⟩ := h.toInStep.next oracle₁ oracle₂ h.goesOn_eq hreplies
  obtain ⟨-, hsteps₁, hconfig₁⟩ := frame_next oracle₁ s
  obtain ⟨-, hsteps₂, hconfig₂⟩ := frame_next oracle₂ t
  refine ⟨hitem, { hstep with maxSteps_eq := ?_, steps_eq := ?_ }⟩
  · rw [hconfig₁, hconfig₂, h.maxSteps_eq]
  · rw [hsteps₁, hsteps₂, hitem, h.steps_eq]

/-- Oracles whose memories are kept in a relation in which they give replies that agree cannot be
told apart by a run. -/
theorem take (h : s.Together t) (oracle₁ : Oracle Query Memory₁ State)
    (oracle₂ : Oracle Query Memory₂ State) (matched : Memory₁ → Memory₂ → Prop)
    (hmatched : ∀ m₁ m₂ live, matched m₁ m₂ →
      RepliesAgree live (oracle₁.answer m₁ live).1 (oracle₂.answer m₂ live).1 ∧
        matched (oracle₁.answer m₁ live).2 (oracle₂.answer m₂ live).2)
    (hmemory : matched s.memory t.memory) (n : Nat) :
    (s.take oracle₁ n).1 = (t.take oracle₂ n).1 ∧
      (s.take oracle₁ n).2.Together (t.take oracle₂ n).2 ∧
      matched (s.take oracle₁ n).2.memory (t.take oracle₂ n).2.memory := by
  induction n with
  | zero => exact ⟨rfl, h, hmemory⟩
  | succ n ih =>
    obtain ⟨hitems, htogether, hmemory⟩ := ih
    obtain ⟨hreplies, hafter⟩ := hmatched _ _ (s.take oracle₁ n).2.live hmemory
    have hcall := htogether.next oracle₁ oracle₂ (by
      intro _
      rw [reply, reply, ← htogether.live_eq]
      exact hreplies)
    rw [take_succ_eq, take_succ_eq]
    refine ⟨by rw [hitems, hcall.1], hcall.2, ?_⟩
    dsimp only
    rw [(frame_next oracle₁ _).1, (frame_next oracle₂ _).1, htogether.goesOn_eq,
      ← htogether.live_eq]
    split
    · exact hafter
    · exact hmemory

end Together

end Synthesis

end TreeDerivation
