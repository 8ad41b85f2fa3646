import TreeDerivation.Proofs.Derivation.Layout

/-!
# Derivations accept exactly their language

A word builds a complete derivation exactly when it derives a node, and it is accepted exactly when
it begins such a word (`replay_accepts_language`). In particular no accepted word leads into a dead
end, and no word of the language begins another one.

From a derivation to the language the way goes through the fields that it leaves open: whatever
fills them completes the actions to a parse. Back from the language it goes through the layout: the
word of a parse is replayed to its end.
-/

namespace TreeDerivation.Derivation

variable {e : Encoding} {w : List Action} {d : Derivation}

/-- A word of the language builds a complete derivation. -/
theorem exists_replay_of_derives (h : Derives e w) :
    ∃ d, replay e w = .ok d ∧ d.isComplete = true := by
  obtain ⟨p, hp, rfl⟩ := derives_iff_exists_parse.mp h
  exact ⟨_, replay_word hp, isComplete_steps e p⟩

/-- What fills the open fields of a derivation completes its word to one of the language. -/
theorem derives_append_words (h : replay e w = .ok d) (hne : d.isEmpty = false) {fs : List Fill}
    (hfs : Fill.FitAll e admitsAll d.openTypes fs) : Derives e (w ++ Fill.words fs) := by
  obtain ⟨p, hp, -, hword⟩ := (grown_of_replay h).exists_parse hne hfs
  rw [actions_replay h] at hword
  exact hword ▸ Parse.derives_word hp

/-- The word of a complete derivation is one of the language. -/
theorem derives_of_isComplete (h : replay e w = .ok d) (hd : d.isComplete = true) :
    Derives e w := by
  obtain ⟨p, hp, hword⟩ := (grown_of_replay h).exists_parse_of_isComplete hd
  rw [actions_replay h] at hword
  exact hword ▸ Parse.derives_word hp

/-- Some word derives a node: an expansion without fields. -/
theorem exists_derives (e : Encoding) : ∃ w, Derives e w :=
  ⟨_, .expand ⟨⟨"", .node⟩, []⟩ [] .nil⟩

/-- Every accepted word begins a word of the language. -/
theorem exists_derives_append (h : replay e w = .ok d) : ∃ v, Derives e (w ++ v) := by
  cases hne : d.isEmpty with
  | true =>
    have hnil : w = [] := by
      have hsteps : d.steps = #[] := by simpa [isEmpty] using hne
      rw [← actions_replay h, actions, hsteps]
      rfl
    rw [hnil]
    exact exists_derives e
  | false =>
    obtain ⟨fs, hfs⟩ := exists_fitAll e d.openTypes
    exact ⟨Fill.words fs, derives_append_words h hne hfs⟩

/-- Every beginning of a word of the language is accepted, and the rest completes it. -/
theorem exists_replay_of_derives_append {v : List Action} (h : Derives e (w ++ v)) :
    ∃ d d', replay e w = .ok d ∧ d.applyAll v = .ok d' ∧ d'.isComplete = true := by
  obtain ⟨d', hreplay, hd'⟩ := exists_replay_of_derives h
  obtain ⟨d, hw, hv⟩ := exists_of_applyAll_append hreplay
  exact ⟨d, d', hw, hv, hd'⟩

/-- A derivation accepts exactly the language of its encoding: a word completes it exactly when the
word derives a node, and is accepted exactly when it begins such a word. So every accepted word can
be completed, and no word of the language properly begins another. -/
theorem replay_accepts_language (e : Encoding) (w : List Action) :
    ((∃ d, replay e w = .ok d ∧ d.isComplete = true) ↔ Derives e w) ∧
    ((∃ d, replay e w = .ok d) ↔ ∃ u, w <+: u ∧ Derives e u) ∧
    (∀ d, replay e w = .ok d → ∃ v d', d.applyAll v = .ok d' ∧ d'.isComplete = true) ∧
    (∀ u, Derives e w → Derives e u → w <+: u → w = u) := by
  refine ⟨⟨?_, exists_replay_of_derives⟩, ⟨?_, ?_⟩, ?_, ?_⟩
  · rintro ⟨d, h, hd⟩
    exact derives_of_isComplete h hd
  · rintro ⟨d, h⟩
    obtain ⟨v, hv⟩ := exists_derives_append h
    exact ⟨w ++ v, List.prefix_append w v, hv⟩
  · rintro ⟨u, ⟨v, rfl⟩, hu⟩
    obtain ⟨d, -, h, -, -⟩ := exists_replay_of_derives_append hu
    exact ⟨d, h⟩
  · intro d h
    obtain ⟨v, hv⟩ := exists_derives_append h
    obtain ⟨d₁, d', h₁, h', hd'⟩ := exists_replay_of_derives_append hv
    obtain rfl : d₁ = d := Except.ok.inj (h₁.symm.trans h)
    exact ⟨v, d', h', hd'⟩
  · rintro u hw hu ⟨v, rfl⟩
    obtain ⟨d, h, hd⟩ := exists_replay_of_derives hw
    obtain ⟨d₁, d', h₁, h', -⟩ := exists_replay_of_derives_append hu
    obtain rfl : d₁ = d := Except.ok.inj (h₁.symm.trans h)
    rw [eq_nil_of_applyAll_of_isComplete hd h', List.append_nil]

end TreeDerivation.Derivation
