import TreeDerivation.Proofs.Derivation.OpenFields
import TreeDerivation.Proofs.Derivation.Reading
import TreeDerivation.Proofs.Outcome

/-!
# Which derivations have a tree

A complete derivation stands for a tree unless a list is encoded as one expansion and a field of
that expansion is a text (`Grown.exists_tree`). In that case a step that opens no node is read as
one, and this is the only way in which reading fails (`Grown.tree_eq_error`).

The condition is `ListsTextFree`, asked of each rule at the field where it stands. Where lists stay
open-ended it asks for nothing.
-/

namespace TreeDerivation

/-- Whether no field of an expansion is a text. -/
def Expansion.TextFree (r : Expansion) : Prop :=
  ∀ t ∈ r.fieldTypes, t.constraint ≠ .token

/-- Whether a rule at a field of type `t`, if it encodes a list there, has no text in a field. -/
def ListsTextFree (e : Encoding) (t : NodeType) (r : Expansion) : Prop :=
  e.retainVariadic = false → t.constraint = .variadic → r.TextFree

/-! ## Readings that succeed -/

mutual

theorem Parse.exists_read {e : Encoding} :
    ∀ (p : Parse), p.Fits e (ListsTextFree e) → ∀ i, ∃ t, p.read i = .ok t
  | .expand r fs, hp, i => by
    rw [Parse.Fits] at hp
    obtain ⟨fields, hfields⟩ := Fill.exists_readAll fs hp (i + 1)
    exact ⟨.node r.parent.typeName fields, by rw [Parse.read, hfields]; rfl⟩

theorem Fill.exists_read {e : Encoding} :
    ∀ (f : Fill) {t : NodeType}, f.Fits e (ListsTextFree e) t → ∀ i, ∃ c, f.read i t = .ok c
  | .node (.expand r fs), t, ⟨hone, hfree, hp⟩, i => by
    rcases hone with ht | ⟨ht, he⟩
    · obtain ⟨tree, htree⟩ := Parse.exists_read (.expand r fs) hp i
      exact ⟨.single tree, by rw [Fill.read, if_neg (by simp [ht]), htree]; rfl⟩
    · rw [Parse.Fits] at hp
      obtain ⟨trees, htrees⟩ := Fill.exists_readFirsts fs he (hfree he ht) hp (i + 1)
      exact ⟨.list trees, by rw [Fill.read, if_pos ht, Parse.readElements, htrees]; rfl⟩
  | .list ps, t, ⟨_, hps⟩, i => by
    obtain ⟨trees, htrees⟩ := Parse.exists_readEach ps hps i
    exact ⟨.list trees, by rw [Fill.read, htrees]; rfl⟩
  | .text pieces, t, _, i => ⟨_, by rw [Fill.read]⟩
  | .token k, t, _, i => ⟨_, by rw [Fill.read]⟩

theorem Fill.exists_readAll {e : Encoding} :
    ∀ (fs : List Fill) {cs : List (String × NodeType)},
      Fill.FitAll e (ListsTextFree e) (cs.map Prod.snd) fs →
      ∀ i, ∃ fields, Fill.readAll i cs fs = .ok fields
  | [], cs, _, i => ⟨[], by cases cs <;> rfl⟩
  | f :: fs, [], h, i => absurd h (by simp [Fill.FitAll])
  | f :: fs, c :: cs, h, i => by
    obtain ⟨content, hcontent⟩ := Fill.exists_read f h.1 i
    obtain ⟨fields, hfields⟩ := Fill.exists_readAll fs h.2 (i + f.word.length)
    exact ⟨.mk c.1 c.2.typeName content :: fields, by rw [Fill.readAll, hcontent, hfields]; rfl⟩

theorem Parse.exists_readEach {e : Encoding} :
    ∀ (ps : List Parse) {t : NodeType}, Parse.FitEach e (ListsTextFree e) t ps →
      ∀ i, ∃ trees, Parse.readEach i ps = .ok trees
  | [], _, _, i => ⟨[], by rw [Parse.readEach]; rfl⟩
  | p :: ps, t, h, i => by
    obtain ⟨tree, htree⟩ := Parse.exists_read p h.1.2 i
    obtain ⟨trees, htrees⟩ := Parse.exists_readEach ps h.2 (i + p.word.length)
    exact ⟨tree :: trees, by rw [Parse.readEach, htree, htrees]; rfl⟩

theorem Fill.exists_readFirsts {e : Encoding} :
    ∀ (fs : List Fill) {ts : List NodeType}, e.retainVariadic = false →
      (∀ t ∈ ts, t.constraint ≠ .token) → Fill.FitAll e (ListsTextFree e) ts fs →
      ∀ i, ∃ trees, Fill.readFirsts i fs = .ok trees
  | [], _, _, _, _, i => ⟨[], by rw [Fill.readFirsts]; rfl⟩
  | f :: fs, [], _, _, h, i => absurd h (by simp [Fill.FitAll])
  | f :: fs, t :: ts, he, hfree, h, i => by
    obtain ⟨tree, htree⟩ := Fill.exists_readFirst f he (hfree t List.mem_cons_self) h.1 i
    obtain ⟨trees, htrees⟩ := Fill.exists_readFirsts fs he
      (fun u hu => hfree u (List.mem_cons_of_mem t hu)) h.2 (i + f.word.length)
    exact ⟨tree :: trees, by rw [Fill.readFirsts, htree, htrees]; rfl⟩

theorem Fill.exists_readFirst {e : Encoding} :
    ∀ (f : Fill) {t : NodeType}, e.retainVariadic = false → t.constraint ≠ .token →
      f.Fits e (ListsTextFree e) t → ∀ i, ∃ tree, f.readFirst i = .ok tree
  | .node p, t, _, _, ⟨_, _, hp⟩, i => by
    obtain ⟨tree, htree⟩ := Parse.exists_read p hp i
    exact ⟨tree, by rw [Fill.readFirst, htree]⟩
  | .list ps, t, he, _, h, i => absurd h.1.2 (by simp [he])
  | .text pieces, t, _, ht, h, i => absurd h.1 ht
  | .token k, t, _, ht, h, i => absurd h.1 ht

end

/-! ## Readings that fail -/

mutual

theorem Parse.read_eq_error :
    ∀ (p : Parse) {i : Nat} {c : Cause}, p.read i = .error c → ∃ j, c = .notExpansion j
  | .expand r fs, i, c, h => by
    rw [Parse.read] at h
    exact Fill.readAll_eq_error fs (map_eq_error_iff.mp h)

theorem Fill.read_eq_error :
    ∀ (f : Fill) {i : Nat} {t : NodeType} {c : Cause}, f.read i t = .error c →
      ∃ j, c = .notExpansion j
  | .node (.expand r fs), i, t, c, h => by
    rw [Fill.read] at h
    split at h
    next =>
      rw [map_eq_error_iff, Parse.readElements] at h
      exact Fill.readFirsts_eq_error fs h
    next => exact Parse.read_eq_error (.expand r fs) (map_eq_error_iff.mp h)
  | .list ps, i, t, c, h => by
    rw [Fill.read] at h
    exact Parse.readEach_eq_error ps (map_eq_error_iff.mp h)
  | .text pieces, i, t, c, h => by simp [Fill.read] at h
  | .token k, i, t, c, h => by simp [Fill.read] at h

theorem Fill.readAll_eq_error :
    ∀ (fs : List Fill) {cs : List (String × NodeType)} {i : Nat} {c : Cause},
      Fill.readAll i cs fs = .error c → ∃ j, c = .notExpansion j
  | [], cs, i, c, h => by cases cs <;> simp [Fill.readAll, pure, Except.pure] at h
  | f :: fs, [], i, c, h => by simp [Fill.readAll, pure, Except.pure] at h
  | f :: fs, d :: cs, i, c, h => by
    rw [Fill.readAll] at h
    rcases exists_of_bind_eq_error h with hfirst | ⟨_, -, h⟩
    · exact Fill.read_eq_error f hfirst
    · rcases exists_of_bind_eq_error h with hrest | ⟨_, -, h⟩
      · exact Fill.readAll_eq_error fs hrest
      · exact absurd h (by simp [pure, Except.pure])

theorem Parse.readEach_eq_error :
    ∀ (ps : List Parse) {i : Nat} {c : Cause}, Parse.readEach i ps = .error c →
      ∃ j, c = .notExpansion j
  | [], i, c, h => by simp [Parse.readEach, pure, Except.pure] at h
  | p :: ps, i, c, h => by
    rw [Parse.readEach] at h
    rcases exists_of_bind_eq_error h with hfirst | ⟨_, -, h⟩
    · exact Parse.read_eq_error p hfirst
    · rcases exists_of_bind_eq_error h with hrest | ⟨_, -, h⟩
      · exact Parse.readEach_eq_error ps hrest
      · exact absurd h (by simp [pure, Except.pure])

theorem Fill.readFirsts_eq_error :
    ∀ (fs : List Fill) {i : Nat} {c : Cause}, Fill.readFirsts i fs = .error c →
      ∃ j, c = .notExpansion j
  | [], i, c, h => by simp [Fill.readFirsts, pure, Except.pure] at h
  | f :: fs, i, c, h => by
    rw [Fill.readFirsts] at h
    rcases exists_of_bind_eq_error h with hfirst | ⟨_, -, h⟩
    · exact Fill.readFirst_eq_error f hfirst
    · rcases exists_of_bind_eq_error h with hrest | ⟨_, -, h⟩
      · exact Fill.readFirsts_eq_error fs hrest
      · exact absurd h (by simp [pure, Except.pure])

theorem Fill.readFirst_eq_error :
    ∀ (f : Fill) {i : Nat} {c : Cause}, f.readFirst i = .error c → ∃ j, c = .notExpansion j
  | .node p, i, c, h => Parse.read_eq_error p (by rwa [Fill.readFirst] at h)
  | .list ps, i, c, h => ⟨i, by simpa [Fill.readFirst] using h.symm⟩
  | .text pieces, i, c, h => ⟨i, by simpa [Fill.readFirst] using h.symm⟩
  | .token k, i, c, h => ⟨i, by simpa [Fill.readFirst] using h.symm⟩

end

/-! ## Trees of complete derivations -/

namespace Derivation

/-- Whether an action, if it expands a list at a head, is a rule without texts. -/
def AdmitsTextFree (e : Encoding) : Option NodeType → Action → Prop
  | some t, .applyRule (.expandTree r) => ListsTextFree e t r
  | _, _ => True

theorem admitsTextFree_of_retain {e : Encoding} (he : e.retainVariadic = true)
    (head : Option NodeType) (a : Action) : AdmitsTextFree e head a := by
  rcases head with _ | t
  · exact trivial
  · rcases a with (r | _) | k
    · exact fun hfalse => absurd he (by simp [hfalse])
    · exact trivial
    · exact trivial

namespace Grown

variable {e : Encoding} {admits : Option NodeType → Action → Prop} {d : Derivation}

/-- The tree of a complete derivation is the reading of a parse. -/
theorem exists_tree_eq_read (h : Grown e admits d) (hd : d.isComplete = true) :
    ∃ p : Parse, p.Fits e (fun t r => admits (some t) (.applyRule (.expandTree r))) ∧
      d.tree = (p.read 0).mapError Failure.of := by
  obtain ⟨p, hp, hword⟩ := h.exists_parse_of_isComplete hd
  obtain ⟨d', hreplay, -, htree⟩ := tree_of_replay_word hp
  rw [hword, h.replay_actions] at hreplay
  obtain rfl := Except.ok.inj hreplay
  exact ⟨p, hp, htree⟩

/-- A complete derivation has a tree if no list is encoded by a rule with a text. -/
theorem exists_tree (h : Grown e (AdmitsTextFree e) d) (hd : d.isComplete = true) :
    ∃ t, d.tree = .ok t := by
  obtain ⟨p, hp, htree⟩ := h.exists_tree_eq_read hd
  obtain ⟨t, ht⟩ := p.exists_read hp 0
  exact ⟨t, by rw [htree, ht]; rfl⟩

/-- Only a step that opens no node keeps a complete derivation from having a tree. -/
theorem tree_eq_error (h : Grown e admits d) (hd : d.isComplete = true) {f : Failure}
    (hf : d.tree = .error f) : ∃ j, f = Failure.of (.notExpansion j) := by
  obtain ⟨p, -, htree⟩ := h.exists_tree_eq_read hd
  obtain ⟨c, hc, rfl⟩ := mapError_eq_error_iff.mp (htree.symm.trans hf)
  obtain ⟨j, rfl⟩ := p.read_eq_error hc
  exact ⟨j, rfl⟩

end Grown

end Derivation

end TreeDerivation
