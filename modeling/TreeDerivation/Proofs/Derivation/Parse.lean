import TreeDerivation.Proofs.Derivation.Language

/-!
# Parses

A parse is a word of the language read as a tree of expansions: each expansion stands with what
fills its fields. `Parse.word` forgets the structure, and a word derives a node exactly when it is
the word of a parse that fits the encoding (`derives_iff_exists_parse`).

Fitting carries a condition on expansions beside the constraints of the grammar: `admits t r` says
that rule `r` may stand where a field of type `t` is filled. The language itself admits every rule.

`Consumes` is what one action does to the fields that are still to be filled. It inverts a parse
from its front (`exists_fits_cons`): what fills the fields left after an action, with the action put
before it, fills the fields that were left before the action. It also follows a parse from its front
(`exists_fits_of_cons`): what is left of it after its first action fills the fields that are left.
-/

namespace TreeDerivation

mutual

/-- A word read as the derivation of a node. -/
inductive Parse where
  | expand (rule : Expansion) (fills : List Fill)

/-- A word read as what fills one field. -/
inductive Fill where
  /-- One node; a list that is encoded as one expansion is filled this way, too. -/
  | node (p : Parse)
  /-- The nodes of a list up to its sentinel. -/
  | list (ps : List Parse)
  /-- The pieces of a text up to its sentinel. -/
  | text (pieces : List String)
  /-- A text that is one token. -/
  | token (t : Token)

end

/-- The expansion at the root of a parse. -/
def Parse.rule : Parse → Expansion
  | .expand r _ => r

mutual

/-- The word that a parse reads. -/
def Parse.word : Parse → List Action
  | .expand r fs => .applyRule (.expandTree r) :: Fill.words fs

/-- The word that fills one field. -/
def Fill.word : Fill → List Action
  | .node p => p.word
  | .list ps => Parse.words ps ++ [.applyRule .closeVariadic]
  | .text pieces => pieceActions pieces ++ [.generateToken .closeNode]
  | .token t => [.generateToken t]

/-- The word that fills fields one after the other. -/
def Fill.words : List Fill → List Action
  | [] => []
  | f :: fs => f.word ++ Fill.words fs

/-- The word of the elements of a list. -/
def Parse.words : List Parse → List Action
  | [] => []
  | p :: ps => p.word ++ Parse.words ps

end

/-- Whether one expansion fills a field of this type. Only lists that are kept open-ended take any
other number of expansions. -/
def takesOne (e : Encoding) (t : NodeType) : Prop :=
  t.constraint = .node ∨ t.constraint = .variadic ∧ e.retainVariadic = false

/-- Whether a field of this type is a list that stays open until its sentinel. -/
def takesMany (e : Encoding) (t : NodeType) : Prop :=
  t.constraint = .variadic ∧ e.retainVariadic = true

theorem takesOne.ne_token {e : Encoding} {t : NodeType} (h : takesOne e t) :
    t.constraint ≠ .token := by
  rcases h with h | ⟨h, -⟩ <;> simp [h]

theorem takesMany.ne_token {e : Encoding} {t : NodeType} (h : takesMany e t) :
    t.constraint ≠ .token := by
  simp [h.1]

mutual

/-- Whether a parse fits an encoding and every rule in it is admitted at its field. -/
def Parse.Fits (e : Encoding) (admits : NodeType → Expansion → Prop) : Parse → Prop
  | .expand r fs => Fill.FitAll e admits r.fieldTypes fs

/-- Whether a field of type `t` may be filled so. -/
def Fill.Fits (e : Encoding) (admits : NodeType → Expansion → Prop) (t : NodeType) : Fill → Prop
  | .node p => takesOne e t ∧ admits t p.rule ∧ p.Fits e admits
  | .list ps => takesMany e t ∧ Parse.FitEach e admits t ps
  | .text _ => t.constraint = .token ∧ e.splitLeaves = true
  | .token _ => t.constraint = .token ∧ e.splitLeaves = false

/-- Whether fields of the given types may be filled so, one after the other. -/
def Fill.FitAll (e : Encoding) (admits : NodeType → Expansion → Prop) :
    List NodeType → List Fill → Prop
  | [], [] => True
  | t :: ts, f :: fs => f.Fits e admits t ∧ Fill.FitAll e admits ts fs
  | _, _ => False

/-- Whether these may be the elements of a list of type `t`. -/
def Parse.FitEach (e : Encoding) (admits : NodeType → Expansion → Prop) (t : NodeType) :
    List Parse → Prop
  | [] => True
  | p :: ps => (admits t p.rule ∧ p.Fits e admits) ∧ Parse.FitEach e admits t ps

end

theorem Fill.length_eq_of_fitAll {e : Encoding} {admits : NodeType → Expansion → Prop}
    {ts : List NodeType} {fs : List Fill} (h : Fill.FitAll e admits ts fs) :
    fs.length = ts.length := by
  induction ts generalizing fs with
  | nil =>
    cases fs with
    | nil => rfl
    | cons f fs => exact absurd h (by simp [Fill.FitAll])
  | cons t ts ih =>
    cases fs with
    | nil => exact absurd h (by simp [Fill.FitAll])
    | cons f fs => rw [List.length_cons, List.length_cons, ih h.2]

/-! ## Parses read exactly the words of the language -/

mutual

theorem Parse.derives_word {e : Encoding} {admits : NodeType → Expansion → Prop} :
    ∀ {p : Parse}, p.Fits e admits → Derives e p.word
  | .expand r fs, h => by
    rw [Parse.word]
    exact .expand r _ (Fill.fillsAll_words (by simpa only [Parse.Fits] using h))

theorem Fill.fills_word {e : Encoding} {admits : NodeType → Expansion → Prop} {t : NodeType} :
    ∀ {f : Fill}, f.Fits e admits t → Fills e t.constraint f.word
  | .node p, h => by
    obtain ⟨hone, -, hp⟩ := h
    rw [Fill.word]
    rcases hone with ht | ⟨ht, he⟩
    · rw [ht]
      exact .node _ (Parse.derives_word hp)
    · rw [ht]
      exact .encoded _ he (Parse.derives_word hp)
  | .list ps, h => by
    obtain ⟨⟨ht, he⟩, hps⟩ := h
    rw [Fill.word, ht]
    exact .list _ he (Parse.derivesEach_words hps)
  | .text pieces, h => by
    rw [Fill.word, h.1]
    exact .text pieces h.2
  | .token k, h => by
    rw [Fill.word, h.1]
    exact .token k h.2

theorem Fill.fillsAll_words {e : Encoding} {admits : NodeType → Expansion → Prop} :
    ∀ {ts : List NodeType} {fs : List Fill}, Fill.FitAll e admits ts fs →
      FillsAll e ts (Fill.words fs)
  | [], [], _ => by
    rw [Fill.words]
    exact .nil
  | t :: ts, f :: fs, h => by
    rw [Fill.words]
    exact .cons t ts _ _ (Fill.fills_word h.1) (Fill.fillsAll_words h.2)

theorem Parse.derivesEach_words {e : Encoding} {admits : NodeType → Expansion → Prop}
    {t : NodeType} :
    ∀ {ps : List Parse}, Parse.FitEach e admits t ps → DerivesEach e (Parse.words ps)
  | [], _ => by
    rw [Parse.words]
    exact .nil
  | p :: ps, h => by
    rw [Parse.words]
    exact .cons _ _ (Parse.derives_word h.1.2) (Parse.derivesEach_words h.2)

end

/-- The condition that every rule meets. -/
def admitsAll : NodeType → Expansion → Prop :=
  fun _ _ => True

mutual

theorem Derives.exists_parse {e : Encoding} :
    ∀ {w : List Action}, Derives e w → ∃ p : Parse, p.Fits e admitsAll ∧ p.word = w
  | _, .expand r w h => by
    obtain ⟨fs, hfit, rfl⟩ := FillsAll.exists_fills h
    exact ⟨.expand r fs, by rwa [Parse.Fits], by rw [Parse.word]⟩

theorem FillsAll.exists_fills {e : Encoding} :
    ∀ {ts : List NodeType} {w : List Action}, FillsAll e ts w →
      ∃ fs, Fill.FitAll e admitsAll ts fs ∧ Fill.words fs = w
  | _, _, .nil => ⟨[], trivial, by rw [Fill.words]⟩
  | _, _, .cons t ts u v hu hv => by
    obtain ⟨f, hf, rfl⟩ := Fills.exists_fill rfl hu
    obtain ⟨fs, hfs, rfl⟩ := FillsAll.exists_fills hv
    exact ⟨f :: fs, ⟨hf, hfs⟩, by rw [Fill.words]⟩

theorem Fills.exists_fill {e : Encoding} {t : NodeType} :
    ∀ {c : Constraint} {w : List Action}, t.constraint = c → Fills e c w →
      ∃ f : Fill, f.Fits e admitsAll t ∧ f.word = w
  | _, _, ht, .node w h => by
    obtain ⟨p, hp, rfl⟩ := Derives.exists_parse h
    exact ⟨.node p, ⟨.inl ht, trivial, hp⟩, by rw [Fill.word]⟩
  | _, _, ht, .list w he h => by
    obtain ⟨ps, hps, rfl⟩ := DerivesEach.exists_parses t h
    exact ⟨.list ps, ⟨⟨ht, he⟩, hps⟩, by rw [Fill.word]⟩
  | _, _, ht, .encoded w he h => by
    obtain ⟨p, hp, rfl⟩ := Derives.exists_parse h
    exact ⟨.node p, ⟨.inr ⟨ht, he⟩, trivial, hp⟩, by rw [Fill.word]⟩
  | _, _, ht, .text pieces he => ⟨.text pieces, ⟨ht, he⟩, by rw [Fill.word]⟩
  | _, _, ht, .token k he => ⟨.token k, ⟨ht, he⟩, by rw [Fill.word]⟩

theorem DerivesEach.exists_parses {e : Encoding} (t : NodeType) :
    ∀ {w : List Action}, DerivesEach e w →
      ∃ ps, Parse.FitEach e admitsAll t ps ∧ Parse.words ps = w
  | _, .nil => ⟨[], trivial, by rw [Parse.words]⟩
  | _, .cons u v hu hv => by
    obtain ⟨p, hp, rfl⟩ := Derives.exists_parse hu
    obtain ⟨ps, hps, rfl⟩ := DerivesEach.exists_parses t hv
    exact ⟨p :: ps, ⟨⟨trivial, hp⟩, hps⟩, by rw [Parse.words]⟩

end

/-- A word derives a node exactly when it is the word of a parse. -/
theorem derives_iff_exists_parse {e : Encoding} {w : List Action} :
    Derives e w ↔ ∃ p : Parse, p.Fits e admitsAll ∧ p.word = w := by
  constructor
  · exact Derives.exists_parse
  · rintro ⟨p, hp, rfl⟩
    exact Parse.derives_word hp

/-! ## One action of a parse -/

theorem Fill.words_append (fs gs : List Fill) :
    Fill.words (fs ++ gs) = Fill.words fs ++ Fill.words gs := by
  induction fs with
  | nil => rw [List.nil_append, Fill.words, List.nil_append]
  | cons f fs ih => rw [List.cons_append, Fill.words, ih, Fill.words, List.append_assoc]

/-- What fills the fields of two rows is what fills the first row and what fills the second. -/
theorem Fill.exists_split_of_fitAll {e : Encoding} {admits : NodeType → Expansion → Prop}
    {ts us : List NodeType} {fs : List Fill} (h : Fill.FitAll e admits (ts ++ us) fs) :
    ∃ fs₁ fs₂, fs = fs₁ ++ fs₂ ∧ Fill.FitAll e admits ts fs₁ ∧ Fill.FitAll e admits us fs₂ := by
  induction ts generalizing fs with
  | nil => exact ⟨[], fs, rfl, trivial, h⟩
  | cons t ts ih =>
    cases fs with
    | nil => exact absurd h (by simp [Fill.FitAll])
    | cons f fs =>
      obtain ⟨fs₁, fs₂, rfl, h₁, h₂⟩ := ih h.2
      exact ⟨f :: fs₁, fs₂, rfl, ⟨h.1, h₁⟩, h₂⟩

/-- What one action does to the fields that are still to be filled: `t` is the type of the first of
them and `ts` are those of the others. -/
inductive Consumes (e : Encoding) (t : NodeType) (ts : List NodeType) :
    Action → List NodeType → Prop where
  | node (r : Expansion) : takesOne e t →
    Consumes e t ts (.applyRule (.expandTree r)) (r.fieldTypes ++ ts)
  | element (r : Expansion) : takesMany e t →
    Consumes e t ts (.applyRule (.expandTree r)) (r.fieldTypes ++ t :: ts)
  | closeList : takesMany e t → Consumes e t ts (.applyRule .closeVariadic) ts
  | piece (s : String) : t.constraint = .token → e.splitLeaves = true →
    Consumes e t ts (.generateToken (.value s)) (t :: ts)
  | closeText : t.constraint = .token → e.splitLeaves = true →
    Consumes e t ts (.generateToken .closeNode) ts
  | token (k : Token) : t.constraint = .token → e.splitLeaves = false →
    Consumes e t ts (.generateToken k) ts

/-- A list field that takes more nodes was filled by the elements of a list. -/
theorem Fill.exists_list_of_fits {e : Encoding} {admits : NodeType → Expansion → Prop}
    {t : NodeType} {f : Fill} (ht : takesMany e t) (hf : f.Fits e admits t) :
    ∃ ps, f = .list ps ∧ Parse.FitEach e admits t ps := by
  obtain ⟨hc, he⟩ := ht
  cases f with
  | list ps => exact ⟨ps, rfl, hf.2⟩
  | node p => simp [Fill.Fits, takesOne, hc, he] at hf
  | text pieces => simp [Fill.Fits, hc] at hf
  | token k => simp [Fill.Fits, hc] at hf

/-- A text field that takes more pieces was filled by the pieces of a text. -/
theorem Fill.exists_text_of_fits {e : Encoding} {admits : NodeType → Expansion → Prop}
    {t : NodeType} {f : Fill} (ht : t.constraint = .token) (he : e.splitLeaves = true)
    (hf : f.Fits e admits t) : ∃ pieces, f = .text pieces := by
  cases f with
  | text pieces => exact ⟨pieces, rfl⟩
  | node p => simp [Fill.Fits, takesOne, ht] at hf
  | list ps => simp [Fill.Fits, takesMany, ht] at hf
  | token k => simp [Fill.Fits, he] at hf

/-- What fills the fields that an action leaves, with the action put before it, fills the fields
that were left before. -/
theorem exists_fits_cons {e : Encoding} {admits : NodeType → Expansion → Prop} {t : NodeType}
    {ts us : List NodeType} {a : Action} {fs : List Fill} (ha : Consumes e t ts a us)
    (hadmits : ∀ r, a = .applyRule (.expandTree r) → admits t r)
    (hfs : Fill.FitAll e admits us fs) :
    ∃ gs, Fill.FitAll e admits (t :: ts) gs ∧ Fill.words gs = a :: Fill.words fs := by
  cases ha with
  | node r ht =>
    obtain ⟨inner, rest, rfl, hinner, hrest⟩ := Fill.exists_split_of_fitAll hfs
    refine ⟨.node (.expand r inner) :: rest, ⟨⟨ht, hadmits r rfl, ?_⟩, hrest⟩, ?_⟩
    · simpa only [Parse.Fits] using hinner
    · simp [Fill.words, Fill.word, Parse.word, Fill.words_append]
  | element r ht =>
    obtain ⟨inner, rest, rfl, hinner, hrest⟩ := Fill.exists_split_of_fitAll hfs
    cases rest with
    | nil => simp [Fill.FitAll] at hrest
    | cons f rest =>
      obtain ⟨ps, rfl, hps⟩ := Fill.exists_list_of_fits ht hrest.1
      refine ⟨.list (.expand r inner :: ps) :: rest, ⟨⟨ht, ⟨hadmits r rfl, ?_⟩, hps⟩, hrest.2⟩, ?_⟩
      · simpa only [Parse.Fits] using hinner
      · simp [Fill.words, Fill.word, Parse.words, Parse.word, Fill.words_append]
  | closeList ht =>
    refine ⟨.list [] :: fs, ⟨⟨ht, trivial⟩, hfs⟩, ?_⟩
    simp [Fill.words, Fill.word, Parse.words]
  | piece s ht he =>
    cases fs with
    | nil => simp [Fill.FitAll] at hfs
    | cons f fs =>
      obtain ⟨pieces, rfl⟩ := Fill.exists_text_of_fits ht he hfs.1
      refine ⟨.text (s :: pieces) :: fs, ⟨⟨ht, he⟩, hfs.2⟩, ?_⟩
      simp [Fill.words, Fill.word, pieceActions]
  | closeText ht he =>
    refine ⟨.text [] :: fs, ⟨⟨ht, he⟩, hfs⟩, ?_⟩
    simp [Fill.words, Fill.word, pieceActions]
  | token k ht he =>
    refine ⟨.token k :: fs, ⟨⟨ht, he⟩, hfs⟩, ?_⟩
    simp [Fill.words, Fill.word]

theorem Fill.fitAll_append {e : Encoding} {admits : NodeType → Expansion → Prop}
    {ts us : List NodeType} {fs gs : List Fill} (hfs : Fill.FitAll e admits ts fs)
    (hgs : Fill.FitAll e admits us gs) : Fill.FitAll e admits (ts ++ us) (fs ++ gs) := by
  induction ts generalizing fs with
  | nil =>
    cases fs with
    | nil => exact hgs
    | cons f fs => exact absurd hfs (by simp [Fill.FitAll])
  | cons t ts ih =>
    cases fs with
    | nil => exact absurd hfs (by simp [Fill.FitAll])
    | cons f fs => exact ⟨hfs.1, ih hfs.2⟩

/-- A field that takes one node was filled by an expansion. -/
theorem Fill.exists_node_of_fits {e : Encoding} {admits : NodeType → Expansion → Prop}
    {t : NodeType} {f : Fill} (ht : takesOne e t) (hf : f.Fits e admits t) :
    ∃ r inner, f = .node (.expand r inner) ∧ admits t r ∧
      Fill.FitAll e admits r.fieldTypes inner := by
  cases f with
  | node p =>
    obtain ⟨r, inner⟩ := p
    obtain ⟨-, hr, hp⟩ := hf
    exact ⟨r, inner, rfl, hr, by rwa [Parse.Fits] at hp⟩
  | list ps =>
    obtain ⟨⟨hc, he⟩, -⟩ := hf
    simp [takesOne, hc, he] at ht
  | text pieces => exact absurd hf.1 ht.ne_token
  | token k => exact absurd hf.1 ht.ne_token

/-- A text field that takes one token was filled by one. -/
theorem Fill.exists_token_of_fits {e : Encoding} {admits : NodeType → Expansion → Prop}
    {t : NodeType} {f : Fill} (ht : t.constraint = .token) (he : e.splitLeaves = false)
    (hf : f.Fits e admits t) : ∃ k, f = .token k := by
  cases f with
  | token k => exact ⟨k, rfl⟩
  | node p => simp [Fill.Fits, takesOne, ht] at hf
  | list ps => simp [Fill.Fits, takesMany, ht] at hf
  | text pieces => simp [Fill.Fits, he] at hf

/-- If an action begins what fills a row of fields, then a rule that it applies is admitted at the
first of them, and the rest fills the fields that the action leaves. -/
theorem exists_fits_of_cons {e : Encoding} {admits : NodeType → Expansion → Prop} {t : NodeType}
    {ts us : List NodeType} {a : Action} {gs : List Fill} {w : List Action}
    (ha : Consumes e t ts a us) (hgs : Fill.FitAll e admits (t :: ts) gs)
    (hw : Fill.words gs = a :: w) :
    (∀ r, a = .applyRule (.expandTree r) → admits t r) ∧
      ∃ fs, Fill.FitAll e admits us fs ∧ Fill.words fs = w := by
  cases gs with
  | nil => exact absurd hgs (by simp [Fill.FitAll])
  | cons g gs =>
    obtain ⟨hg, hgs⟩ := hgs
    rw [Fill.words] at hw
    cases ha with
    | node r ht =>
      obtain ⟨r', inner, rfl, hr, hinner⟩ := Fill.exists_node_of_fits ht hg
      obtain ⟨hrule, rfl⟩ : r' = r ∧ Fill.words inner ++ Fill.words gs = w := by
        simpa [Fill.word, Parse.word] using hw
      subst hrule
      refine ⟨?_, inner ++ gs, Fill.fitAll_append hinner hgs, Fill.words_append inner gs⟩
      rintro _ ⟨⟩
      exact hr
    | element r ht =>
      obtain ⟨ps, rfl, hps⟩ := Fill.exists_list_of_fits ht hg
      cases ps with
      | nil => exact absurd hw (by simp [Fill.word, Parse.words])
      | cons p ps =>
        obtain ⟨r', inner⟩ := p
        obtain ⟨⟨hr, hp⟩, hps⟩ := hps
        rw [Parse.Fits] at hp
        have hword : r' = r ∧ Fill.words inner ++
            (Parse.words ps ++ .applyRule .closeVariadic :: Fill.words gs) = w := by
          simpa [Fill.word, Parse.words, Parse.word] using hw
        obtain ⟨rfl, rfl⟩ := hword
        refine ⟨?_, inner ++ .list ps :: gs, Fill.fitAll_append hp ⟨⟨ht, hps⟩, hgs⟩, ?_⟩
        · rintro _ ⟨⟩
          exact hr
        · simp [Fill.words_append, Fill.words, Fill.word]
    | closeList ht =>
      refine ⟨by simp, gs, hgs, ?_⟩
      obtain ⟨ps, rfl, -⟩ := Fill.exists_list_of_fits ht hg
      cases ps with
      | nil => simpa [Fill.word, Parse.words] using hw
      | cons p ps =>
        obtain ⟨r', inner⟩ := p
        exact absurd hw (by simp [Fill.word, Parse.words, Parse.word])
    | piece s ht he =>
      refine ⟨by simp, ?_⟩
      obtain ⟨pieces, rfl⟩ := Fill.exists_text_of_fits ht he hg
      cases pieces with
      | nil => exact absurd hw (by simp [Fill.word, pieceActions])
      | cons s' pieces =>
        refine ⟨.text pieces :: gs, ⟨⟨ht, he⟩, hgs⟩, ?_⟩
        have hword : s' = s ∧ (Fill.text pieces).word ++ Fill.words gs = w := by
          simpa [Fill.word, pieceActions] using hw
        rw [Fill.words, hword.2]
    | closeText ht he =>
      refine ⟨by simp, gs, hgs, ?_⟩
      obtain ⟨pieces, rfl⟩ := Fill.exists_text_of_fits ht he hg
      cases pieces with
      | nil => simpa [Fill.word, pieceActions] using hw
      | cons s' pieces => exact absurd hw (by simp [Fill.word, pieceActions])
    | token k ht he =>
      refine ⟨by simp, gs, hgs, ?_⟩
      obtain ⟨k', rfl⟩ := Fill.exists_token_of_fits ht he hg
      have hword : k' = k ∧ Fill.words gs = w := by simpa [Fill.word] using hw
      exact hword.2

/-- Some word fills any row of fields. -/
theorem exists_fitAll (e : Encoding) (ts : List NodeType) :
    ∃ fs, Fill.FitAll e admitsAll ts fs := by
  have one : ∀ t : NodeType, ∃ f : Fill, f.Fits e admitsAll t := by
    intro t
    have hleaf : (Parse.expand ⟨t, []⟩ []).Fits e admitsAll := by
      simp [Parse.Fits, Expansion.fieldTypes, Fill.FitAll]
    cases ht : t.constraint with
    | node => exact ⟨.node (.expand ⟨t, []⟩ []), .inl ht, trivial, hleaf⟩
    | variadic =>
      cases he : e.retainVariadic with
      | true => exact ⟨.list [], ⟨ht, he⟩, trivial⟩
      | false => exact ⟨.node (.expand ⟨t, []⟩ []), .inr ⟨ht, he⟩, trivial, hleaf⟩
    | token =>
      cases he : e.splitLeaves with
      | true => exact ⟨.text [], ht, he⟩
      | false => exact ⟨.token .closeNode, ht, he⟩
  induction ts with
  | nil => exact ⟨[], trivial⟩
  | cons t ts ih =>
    obtain ⟨f, hf⟩ := one t
    obtain ⟨fs, hfs⟩ := ih
    exact ⟨f :: fs, hf, hfs⟩

end TreeDerivation
