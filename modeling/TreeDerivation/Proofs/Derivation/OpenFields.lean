import TreeDerivation.Proofs.Derivation.Parse
import TreeDerivation.Proofs.Derivation.Run

/-!
# The fields that a derivation leaves open

The spine of a derivation stands for a row of fields that are still to be filled: those of the head
from its open field on, then those of each node above it that come after the field in which the node
below sits. An open-ended list above the head takes more nodes, so its field counts once more.

`openTypes_settle` says that closing filled nodes leaves this row alone. Hence an accepted action
does to the row what `Consumes` says (`consumes_of_apply`), the open field is the first of the row
(`headType?_eq_head?`), and what fills the row completes the derivation to a parse
(`Grown.exists_parse`). Conversely, replaying a parse leaves open what the rest of it fills, so each
of its rules meets at its head what it meets in the parse (`admits_of_fits`).
-/

namespace TreeDerivation

/-! ## The row of open fields -/

/-- The types of the fields of a node from its open field on. -/
def OpenNode.left (n : OpenNode) : List NodeType :=
  n.rule.fieldTypes.drop n.field

/-- The types of the fields that the nodes of a spine leave open, in the order in which they are
filled. -/
def openTypes (retain : Bool) : List OpenNode → List NodeType
  | [] => []
  | top :: rest => top.left ++ rest.flatMap fun n => (n.receive retain).left

theorem Expansion.length_fieldTypes (r : Expansion) : r.fieldTypes.length = r.arity := by
  simp [fieldTypes, arity]

theorem Expansion.getElem?_fieldTypes (r : Expansion) (i : Nat) :
    r.fieldTypes[i]? = r.fieldType? i := by
  simp [fieldTypes, fieldType?]

namespace OpenNode

theorem left_eq_nil_iff (n : OpenNode) : n.left = [] ↔ n.isFilled = true := by
  rw [left, List.drop_eq_nil_iff, Expansion.length_fieldTypes, isFilled, decide_eq_true_eq]

/-- An open node leaves its open field and the fields after it. -/
theorem exists_left_eq_cons {n : OpenNode} (h : n.isFilled = false) :
    ∃ t, n.fieldType? = some t ∧ n.left = t :: n.advance.left := by
  have hlt : n.field < n.rule.fieldTypes.length := by
    rw [Expansion.length_fieldTypes]
    simpa [isFilled] using h
  refine ⟨n.rule.fieldTypes[n.field], ?_, ?_⟩
  · rw [fieldType?, ← Expansion.getElem?_fieldTypes, List.getElem?_eq_getElem hlt]
  · exact List.drop_eq_getElem_cons hlt

theorem isFilled_of_fieldType? {n : OpenNode} {t : NodeType} (ht : n.fieldType? = some t) :
    n.isFilled = false := by
  rw [fieldType?, ← Expansion.getElem?_fieldTypes] at ht
  have hlt := (List.getElem?_eq_some_iff.mp ht).1
  rw [Expansion.length_fieldTypes] at hlt
  simpa [isFilled] using hlt

theorem receive_eq_self {n : OpenNode} {t : NodeType} {e : Encoding}
    (ht : n.fieldType? = some t) (h : takesMany e t) : n.receive e.retainVariadic = n := by
  simp [receive, ht, h.1, h.2]

theorem receive_eq_advance {n : OpenNode} {t : NodeType} {e : Encoding}
    (ht : n.fieldType? = some t) (h : takesOne e t) : n.receive e.retainVariadic = n.advance := by
  rcases h with h | ⟨h, he⟩
  · simp [receive, ht, h]
  · simp [receive, he]

end OpenNode

/-! ## Closing filled nodes -/

/-- Closing filled nodes neither opens nor fills a field. -/
theorem openTypes_settle (retain : Bool) (top : OpenNode) (rest : List OpenNode) :
    openTypes retain (settle retain top rest) = openTypes retain (top :: rest) := by
  induction rest generalizing top with
  | nil =>
    unfold settle
    split
    · rename_i h
      simp [openTypes, (top.left_eq_nil_iff).mpr h]
    · rfl
  | cons up rest ih =>
    unfold settle
    split
    · rename_i h
      rw [ih]
      simp [openTypes, (top.left_eq_nil_iff).mpr h]
    · rfl

/-- After closing, the innermost open node has an open field. -/
theorem isFilled_of_mem_head?_settle (retain : Bool) (top : OpenNode) (rest : List OpenNode) :
    ∀ n ∈ (settle retain top rest).head?, n.isFilled = false := by
  induction rest generalizing top with
  | nil =>
    unfold settle
    split
    · simp
    · rename_i h
      simpa using h
  | cons up rest ih =>
    unfold settle
    split
    · exact ih _
    · rename_i h
      simpa using h

theorem settle_of_not_isFilled {retain : Bool} {top : OpenNode} (h : top.isFilled = false)
    (rest : List OpenNode) : settle retain top rest = top :: rest := by
  cases rest <;> simp [settle, h]

/-- A filled node gives its place to the node above it. -/
theorem settle_of_isFilled {retain : Bool} {top : OpenNode} (h : top.isFilled = true)
    (up : OpenNode) (rest : List OpenNode) :
    settle retain top (up :: rest) = settle retain (up.receive retain) rest := by
  simp [settle, h]

namespace Derivation

/-- The types of the fields that a derivation leaves open. -/
def openTypes (d : Derivation) : List NodeType :=
  TreeDerivation.openTypes d.encoding.retainVariadic d.spine

/-! ## The open field -/

/-- The innermost open node has an open field. -/
def HeadOpen (d : Derivation) : Prop :=
  ∀ n ∈ d.spine.head?, n.isFilled = false

theorem headOpen_extend {d : Derivation} (h : d.HeadOpen) (a : Action) (f : Effect) :
    (d.extend a f).HeadOpen := by
  cases f with
  | opens r => exact isFilled_of_mem_head?_settle _ _ _
  | stays => exact h
  | fills =>
    simp only [HeadOpen, extend, moved]
    cases d.spine with
    | nil => simp
    | cons top rest => exact isFilled_of_mem_head?_settle _ _ _

theorem Grown.headOpen {e : Encoding} {admits : Option NodeType → Action → Prop}
    {d : Derivation} (h : Grown e admits d) : d.HeadOpen := by
  induction h with
  | empty => simp [HeadOpen, Derivation.empty]
  | apply a _ _ ha ih =>
    obtain ⟨f, -, rfl⟩ := apply_eq_ok_iff.mp ha
    exact headOpen_extend ih a f

/-- Where the spine is not empty there is an open field, the first of the row. -/
theorem HeadOpen.exists_top {d : Derivation} (h : d.HeadOpen) {top : OpenNode}
    {rest : List OpenNode} (hs : d.spine = top :: rest) :
    ∃ t, top.fieldType? = some t ∧ d.headType? = some t ∧ top.isFilled = false ∧
      top.left = t :: top.advance.left := by
  have hfilled : top.isFilled = false := h top (by simp [hs])
  obtain ⟨t, ht, hleft⟩ := OpenNode.exists_left_eq_cons hfilled
  exact ⟨t, ht, by simp [headType?, hs, ht], hfilled, hleft⟩

theorem headType?_eq_head? {d : Derivation} (h : d.HeadOpen) :
    d.headType? = d.openTypes.head? := by
  cases hs : d.spine with
  | nil => simp [headType?, openTypes, TreeDerivation.openTypes, hs]
  | cons top rest =>
    obtain ⟨t, -, hhead, -, hleft⟩ := h.exists_top hs
    simp [hhead, openTypes, TreeDerivation.openTypes, hs, hleft]

/-- A derivation is complete exactly when it was begun and no field is open. -/
theorem isComplete_iff {d : Derivation} (h : d.HeadOpen) :
    d.isComplete = true ↔ d.isEmpty = false ∧ d.openTypes = [] := by
  cases hs : d.spine with
  | nil => simp [isComplete, openTypes, TreeDerivation.openTypes, hs]
  | cons top rest =>
    obtain ⟨t, -, -, -, hleft⟩ := h.exists_top hs
    simp [isComplete, openTypes, TreeDerivation.openTypes, hs, hleft]

/-! ## What an accepted action does to the open fields -/

theorem openTypes_opens (d : Derivation) (a : Action) (r : Expansion) :
    (d.extend a (.opens r)).openTypes =
      r.fieldTypes ++ d.spine.flatMap fun n => (n.receive d.encoding.retainVariadic).left := by
  simp only [openTypes, extend, moved]
  rw [openTypes_settle]
  rfl

theorem openTypes_fills {d : Derivation} {top : OpenNode} {rest : List OpenNode}
    (hs : d.spine = top :: rest) (a : Action) :
    (d.extend a .fills).openTypes = top.advance.left ++
      rest.flatMap fun n => (n.receive d.encoding.retainVariadic).left := by
  simp only [openTypes, extend, moved, hs]
  rw [openTypes_settle]
  rfl

theorem openTypes_stays (d : Derivation) (a : Action) :
    (d.extend a .stays).openTypes = d.openTypes := rfl

/-- The effect of a rule or token on a head, read backwards: which heads it fits. -/
theorem effectAt_eq_ok {e : Encoding} {t : NodeType} {a : Action} {f : Effect}
    (h : effectAt e (some t.constraint) a = .ok f) :
    (∃ r, a = .applyRule (.expandTree r) ∧ f = .opens r ∧ (takesOne e t ∨ takesMany e t)) ∨
    (a = .applyRule .closeVariadic ∧ f = .fills ∧ takesMany e t) ∨
    (∃ k, a = .generateToken k ∧ t.constraint = .token ∧
      f = if k.isClose ∨ ¬ e.splitLeaves then .fills else .stays) := by
  rcases a with (r | _) | k
  · left
    refine ⟨r, rfl, ?_⟩
    cases ht : t.constraint with
    | token => simp [effectAt, ht] at h
    | node =>
      simp only [effectAt, ht, Except.ok.injEq] at h
      exact ⟨h.symm, .inl (.inl ht)⟩
    | variadic =>
      simp only [effectAt, ht, Except.ok.injEq] at h
      cases he : e.retainVariadic with
      | true => exact ⟨h.symm, .inr ⟨ht, he⟩⟩
      | false => exact ⟨h.symm, .inl (.inr ⟨ht, he⟩)⟩
  · right; left
    cases ht : t.constraint with
    | token => simp [effectAt, ht] at h
    | node => simp [effectAt, ht] at h
    | variadic =>
      cases he : e.retainVariadic with
      | true => exact ⟨rfl, by simpa [effectAt, ht, he] using h.symm, ht, he⟩
      | false => simp [effectAt, ht, he] at h
  · right; right
    cases ht : t.constraint with
    | token => exact ⟨k, rfl, rfl, by simpa [effectAt, ht] using h.symm⟩
    | node => simp [effectAt, ht] at h
    | variadic => simp [effectAt, ht] at h

/-- An accepted action meets an open field, and does to the row of open fields what it does to the
row in a parse. -/
theorem consumes_of_apply {d d' : Derivation} {a : Action} (hd : d.HeadOpen)
    (hne : d.isEmpty = false) (h : d.apply a = .ok d') :
    ∃ t ts, d.openTypes = t :: ts ∧ d.headType? = some t ∧
      Consumes d.encoding t ts a d'.openTypes := by
  obtain ⟨f, hf, rfl⟩ := apply_eq_ok_iff.mp h
  have hopen : d.isComplete = false := by
    cases hc : d.isComplete with
    | false => rfl
    | true => exact absurd hf (by simp [effect_of_isComplete hc])
  cases hs : d.spine with
  | nil => simp [isComplete, hs, hne] at hopen
  | cons top rest =>
    obtain ⟨t, ht, hhead, -, hleft⟩ := hd.exists_top hs
    have hrow : d.openTypes = t :: (top.advance.left ++
        rest.flatMap fun n => (n.receive d.encoding.retainVariadic).left) := by
      simp [openTypes, TreeDerivation.openTypes, hs, hleft]
    refine ⟨t, _, hrow, hhead, ?_⟩
    simp only [effect, hopen, Bool.false_eq_true, ↓reduceIte, hhead, Option.map_some] at hf
    rcases effectAt_eq_ok hf with
      ⟨r, rfl, rfl, hone | hmany⟩ | ⟨rfl, rfl, hmany⟩ | ⟨k, rfl, htok, rfl⟩
    · rw [openTypes_opens, hs, List.flatMap_cons, OpenNode.receive_eq_advance ht hone]
      exact .node r hone
    · rw [openTypes_opens, hs, List.flatMap_cons, OpenNode.receive_eq_self ht hmany, hleft,
        List.cons_append]
      exact .element r hmany
    · rw [openTypes_fills hs]
      exact .closeList hmany
    · cases hsplit : d.encoding.splitLeaves with
      | false =>
        simp only [Bool.false_eq_true, not_false_eq_true, or_true, ↓reduceIte]
        rw [openTypes_fills hs]
        exact .token k htok hsplit
      | true =>
        cases k with
        | closeNode =>
          simp only [Token.isClose, true_or, ↓reduceIte]
          rw [openTypes_fills hs]
          exact .closeText htok hsplit
        | value s =>
          simp only [Token.isClose, Bool.false_eq_true, not_true_eq_false, or_false, ↓reduceIte]
          rw [openTypes_stays, hrow]
          exact .piece s htok hsplit

/-- The first action opens the root. -/
theorem exists_of_apply_of_isEmpty {d d' : Derivation} {a : Action} (hne : d.isEmpty = true)
    (hs : d.spine = []) (h : d.apply a = .ok d') :
    ∃ r, a = .applyRule (.expandTree r) ∧ d'.openTypes = r.fieldTypes := by
  obtain ⟨f, hf, rfl⟩ := apply_eq_ok_iff.mp h
  have hopen : d.isComplete = false := by simp [isComplete, hne]
  have hhead : d.headType? = none := by simp [headType?, hs]
  simp only [effect, hopen, hhead] at hf
  rcases a with (r | _) | k
  · refine ⟨r, rfl, ?_⟩
    have hfr : f = .opens r := by simpa [effectAt] using hf.symm
    rw [hfr, openTypes_opens, hs, List.flatMap_nil, List.append_nil]
  · simp [effectAt] at hf
  · simp [effectAt] at hf

/-! ## Completing a derivation to a parse -/

theorem Grown.spine_eq_nil {e : Encoding} {admits : Option NodeType → Action → Prop}
    {d : Derivation} (h : Grown e admits d) (hne : d.isEmpty = true) : d.spine = [] := by
  cases h with
  | empty => rfl
  | apply a _ _ ha =>
    obtain ⟨f, -, rfl⟩ := apply_eq_ok_iff.mp ha
    rw [isEmpty_extend] at hne
    exact absurd hne (by simp)

/-- What fills the open fields of a derivation completes its actions to a parse. If every action
met a condition at its head, the rules of the parse meet it at their fields. -/
theorem Grown.exists_parse {e : Encoding} {admits : Option NodeType → Action → Prop}
    {d : Derivation} (h : Grown e admits d) (hne : d.isEmpty = false) {fs : List Fill}
    (hfs : Fill.FitAll e (fun t r => admits (some t) (.applyRule (.expandTree r))) d.openTypes fs) :
    ∃ p : Parse, p.Fits e (fun t r => admits (some t) (.applyRule (.expandTree r))) ∧
      admits none (.applyRule (.expandTree p.rule)) ∧ p.word = d.actions ++ Fill.words fs := by
  induction h generalizing fs with
  | empty => simp [Derivation.empty, isEmpty] at hne
  | @apply d d' a hd hadmits ha ih =>
    have hactions : d'.actions = d.actions ++ [a] := by
      obtain ⟨f, -, rfl⟩ := apply_eq_ok_iff.mp ha
      exact actions_extend d a f
    cases hempty : d.isEmpty with
    | true =>
      obtain ⟨r, rfl, hopen⟩ := exists_of_apply_of_isEmpty hempty (hd.spine_eq_nil hempty) ha
      have hnil : d.actions = [] := by
        have hsteps : d.steps = #[] := by simpa [isEmpty] using hempty
        simp [actions, hsteps]
      refine ⟨.expand r fs, by rwa [Parse.Fits, ← hopen], ?_, ?_⟩
      · simpa [headType?, hd.spine_eq_nil hempty, Parse.rule] using hadmits
      · rw [hactions, hnil, Parse.word]
        rfl
    | false =>
      -- the fields before the action are filled by the action and what fills the fields after it
      obtain ⟨t, ts, hrow, hhead, hconsumes⟩ := consumes_of_apply hd.headOpen hempty ha
      rw [hd.encoding_eq] at hconsumes
      obtain ⟨gs, hgs, hword⟩ := exists_fits_cons hconsumes
        (fun r hr => by rw [← hr, ← hhead]; exact hadmits) hfs
      obtain ⟨p, hp, hroot, hpw⟩ := ih hempty (hrow ▸ hgs)
      refine ⟨p, hp, hroot, ?_⟩
      rw [hpw, hword, hactions, List.append_assoc]
      rfl

/-- If what fills the open fields meets a condition, every rule in it met the condition at its head.
-/
theorem Grown.admits_of_fitAll {e : Encoding} {admits : NodeType → Expansion → Prop}
    {d d₁ d₂ : Derivation} {fs : List Fill} {u v : List Action} {r : Expansion}
    (h : Grown e (fun _ _ => True) d) (hne : d.isEmpty = false)
    (hfs : Fill.FitAll e admits d.openTypes fs)
    (hword : Fill.words fs = u ++ .applyRule (.expandTree r) :: v) (hu : d.applyAll u = .ok d₁)
    (hr : d₁.apply (.applyRule (.expandTree r)) = .ok d₂) :
    ∃ t, d₁.headType? = some t ∧ admits t r := by
  induction u generalizing d fs with
  | nil =>
    obtain rfl : d = d₁ := Except.ok.inj hu
    obtain ⟨t, ts, hrow, hhead, hconsumes⟩ := consumes_of_apply h.headOpen hne hr
    rw [h.encoding_eq] at hconsumes
    obtain ⟨hadmits, -⟩ := exists_fits_of_cons hconsumes (hrow ▸ hfs) hword
    exact ⟨t, hhead, hadmits r rfl⟩
  | cons b u ih =>
    obtain ⟨d', hb, hu⟩ := exists_of_applyAll_cons hu
    obtain ⟨t, ts, hrow, -, hconsumes⟩ := consumes_of_apply h.headOpen hne hb
    rw [h.encoding_eq] at hconsumes
    obtain ⟨-, gs, hgs, hgsword⟩ := exists_fits_of_cons hconsumes (hrow ▸ hfs) hword
    have hne' : d'.isEmpty = false := by
      obtain ⟨f, -, rfl⟩ := apply_eq_ok_iff.mp hb
      exact isEmpty_extend d b f
    exact ih (.apply b h trivial hb) hne' hgs hgsword hu

/-- Every rule of a parse that meets a condition met it at its head, but for the rule at the
root. -/
theorem admits_of_fits {e : Encoding} {admits : NodeType → Expansion → Prop} {p : Parse}
    (hp : p.Fits e admits) {u v : List Action} {r : Expansion} {d d' : Derivation}
    (hword : p.word = u ++ .applyRule (.expandTree r) :: v) (hu : replay e u = .ok d)
    (hr : d.apply (.applyRule (.expandTree r)) = .ok d') :
    d = empty e ∧ r = p.rule ∨ ∃ t, d.headType? = some t ∧ admits t r := by
  obtain ⟨root, fs⟩ := p
  rw [Parse.word] at hword
  cases u with
  | nil =>
    obtain rfl : empty e = d := Except.ok.inj hu
    obtain ⟨hroot, -⟩ := List.cons.inj hword
    exact .inl ⟨rfl, by simpa [Parse.rule] using hroot.symm⟩
  | cons a u =>
    obtain ⟨rfl, hfs⟩ := List.cons.inj hword
    obtain ⟨d₁, hd₁, hu⟩ := exists_of_applyAll_cons hu
    have hgrown : Grown e (fun _ _ => True) d₁ := .apply _ .empty trivial hd₁
    obtain ⟨r', hr', hopen⟩ := exists_of_apply_of_isEmpty rfl rfl hd₁
    obtain rfl : root = r' := by simpa using hr'
    have hne : d₁.isEmpty = false := by
      obtain ⟨f, -, rfl⟩ := apply_eq_ok_iff.mp hd₁
      exact isEmpty_extend _ _ f
    rw [Parse.Fits, ← hopen] at hp
    exact .inr (hgrown.admits_of_fitAll hne hp hfs hu hr)

/-- The actions of a complete derivation are the word of a parse. -/
theorem Grown.exists_parse_of_isComplete {e : Encoding} {admits : Option NodeType → Action → Prop}
    {d : Derivation} (h : Grown e admits d) (hd : d.isComplete = true) :
    ∃ p : Parse, p.Fits e (fun t r => admits (some t) (.applyRule (.expandTree r))) ∧
      p.word = d.actions := by
  obtain ⟨hne, hopen⟩ := (isComplete_iff h.headOpen).mp hd
  have hfits : Fill.FitAll e (fun t r => admits (some t) (.applyRule (.expandTree r)))
      d.openTypes [] := hopen ▸ trivial
  obtain ⟨p, hp, -, hword⟩ := h.exists_parse hne hfits
  rw [Fill.words, List.append_nil] at hword
  exact ⟨p, hp, hword⟩

end Derivation

end TreeDerivation
