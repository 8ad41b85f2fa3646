import TreeDerivation.Failure
import TreeDerivation.Proofs.Text.Delimited
import TreeDerivation.Text.WordChar

/-!
# What the one-line form of an action shows

The one-line form of an action leaves nothing out: actions whose names have no blank, star, colon,
comma or closing parenthesis in them are written alike only if they are equal
(`Action.display_eq_display_iff`). Names of letters, digits and underscores are such names
(`Action.plain_of_isWordChar`), and the texts of tokens may be any.

An action is told apart whatever is written behind it, so it can be read off a message that quotes
it and off a list of actions, however these are separated. Names are not quoted, and the constraint
of a type is a suffix, so what tells the parts apart is the first mark behind each name.
-/

namespace TreeDerivation

open Text (Plain Without)

/-- The names of node types and fields in an action. -/
def Action.names : Action → List String
  | .applyRule (.expandTree e) =>
    e.parent.typeName :: e.children.flatMap fun (name, t) => [name, t.typeName]
  | _ => []

/-- The characters that show how an action is put together, behind a name. -/
def Action.marks : List Char := [' ', '*', ':', ',', ')']

/-- Words of any script are no marks. -/
theorem Action.plain_of_isWordChar {names : List String}
    (h : ∀ name ∈ names, ∀ c ∈ name.toList, Text.isWordChar c = true) : Plain marks names := by
  intro name hname c hc hmark
  have hmarks : marks.all (fun c => !Text.isWordChar c) = true := by decide +kernel
  have hapart := List.all_eq_true.mp hmarks c hmark
  rw [h name hname c hc] at hapart
  exact absurd hapart (by decide)

/-! ## Node types -/

/-- Whether a text goes on as it does behind a node type. -/
def EndsType (r : List Char) : Prop :=
  ∃ c ∈ [' ', ',', ')'], ∃ rest, r = c :: rest

/-- How a constraint is written, behind the name. -/
def Constraint.suffix : Constraint → List Char
  | .node => []
  | .variadic => ['*']
  | .token => [':', 't', 'o', 'k', 'e', 'n']

theorem NodeType.display_append (t : NodeType) (r : List Char) :
    t.display.toList ++ r = t.typeName.toList ++ (t.constraint.suffix ++ r) := by
  obtain ⟨name, constraint⟩ := t
  cases constraint <;> simp [display, Constraint.suffix]

theorem Constraint.suffix_append_eq_cons (k : Constraint) {r : List Char} (hr : EndsType r) :
    ∃ c ∈ Action.marks, ∃ rest, k.suffix ++ r = c :: rest := by
  cases k with
  | node =>
    obtain ⟨c, hc, rest, rfl⟩ := hr
    refine ⟨c, ?_, rest, rfl⟩
    have hmarks : ∀ c ∈ [' ', ',', ')'], c ∈ Action.marks := by simp [Action.marks]
    exact hmarks c hc
  | variadic => exact ⟨'*', by decide, r, rfl⟩
  | token => exact ⟨':', by decide, _, rfl⟩

theorem EndsType.ne_cons {r : List Char} (hr : EndsType r) {c : Char} (hc : c ∈ ['*', ':'])
    (rest : List Char) : r ≠ c :: rest := by
  rintro rfl
  obtain ⟨d, hd, rest', heq⟩ := hr
  obtain ⟨rfl, -⟩ := List.cons.inj heq
  have hapart : ∀ c ∈ ['*', ':'], c ∉ [' ', ',', ')'] := by simp
  exact hapart c hc hd

theorem Constraint.suffix_append_inj {k l : Constraint} {r s : List Char} (hr : EndsType r)
    (hs : EndsType s) (h : k.suffix ++ r = l.suffix ++ s) : k = l ∧ r = s := by
  cases k with
  | node =>
    cases l with
    | node => exact ⟨rfl, h⟩
    | variadic => exact absurd h (hr.ne_cons (by decide) _)
    | token => exact absurd h (hr.ne_cons (by decide) _)
  | variadic =>
    cases l with
    | node => exact absurd h.symm (hs.ne_cons (by decide) _)
    | variadic => exact ⟨rfl, List.append_cancel_left h⟩
    | token => exact absurd (List.cons.inj h).1 (by decide)
  | token =>
    cases l with
    | node => exact absurd h.symm (hs.ne_cons (by decide) _)
    | variadic => exact absurd (List.cons.inj h).1 (by decide)
    | token => exact ⟨rfl, List.append_cancel_left h⟩

theorem NodeType.display_append_inj {t u : NodeType} {r s : List Char}
    (ht : Without Action.marks t.typeName) (hu : Without Action.marks u.typeName)
    (hr : EndsType r) (hs : EndsType s) (h : t.display.toList ++ r = u.display.toList ++ s) :
    t = u ∧ r = s := by
  rw [display_append, display_append] at h
  obtain ⟨c, hc, rest, hk⟩ := t.constraint.suffix_append_eq_cons hr
  obtain ⟨d, hd, rest', hl⟩ := u.constraint.suffix_append_eq_cons hs
  rw [hk, hl] at h
  obtain ⟨hname, hcd, hrest⟩ := Text.name_append_inj ht hu hc hd h
  have hsuffix : t.constraint.suffix ++ r = u.constraint.suffix ++ s := by
    rw [hk, hl, hcd, hrest]
  obtain ⟨hconstraint, hrs⟩ := Constraint.suffix_append_inj hr hs hsuffix
  refine ⟨?_, hrs⟩
  cases t
  cases u
  simp_all

/-! ## Rules -/

/-- What is written between the parent and the fields of an expansion. -/
def arrow : List Char := [' ', '-', '>', ' ', '(']

theorem endsType_arrow (r : List Char) : EndsType (arrow ++ r) :=
  ⟨' ', by decide, _, rfl⟩

theorem displayField_append (f : String × NodeType) (r : List Char) :
    (displayField f).toList ++ r = f.1.toList ++ ':' :: (' ' :: (f.2.display.toList ++ r)) := by
  simp [displayField]

theorem Expansion.display_append (e : Expansion) (r : List Char) :
    e.display.toList ++ r = e.parent.display.toList ++ (arrow ++
      ([',', ' '].intercalate (e.children.map fun f => (displayField f).toList) ++ ')' :: r)) := by
  rw [display, String.toList_append, String.toList_append, String.toList_append,
    Text.toList_joined, List.map_map]
  simp [arrow, Function.comp_def]

theorem Action.plain_names_expandTree {e : Expansion}
    (h : Plain marks (applyRule (.expandTree e)).names) :
    Without marks e.parent.typeName ∧
      ∀ f ∈ e.children, Without marks f.1 ∧ Without marks f.2.typeName := by
  obtain ⟨hparent, hfields⟩ := Text.plain_cons.mp h
  refine ⟨hparent, fun f hf => ⟨?_, ?_⟩⟩
  · exact hfields f.1 (List.mem_flatMap.mpr ⟨f, hf, List.mem_cons_self⟩)
  · exact hfields f.2.typeName
      (List.mem_flatMap.mpr ⟨f, hf, List.mem_cons_of_mem _ List.mem_cons_self⟩)

theorem Expansion.display_append_inj {e e' : Expansion} {r s : List Char}
    (he : Plain Action.marks (Action.applyRule (.expandTree e)).names)
    (he' : Plain Action.marks (Action.applyRule (.expandTree e')).names)
    (h : e.display.toList ++ r = e'.display.toList ++ s) : e = e' ∧ r = s := by
  obtain ⟨hparent, hfields⟩ := Action.plain_names_expandTree he
  obtain ⟨hparent', hfields'⟩ := Action.plain_names_expandTree he'
  rw [display_append, display_append] at h
  obtain ⟨hp, hrest⟩ := NodeType.display_append_inj hparent hparent' (endsType_arrow _)
    (endsType_arrow _) h
  have hfield : ∀ f ∈ e.children, ∀ g ∈ e'.children, ∀ r s, Text.EndsItem ')' r →
      Text.EndsItem ')' s → (displayField f).toList ++ r = (displayField g).toList ++ s →
      f = g ∧ r = s := by
    intro f hf g hg r s hr hs hfg
    have hends : ∀ r, Text.EndsItem ')' r → EndsType r := by
      rintro r ⟨rest, rfl | rfl⟩
      · exact ⟨',', by decide, rest, rfl⟩
      · exact ⟨')', by decide, rest, rfl⟩
    rw [displayField_append, displayField_append] at hfg
    obtain ⟨hname, -, htype⟩ := Text.name_append_inj (hfields f hf).1 (hfields' g hg).1
      (by decide) (by decide) hfg
    obtain ⟨ht, hrs⟩ := NodeType.display_append_inj (hfields f hf).2 (hfields' g hg).2
      (hends r hr) (hends s hs) (List.cons.inj htype).2
    exact ⟨Prod.ext hname ht, hrs⟩
  have hopens : ∀ f : String × NodeType, Without Action.marks f.1 →
      ∀ r s, (displayField f).toList ++ r ≠ ')' :: s := by
    intro f hf r s
    rw [displayField_append]
    exact Text.name_append_ne hf (by decide) (by decide) (by decide)
  obtain ⟨hchildren, hrs⟩ := Text.joined_append_inj (by decide) hfield
    (fun f hf => hopens f (hfields f hf).1) (fun g hg => hopens g (hfields' g hg).1)
    (List.append_cancel_left hrest)
  rw [List.map_id', List.map_id'] at hchildren
  refine ⟨?_, hrs⟩
  cases e
  cases e'
  simp_all

/-- The sentinel of lists is no expansion, since behind the name of a parent there is a blank, a
star or a colon. -/
theorem Expansion.display_append_ne {e : Expansion} (he : Without Action.marks e.parent.typeName)
    (r s : List Char) : e.display.toList ++ r ≠ "<close-variadic>".toList ++ ')' :: s := by
  intro h
  rw [display_append, NodeType.display_append] at h
  have hmarks : ∀ rest, ∃ c ∈ [' ', '*', ':'], ∃ rest',
      e.parent.constraint.suffix ++ (arrow ++ rest) = c :: rest' := by
    intro rest
    cases e.parent.constraint with
    | node => exact ⟨' ', by decide, _, rfl⟩
    | variadic => exact ⟨'*', by decide, _, rfl⟩
    | token => exact ⟨':', by decide, _, rfl⟩
  obtain ⟨c, hc, rest', heq⟩ := hmarks _
  rw [heq] at h
  have hmem : ∀ c ∈ [' ', '*', ':'], c ∈ Action.marks ∧ c ≠ ')' := by simp [Action.marks]
  obtain ⟨-, hclose, -⟩ := Text.name_append_inj he (by decide) (hmem c hc).1 (by decide) h
  exact (hmem c hc).2 hclose

theorem Rule.display_append_inj {q q' : Rule} {r s : List Char}
    (hq : Plain Action.marks (Action.applyRule q).names)
    (hq' : Plain Action.marks (Action.applyRule q').names)
    (h : q.display.toList ++ ')' :: r = q'.display.toList ++ ')' :: s) : q = q' ∧ r = s := by
  cases q with
  | expandTree e =>
    cases q' with
    | expandTree e' =>
      obtain ⟨rfl, hrs⟩ := Expansion.display_append_inj hq hq' h
      exact ⟨rfl, (List.cons.inj hrs).2⟩
    | closeVariadic =>
      exact absurd h (Expansion.display_append_ne (Action.plain_names_expandTree hq).1 _ _)
  | closeVariadic =>
    cases q' with
    | expandTree e' =>
      exact absurd h.symm (Expansion.display_append_ne (Action.plain_names_expandTree hq').1 _ _)
    | closeVariadic => exact ⟨rfl, (List.cons.inj (List.append_cancel_left h)).2⟩

/-! ## Tokens and actions -/

theorem Token.display_append_inj {t u : Token} {r s : List Char}
    (h : t.display.toList ++ r = u.display.toList ++ s) : t = u ∧ r = s := by
  cases t with
  | value text =>
    cases u with
    | value other =>
      obtain ⟨rfl, hrs⟩ := Text.quoted_append_inj h
      exact ⟨rfl, hrs⟩
    | closeNode =>
      rw [display, Text.quoted_append] at h
      exact absurd (List.cons.inj h).1 (by decide)
  | closeNode =>
    cases u with
    | value other =>
      rw [display, display, Text.quoted_append] at h
      exact absurd (List.cons.inj h).1 (by decide)
    | closeNode => exact ⟨rfl, List.append_cancel_left h⟩

theorem Action.display_applyRule_append (q : Rule) (r : List Char) :
    (applyRule q).display.toList ++ r = "ApplyRule(".toList ++ (q.display.toList ++ ')' :: r) := by
  show ("ApplyRule(" ++ q.display ++ ")").toList ++ r = _
  simp

theorem Action.display_generateToken_append (t : Token) (r : List Char) :
    (generateToken t).display.toList ++ r =
      "GenerateToken(".toList ++ (t.display.toList ++ ')' :: r) := by
  show ("GenerateToken(" ++ t.display ++ ")").toList ++ r = _
  simp

theorem Action.display_append_inj {a b : Action} {r s : List Char} (ha : Plain marks a.names)
    (hb : Plain marks b.names) (h : a.display.toList ++ r = b.display.toList ++ s) :
    a = b ∧ r = s := by
  cases a with
  | applyRule q =>
    cases b with
    | applyRule q' =>
      rw [display_applyRule_append, display_applyRule_append] at h
      obtain ⟨rfl, hrs⟩ := Rule.display_append_inj ha hb (List.append_cancel_left h)
      exact ⟨rfl, hrs⟩
    | generateToken t =>
      rw [display_applyRule_append, display_generateToken_append] at h
      exact absurd (List.cons.inj h).1 (by decide)
  | generateToken t =>
    cases b with
    | applyRule q' =>
      rw [display_applyRule_append, display_generateToken_append] at h
      exact absurd (List.cons.inj h).1 (by decide)
    | generateToken u =>
      rw [display_generateToken_append, display_generateToken_append] at h
      obtain ⟨rfl, hrs⟩ := Token.display_append_inj (List.append_cancel_left h)
      exact ⟨rfl, (List.cons.inj hrs).2⟩

theorem Action.display_ne_nil (a : Action) : a.display.toList ≠ [] := by
  intro h
  cases a with
  | applyRule q =>
    have happend := display_applyRule_append q []
    rw [h] at happend
    exact nomatch happend
  | generateToken t =>
    have happend := display_generateToken_append t []
    rw [h] at happend
    exact nomatch happend

/-! ## Texts that show actions -/

/-- Actions with a separator before each of them. -/
theorem Action.eq_of_flatMap_display {sep : List Char} {as bs : List Action}
    (has : ∀ a ∈ as, Plain marks a.names) (hbs : ∀ b ∈ bs, Plain marks b.names)
    (h : (as.map (·.display.toList)).flatMap (sep ++ ·) =
      (bs.map (·.display.toList)).flatMap (sep ++ ·)) : as = bs := by
  induction as generalizing bs with
  | nil =>
    cases bs with
    | nil => rfl
    | cons b bs =>
      have hempty := (List.append_eq_nil_iff.mp h.symm).1
      exact absurd (List.append_eq_nil_iff.mp hempty).2 b.display_ne_nil
  | cons a as ih =>
    cases bs with
    | nil =>
      have hempty := (List.append_eq_nil_iff.mp h).1
      exact absurd (List.append_eq_nil_iff.mp hempty).2 a.display_ne_nil
    | cons b bs =>
      obtain ⟨ha, has'⟩ := List.forall_mem_cons.mp has
      obtain ⟨hb, hbs'⟩ := List.forall_mem_cons.mp hbs
      simp only [List.map_cons, List.flatMap_cons, List.append_assoc] at h
      obtain ⟨hab, hrest⟩ := display_append_inj ha hb (List.append_cancel_left h)
      rw [hab, ih has' hbs' hrest]

/-- Actions with a separator between them. -/
theorem Action.eq_of_intercalate_display {sep : String} {as bs : List Action}
    (has : ∀ a ∈ as, Plain marks a.names) (hbs : ∀ b ∈ bs, Plain marks b.names)
    (h : sep.intercalate (as.map display) = sep.intercalate (bs.map display)) : as = bs := by
  have htext : sep.toList.intercalate (as.map (·.display.toList)) =
      sep.toList.intercalate (bs.map (·.display.toList)) := by
    have hlist := congrArg String.toList h
    rwa [String.toList_intercalate, String.toList_intercalate, List.map_map, List.map_map]
      at hlist
  cases as with
  | nil =>
    cases bs with
    | nil => rfl
    | cons b bs =>
      rw [List.map_cons, Text.intercalate_cons] at htext
      exact absurd (List.append_eq_nil_iff.mp htext.symm).1 b.display_ne_nil
  | cons a as =>
    cases bs with
    | nil =>
      rw [List.map_cons, Text.intercalate_cons] at htext
      exact absurd (List.append_eq_nil_iff.mp htext).1 a.display_ne_nil
    | cons b bs =>
      obtain ⟨ha, has'⟩ := List.forall_mem_cons.mp has
      obtain ⟨hb, hbs'⟩ := List.forall_mem_cons.mp hbs
      rw [List.map_cons, List.map_cons, Text.intercalate_cons, Text.intercalate_cons] at htext
      obtain ⟨hab, hrest⟩ := display_append_inj ha hb htext
      rw [hab, eq_of_flatMap_display has' hbs' hrest]

theorem Cause.message_rejected (e : Expectation) (a : Action) (i : Nat) :
    (Cause.rejected e a i).message =
      "Invalid action: " ++ (a.display ++ " (expected: " ++ e.text ++ ")") :=
  rfl

/-- Actions are told apart by how they are written, whatever is written behind them, by the messages
that reject them, and in lists of them, whatever stands between them. -/
theorem Action.display_eq_display_iff {a b : Action} (ha : Plain marks a.names)
    (hb : Plain marks b.names) :
    (a.display = b.display ↔ a = b) ∧
    (∀ r s : String, a.display ++ r = b.display ++ s → a = b ∧ r = s) ∧
    (∀ (e e' : Expectation) (i j : Nat),
      (Cause.rejected e a i).message = (Cause.rejected e' b j).message → a = b) ∧
    ∀ (sep : String) (as bs : List Action), (∀ x ∈ as, Plain marks x.names) →
      (∀ x ∈ bs, Plain marks x.names) →
      (sep.intercalate (as.map display) = sep.intercalate (bs.map display) ↔ as = bs) := by
  have hends : ∀ r s : String, a.display ++ r = b.display ++ s → a = b ∧ r = s := by
    intro r s h
    have htext := congrArg String.toList h
    rw [String.toList_append, String.toList_append] at htext
    obtain ⟨hab, hrs⟩ := display_append_inj ha hb htext
    exact ⟨hab, String.toList_inj.mp hrs⟩
  refine ⟨⟨fun h => (hends "" "" (by rw [h])).1, congrArg display⟩, hends, ?messages, ?lists⟩
  case messages =>
    intro e e' i j h
    rw [Cause.message_rejected, Cause.message_rejected, String.append_right_inj,
      String.append_assoc, String.append_assoc, String.append_assoc, String.append_assoc] at h
    exact (hends _ _ h).1
  case lists =>
    intro sep as bs has hbs
    exact ⟨eq_of_intercalate_display has hbs, fun h => by rw [h]⟩

/-- Rules that differ in one constraint only, and a token whose text is the name of the sentinel. -/
theorem Action.display_eq_display_iff_sentinel :
    let rule (c : Constraint) := Action.applyRule (.expandTree
      ⟨⟨"Élan_1", .node⟩, [("items", ⟨"Str", c⟩), ("", ⟨"", .node⟩)]⟩)
    let a := rule .variadic
    let b := rule .token
    let text := Action.generateToken (.value "<CloseNode>")
    let close := Action.generateToken .closeNode
    Plain marks a.names ∧ Plain marks b.names ∧ a.display ≠ b.display ∧
    (∀ r s : String, a.display ++ r ≠ b.display ++ s) ∧
    (∀ (e e' : Expectation) (i j : Nat),
      (Cause.rejected e a i).message ≠ (Cause.rejected e' b j).message) ∧
    "\n".intercalate ([a, text].map display) ≠ "\n".intercalate ([a, close].map display) := by
  intro rule a b text close
  have hplain : ∀ c : Constraint, Plain marks (rule c).names := by
    intro c
    apply plain_of_isWordChar
    have hwords : ["Élan_1", "items", "Str", "", ""].all (·.toList.all Text.isWordChar) = true := by
      decide +kernel
    exact fun name hname => List.all_eq_true.mp (List.all_eq_true.mp hwords name hname)
  have hne : a ≠ b := by decide
  have hnames : ∀ t : Token, ∀ x ∈ [a, .generateToken t], Plain marks x.names := by
    intro t x hx
    rcases List.mem_pair.mp hx with rfl | rfl
    · exact hplain .variadic
    · exact List.forall_mem_nil _
  obtain ⟨hdisplay, hends, hmessages, hlists⟩ :=
    display_eq_display_iff (hplain .variadic) (hplain .token)
  refine ⟨hplain _, hplain _, fun h => hne (hdisplay.mp h), fun r s h => hne (hends r s h).1,
    fun e e' i j h => hne (hmessages e e' i j h), fun h => ?_⟩
  exact absurd ((hlists "\n" [a, text] [a, close] (hnames _) (hnames _)).mp h) (by decide)

end TreeDerivation
