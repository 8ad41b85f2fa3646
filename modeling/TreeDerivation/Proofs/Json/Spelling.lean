import TreeDerivation.Proofs.Json.ReadBack

/-!
# All texts of a value

A value is written by this library in two ways, but other programs write it in many more: with
blanks between any two lexemes, with any character of a text escaped, and with exponents of either
case and with or without a sign. `Json.Spelling` is the grammar of these texts, without regard to
how they are read, and every one of them is read as its value (`read?_of_padded`).

A quoted text is a row of code units, each written as itself, by a short escape or by four
hexadecimal digits (`UnitSpelling`). It names the string that the units denote, if there is one:
two halves of a surrogate pair denote one character, and a half that stands alone denotes none
(`charsOfUnits_eq_some_iff`).
-/

namespace TreeDerivation

/-! ## Code units -/

/-- Whether the character is the hexadecimal digit of this value, in either case. -/
def IsHexDigit (c : Char) (digit : Nat) : Prop :=
  digit < 16 ∧ (c = Nat.digitChar digit ∨ c = (Nat.digitChar digit).toUpper)

/-- The characters that may stand behind a backslash, and what they stand for there. -/
def shortEscapes : List (Char × Nat) :=
  [('"', 0x22), ('\\', 0x5c), ('/', 0x2f), ('b', 0x08), ('f', 0x0c), ('n', 0x0a), ('r', 0x0d),
    ('t', 0x09)]

/-- The ways to write a code unit between quotes. -/
inductive UnitSpelling : List Char → Nat → Prop where
  /-- A character that is no quote, backslash or control as it is. -/
  | bare {c : Char} (hquote : c ≠ '"') (hslash : c ≠ '\\') (hcontrol : 0x20 ≤ c.toNat) :
    UnitSpelling [c] c.toNat
  | short {c : Char} {u : Nat} (h : (c, u) ∈ shortEscapes) : UnitSpelling ['\\', c] u
  | code {a b c d : Char} {p q r s : Nat} (ha : IsHexDigit a p) (hb : IsHexDigit b q)
    (hc : IsHexDigit c r) (hd : IsHexDigit d s) :
    UnitSpelling ['\\', 'u', a, b, c, d] (((p * 16 + q) * 16 + r) * 16 + s)

theorem UnitSpelling.lt {cs : List Char} {u : Nat} (h : UnitSpelling cs u) : u < 0x110000 := by
  cases h with
  | @bare c =>
    have hvalid : c.toNat < 0xd800 ∨ (0xdfff < c.toNat ∧ c.toNat < 0x110000) := c.valid
    omega
  | short h =>
    have hall : ∀ e ∈ shortEscapes, e.2 < 0x110000 := by decide
    exact hall _ h
  | code ha hb hc hd =>
    have := ha.1
    have := hb.1
    have := hc.1
    have := hd.1
    omega

/-- The characters that code units denote: each unit its character, and two halves of a surrogate
pair one character beyond the first `2 ^ 16`. -/
inductive Denotes : List Nat → List Char → Prop where
  | nil : Denotes [] []
  | whole (c : Char) {units : List Nat} {cs : List Char} (h : Denotes units cs) :
    Denotes (c.toNat :: units) (c :: cs)
  | pair {c : Char} {u v : Nat} {units : List Nat} {cs : List Char} (hu : 0xd800 ≤ u ∧ u < 0xdc00)
    (hv : 0xdc00 ≤ v ∧ v < 0xe000)
    (hc : c.toNat = 0x10000 + (u - 0xd800) * 0x400 + (v - 0xdc00)) (h : Denotes units cs) :
    Denotes (u :: v :: units) (c :: cs)

theorem charsOfUnits_cons {u : Nat} (hhigh : isHighHalf u = false) (hlow : isLowHalf u = false)
    (units : List Nat) :
    charsOfUnits (u :: units) = (charsOfUnits units).map (Char.ofNat u :: ·) := by
  cases units with
  | nil => simp [charsOfUnits, hhigh, hlow]
  | cons v units => simp [charsOfUnits, hhigh, hlow]

theorem isHighHalf_iff {u : Nat} : isHighHalf u = true ↔ 0xd800 ≤ u ∧ u < 0xdc00 := by
  simp [isHighHalf]

theorem isLowHalf_iff {u : Nat} : isLowHalf u = true ↔ 0xdc00 ≤ u ∧ u < 0xe000 := by
  simp [isLowHalf]

theorem charsOfUnits_of_denotes {units : List Nat} {cs : List Char} (h : Denotes units cs) :
    charsOfUnits units = some cs := by
  induction h with
  | nil => rfl
  | whole c h ih =>
    obtain ⟨hhigh, hlow⟩ := isHalf_toNat c
    rw [charsOfUnits_cons hhigh hlow, ih, Char.ofNat_toNat, Option.map_some]
  | pair hu hv hc h ih =>
    rw [charsOfUnits, if_pos (isHighHalf_iff.mpr hu), if_pos (isLowHalf_iff.mpr hv), ih, ← hc,
      Char.ofNat_toNat, Option.map_some]

/-- A code point that is no half of a pair is the one of its character. -/
theorem toNat_ofNat {u : Nat} (hu : u < 0x110000) (hhigh : ¬ isHighHalf u = true)
    (hlow : ¬ isLowHalf u = true) : (Char.ofNat u).toNat = u := by
  rw [isHighHalf_iff] at hhigh
  rw [isLowHalf_iff] at hlow
  have hvalid : u.isValidChar := by
    show u < 0xd800 ∨ (0xdfff < u ∧ u < 0x110000)
    omega
  rw [Char.ofNat, dif_pos hvalid]
  rfl

theorem denotes_cons {u : Nat} (hu : u < 0x110000) (hhigh : ¬ isHighHalf u = true)
    (hlow : ¬ isLowHalf u = true) {units : List Nat} {cs : List Char} (h : Denotes units cs) :
    Denotes (u :: units) (Char.ofNat u :: cs) := by
  have hwhole := h.whole (Char.ofNat u)
  rwa [toNat_ofNat hu hhigh hlow] at hwhole

theorem denotes_pair {u v : Nat} (hhigh : isHighHalf u = true) (hlow : isLowHalf v = true)
    {units : List Nat} {cs : List Char} (h : Denotes units cs) :
    Denotes (u :: v :: units)
      (Char.ofNat (0x10000 + (u - 0xd800) * 0x400 + (v - 0xdc00)) :: cs) := by
  rw [isHighHalf_iff] at hhigh
  rw [isLowHalf_iff] at hlow
  refine .pair hhigh hlow (toNat_ofNat (by omega) ?_ ?_) h
  · rw [isHighHalf_iff]
    omega
  · rw [isLowHalf_iff]
    omega

theorem denotes_of_charsOfUnits {units : List Nat} {cs : List Char}
    (hunits : ∀ u ∈ units, u < 0x110000) (h : charsOfUnits units = some cs) : Denotes units cs := by
  fun_induction charsOfUnits units generalizing cs with
  | case1 =>
    cases h
    exact .nil
  | case2 u hhalf => exact absurd h (by simp)
  | case3 u hhalf =>
    cases h
    simp only [Bool.or_eq_true, not_or] at hhalf
    exact denotes_cons (hunits u List.mem_cons_self) hhalf.1 hhalf.2 .nil
  | case4 u v rest hhigh hlow ih =>
    obtain ⟨cs, hrest, rfl⟩ := Option.map_eq_some_iff.mp h
    have hdenotes := ih (fun w hw => hunits w (List.mem_cons_of_mem u (List.mem_cons_of_mem v hw)))
      hrest
    exact denotes_pair hhigh hlow hdenotes
  | case5 u v rest hhigh hlow => exact absurd h (by simp)
  | case6 u v rest hhigh hlow => exact absurd h (by simp)
  | case7 u v rest hhigh hlow ih =>
    obtain ⟨cs, hrest, rfl⟩ := Option.map_eq_some_iff.mp h
    have hdenotes := ih (fun w hw => hunits w (List.mem_cons_of_mem u hw)) hrest
    exact denotes_cons (hunits u List.mem_cons_self) hhigh hlow hdenotes

/-- Reading code units gives the characters that they denote, and none if they denote none. -/
theorem charsOfUnits_eq_some_iff {units : List Nat} {cs : List Char}
    (hunits : ∀ u ∈ units, u < 0x110000) : charsOfUnits units = some cs ↔ Denotes units cs :=
  ⟨denotes_of_charsOfUnits hunits, charsOfUnits_of_denotes⟩

/-! ## Quoted texts -/

/-- The ways to write a text between quotes. Units that denote no characters are no string. -/
def TextSpelling (body : List Char) (text : Option String) : Prop :=
  ∃ pieces units, List.Forall₂ UnitSpelling pieces units ∧ body = pieces.flatten ∧
    ∀ s : String, text = some s ↔ Denotes units s.toList

theorem hexDigit?_of_isHexDigit {c : Char} {digit : Nat} (h : IsHexDigit c digit) :
    Lexeme.hexDigit? c = some digit := by
  obtain ⟨hlt, rfl | rfl⟩ := h <;> interval_cases digit <;> rfl

open Lexeme in
theorem foldlM_step_unit {cs : List Char} {u : Nat} (h : UnitSpelling cs u) (done : List Lexeme)
    (units : List Nat) :
    cs.foldlM step ⟨done, .inQuotes units⟩ = some ⟨done, .inQuotes (u :: units)⟩ := by
  cases h with
  | @bare c hquote hslash hcontrol =>
    have hstep : step ⟨done, .inQuotes units⟩ c = some ⟨done, .inQuotes (c.toNat :: units)⟩ :=
      (if_neg hquote).trans ((if_neg hslash).trans (if_neg (by omega)))
    rw [List.foldlM_cons, hstep]
    rfl
  | @short c _ h =>
    simp only [shortEscapes, List.mem_cons, Prod.mk.injEq, List.not_mem_nil, or_false] at h
    rcases h with ⟨rfl, rfl⟩ | ⟨rfl, rfl⟩ | ⟨rfl, rfl⟩ | ⟨rfl, rfl⟩ | ⟨rfl, rfl⟩ | ⟨rfl, rfl⟩ |
      ⟨rfl, rfl⟩ | ⟨rfl, rfl⟩ <;> rfl
  | @code a b c d p q r s ha hb hc hd =>
    have hdigit : ∀ {x : Char} {n : Nat}, IsHexDigit x n → ∀ (value left : Nat),
        step ⟨done, .inEscape units value left⟩ x =
          some (if left ≤ 1 then ⟨done, .inQuotes ((value * 16 + n) :: units)⟩
            else ⟨done, .inEscape units (value * 16 + n) (left - 1)⟩) := by
      intro x n hx value left
      show (hexDigit? x).map _ = _
      rw [hexDigit?_of_isHexDigit hx, Option.map_some]
    have hopen : ['\\', 'u'].foldlM step ⟨done, .inQuotes units⟩ =
        some ⟨done, .inEscape units 0 4⟩ := rfl
    show (['\\', 'u'] ++ [a, b, c, d]).foldlM step _ = _
    rw [List.foldlM_append, hopen]
    simp [hdigit ha, hdigit hb, hdigit hc, hdigit hd]

open Lexeme in
theorem foldlM_step_units {pieces : List (List Char)} {new : List Nat}
    (h : List.Forall₂ UnitSpelling pieces new) (done : List Lexeme) (units : List Nat) :
    pieces.flatten.foldlM step ⟨done, .inQuotes units⟩ =
      some ⟨done, .inQuotes (new.reverse ++ units)⟩ := by
  induction h generalizing units with
  | nil => rfl
  | @cons piece u pieces new hpiece _ ih =>
    rw [List.flatten_cons, List.foldlM_append, foldlM_step_unit hpiece, List.reverse_cons,
      List.append_assoc]
    exact ih (u :: units)

open Lexeme in
theorem spells_units {pieces : List (List Char)} {units : List Nat}
    (h : List.Forall₂ UnitSpelling pieces units) :
    Spells ('"' :: (pieces.flatten ++ ['"'])) [.quoted units] := by
  intro done rest _
  have hopen : step ⟨done, .between⟩ '"' = some ⟨done, .inQuotes []⟩ := rfl
  have htext := foldlM_step_units h done []
  have hclose : step ⟨done, .inQuotes units.reverse⟩ '"' =
      some ⟨.quoted units :: done, .between⟩ := by
    show some (Scan.mk (.quoted units.reverse.reverse :: done) .between) = _
    rw [List.reverse_reverse]
  rw [List.append_nil] at htext
  rw [List.cons_append, resume_cons hopen, List.append_assoc]
  exact (resume_append htext _).trans (resume_cons hclose rest)

theorem lt_of_unitSpellings {pieces : List (List Char)} {units : List Nat}
    (h : List.Forall₂ UnitSpelling pieces units) : ∀ u ∈ units, u < 0x110000 := by
  induction h with
  | nil => exact List.forall_mem_nil _
  | cons hpiece _ ih => exact List.forall_mem_cons.mpr ⟨hpiece.lt, ih⟩

/-- A quoted text is read as one lexeme, whose units are the text. -/
theorem TextSpelling.exists_units {body : List Char} {text : Option String}
    (h : TextSpelling body text) :
    ∃ units, Lexeme.Spells ('"' :: (body ++ ['"'])) [.quoted units] ∧
      Json.textOfUnits units = text := by
  obtain ⟨pieces, units, hpieces, rfl, htext⟩ := h
  refine ⟨units, spells_units hpieces, Option.ext fun s => ?_⟩
  rw [Json.textOfUnits, Option.map_eq_some_iff, htext s]
  constructor
  · rintro ⟨cs, hcs, rfl⟩
    rw [String.toList_ofList]
    exact denotes_of_charsOfUnits (lt_of_unitSpellings hpieces) hcs
  · intro hs
    exact ⟨s.toList, charsOfUnits_of_denotes hs, String.ofList_toList⟩

theorem Denotes.append {units units' : List Nat} {cs cs' : List Char} (h : Denotes units cs)
    (h' : Denotes units' cs') : Denotes (units ++ units') (cs ++ cs') := by
  induction h with
  | nil => exact h'
  | whole c _ ih => exact ih.whole c
  | pair hu hv hc _ ih => exact ih.pair hu hv hc

/-- Units denote one string at most. -/
theorem textSpelling_of_denotes {pieces : List (List Char)} {units : List Nat} {s : String}
    (hpieces : List.Forall₂ UnitSpelling pieces units) (hs : Denotes units s.toList) :
    TextSpelling pieces.flatten (some s) := by
  refine ⟨pieces, units, hpieces, rfl, fun t => ⟨?_, fun ht => ?_⟩⟩
  · rintro ⟨⟩
    exact hs
  · have heq := (charsOfUnits_of_denotes hs).symm.trans (charsOfUnits_of_denotes ht)
    rw [String.toList_inj.mp (Option.some.inj heq)]

theorem TextSpelling.append {body body' : List Char} {s t : String}
    (hs : TextSpelling body (some s)) (ht : TextSpelling body' (some t)) :
    TextSpelling (body ++ body') (some (s ++ t)) := by
  obtain ⟨pieces, units, hpieces, rfl, hs⟩ := hs
  obtain ⟨pieces', units', hpieces', rfl, ht⟩ := ht
  rw [← List.flatten_append]
  refine textSpelling_of_denotes (List.rel_append hpieces hpieces') ?_
  rw [String.toList_append]
  exact ((hs s).mp rfl).append ((ht t).mp rfl)

/-- Whether a character may be written as it is. -/
def isBare (c : Char) : Bool :=
  c ≠ '"' && c ≠ '\\' && 0x20 ≤ c.toNat

/-- A string without quotes, backslashes and controls may be written as it is. -/
theorem textSpelling_bare {s : String} (h : s.toList.all isBare = true) :
    TextSpelling s.toList (some s) := by
  have hunits : ∀ cs : List Char, Denotes (cs.map Char.toNat) cs := by
    intro cs
    induction cs with
    | nil => exact .nil
    | cons c cs ih => exact ih.whole c
  have hpieces : List.Forall₂ UnitSpelling (s.toList.map ([·])) (s.toList.map Char.toNat) := by
    rw [List.forall₂_map_left_iff, List.forall₂_map_right_iff, List.forall₂_same]
    intro c hc
    have hbare := List.all_eq_true.mp h c hc
    simp only [isBare, Bool.and_eq_true, decide_eq_true_eq] at hbare
    exact .bare hbare.1.1 hbare.1.2 hbare.2
  have hflatten : (s.toList.map ([·])).flatten = s.toList := by
    rw [← List.flatMap_def, List.flatMap_singleton']
  rw [← hflatten]
  exact textSpelling_of_denotes hpieces (hunits _)

/-! ## Numbers -/

/-- The ways to write an exponent: its mark in either case, and a plus sign or none. -/
inductive ExponentSpelling : List Char → Option (Bool × List Char) → Prop where
  | missing : ExponentSpelling [] none
  | written {mark : Char} {sign digits : List Char} {negative : Bool}
    (hmark : mark = 'e' ∨ mark = 'E')
    (hsign : (sign, negative) ∈ [([], false), (['+'], false), (['-'], true)]) :
    ExponentSpelling (mark :: (sign ++ digits)) (some (negative, digits))

/-- The ways to write a number that is spelled as numbers are. -/
def NumberSpelling (cs : List Char) (n : Numeral) : Prop :=
  n.WellSpelled ∧ ∃ e, ExponentSpelling e n.exponent ∧
    cs = (if n.minus then ['-'] else []) ++ (n.whole ++ (Numeral.spellFraction n.fraction ++ e))

section Exponent

variable {e : List Char} {x : Option (Bool × List Char)}

theorem ExponentSpelling.endsDigits (h : ExponentSpelling e x) : Numeral.EndsDigits e := by
  intro c hc
  cases h with
  | missing => exact absurd hc (by simp)
  | @written mark sign digits negative hmark hsign =>
    obtain rfl : mark = c := by simpa using hc
    rcases hmark with rfl | rfl <;> decide

theorem ExponentSpelling.readExponent? (h : ExponentSpelling e x)
    (hx : ∀ y ∈ x, y.2 ≠ [] ∧ ∀ c ∈ y.2, c.isDigit = true) (minus : Bool)
    (whole fraction : List Char) :
    Numeral.readExponent? minus whole fraction e = some ⟨minus, whole, fraction, x⟩ := by
  cases h with
  | missing => rfl
  | @written mark sign digits negative hmark hsign =>
    obtain ⟨hne, hall⟩ := hx _ rfl
    have hdigits : digits ≠ [] ∧ digits.all Char.isDigit = true := ⟨hne, List.all_eq_true.mpr hall⟩
    simp only [List.mem_cons, Prod.mk.injEq, List.not_mem_nil, or_false] at hsign
    unfold Numeral.readExponent?
    rcases hsign with ⟨rfl, rfl⟩ | ⟨rfl, rfl⟩ | ⟨rfl, rfl⟩
    · -- the first of the digits is looked at for a sign
      obtain ⟨d, ds, rfl⟩ := List.exists_cons_of_ne_nil hne
      have hd : d.isDigit = true := hall d List.mem_cons_self
      refine (if_pos hmark).trans ?_
      split
      next hsplit =>
        split at hsplit
        next hfirst =>
          obtain ⟨rfl, -⟩ := List.cons.inj hfirst
          exact absurd hd (by decide)
        next hfirst =>
          obtain ⟨rfl, -⟩ := List.cons.inj hfirst
          exact absurd hd (by decide)
        next =>
          obtain ⟨rfl, rfl⟩ := Prod.mk.inj hsplit
          exact if_pos hdigits
    · exact (if_pos hmark).trans (if_pos hdigits)
    · exact (if_pos hmark).trans (if_pos hdigits)

theorem ExponentSpelling.isWord (h : ExponentSpelling e x)
    (hx : ∀ y ∈ x, y.2 ≠ [] ∧ ∀ c ∈ y.2, c.isDigit = true) :
    ∀ c ∈ e, Lexeme.isWordPart c = true := by
  cases h with
  | missing => exact List.forall_mem_nil _
  | @written mark sign digits negative hmark hsign =>
    simp only [List.mem_cons, Prod.mk.injEq, List.not_mem_nil, or_false] at hsign
    have hsigned : ∀ c ∈ sign, Lexeme.isWordPart c = true := by
      rcases hsign with ⟨rfl, -⟩ | ⟨rfl, -⟩ | ⟨rfl, -⟩ <;> exact List.all_eq_true.mp (by decide)
    refine List.forall_mem_cons.mpr ⟨?_, List.forall_mem_append.mpr ⟨hsigned, ?_⟩⟩
    · rcases hmark with rfl | rfl <;> decide
    · exact fun c hc => Numeral.isWordPart_of_isDigit ((hx _ rfl).2 c hc)

end Exponent

theorem numberSpelling_ofNat (n : Nat) :
    NumberSpelling (Nat.toDigits 10 n) ⟨false, Nat.toDigits 10 n, [], none⟩ :=
  ⟨Numeral.wellSpelled_ofNat n, [], .missing, by simp [Numeral.spellFraction]⟩

/-- A number is read as one lexeme, whose value it is. -/
theorem NumberSpelling.reads {cs : List Char} {n : Numeral} (h : NumberSpelling cs n) :
    Lexeme.Spells cs [.word cs] ∧ Json.HandsOn [.word cs] (.number n) := by
  obtain ⟨hwell, e, he, rfl⟩ := h
  have hread := Numeral.read?_append hwell he.endsDigits
    (he.readExponent? hwell.exponent n.minus n.whole n.fraction)
  exact ⟨Lexeme.spells_word (by simp [hwell.whole_ne_nil])
    (hwell.isWord_append (he.isWord hwell.exponent)),
    Json.handsOn_word (Json.ofWord?_of_read? hread)⟩

/-! ## Values -/

/-- Whether a text is nothing but the characters that may stand between lexemes. -/
def Blank (cs : List Char) : Prop :=
  ∀ c ∈ cs, c ∈ [' ', '\t', '\n', '\r']

instance : DecidablePred Blank :=
  fun cs => List.decidableBAll (· ∈ [' ', '\t', '\n', '\r']) cs

theorem Blank.isSpace {cs : List Char} (h : Blank cs) : ∀ c ∈ cs, Lexeme.isSpace c = true := by
  intro c hc
  have hall : ∀ c ∈ [' ', '\t', '\n', '\r'], Lexeme.isSpace c = true :=
    List.all_eq_true.mp (by decide)
  exact hall c (h c hc)

namespace Json

mutual

/-- The texts of a value, with nothing around it. -/
inductive Spelling : List Char → Json → Prop where
  | null : Spelling "null".toList .null
  | bool (b : Bool) : Spelling (if b then "true" else "false").toList (.bool b)
  | number {cs : List Char} {n : Numeral} (h : NumberSpelling cs n) : Spelling cs (.number n)
  | string {body : List Char} {text : Option String} (h : TextSpelling body text) :
    Spelling ('"' :: (body ++ ['"'])) (.string text)
  | emptyArray {blanks : List Char} (h : Blank blanks) :
    Spelling ('[' :: (blanks ++ [']'])) (.array [])
  | array {cs : List Char} {items : List Json} (h : ItemsSpelling cs items) :
    Spelling ('[' :: (cs ++ [']'])) (.array items)
  | emptyObject {blanks : List Char} (h : Blank blanks) :
    Spelling ('\x7b' :: (blanks ++ ['\x7d'])) (.object [])
  | object {cs : List Char} {members : List (Option String × Json)}
    (h : MembersSpelling cs members) : Spelling ('\x7b' :: (cs ++ ['\x7d'])) (.object members)

/-- The texts of a value with blanks before and behind it. -/
inductive Padded : List Char → Json → Prop where
  | mk {before cs after : List Char} {j : Json} (hbefore : Blank before) (h : Spelling cs j)
    (hafter : Blank after) : Padded (before ++ (cs ++ after)) j

/-- The texts of items, of which there is one at least. -/
inductive ItemsSpelling : List Char → List Json → Prop where
  | singleton {cs : List Char} {j : Json} (h : Padded cs j) : ItemsSpelling cs [j]
  | cons {cs rest : List Char} {j : Json} {items : List Json} (h : Padded cs j)
    (hrest : ItemsSpelling rest items) : ItemsSpelling (cs ++ ',' :: rest) (j :: items)

/-- The texts of a member. -/
inductive MemberSpelling : List Char → Option String × Json → Prop where
  | mk {before body after cs : List Char} {name : Option String} {value : Json}
    (hbefore : Blank before) (hname : TextSpelling body name) (hafter : Blank after)
    (h : Padded cs value) :
    MemberSpelling (before ++ (('"' :: (body ++ ['"'])) ++ (after ++ ':' :: cs))) (name, value)

/-- The texts of members, of which there is one at least. -/
inductive MembersSpelling : List Char → List (Option String × Json) → Prop where
  | singleton {cs : List Char} {m : Option String × Json} (h : MemberSpelling cs m) :
    MembersSpelling cs [m]
  | cons {cs rest : List Char} {m : Option String × Json} {members : List (Option String × Json)}
    (h : MemberSpelling cs m) (hrest : MembersSpelling rest members) :
    MembersSpelling (cs ++ ',' :: rest) (m :: members)

end

open Lexeme

/-! ## Every text of a value is read as the value -/

mutual

theorem Spelling.reads : ∀ {cs : List Char} {j : Json}, Spelling cs j →
    ∃ ls, Spells cs ls ∧ HandsOn ls j
  | _, _, .null => ⟨_, spells_null, handsOn_word rfl⟩
  | _, _, .bool b => ⟨_, spells_bool b, handsOn_word (by cases b <;> rfl)⟩
  | _, _, .number h => ⟨_, h.reads⟩
  | _, _, .string h => by
    obtain ⟨units, hspells, rfl⟩ := h.exists_units
    exact ⟨_, hspells, handsOn_quoted units⟩
  | _, _, .emptyArray h =>
    ⟨_, spells_brackets rfl rfl _ [] h.isSpace (by simp) spells_nil, handsOn_emptyArray⟩
  | _, _, .array h => by
    obtain ⟨ls, hspells, hends⟩ := ItemsSpelling.reads h
    exact ⟨_, spells_brackets rfl rfl [] [] (by simp) (by simp) hspells, hends.handsOn⟩
  | _, _, .emptyObject h =>
    ⟨_, spells_brackets rfl rfl _ [] h.isSpace (by simp) spells_nil, handsOn_emptyObject⟩
  | _, _, .object h => by
    obtain ⟨ls, hspells, hends⟩ := MembersSpelling.reads h
    exact ⟨_, spells_brackets rfl rfl [] [] (by simp) (by simp) hspells, hends.handsOn⟩

theorem Padded.reads : ∀ {cs : List Char} {j : Json}, Padded cs j →
    ∃ ls, Spells cs ls ∧ HandsOn ls j
  | _, _, .mk hbefore h hafter => by
    obtain ⟨ls, hspells, hhands⟩ := Spelling.reads h
    have hend := hspells.append (by simpa using spells_nil.append_blanks hafter.isSpace)
      (endsWord_of_blanks hafter.isSpace)
    rw [List.append_nil] at hend
    exact ⟨ls, hend.append_blanks hbefore.isSpace, hhands⟩

theorem ItemsSpelling.reads : ∀ {cs : List Char} {items : List Json}, ItemsSpelling cs items →
    ∃ ls, Spells cs ls ∧ EndsArray ls items
  | _, _, .singleton h => by
    obtain ⟨ls, hspells, hhands⟩ := Padded.reads h
    exact ⟨ls, hspells, hhands.endsArray_singleton⟩
  | _, _, .cons h hrest => by
    obtain ⟨ls, hspells, hhands⟩ := Padded.reads h
    obtain ⟨ls', hspells', hends⟩ := ItemsSpelling.reads hrest
    exact ⟨_, hspells.append (hspells'.cons_mark rfl) (endsWord_cons rfl _),
      hhands.endsArray_cons hends⟩

theorem MemberSpelling.reads : ∀ {cs : List Char} {m : Option String × Json},
    MemberSpelling cs m →
    ∃ units ls, Spells cs (.quoted units :: .colon :: ls) ∧ HandsOn ls m.2 ∧
      textOfUnits units = m.1
  | _, _, .mk hbefore hname hafter h => by
    obtain ⟨units, hquoted, htext⟩ := hname.exists_units
    obtain ⟨ls, hspells, hhands⟩ := Padded.reads h
    have hcolon := (hspells.cons_mark (show mark? ':' = some .colon from rfl)).append_blanks
      hafter.isSpace
    have hmember := hquoted.append hcolon
      ((endsWord_of_blanks hafter.isSpace).append (endsWord_cons rfl _))
    exact ⟨units, ls, hmember.append_blanks hbefore.isSpace, hhands, htext⟩

theorem MembersSpelling.reads : ∀ {cs : List Char} {members : List (Option String × Json)},
    MembersSpelling cs members → ∃ ls, Spells cs ls ∧ EndsObject ls members
  | _, _, .singleton (m := (name, value)) h => by
    obtain ⟨units, ls, hspells, hhands, rfl⟩ := MemberSpelling.reads h
    exact ⟨_, hspells, hhands.endsObject_singleton units⟩
  | _, _, .cons (m := (name, value)) h hrest => by
    obtain ⟨units, ls, hspells, hhands, rfl⟩ := MemberSpelling.reads h
    obtain ⟨ls', hspells', hends⟩ := MembersSpelling.reads hrest
    exact ⟨_, hspells.append (hspells'.cons_mark rfl) (endsWord_cons rfl _),
      hhands.endsObject_cons units hends⟩

end

/-- However a value is written, it is read as the value. -/
theorem read?_of_padded {text : String} {j : Json} (h : Padded text.toList j) :
    read? text = some j := by
  obtain ⟨ls, hspells, hhands⟩ := h.reads
  have hall := hhands [] false []
  rw [List.append_nil] at hall
  rw [read?, hspells.scan_eq, Option.bind_some, hall]
  rfl

end Json

end TreeDerivation
