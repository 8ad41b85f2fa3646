import TreeDerivation.Json.Reader
import TreeDerivation.Proofs.Json.Lexemes

/-!
# Written values are read back

A value comes back from both of its texts (`read?_compact`, `read?_pretty`) if every text in it
names a string and every number in it is spelled as numbers are (`Json.Writable`). Other values have
no text of their own: a text that names no string is written as a replacement character.

The lexemes of a value are read with any containers open around it: they hand the value to the
innermost of them, and what follows is read from there (`handsOn_lexemes`). Items and members are
read in step with the list that holds them, the ones already read standing last first.
-/

namespace TreeDerivation

/-! ## Numbers -/

namespace Numeral

/-- Whether a number is spelled as numbers are: there is a whole digit, no needless leading zero,
and a digit behind the mark of an exponent. -/
structure WellSpelled (n : Numeral) : Prop where
  whole_ne_nil : n.whole ≠ []
  isDigit_of_mem_whole : ∀ c ∈ n.whole, c.isDigit = true
  head?_whole : 1 < n.whole.length → n.whole.head? ≠ some '0'
  isDigit_of_mem_fraction : ∀ c ∈ n.fraction, c.isDigit = true
  exponent : ∀ x ∈ n.exponent, x.2 ≠ [] ∧ ∀ c ∈ x.2, c.isDigit = true

/-- The mark, the sign and the digits of an exponent. -/
def spellExponent : Option (Bool × List Char) → List Char
  | none => []
  | some (negative, digits) => 'e' :: (if negative then '-' else '+') :: digits

/-- The point and the digits after it. -/
def spellFraction (fraction : List Char) : List Char :=
  if fraction = [] then [] else '.' :: fraction

theorem spell_eq (n : Numeral) :
    n.spell = (if n.minus then ['-'] else []) ++
      (n.whole ++ (spellFraction n.fraction ++ spellExponent n.exponent)) := by
  obtain ⟨minus, whole, fraction, exponent⟩ := n
  rcases exponent with _ | ⟨negative, digits⟩ <;>
    simp only [spell, spellFraction, spellExponent, List.append_assoc]

/-- Whether a text goes on as it does behind digits: with neither a digit nor a point. -/
def EndsDigits (text : List Char) : Prop :=
  ∀ c ∈ text.head?, c.isDigit = false ∧ c ≠ '.'

theorem endsDigits_spellExponent (x : Option (Bool × List Char)) :
    EndsDigits (spellExponent x) := by
  intro c hc
  rcases x with _ | ⟨negative, digits⟩
  · exact absurd hc (by simp [spellExponent])
  · obtain rfl : 'e' = c := by simpa [spellExponent] using hc
    decide

theorem splitDigits_append {ds rest : List Char} (hds : ∀ c ∈ ds, c.isDigit = true)
    (hrest : ∀ c ∈ rest.head?, c.isDigit = false) : splitDigits (ds ++ rest) = (ds, rest) := by
  have hnone : rest.takeWhile Char.isDigit = [] ∧ rest.dropWhile Char.isDigit = rest := by
    cases rest with
    | nil => exact ⟨rfl, rfl⟩
    | cons c rest =>
      have hc : ¬ c.isDigit = true := by simp [hrest c rfl]
      exact ⟨List.takeWhile_cons_of_neg hc, List.dropWhile_cons_of_neg hc⟩
  rw [splitDigits, List.takeWhile_append_of_pos hds, List.dropWhile_append_of_pos hds, hnone.1,
    hnone.2, List.append_nil]

theorem readExponent?_spellExponent (minus : Bool) (whole fraction : List Char)
    {x : Option (Bool × List Char)} (hx : ∀ y ∈ x, y.2 ≠ [] ∧ ∀ c ∈ y.2, c.isDigit = true) :
    readExponent? minus whole fraction (spellExponent x) = some ⟨minus, whole, fraction, x⟩ := by
  rcases x with _ | ⟨negative, digits⟩
  · rfl
  · have hdigits : digits ≠ [] ∧ digits.all Char.isDigit = true := by
      obtain ⟨hne, hall⟩ := hx _ rfl
      exact ⟨hne, List.all_eq_true.mpr hall⟩
    cases negative with
    | true => simpa [readExponent?, spellExponent] using hdigits
    | false => simpa [readExponent?, spellExponent] using hdigits

/-- Before an exponent, however that is written, the digits are read as they are spelled. -/
theorem readUnsigned?_append {n : Numeral} (h : n.WellSpelled) {text : List Char}
    (hend : EndsDigits text) (hread : readExponent? n.minus n.whole n.fraction text = some n) :
    readUnsigned? n.minus (n.whole ++ (spellFraction n.fraction ++ text)) = some n := by
  obtain ⟨minus, whole, fraction, exponent⟩ := n
  have hwhole : ¬ (whole = [] ∨ whole.length > 1 ∧ whole.head? = some '0') := by
    rintro (hnil | ⟨hlong, hzero⟩)
    · exact h.whole_ne_nil hnil
    · exact h.head?_whole hlong hzero
  have hdigit : ∀ c ∈ text.head?, c.isDigit = false := fun c hc => (hend c hc).1
  cases fraction with
  | nil =>
    have hsplit := splitDigits_append h.isDigit_of_mem_whole hdigit
    unfold readUnsigned?
    rw [spellFraction, if_pos rfl, List.nil_append, hsplit]
    dsimp only
    rw [if_neg hwhole]
    split
    next => exact absurd rfl (hend '.' rfl).2
    next => exact hread
  | cons d ds =>
    have hpoint : ∀ c ∈ ('.' :: (d :: ds ++ text)).head?, c.isDigit = false := by
      intro c hc
      obtain rfl : '.' = c := by simpa using hc
      rfl
    have hsplit := splitDigits_append h.isDigit_of_mem_whole hpoint
    have hfraction : splitDigits (d :: ds ++ text) = (d :: ds, text) :=
      splitDigits_append h.isDigit_of_mem_fraction hdigit
    unfold readUnsigned?
    rw [spellFraction, if_neg (List.cons_ne_nil d ds), List.cons_append, hsplit]
    dsimp only
    rw [if_neg hwhole]
    show (if (splitDigits (d :: ds ++ text)).1 = [] then none
      else readExponent? minus whole (splitDigits (d :: ds ++ text)).1
        (splitDigits (d :: ds ++ text)).2) = _
    rw [hfraction, if_neg (List.cons_ne_nil d ds)]
    exact hread

/-- So is the whole number. -/
theorem read?_append {n : Numeral} (h : n.WellSpelled) {text : List Char}
    (hend : EndsDigits text) (hread : readExponent? n.minus n.whole n.fraction text = some n) :
    read? ((if n.minus then ['-'] else []) ++
      (n.whole ++ (spellFraction n.fraction ++ text))) = some n := by
  have hunsigned := readUnsigned?_append h hend hread
  cases hminus : n.minus with
  | true =>
    rw [hminus] at hunsigned
    exact hunsigned
  | false =>
    rw [hminus] at hunsigned
    rw [if_neg (by decide), List.nil_append]
    obtain ⟨c, cs, hwhole⟩ := List.exists_cons_of_ne_nil h.whole_ne_nil
    have hc : c ≠ '-' := by
      rintro rfl
      exact absurd (h.isDigit_of_mem_whole '-' (by simp [hwhole])) (by decide)
    rw [hwhole, List.cons_append] at hunsigned ⊢
    unfold read?
    split
    next heq => exact absurd (List.cons.inj heq).1 hc
    next => exact hunsigned

/-- A number that is spelled as numbers are is read as it is spelled. -/
theorem read?_spell {n : Numeral} (h : n.WellSpelled) : read? n.spell = some n := by
  rw [spell_eq]
  exact read?_append h (endsDigits_spellExponent n.exponent)
    (readExponent?_spellExponent n.minus n.whole n.fraction h.exponent)

theorem isWordPart_of_isDigit {c : Char} (hc : c.isDigit = true) : Lexeme.isWordPart c = true := by
  simp [Lexeme.isWordPart, Char.isAlphanum, hc]

/-- Before an exponent that is a word, a number is written with the characters of words. -/
theorem WellSpelled.isWord_append {n : Numeral} (h : n.WellSpelled) {text : List Char}
    (htext : ∀ c ∈ text, Lexeme.isWordPart c = true) :
    ∀ c ∈ (if n.minus then ['-'] else []) ++ (n.whole ++ (spellFraction n.fraction ++ text)),
      Lexeme.isWordPart c = true := by
  have hfraction : ∀ c ∈ spellFraction n.fraction, Lexeme.isWordPart c = true := by
    intro c hc
    unfold spellFraction at hc
    split at hc
    · exact absurd hc List.not_mem_nil
    · rcases List.mem_cons.mp hc with rfl | hc
      · rfl
      · exact isWordPart_of_isDigit (h.isDigit_of_mem_fraction c hc)
  intro c hc
  rw [List.mem_append, List.mem_append, List.mem_append] at hc
  rcases hc with hc | hc | hc | hc
  · obtain rfl : c = '-' := by
      split at hc
      · simpa using hc
      · exact absurd hc List.not_mem_nil
    rfl
  · exact isWordPart_of_isDigit (h.isDigit_of_mem_whole c hc)
  · exact hfraction c hc
  · exact htext c hc

theorem isWordPart_of_mem_spellExponent {x : Option (Bool × List Char)}
    (hx : ∀ y ∈ x, y.2 ≠ [] ∧ ∀ c ∈ y.2, c.isDigit = true) :
    ∀ c ∈ spellExponent x, Lexeme.isWordPart c = true := by
  rcases x with _ | ⟨negative, digits⟩
  · simp [spellExponent]
  · have hdigits := (hx _ rfl).2
    intro c hc
    simp only [spellExponent, List.mem_cons] at hc
    rcases hc with rfl | rfl | hc
    · rfl
    · cases negative <;> rfl
    · exact isWordPart_of_isDigit (hdigits c hc)

/-- A number is written with the characters of words. -/
theorem WellSpelled.isWord {n : Numeral} (h : n.WellSpelled) :
    n.spell ≠ [] ∧ ∀ c ∈ n.spell, Lexeme.isWordPart c = true := by
  rw [spell_eq]
  exact ⟨by simp [h.whole_ne_nil],
    h.isWord_append (isWordPart_of_mem_spellExponent h.exponent)⟩

/-! ## Unsigned numbers -/

theorem digitsValue_toDigits (n : Nat) : digitsValue (Nat.toDigits 10 n) = n := by
  have hfold : ∀ (ds : List Char) (init : Nat),
      ds.foldl (fun n c => n * 10 + (c.toNat - 0x30)) init = Nat.ofDigitChars 10 ds init := by
    intro ds
    induction ds with
    | nil => exact fun init => rfl
    | cons d ds ih =>
      intro init
      rw [List.foldl_cons, ih, Nat.ofDigitChars_cons, Nat.mul_comm]
      rfl
  rw [digitsValue, hfold, Nat.ofDigitChars_ten_toDigits]

/-- Only the digits of zero begin with a zero. -/
theorem head?_toDigits {n : Nat} (hn : 0 < n) : (Nat.toDigits 10 n).head? ≠ some '0' := by
  induction n using Nat.strong_induction_on with
  | _ n ih =>
    by_cases hlt : n < 10
    · have hdigit : Nat.digitChar n ≠ '0' := by
        interval_cases n <;> decide
      rw [Nat.toDigits_of_lt_base hlt]
      simpa using hdigit
    · have hfirst := ih (n / 10) (by omega) (by omega)
      rw [Nat.toDigits_of_base_le (by decide) (by omega), List.head?_append_of_ne_nil]
      · exact hfirst
      · exact Nat.toDigits_ne_nil

/-- Natural numbers are spelled as numbers are. -/
theorem wellSpelled_ofNat (n : Nat) : WellSpelled ⟨false, Nat.toDigits 10 n, [], none⟩ where
  whole_ne_nil := Nat.toDigits_ne_nil
  isDigit_of_mem_whole := fun _ hc => Nat.isDigit_of_mem_toDigits (by decide) (by decide) hc
  head?_whole := by
    intro hlong
    rcases Nat.eq_zero_or_pos n with rfl | hn
    · exact absurd hlong (by decide)
    · exact head?_toDigits hn
  isDigit_of_mem_fraction := by simp
  exponent := by simp

end Numeral

/-! ## Texts -/

/-- A character is no half of a surrogate pair. -/
theorem isHalf_toNat (c : Char) : isHighHalf c.toNat = false ∧ isLowHalf c.toNat = false := by
  have hvalid : c.toNat < 0xd800 ∨ (0xdfff < c.toNat ∧ c.toNat < 0x110000) := c.valid
  simp only [isHighHalf, isLowHalf, Bool.and_eq_false_iff, decide_eq_false_iff_not]
  omega

/-- The code points of characters stand for these characters. -/
theorem charsOfUnits_map_toNat (s : List Char) : charsOfUnits (s.map Char.toNat) = some s := by
  induction s with
  | nil => rfl
  | cons c s ih =>
    obtain ⟨hhigh, hlow⟩ := isHalf_toNat c
    cases s with
    | nil => simp [charsOfUnits, hhigh, hlow]
    | cons d s =>
      rw [List.map_cons, List.map_cons, charsOfUnits, hhigh, hlow, ← List.map_cons, ih]
      simp

namespace Json

theorem textOfUnits_writtenText (text : Option String) :
    textOfUnits ((writtenText text).map Char.toNat) = some (text.getD "\ufffd") := by
  rw [textOfUnits, charsOfUnits_map_toNat, writtenText, Option.map_some, String.ofList_toList]

theorem textOfUnits_of_isSome {text : Option String} (h : text.isSome = true) :
    textOfUnits ((writtenText text).map Char.toNat) = text := by
  obtain ⟨s, rfl⟩ := Option.isSome_iff_exists.mp h
  rw [textOfUnits_writtenText, Option.getD_some]

/-! ## Words -/

/-- A word that is a number stands for the number. -/
theorem ofWord?_of_read? {w : List Char} {n : Numeral} (h : Numeral.read? w = some n) :
    ofWord? w = some (.number n) := by
  have hnull : w ≠ ['n', 'u', 'l', 'l'] := by
    rintro rfl
    exact absurd (show none = some n from h) (by simp)
  have htrue : w ≠ ['t', 'r', 'u', 'e'] := by
    rintro rfl
    exact absurd (show none = some n from h) (by simp)
  have hfalse : w ≠ ['f', 'a', 'l', 's', 'e'] := by
    rintro rfl
    exact absurd (show none = some n from h) (by simp)
  rw [ofWord?, if_neg hnull, if_neg htrue, if_neg hfalse, h]
  rfl

/-! ## Values with texts of their own -/

mutual

/-- Whether every text in a value names a string and every number in it is spelled as numbers
are. -/
def Writable : Json → Prop
  | .number n => n.WellSpelled
  | .string text => text.isSome = true
  | .array items => ItemsWritable items
  | .object members => MembersWritable members
  | .null | .bool _ => True

/-- Whether all items are so. -/
def ItemsWritable : List Json → Prop
  | [] => True
  | j :: rest => j.Writable ∧ ItemsWritable rest

/-- Whether all members are so, their names included. -/
def MembersWritable : List (Option String × Json) → Prop
  | [] => True
  | (name, value) :: rest => name.isSome = true ∧ value.Writable ∧ MembersWritable rest

end

mutual

theorem Writable.numbersAreWords : ∀ {j : Json}, j.Writable → j.NumbersAreWords
  | .null, _ | .bool _, _ | .string _, _ => by rw [NumbersAreWords]; trivial
  | .number n, h => by
    rw [Writable] at h
    rw [NumbersAreWords]
    exact h.isWord
  | .array items, h => by
    rw [Writable] at h
    rw [NumbersAreWords]
    exact ItemsWritable.itemsAreWords h
  | .object members, h => by
    rw [Writable] at h
    rw [NumbersAreWords]
    exact MembersWritable.membersAreWords h

theorem ItemsWritable.itemsAreWords : ∀ {items : List Json}, ItemsWritable items →
    ItemsAreWords items
  | [], _ => by rw [ItemsAreWords]; trivial
  | j :: rest, h => by
    rw [ItemsWritable] at h
    rw [ItemsAreWords]
    exact ⟨h.1.numbersAreWords, ItemsWritable.itemsAreWords h.2⟩

theorem MembersWritable.membersAreWords : ∀ {members : List (Option String × Json)},
    MembersWritable members → MembersAreWords members
  | [], _ => by rw [MembersAreWords]; trivial
  | (name, value) :: rest, h => by
    rw [MembersWritable] at h
    rw [MembersAreWords]
    exact ⟨h.2.1.numbersAreWords, MembersWritable.membersAreWords h.2.2⟩

end

/-! ## The lexemes of a value hand it on -/

theorem feedAll_cons {stack stack' : List Frame} {need need' : Need} {x : Lexeme}
    (h : feed stack need x = some (stack', need')) (xs : List Lexeme) :
    feedAll stack need (x :: xs) = feedAll stack' need' xs := by
  rw [feedAll, h]
  rfl

/-- The lexemes are read as the value: they hand it to the container around it, and reading goes on
from there. -/
def HandsOn (ls : List Lexeme) (j : Json) : Prop :=
  ∀ stack mayClose rest, feedAll stack (.value mayClose) (ls ++ rest) =
    (deliver j stack).bind fun s => feedAll s.1 s.2 rest

theorem handsOn_word {w : List Char} {j : Json} (h : ofWord? w = some j) : HandsOn [.word w] j := by
  intro stack mayClose rest
  have hfeed : feed stack (.value mayClose) (.word w) = deliver j stack := by
    show (ofWord? w).bind (deliver · stack) = _
    rw [h, Option.bind_some]
  rw [List.singleton_append, feedAll, hfeed]

theorem handsOn_quoted (units : List Nat) :
    HandsOn [.quoted units] (.string (textOfUnits units)) := by
  intro stack mayClose rest
  have hfeed : feed stack (.value mayClose) (.quoted units) =
      deliver (.string (textOfUnits units)) stack := rfl
  rw [List.singleton_append, feedAll, hfeed]

/-- The lexemes are read as the items of an array: they end the array that they stand in. -/
def EndsArray (ls : List Lexeme) (items : List Json) : Prop :=
  ∀ before stack mayClose rest,
    feedAll (.array before :: stack) (.value mayClose) (ls ++ .closeArray :: rest) =
      (deliver (.array (before.reverse ++ items)) stack).bind fun s => feedAll s.1 s.2 rest

theorem HandsOn.endsArray_singleton {ls : List Lexeme} {j : Json} (h : HandsOn ls j) :
    EndsArray ls [j] := by
  intro before stack mayClose rest
  have hend : feed (.array (j :: before) :: stack) .separator .closeArray =
      deliver (.array (before.reverse ++ [j])) stack := by
    show close .closeArray (.array (j :: before) :: stack) = _
    rw [close, if_pos rfl, List.reverse_cons]
  rw [h]
  show feedAll (.array (j :: before) :: stack) .separator (.closeArray :: rest) = _
  rw [feedAll, hend]

theorem HandsOn.endsArray_cons {ls ls' : List Lexeme} {j : Json} {items : List Json}
    (h : HandsOn ls j) (hothers : EndsArray ls' items) :
    EndsArray (ls ++ .comma :: ls') (j :: items) := by
  intro before stack mayClose rest
  have hcomma : feed (.array (j :: before) :: stack) .separator .comma =
      some (.array (j :: before) :: stack, .value false) := rfl
  have hrest := hothers (j :: before) stack false rest
  rw [List.reverse_cons, List.append_assoc, List.singleton_append] at hrest
  rw [List.append_assoc, h]
  exact (feedAll_cons hcomma _).trans hrest

theorem EndsArray.handsOn {ls : List Lexeme} {items : List Json} (h : EndsArray ls items) :
    HandsOn (.openArray :: (ls ++ [.closeArray])) (.array items) := by
  intro stack mayClose rest
  have hopen : feed stack (.value mayClose) .openArray = some (.array [] :: stack, .value true) :=
    rfl
  rw [List.cons_append, feedAll_cons hopen, List.append_assoc]
  exact h [] stack true rest

theorem handsOn_emptyArray : HandsOn [.openArray, .closeArray] (.array []) := fun _ _ _ => rfl

/-- The lexemes of a member put it before the members that were read. -/
theorem feedAll_member (units : List Nat) {value : Json} {ls : List Lexeme} (h : HandsOn ls value)
    (before : List (Option String × Json)) (stack : List Frame) (mayClose : Bool)
    (rest : List Lexeme) :
    feedAll (.object before :: stack) (.name mayClose)
        (.quoted units :: .colon :: ls ++ rest) =
      feedAll (.object ((textOfUnits units, value) :: before) :: stack) .separator rest := by
  have hname : feed (.object before :: stack) (.name mayClose) (.quoted units) =
      some (.member before (textOfUnits units) :: stack, .colon) := rfl
  have hcolon : feed (.member before (textOfUnits units) :: stack) .colon .colon =
      some (.member before (textOfUnits units) :: stack, .value false) := rfl
  rw [List.cons_append, List.cons_append, feedAll_cons hname, feedAll_cons hcolon, h]
  rfl

/-- The lexemes are read as the members of an object: they end the object that they stand in. -/
def EndsObject (ls : List Lexeme) (members : List (Option String × Json)) : Prop :=
  ∀ before stack mayClose rest,
    feedAll (.object before :: stack) (.name mayClose) (ls ++ .closeObject :: rest) =
      (deliver (.object (before.reverse ++ members)) stack).bind fun s => feedAll s.1 s.2 rest

theorem HandsOn.endsObject_singleton (units : List Nat) {ls : List Lexeme} {value : Json}
    (h : HandsOn ls value) :
    EndsObject (.quoted units :: .colon :: ls) [(textOfUnits units, value)] := by
  intro before stack mayClose rest
  have hend : feed (.object ((textOfUnits units, value) :: before) :: stack) .separator
      .closeObject = deliver (.object (before.reverse ++ [(textOfUnits units, value)])) stack := by
    show close .closeObject (.object ((textOfUnits units, value) :: before) :: stack) = _
    rw [close, if_pos rfl, List.reverse_cons]
  rw [feedAll_member units h, feedAll, hend]

theorem HandsOn.endsObject_cons (units : List Nat) {ls ls' : List Lexeme} {value : Json}
    {members : List (Option String × Json)} (h : HandsOn ls value)
    (hothers : EndsObject ls' members) :
    EndsObject (.quoted units :: .colon :: ls ++ .comma :: ls')
      ((textOfUnits units, value) :: members) := by
  intro before stack mayClose rest
  have hcomma : feed (.object ((textOfUnits units, value) :: before) :: stack) .separator .comma =
      some (.object ((textOfUnits units, value) :: before) :: stack, .name false) := rfl
  have hrest := hothers ((textOfUnits units, value) :: before) stack false rest
  rw [List.reverse_cons, List.append_assoc, List.singleton_append] at hrest
  rw [List.append_assoc, feedAll_member units h]
  exact (feedAll_cons hcomma _).trans hrest

theorem EndsObject.handsOn {ls : List Lexeme} {members : List (Option String × Json)}
    (h : EndsObject ls members) :
    HandsOn (.openObject :: (ls ++ [.closeObject])) (.object members) := by
  intro stack mayClose rest
  have hopen : feed stack (.value mayClose) .openObject = some (.object [] :: stack, .name true) :=
    rfl
  rw [List.cons_append, feedAll_cons hopen, List.append_assoc]
  exact h [] stack true rest

theorem handsOn_emptyObject : HandsOn [.openObject, .closeObject] (.object []) := fun _ _ _ => rfl

mutual

theorem handsOn_lexemes : ∀ {j : Json}, j.Writable → HandsOn j.lexemes j
  | .null, _ => by
    rw [lexemes]
    exact handsOn_word rfl
  | .bool b, _ => by
    rw [lexemes]
    cases b <;> exact handsOn_word rfl
  | .number n, h => by
    rw [Writable] at h
    rw [lexemes]
    exact handsOn_word (ofWord?_of_read? (Numeral.read?_spell h))
  | .string text, h => by
    rw [Writable] at h
    have hquoted := handsOn_quoted ((writtenText text).map Char.toNat)
    rw [textOfUnits_of_isSome h] at hquoted
    rw [lexemes]
    exact hquoted
  | .array items, h => by
    rw [Writable] at h
    rw [lexemes]
    by_cases hitems : items = []
    · subst hitems
      rw [itemLexemes]
      exact handsOn_emptyArray
    · exact (endsArray_itemLexemes h hitems).handsOn
  | .object members, h => by
    rw [Writable] at h
    rw [lexemes]
    by_cases hmembers : members = []
    · subst hmembers
      rw [memberLexemes]
      exact handsOn_emptyObject
    · exact (endsObject_memberLexemes h hmembers).handsOn

theorem endsArray_itemLexemes : ∀ {items : List Json}, ItemsWritable items → items ≠ [] →
    EndsArray ([Lexeme.comma].intercalate (itemLexemes items)) items
  | [], _, hne => absurd rfl hne
  | [j], h, _ => by
    rw [ItemsWritable] at h
    rw [itemLexemes, itemLexemes, List.intercalate_singleton]
    exact (handsOn_lexemes h.1).endsArray_singleton
  | j :: k :: items, h, _ => by
    rw [ItemsWritable] at h
    have hothers := endsArray_itemLexemes h.2 (List.cons_ne_nil k items)
    rw [itemLexemes] at hothers
    rw [itemLexemes, itemLexemes, List.intercalate_cons_cons, List.append_assoc]
    exact (handsOn_lexemes h.1).endsArray_cons hothers

theorem endsObject_memberLexemes : ∀ {members : List (Option String × Json)},
    MembersWritable members → members ≠ [] →
    EndsObject ([Lexeme.comma].intercalate (memberLexemes members)) members
  | [], _, hne => absurd rfl hne
  | [(name, value)], h, _ => by
    rw [MembersWritable] at h
    have hmember := (handsOn_lexemes h.2.1).endsObject_singleton
      ((writtenText name).map Char.toNat)
    rw [textOfUnits_of_isSome h.1] at hmember
    rw [memberLexemes, memberLexemes, List.intercalate_singleton]
    exact hmember
  | (name, value) :: (name', value') :: members, h, _ => by
    rw [MembersWritable] at h
    have hothers := endsObject_memberLexemes h.2.2 (List.cons_ne_nil _ members)
    have hmember := (handsOn_lexemes h.2.1).endsObject_cons
      ((writtenText name).map Char.toNat) hothers
    rw [textOfUnits_of_isSome h.1] at hmember
    rw [memberLexemes] at hmember
    rw [memberLexemes, memberLexemes, List.intercalate_cons_cons, List.append_assoc]
    exact hmember

end

/-! ## Whole texts -/

theorem read?_of_scan {text : String} {j : Json} (h : j.Writable)
    (hscan : Lexeme.scan text.toList = some j.lexemes) : read? text = some j := by
  have hall := handsOn_lexemes h [] false []
  rw [List.append_nil] at hall
  rw [read?, hscan, Option.bind_some, hall]
  rfl

/-- A value is read back from the text without blanks. -/
theorem read?_compact {j : Json} (h : j.Writable) : read? j.compact = some j :=
  read?_of_scan h (scan_compact h.numbersAreWords)

/-- A value is read back from the text with one item a line, with or without an end of line behind
it. -/
theorem read?_pretty {j : Json} (h : j.Writable) (blanks : String)
    (hblanks : ∀ c ∈ blanks.toList, Lexeme.isSpace c = true) :
    read? (j.pretty ++ blanks) = some j :=
  read?_of_scan h (scan_pretty h.numbersAreWords blanks hblanks)

end Json

end TreeDerivation
