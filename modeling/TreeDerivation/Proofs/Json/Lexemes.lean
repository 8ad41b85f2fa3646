import Mathlib.Data.List.Forall2
import Mathlib.Tactic.IntervalCases
import TreeDerivation.Json.Lexeme
import TreeDerivation.Json.Printer

/-!
# The lexemes of written values

Both texts that are written for a JSON value are read as the same lexemes, `Json.lexemes`
(`scan_compact`, `scan_pretty`). The indentation of the longer text and the line end that a program
puts behind it are blanks between lexemes.

A text is read piece by piece: `Spells cs ls` says that the piece `cs` is read as the lexemes `ls`
wherever it stands between two lexemes. A word ends only where something else begins, so that is
said for all continuations that cannot prolong a word (`EndsWord`), and pieces are put together from
the back. Nothing is asked of the texts inside the value; of its numbers only that they are written
with the characters of words.
-/

namespace TreeDerivation

namespace Lexeme

/-! ## Reading on -/

/-- Reads from where the automaton stands to the end of the text. -/
def resume (s : Scan) (cs : List Char) : Option (List Lexeme) :=
  (cs.foldlM step s).bind finish

theorem scan_eq_resume (cs : List Char) : scan cs = resume ⟨[], .between⟩ cs := rfl

theorem resume_cons {s s' : Scan} {c : Char} (h : step s c = some s') (cs : List Char) :
    resume s (c :: cs) = resume s' cs := by
  rw [resume, List.foldlM_cons, h]
  rfl

theorem resume_append {s s' : Scan} {cs : List Char} (h : cs.foldlM step s = some s')
    (rest : List Char) : resume s (cs ++ rest) = resume s' rest := by
  rw [resume, List.foldlM_append, h]
  rfl

/-- Whether a word cannot go on into the text: it is empty, or begins with no part of a word. -/
def EndsWord (cs : List Char) : Prop :=
  ∀ c ∈ cs.head?, isWordPart c = false

theorem endsWord_nil : EndsWord [] := by
  intro c hc
  exact absurd hc (by simp)

theorem endsWord_cons {c : Char} (hc : isWordPart c = false) (cs : List Char) :
    EndsWord (c :: cs) := by
  intro d hd
  obtain rfl : c = d := by simpa using hd
  exact hc

theorem EndsWord.append {cs rest : List Char} (hcs : EndsWord cs) (hrest : EndsWord rest) :
    EndsWord (cs ++ rest) := by
  cases cs with
  | nil => exact hrest
  | cons c cs => exact endsWord_cons (hcs c rfl) _

/-- The piece is read as these lexemes between any two others. -/
def Spells (cs : List Char) (ls : List Lexeme) : Prop :=
  ∀ done rest, EndsWord rest →
    resume ⟨done, .between⟩ (cs ++ rest) = resume ⟨ls.reverse ++ done, .between⟩ rest

theorem spells_nil : Spells [] [] := fun _ _ _ => rfl

theorem Spells.append {a b : List Char} {la lb : List Lexeme} (ha : Spells a la)
    (hb : Spells b lb) (hends : EndsWord b) : Spells (a ++ b) (la ++ lb) := by
  intro done rest hrest
  rw [List.append_assoc, ha done (b ++ rest) (hends.append hrest), hb _ rest hrest,
    List.reverse_append, List.append_assoc]

/-- A piece that is the whole text is read as its lexemes. -/
theorem Spells.scan_eq {cs : List Char} {ls : List Lexeme} (h : Spells cs ls) :
    scan cs = some ls := by
  have hwhole := h [] [] endsWord_nil
  rw [List.append_nil, List.append_nil] at hwhole
  rw [scan_eq_resume, hwhole]
  show some ls.reverse.reverse = some ls
  rw [List.reverse_reverse]

/-! ## Marks and blanks -/

theorem step_between_mark {c : Char} {m : Lexeme} (h : mark? c = some m) (done : List Lexeme) :
    step ⟨done, .between⟩ c = some ⟨m :: done, .between⟩ := by
  unfold mark? at h
  split at h <;> cases h <;> rfl

theorem isWordPart_of_mark {c : Char} {m : Lexeme} (h : mark? c = some m) :
    isWordPart c = false := by
  unfold mark? at h
  split at h <;> first | rfl | cases h

theorem Spells.cons_mark {c : Char} {m : Lexeme} (hm : mark? c = some m) {cs : List Char}
    {ls : List Lexeme} (h : Spells cs ls) : Spells (c :: cs) (m :: ls) := by
  intro done rest hrest
  rw [List.cons_append, resume_cons (step_between_mark hm done), h _ rest hrest,
    List.reverse_cons, List.append_assoc]
  rfl

theorem isSpace_iff {c : Char} : isSpace c = true ↔ c = ' ' ∨ c = '\t' ∨ c = '\n' ∨ c = '\r' := by
  simp [isSpace, or_assoc]

theorem isWordPart_of_isSpace {c : Char} (hc : isSpace c = true) : isWordPart c = false := by
  rcases isSpace_iff.mp hc with rfl | rfl | rfl | rfl <;> decide

theorem Spells.append_blanks {blanks : List Char} (hblanks : ∀ c ∈ blanks, isSpace c = true)
    {cs : List Char} {ls : List Lexeme} (h : Spells cs ls) : Spells (blanks ++ cs) ls := by
  induction blanks with
  | nil => exact h
  | cons b blanks ih =>
    have hrest := ih fun c hc => hblanks c (List.mem_cons_of_mem b hc)
    intro done rest hends
    have hstep : step ⟨done, .between⟩ b = some ⟨done, .between⟩ := by
      show stepBetween done b = _
      rw [stepBetween, if_pos (hblanks b List.mem_cons_self)]
    rw [List.cons_append, List.cons_append, resume_cons hstep]
    exact hrest done rest hends

theorem endsWord_of_blanks {blanks : List Char} (hblanks : ∀ c ∈ blanks, isSpace c = true) :
    EndsWord blanks := by
  intro c hc
  exact isWordPart_of_isSpace (hblanks c (List.mem_of_head? hc))

/-! ## Words -/

theorem isSpace_of_isWordPart {c : Char} (hc : isWordPart c = true) : isSpace c = false := by
  by_contra h
  rw [isWordPart_of_isSpace (by simpa using h)] at hc
  exact absurd hc (by decide)

theorem step_between_wordPart {c : Char} (hc : isWordPart c = true) (done : List Lexeme) :
    step ⟨done, .between⟩ c = some ⟨done, .inWord [c]⟩ := by
  have hquote : c ≠ '"' := by
    rintro rfl
    exact absurd hc (by decide)
  show stepBetween done c = _
  rw [stepBetween, if_neg (by simp [isSpace_of_isWordPart hc]), if_neg hquote, if_pos hc]

theorem foldlM_step_inWord (done : List Lexeme) (text w : List Char)
    (hw : ∀ c ∈ w, isWordPart c = true) :
    w.foldlM step ⟨done, .inWord text⟩ = some ⟨done, .inWord (w.reverse ++ text)⟩ := by
  induction w generalizing text with
  | nil => rfl
  | cons c w ih =>
    have hstep : step ⟨done, .inWord text⟩ c = some ⟨done, .inWord (c :: text)⟩ :=
      if_pos (hw c List.mem_cons_self)
    have hrest := ih (c :: text) fun d hd => hw d (List.mem_cons_of_mem c hd)
    rw [List.foldlM_cons, hstep, List.reverse_cons, List.append_assoc]
    exact hrest

/-- A word under way ends where something else begins. -/
theorem resume_inWord (done : List Lexeme) (text : List Char) {rest : List Char}
    (hrest : EndsWord rest) :
    resume ⟨done, .inWord text⟩ rest = resume ⟨.word text.reverse :: done, .between⟩ rest := by
  cases rest with
  | nil => rfl
  | cons c rest =>
    have hc : isWordPart c = false := hrest c rfl
    have hstep : step ⟨done, .inWord text⟩ c =
        step ⟨.word text.reverse :: done, .between⟩ c := if_neg (by simp [hc])
    rw [resume, resume, List.foldlM_cons, List.foldlM_cons, hstep]

theorem spells_word {w : List Char} (hne : w ≠ []) (hw : ∀ c ∈ w, isWordPart c = true) :
    Spells w [.word w] := by
  intro done rest hrest
  cases w with
  | nil => exact absurd rfl hne
  | cons c w =>
    have hfirst := step_between_wordPart (hw c List.mem_cons_self) done
    have hothers := foldlM_step_inWord done [c] w fun d hd => hw d (List.mem_cons_of_mem c hd)
    rw [List.cons_append, resume_cons hfirst, resume_append hothers, resume_inWord done _ hrest,
      List.reverse_append, List.reverse_reverse]
    rfl

/-! ## Quoted texts -/

theorem foldlM_step_control :
    ∀ n < 0x20, ∀ (done : List Lexeme) (units : List Nat),
      ('\\' :: 'u' :: Json.fourHexDigits n).foldlM step ⟨done, .inQuotes units⟩ =
        some ⟨done, .inQuotes (n :: units)⟩ := by
  intro n hn done units
  interval_cases n <;> rfl

/-- However a character is written, it is read as its code point. -/
theorem foldlM_step_escape (c : Char) (done : List Lexeme) (units : List Nat) :
    (Json.escape c).foldlM step ⟨done, .inQuotes units⟩ =
      some ⟨done, .inQuotes (c.toNat :: units)⟩ := by
  unfold Json.escape
  split_ifs with hquote hslash hb hf hn hr ht hcontrol
  · subst hquote; rfl
  · subst hslash; rfl
  · subst hb; rfl
  · subst hf; rfl
  · subst hn; rfl
  · subst hr; rfl
  · subst ht; rfl
  · exact foldlM_step_control c.toNat hcontrol done units
  · have hstep : step ⟨done, .inQuotes units⟩ c = some ⟨done, .inQuotes (c.toNat :: units)⟩ :=
      (if_neg hquote).trans ((if_neg hslash).trans (if_neg hcontrol))
    rw [List.foldlM_cons, hstep]
    rfl

theorem foldlM_step_escapes (s : List Char) (done : List Lexeme) (units : List Nat) :
    (s.flatMap Json.escape).foldlM step ⟨done, .inQuotes units⟩ =
      some ⟨done, .inQuotes ((s.map Char.toNat).reverse ++ units)⟩ := by
  induction s generalizing units with
  | nil => rfl
  | cons c s ih =>
    rw [List.flatMap_cons, List.foldlM_append, foldlM_step_escape, List.map_cons,
      List.reverse_cons, List.append_assoc]
    exact ih (c.toNat :: units)

end Lexeme

/-! ## Values -/

/-- The characters of a text as it is written. -/
def writtenText (text : Option String) : List Char :=
  (text.getD "\ufffd").toList

/-- The lexeme that a text is written as. -/
def quotedLexeme (text : Option String) : Lexeme :=
  .quoted ((writtenText text).map Char.toNat)

open Lexeme in
theorem spells_spellText (text : Option String) :
    Spells (Json.spellText text).toList [quotedLexeme text] := by
  intro done rest _
  have hopen : step ⟨done, .between⟩ '"' = some ⟨done, .inQuotes []⟩ := rfl
  have htext := foldlM_step_escapes (writtenText text) done []
  have hclose : step ⟨done, .inQuotes ((writtenText text).map Char.toNat).reverse⟩ '"' =
      some ⟨quotedLexeme text :: done, .between⟩ := by
    show some (Scan.mk (.quoted _ :: done) .between) = _
    rw [List.reverse_reverse]
    rfl
  rw [List.append_nil] at htext
  rw [Json.spellText, String.toList_ofList, List.cons_append, resume_cons hopen,
    List.append_assoc]
  exact (resume_append htext _).trans (resume_cons hclose rest)

namespace Json

mutual

/-- The lexemes of the texts that are written for a value. -/
def lexemes : Json → List Lexeme
  | .null => [.word "null".toList]
  | .bool b => [.word (if b then "true" else "false").toList]
  | .number n => [.word n.spell]
  | .string text => [quotedLexeme text]
  | .array items => .openArray :: ([.comma].intercalate (itemLexemes items) ++ [.closeArray])
  | .object members =>
    .openObject :: ([.comma].intercalate (memberLexemes members) ++ [.closeObject])

/-- The lexemes of each item. -/
def itemLexemes : List Json → List (List Lexeme)
  | [] => []
  | j :: rest => j.lexemes :: itemLexemes rest

/-- The lexemes of each member. -/
def memberLexemes : List (Option String × Json) → List (List Lexeme)
  | [] => []
  | (name, value) :: rest => (quotedLexeme name :: .colon :: value.lexemes) :: memberLexemes rest

end

mutual

/-- Whether all numbers in a value are written with the characters of words. -/
def NumbersAreWords : Json → Prop
  | .number n => n.spell ≠ [] ∧ ∀ c ∈ n.spell, Lexeme.isWordPart c = true
  | .array items => ItemsAreWords items
  | .object members => MembersAreWords members
  | .null | .bool _ | .string _ => True

/-- Whether all numbers in the items are. -/
def ItemsAreWords : List Json → Prop
  | [] => True
  | j :: rest => j.NumbersAreWords ∧ ItemsAreWords rest

/-- Whether all numbers in the members are. -/
def MembersAreWords : List (Option String × Json) → Prop
  | [] => True
  | (_, value) :: rest => value.NumbersAreWords ∧ MembersAreWords rest

end

open Lexeme

/-! ## Containers -/

/-- Parts with commas between them, each comma followed by blanks. -/
theorem spells_intercalate (blanks : List Char) (hblanks : ∀ c ∈ blanks, isSpace c = true)
    {parts : List (List Char)} {lss : List (List Lexeme)} (h : List.Forall₂ Spells parts lss) :
    Spells ((',' :: blanks).intercalate parts) ([Lexeme.comma].intercalate lss) := by
  induction h with
  | nil => exact spells_nil
  | @cons part ls parts lss hpart hparts ih =>
    cases hparts with
    | nil => simpa using hpart
    | cons _ _ =>
      rw [List.intercalate_cons_cons, List.intercalate_cons_cons, List.append_assoc,
        List.append_assoc]
      have hothers := (ih.append_blanks hblanks).cons_mark (show mark? ',' = some .comma from rfl)
      exact hpart.append hothers (endsWord_cons rfl _)

/-- Parts between brackets, with blanks after the first and before the last. -/
theorem spells_brackets {first last : Char} {m m' : Lexeme} (hfirst : mark? first = some m)
    (hlast : mark? last = some m') (before after : List Char)
    (hbefore : ∀ c ∈ before, isSpace c = true) (hafter : ∀ c ∈ after, isSpace c = true)
    {cs : List Char} {ls : List Lexeme} (h : Spells cs ls) :
    Spells (first :: (before ++ (cs ++ (after ++ [last])))) (m :: (ls ++ [m'])) := by
  have hend : Spells (after ++ [last]) [m'] := (spells_nil.cons_mark hlast).append_blanks hafter
  have hends : EndsWord (after ++ [last]) :=
    (endsWord_of_blanks hafter).append (endsWord_cons (isWordPart_of_mark hlast) [])
  exact ((h.append hend hends).append_blanks hbefore).cons_mark hfirst

theorem spells_member (name : Option String) (blanks : List Char) {value : List Char}
    {ls : List Lexeme} (hblanks : ∀ c ∈ blanks, isSpace c = true) (h : Spells value ls) :
    Spells ((spellText name).toList ++ ':' :: (blanks ++ value))
      (quotedLexeme name :: .colon :: ls) := by
  have hvalue := (h.append_blanks hblanks).cons_mark (show mark? ':' = some .colon from rfl)
  exact (spells_spellText name).append hvalue (endsWord_cons rfl _)

theorem spells_null : Spells "null".toList [.word "null".toList] :=
  spells_word (by decide) (List.all_eq_true.mp (by decide))

theorem spells_bool (b : Bool) :
    Spells (if b then "true" else "false").toList
      [.word (if b then "true" else "false").toList] := by
  cases b <;> exact spells_word (by decide) (List.all_eq_true.mp (by decide))

/-! ## Without blanks -/

mutual

theorem spells_compact : ∀ {j : Json}, j.NumbersAreWords → Spells j.compact.toList j.lexemes
  | .null, _ => by
    rw [compact, lexemes]
    exact spells_null
  | .bool b, _ => by
    rw [compact, lexemes]
    exact spells_bool b
  | .number n, h => by
    rw [NumbersAreWords] at h
    rw [compact, lexemes, String.toList_ofList]
    exact spells_word h.1 h.2
  | .string text, _ => by
    rw [compact, lexemes]
    exact spells_spellText text
  | .array items, h => by
    rw [NumbersAreWords] at h
    have hitems := spells_intercalate [] (by simp) (spells_compactItems h)
    rw [compact, lexemes, String.toList_append, String.toList_append, String.toList_intercalate]
    exact spells_brackets rfl rfl [] [] (by simp) (by simp) hitems
  | .object members, h => by
    rw [NumbersAreWords] at h
    have hmembers := spells_intercalate [] (by simp) (spells_compactMembers h)
    rw [compact, lexemes, String.toList_append, String.toList_append, String.toList_intercalate]
    exact spells_brackets rfl rfl [] [] (by simp) (by simp) hmembers

theorem spells_compactItems : ∀ {items : List Json}, ItemsAreWords items →
    List.Forall₂ Spells ((compactItems items).map String.toList) (itemLexemes items)
  | [], _ => by
    rw [compactItems, itemLexemes]
    exact .nil
  | j :: rest, h => by
    rw [ItemsAreWords] at h
    rw [compactItems, itemLexemes, List.map_cons]
    exact .cons (spells_compact h.1) (spells_compactItems h.2)

theorem spells_compactMembers : ∀ {members : List (Option String × Json)},
    MembersAreWords members →
    List.Forall₂ Spells ((compactMembers members).map String.toList) (memberLexemes members)
  | [], _ => by
    rw [compactMembers, memberLexemes]
    exact .nil
  | (name, value) :: rest, h => by
    rw [MembersAreWords] at h
    have hvalue := spells_member name [] (by simp) (spells_compact h.1)
    rw [compactMembers, memberLexemes, List.map_cons, String.toList_append,
      String.toList_append, List.append_assoc]
    exact .cons hvalue (spells_compactMembers h.2)

end

/-! ## With one item a line -/

theorem isSpace_of_mem_newLine {level : Nat} {c : Char} (hc : c ∈ (newLine level).toList) :
    isSpace c = true := by
  rw [newLine, String.toList_ofList, List.mem_cons, List.mem_replicate] at hc
  rcases hc with rfl | ⟨-, rfl⟩ <;> rfl

theorem spells_block (first last : Char) {m m' : Lexeme} (hfirst : mark? first = some m)
    (hlast : mark? last = some m') (level : Nat) {parts : List String}
    {lss : List (List Lexeme)} (h : List.Forall₂ Spells (parts.map String.toList) lss) :
    Spells (block (String.singleton first) (String.singleton last) level parts).toList
      (m :: ([Lexeme.comma].intercalate lss ++ [m'])) := by
  have hblank : ∀ c ∈ (newLine (level + 1)).toList, isSpace c = true :=
    fun c hc => isSpace_of_mem_newLine hc
  have hafter : ∀ c ∈ (newLine level).toList, isSpace c = true :=
    fun c hc => isSpace_of_mem_newLine hc
  cases parts with
  | nil =>
    obtain rfl : lss = [] := by simpa using h
    rw [block, String.toList_append, String.toList_singleton, String.toList_singleton]
    exact spells_brackets hfirst hlast [] [] (by simp) (by simp) spells_nil
  | cons part parts =>
    have hparts := spells_intercalate _ hblank h
    rw [block]
    simp only [String.toList_append, String.toList_singleton, String.toList_intercalate,
      List.append_assoc]
    exact spells_brackets hfirst hlast _ _ hblank hafter hparts

mutual

theorem spells_prettyAt : ∀ (level : Nat) {j : Json}, j.NumbersAreWords →
    Spells (j.prettyAt level).toList j.lexemes
  | _, .null, _ => by
    rw [prettyAt, lexemes]
    exact spells_null
  | _, .bool b, _ => by
    rw [prettyAt, lexemes]
    exact spells_bool b
  | _, .number n, h => by
    rw [NumbersAreWords] at h
    rw [prettyAt, lexemes, String.toList_ofList]
    exact spells_word h.1 h.2
  | _, .string text, _ => by
    rw [prettyAt, lexemes]
    exact spells_spellText text
  | level, .array items, h => by
    rw [NumbersAreWords] at h
    rw [prettyAt, lexemes]
    exact spells_block '[' ']' rfl rfl level (spells_prettyItems (level + 1) h)
  | level, .object members, h => by
    rw [NumbersAreWords] at h
    rw [prettyAt, lexemes]
    exact spells_block '\x7b' '\x7d' rfl rfl level (spells_prettyMembers (level + 1) h)

theorem spells_prettyItems : ∀ (level : Nat) {items : List Json}, ItemsAreWords items →
    List.Forall₂ Spells ((prettyItems level items).map String.toList) (itemLexemes items)
  | _, [], _ => by
    rw [prettyItems, itemLexemes]
    exact .nil
  | level, j :: rest, h => by
    rw [ItemsAreWords] at h
    rw [prettyItems, itemLexemes, List.map_cons]
    exact .cons (spells_prettyAt level h.1) (spells_prettyItems level h.2)

theorem spells_prettyMembers : ∀ (level : Nat) {members : List (Option String × Json)},
    MembersAreWords members →
    List.Forall₂ Spells ((prettyMembers level members).map String.toList) (memberLexemes members)
  | _, [], _ => by
    rw [prettyMembers, memberLexemes]
    exact .nil
  | level, (name, value) :: rest, h => by
    rw [MembersAreWords] at h
    have hblank : ∀ c ∈ [' '], isSpace c = true := List.all_eq_true.mp (by decide)
    have hvalue := spells_member name [' '] hblank (spells_prettyAt level h.1)
    rw [prettyMembers, memberLexemes, List.map_cons, String.toList_append,
      String.toList_append, List.append_assoc]
    exact .cons hvalue (spells_prettyMembers level h.2)

end

/-! ## Whole texts -/

/-- The text without blanks is read as the lexemes of the value. -/
theorem scan_compact {j : Json} (h : j.NumbersAreWords) :
    Lexeme.scan j.compact.toList = some j.lexemes :=
  (spells_compact h).scan_eq

/-- So is the text with one item a line, with or without an end of line behind it. -/
theorem scan_pretty {j : Json} (h : j.NumbersAreWords) (blanks : String)
    (hblanks : ∀ c ∈ blanks.toList, isSpace c = true) :
    Lexeme.scan (j.pretty ++ blanks).toList = some j.lexemes := by
  have hend : Spells blanks.toList [] := by
    simpa using spells_nil.append_blanks hblanks
  have hall := (spells_prettyAt 0 h).append hend (endsWord_of_blanks hblanks)
  rw [List.append_nil] at hall
  rw [String.toList_append]
  exact hall.scan_eq

end Json

end TreeDerivation
