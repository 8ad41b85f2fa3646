import Mathlib.Data.List.SplitBy
import Mathlib.Data.List.TakeWhile
import TreeDerivation.Text.Words

/-!
# The words of a text

There is one way only to cut a text into runs of word characters, runs of blanks and single marks so
that no run could be longer, and it is the way in which words are split
(`Text.splitWords_normalForm`). A scan that looks for word characters, else blanks, else one
character that is neither, finds the same pieces: it never skips a character, and no piece that it
takes is too long or too short (`Text.scan_wordPattern`).

All rests on the two classes of characters being apart (`Text.isWordChar_of_isBlank`). It is read
off the tables: there are few blanks, and each of them is looked up among the word characters.
-/

namespace TreeDerivation.Text

/-! ## No blank is a word character -/

namespace CodeSet

/-- The code points of a set that changes an even number of times. -/
def points : List Nat → List Nat
  | first :: last :: rest => List.range' first (last - first) ++ points rest
  | _ => []

theorem mem_points_of_memFrom {n : Nat} {changes : List Nat} (heven : changes.length % 2 = 0)
    (h : memFrom false n changes = true) : n ∈ points changes := by
  induction changes using points.induct with
  | case1 first last rest ih =>
    rw [memFrom, memFrom, Bool.not_false, Bool.not_true] at h
    rw [points, List.mem_append, List.mem_range'_1]
    split at h
    · cases h
    · split at h
      · exact .inl (by omega)
      · rw [List.length_cons, List.length_cons] at heven
        exact .inr (ih (by omega) h)
  | case2 changes hshort =>
    match changes with
    | [] => cases h
    | [_] => cases heven
    | first :: last :: rest => exact absurd rfl (hshort first last rest)

end CodeSet

theorem isWordChar_of_isBlank {c : Char} (h : isBlank c = true) : isWordChar c = false := by
  have hall : ∀ n ∈ CodeSet.points blankSet.changes, wordSet.mem n = false := by decide +kernel
  exact hall _ (CodeSet.mem_points_of_memFrom (by decide) h)

theorem isBlank_of_isWordChar {c : Char} (h : isWordChar c = true) : isBlank c = false := by
  cases hblank : isBlank c with
  | false => rfl
  | true => exact absurd h (by simp [isWordChar_of_isBlank hblank])

/-! ## Neighbours in one piece -/

theorem sameRun_iff {a b : Char} : sameRun a b = true ↔
    (isWordChar a = true ∧ isWordChar b = true) ∨ (isBlank a = true ∧ isBlank b = true) := by
  rw [sameRun, Bool.or_eq_true, Bool.and_eq_true, Bool.and_eq_true]

theorem sameRun_of_isWordChar {a : Char} (h : isWordChar a = true) (b : Char) :
    sameRun a b = isWordChar b := by
  rw [sameRun, h, isBlank_of_isWordChar h, Bool.true_and, Bool.false_and, Bool.or_false]

theorem sameRun_of_isBlank {a : Char} (h : isBlank a = true) (b : Char) :
    sameRun a b = isBlank b := by
  rw [sameRun, h, isWordChar_of_isBlank h, Bool.true_and, Bool.false_and, Bool.false_or]

theorem sameRun_of_neither {a : Char} (hword : isWordChar a = false) (hblank : isBlank a = false)
    (b : Char) : sameRun a b = false := by
  rw [sameRun, hword, hblank, Bool.false_and, Bool.false_and, Bool.or_false]

/-- Characters that follow one another in one piece are a single one, or all of one class. -/
theorem isChain_sameRun_iff {c : Char} {cs : List Char} :
    (c :: cs).IsChain (fun a b => sameRun a b = true) ↔
      cs = [] ∨ (∀ a ∈ c :: cs, isWordChar a = true) ∨ ∀ a ∈ c :: cs, isBlank a = true := by
  constructor
  · intro h
    induction cs generalizing c with
    | nil => exact .inl rfl
    | cons d cs ih =>
      obtain ⟨hcd, hrest⟩ := List.isChain_cons_cons.mp h
      have hclass := ih hrest
      rcases sameRun_iff.mp hcd with ⟨hc, hd⟩ | ⟨hc, hd⟩
      · refine .inr (.inl (List.forall_mem_cons.mpr ⟨hc, ?_⟩))
        rcases hclass with rfl | hall | hall
        · simpa using hd
        · exact hall
        · exact absurd hd (by simp [isWordChar_of_isBlank (hall d List.mem_cons_self)])
      · refine .inr (.inr (List.forall_mem_cons.mpr ⟨hc, ?_⟩))
        rcases hclass with rfl | hall | hall
        · simpa using hd
        · exact absurd hd (by simp [isBlank_of_isWordChar (hall d List.mem_cons_self)])
        · exact hall
  · rintro (rfl | hall | hall)
    · exact .singleton c
    · refine (List.pairwise_of_forall_mem_list fun a ha b hb => ?_).isChain
      exact sameRun_iff.mpr (.inl ⟨hall a ha, hall b hb⟩)
    · refine (List.pairwise_of_forall_mem_list fun a ha b hb => ?_).isChain
      exact sameRun_iff.mpr (.inr ⟨hall a ha, hall b hb⟩)

/-! ## Whole pieces -/

/-- Whether all characters are part of words. -/
def IsWord (p : String) : Prop :=
  ∀ c ∈ p.toList, isWordChar c = true

/-- Whether all characters are blanks. -/
def IsBlanks (p : String) : Prop :=
  ∀ c ∈ p.toList, isBlank c = true

/-- Whether there is one character only, which is neither part of words nor a blank. -/
def IsMark (p : String) : Prop :=
  ∃ c, p.toList = [c] ∧ isWordChar c = false ∧ isBlank c = false

/-- Pieces of a text as long as they can be: words, runs of blanks and single marks, where neither
two words nor two runs of blanks follow one another. -/
structure WholePieces (pieces : List String) : Prop where
  ne_empty : ∀ p ∈ pieces, p ≠ ""
  kinds : ∀ p ∈ pieces, IsWord p ∨ IsBlanks p ∨ IsMark p
  apart : pieces.IsChain fun p q => ¬ (IsWord p ∧ IsWord q) ∧ ¬ (IsBlanks p ∧ IsBlanks q)

theorem kinds_iff_isChain {p : String} (hp : p ≠ "") :
    (IsWord p ∨ IsBlanks p ∨ IsMark p) ↔ p.toList.IsChain fun a b => sameRun a b = true := by
  obtain ⟨c, cs, hcs⟩ := List.exists_cons_of_ne_nil (mt String.toList_eq_nil_iff.mp hp)
  rw [IsWord, IsBlanks, IsMark, hcs, isChain_sameRun_iff]
  constructor
  · rintro (hword | hblank | ⟨d, hd, -⟩)
    · exact .inr (.inl hword)
    · exact .inr (.inr hblank)
    · exact .inl (List.cons.inj hd).2
  · rintro (rfl | hword | hblank)
    · cases hword : isWordChar c with
      | true => exact .inl (by simpa using hword)
      | false =>
        cases hblank : isBlank c with
        | true => exact .inr (.inl (by simpa using hblank))
        | false => exact .inr (.inr ⟨c, rfl, hword, hblank⟩)
    · exact .inl hword
    · exact .inr (.inl hblank)

/-- The class of any one character of a piece is the class of the piece. -/
theorem isWord_of_mem {p : String} (hkind : IsWord p ∨ IsBlanks p ∨ IsMark p) {c : Char}
    (hc : c ∈ p.toList) (h : isWordChar c = true) : IsWord p := by
  rcases hkind with hword | hblank | ⟨d, hd, hmark, -⟩
  · exact hword
  · exact absurd h (by simp [isWordChar_of_isBlank (hblank c hc)])
  · obtain rfl : c = d := by simpa [hd] using hc
    exact absurd h (by simp [hmark])

theorem isBlanks_of_mem {p : String} (hkind : IsWord p ∨ IsBlanks p ∨ IsMark p) {c : Char}
    (hc : c ∈ p.toList) (h : isBlank c = true) : IsBlanks p := by
  rcases hkind with hword | hblank | ⟨d, hd, -, hmark⟩
  · exact absurd h (by simp [isBlank_of_isWordChar (hword c hc)])
  · exact hblank
  · obtain rfl : c = d := by simpa [hd] using hc
    exact absurd h (by simp [hmark])

/-- Two pieces are of one class exactly when their characters that meet are. -/
theorem apart_iff {p q : String} (hp : IsWord p ∨ IsBlanks p ∨ IsMark p)
    (hq : IsWord q ∨ IsBlanks q ∨ IsMark q) (hlast : p.toList ≠ []) (hhead : q.toList ≠ []) :
    (¬ (IsWord p ∧ IsWord q) ∧ ¬ (IsBlanks p ∧ IsBlanks q)) ↔
      sameRun (p.toList.getLast hlast) (q.toList.head hhead) = false := by
  have hl := List.getLast_mem hlast
  have hh := List.head_mem hhead
  rw [← Bool.not_eq_true, sameRun_iff, not_or]
  refine and_congr (not_congr ⟨?_, ?_⟩) (not_congr ⟨?_, ?_⟩)
  · exact fun ⟨hword, hword'⟩ => ⟨hword _ hl, hword' _ hh⟩
  · exact fun ⟨hlast, hhead⟩ => ⟨isWord_of_mem hp hl hlast, isWord_of_mem hq hh hhead⟩
  · exact fun ⟨hblank, hblank'⟩ => ⟨hblank _ hl, hblank' _ hh⟩
  · exact fun ⟨hlast, hhead⟩ => ⟨isBlanks_of_mem hp hl hlast, isBlanks_of_mem hq hh hhead⟩

theorem wholePieces_iff {pieces : List String} :
    WholePieces pieces ↔ [] ∉ pieces.map String.toList ∧
      (∀ p ∈ pieces.map String.toList, p.IsChain fun a b => sameRun a b = true) ∧
      (pieces.map String.toList).IsChain fun p q =>
        ∃ hp hq, sameRun (p.getLast hp) (q.head hq) = false := by
  rw [List.isChain_map, List.forall_mem_map]
  constructor
  · rintro ⟨hne, hkinds, hapart⟩
    have hchars : ∀ p ∈ pieces, p.toList ≠ [] := fun p hp =>
      mt String.toList_eq_nil_iff.mp (hne p hp)
    refine ⟨?_, fun p hp => (kinds_iff_isChain (hne p hp)).mp (hkinds p hp), ?_⟩
    · rintro hnil
      obtain ⟨p, hp, hempty⟩ := List.mem_map.mp hnil
      exact hchars p hp hempty
    · refine (List.IsChain.iff_mem.mp hapart).imp fun p q ⟨hp, hq, hpq⟩ => ?_
      refine ⟨hchars p hp, hchars q hq, ?_⟩
      exact (apart_iff (hkinds p hp) (hkinds q hq) _ _).mp hpq
  · rintro ⟨hnil, hchain, hapart⟩
    have hne : ∀ p ∈ pieces, p ≠ "" := by
      rintro p hp rfl
      exact hnil (List.mem_map.mpr ⟨"", hp, rfl⟩)
    have hkinds := fun p hp => (kinds_iff_isChain (hne p hp)).mpr (hchain p hp)
    refine ⟨hne, hkinds, ?_⟩
    refine (List.IsChain.iff_mem.mp hapart).imp fun p q ⟨hp, hq, hlast, hhead, hpq⟩ => ?_
    exact (apart_iff (hkinds p hp) (hkinds q hq) hlast hhead).mpr hpq

theorem map_toList_splitWords (s : String) :
    (splitWords s).map String.toList = s.toList.splitBy sameRun := by
  rw [splitWords, List.map_map]
  simp [Function.comp_def]

theorem eq_splitWords_iff {s : String} {pieces : List String} :
    pieces = splitWords s ↔ WholePieces pieces ∧ String.join pieces = s := by
  have hinj : Function.Injective (List.map String.toList) :=
    List.map_injective_iff.mpr fun _ _ => String.toList_injective
  rw [← hinj.eq_iff, map_toList_splitWords, eq_comm, List.splitBy_eq_iff, wholePieces_iff,
    ← String.toList_inj, String.toList_join, List.flatMap_def, and_comm, eq_comm]

/-! ## The scan -/

/-- A part of a pattern: the characters that it takes, and whether it takes all that follow one
another or one of them. -/
structure Part where
  admits : Char → Bool
  repeats : Bool

/-- What a pattern finds in a text: at each place the first part that admits the next character
takes as much as it can, and the search goes on behind it. A character that no part admits is
skipped. -/
def scan (pattern : List Part) : List Char → List (List Char)
  | [] => []
  | c :: cs =>
    match pattern.find? fun part => part.admits c with
    | none => scan pattern cs
    | some part =>
      if part.repeats then
        (c :: cs.takeWhile part.admits) :: scan pattern (cs.dropWhile part.admits)
      else
        [c] :: scan pattern cs
termination_by cs => cs.length
decreasing_by
  · exact Nat.lt_succ_self _
  · exact Nat.lt_succ_of_le (List.length_dropWhile_le _ cs)
  · exact Nat.lt_succ_self _

/-- Word characters, else blanks, else one character that is neither. -/
def wordPattern : List Part :=
  [⟨isWordChar, true⟩, ⟨isBlank, true⟩, ⟨fun c => !isWordChar c && !isBlank c, false⟩]

/-- The first piece of a text goes on for as long as characters fit to its first one. -/
theorem splitBy_cons {c : Char} {admits : Char → Bool}
    (h : ∀ a, a = c ∨ admits a = true → ∀ b, sameRun a b = admits b) (cs : List Char) :
    (c :: cs).splitBy sameRun =
      (c :: cs.takeWhile admits) :: (cs.dropWhile admits).splitBy sameRun := by
  have hadmits : ∀ b ∈ cs.takeWhile admits, admits b = true := fun b => List.mem_takeWhile_imp
  have hchain : (c :: cs.takeWhile admits).IsChain fun a b => sameRun a b = true := by
    refine (List.pairwise_cons.mpr ⟨fun b hb => ?_, ?_⟩).isChain
    · exact (h c (.inl rfl) b).trans (hadmits b hb)
    · refine List.pairwise_of_forall_mem_list fun a ha b hb => ?_
      exact (h a (.inr (hadmits a ha)) b).trans (hadmits b hb)
  have hend : ∀ a ∈ (c :: cs.takeWhile admits).getLast?, ∀ b ∈ (cs.dropWhile admits).head?,
      sameRun a b = false := by
    intro a ha b hb
    have hstop := List.head?_dropWhile_not admits cs
    rw [hb] at hstop
    rcases List.mem_cons.mp (List.mem_of_getLast? ha) with rfl | ha
    · exact (h a (.inl rfl) b).trans hstop
    · exact (h a (.inr (hadmits a ha)) b).trans hstop
  conv_lhs => rw [← cs.takeWhile_append_dropWhile (p := admits), ← List.cons_append]
  rw [List.splitBy_append hend, List.splitBy_of_isChain (List.cons_ne_nil _ _) hchain,
    List.singleton_append]

/-- Every character is admitted by a part of the pattern, and the part goes on for as long as
characters fit to that one. -/
theorem exists_part (c : Char) :
    ∃ part, wordPattern.find? (fun part => part.admits c) = some part ∧
      ∀ a, a = c ∨ (part.repeats && part.admits a) = true →
        ∀ b, sameRun a b = (part.repeats && part.admits b) := by
  cases hword : isWordChar c with
  | true =>
    refine ⟨⟨isWordChar, true⟩, by simp [wordPattern, hword], fun a ha => ?_⟩
    refine sameRun_of_isWordChar ?_
    rcases ha with rfl | ha
    · exact hword
    · exact ha
  | false =>
    cases hblank : isBlank c with
    | true =>
      refine ⟨⟨isBlank, true⟩, by simp [wordPattern, hword, hblank], fun a ha => ?_⟩
      refine sameRun_of_isBlank ?_
      rcases ha with rfl | ha
      · exact hblank
      · exact ha
    | false =>
      refine ⟨⟨fun c => !isWordChar c && !isBlank c, false⟩,
        by simp [wordPattern, hword, hblank], fun a ha => ?_⟩
      obtain rfl : a = c := by simpa using ha
      exact sameRun_of_neither hword hblank

/-- The scan finds the pieces into which a text falls. -/
theorem scan_wordPattern (cs : List Char) : scan wordPattern cs = cs.splitBy sameRun := by
  fun_induction scan wordPattern cs with
  | case1 => rfl
  | case2 c cs hfind _ =>
    obtain ⟨part, hpart, -⟩ := exists_part c
    exact absurd (hfind.symm.trans hpart) (by simp)
  | case3 c cs part hfind hrepeats ih =>
    obtain ⟨_, hpart, hruns⟩ := exists_part c
    obtain rfl := Option.some.inj (hfind.symm.trans hpart)
    simp only [hrepeats, Bool.true_and] at hruns
    rw [splitBy_cons hruns, ih]
  | case4 c cs part hfind hsingle ih =>
    obtain ⟨_, hpart, hruns⟩ := exists_part c
    obtain rfl := Option.some.inj (hfind.symm.trans hpart)
    rw [Bool.not_eq_true] at hsingle
    simp only [hsingle, Bool.false_and] at hruns
    have hstay : cs.dropWhile (fun _ => false) = cs := List.dropWhile_eq_self_iff.mpr (by simp)
    have hnone : cs.takeWhile (fun _ => false) = [] := List.takeWhile_eq_nil_iff.mpr (by simp)
    rw [splitBy_cons hruns, hstay, hnone, ih]

/-! ## The words of a text -/

theorem join_splitWords (s : String) : String.join (splitWords s) = s :=
  (eq_splitWords_iff.mp rfl).2

/-- The words of a text are the only way to cut it into words, runs of blanks and single marks where
no two words and no two runs of blanks are neighbours. They are what a scan finds that looks for
word characters, else blanks, else one character that is neither. So they join up to the text, each
of them falls into itself only, and splitting what they join up to gives them again. -/
theorem splitWords_normalForm (s : String) :
    (∀ pieces, pieces = splitWords s ↔ WholePieces pieces ∧ String.join pieces = s) ∧
    splitWords s = (scan wordPattern s.toList).map String.ofList ∧
    String.join (splitWords s) = s ∧
    (∀ p ∈ splitWords s, splitWords p = [p]) ∧
    splitWords (String.join (splitWords s)) = splitWords s := by
  refine ⟨fun pieces => eq_splitWords_iff, ?found, join_splitWords s, fun p hp => ?piece, ?again⟩
  case found => rw [scan_wordPattern, splitWords]
  case piece =>
    obtain ⟨hne, hkinds, -⟩ := (eq_splitWords_iff.mp (rfl : splitWords s = splitWords s)).1
    refine (eq_splitWords_iff.mpr ⟨⟨?_, ?_, .singleton p⟩, ?_⟩).symm
    · simpa using hne p hp
    · simpa using hkinds p hp
    · simp [String.join]
  case again => rw [join_splitWords]

example : splitWords "été  == y+1" = ["été", "  ", "=", "=", " ", "y", "+", "1"] := by decide

end TreeDerivation.Text
