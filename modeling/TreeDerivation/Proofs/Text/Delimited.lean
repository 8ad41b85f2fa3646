import Mathlib.Data.List.Basic
import Mathlib.Tactic.IntervalCases
import TreeDerivation.Json.Lexeme
import TreeDerivation.Text.Quoted

/-!
# Texts that show where they end

A written form can be told from all others, and from what is written behind it, if two texts that
begin with such forms are equal only where the forms are and the rests are. This is shown for the
three ways in which one-line forms are put together: a name up to the first mark
(`name_append_inj`), items with commas between them up to a closing mark (`joined_append_inj`), and
quoted texts (`quoted_append_inj`).

A quoted text ends at its first bare quote, since no character is written with one. Each character
is read back from the way in which it is written, whatever follows (`readChar_escapeChar`).
-/

namespace TreeDerivation.Text

/-! ## Names -/

/-- Two texts are split alike at the first mark. -/
theorem append_mark_inj {marks xs ys : List Char} {a b : Char} {r s : List Char}
    (hxs : ∀ c ∈ xs, c ∉ marks) (hys : ∀ c ∈ ys, c ∉ marks) (ha : a ∈ marks) (hb : b ∈ marks)
    (h : xs ++ a :: r = ys ++ b :: s) : xs = ys ∧ a = b ∧ r = s := by
  induction xs generalizing ys with
  | nil =>
    cases ys with
    | nil =>
      obtain ⟨hab, hrs⟩ := List.cons.inj h
      exact ⟨rfl, hab, hrs⟩
    | cons y ys =>
      obtain ⟨rfl, -⟩ := List.cons.inj h
      exact absurd ha (hys a List.mem_cons_self)
  | cons x xs ih =>
    cases ys with
    | nil =>
      obtain ⟨rfl, -⟩ := List.cons.inj h
      exact absurd hb (hxs x List.mem_cons_self)
    | cons y ys =>
      obtain ⟨rfl, hrest⟩ := List.cons.inj h
      obtain ⟨rfl, hab, hrs⟩ := ih (fun c hc => hxs c (List.mem_cons_of_mem x hc))
        (fun c hc => hys c (List.mem_cons_of_mem x hc)) hrest
      exact ⟨rfl, hab, hrs⟩

/-- Whether a name has none of the marks in it. -/
def Without (marks : List Char) (name : String) : Prop :=
  ∀ c ∈ name.toList, c ∉ marks

instance (marks : List Char) : DecidablePred (Without marks) :=
  fun name => List.decidableBAll (· ∉ marks) name.toList

/-- Whether none of the names has one of the marks in it. -/
def Plain (marks : List Char) (names : List String) : Prop :=
  ∀ name ∈ names, Without marks name

instance (marks : List Char) : DecidablePred (Plain marks) :=
  fun names => List.decidableBAll (Without marks) names

section Names

variable {marks : List Char} {m n : String} {a b : Char} {r s : List Char}

/-- Names are told apart up to the first mark. -/
theorem name_append_inj (hm : Without marks m) (hn : Without marks n) (ha : a ∈ marks)
    (hb : b ∈ marks) (h : m.toList ++ a :: r = n.toList ++ b :: s) : m = n ∧ a = b ∧ r = s := by
  obtain ⟨hmn, hab, hrs⟩ := append_mark_inj hm hn ha hb h
  exact ⟨String.toList_inj.mp hmn, hab, hrs⟩

/-- A name and the mark behind it do not begin with another mark. -/
theorem name_append_ne (hm : Without marks m) (ha : a ∈ marks) (hb : b ∈ marks) (hab : a ≠ b) :
    m.toList ++ a :: r ≠ b :: s :=
  fun h => hab (name_append_inj (n := "") hm (by simp [Without]) ha hb h).2.1

theorem plain_cons {name : String} {names : List String} :
    Plain marks (name :: names) ↔ Without marks name ∧ Plain marks names :=
  List.forall_mem_cons

theorem plain_append {names others : List String} :
    Plain marks (names ++ others) ↔ Plain marks names ∧ Plain marks others :=
  List.forall_mem_append

end Names

/-! ## Items with commas between them -/

theorem intercalate_cons {α : Type} (sep x : List α) (xs : List (List α)) :
    sep.intercalate (x :: xs) = x ++ xs.flatMap (sep ++ ·) := by
  induction xs generalizing x with
  | nil => simp
  | cons y xs ih =>
    rw [List.intercalate_cons_cons, ih, List.flatMap_cons, List.append_assoc, List.append_assoc]

theorem toList_joined (texts : List String) :
    (", ".intercalate texts).toList = [',', ' '].intercalate (texts.map String.toList) :=
  String.toList_intercalate

/-- Whether a text goes on as it does behind an item: with a comma or with the closing mark. -/
def EndsItem (close : Char) (r : List Char) : Prop :=
  ∃ rest, r = ',' :: rest ∨ r = close :: rest

section Joined

variable {α β : Type} {write : α → List Char} {key : α → β} {close : Char} {xs ys : List α}
  {r s : List Char}

theorem endsItem_tail (xs : List α) (close : Char) (r : List Char) :
    EndsItem close ((xs.map write).flatMap ([',', ' '] ++ ·) ++ close :: r) := by
  cases xs with
  | nil => exact ⟨r, .inr rfl⟩
  | cons x xs => exact ⟨_, .inl rfl⟩

/-- Items behind a first one, each with a comma and a blank before it. -/
theorem tail_append_inj (hclose : close ≠ ',')
    (hitem : ∀ a ∈ xs, ∀ b ∈ ys, ∀ r s, EndsItem close r → EndsItem close s →
      write a ++ r = write b ++ s → key a = key b ∧ r = s)
    (h : (xs.map write).flatMap ([',', ' '] ++ ·) ++ close :: r =
      (ys.map write).flatMap ([',', ' '] ++ ·) ++ close :: s) :
    xs.map key = ys.map key ∧ r = s := by
  induction xs generalizing ys with
  | nil =>
    cases ys with
    | nil => exact ⟨rfl, (List.cons.inj h).2⟩
    | cons b ys => exact absurd (List.cons.inj h).1 hclose
  | cons a xs ih =>
    cases ys with
    | nil => exact absurd (List.cons.inj h).1.symm hclose
    | cons b ys =>
      simp only [List.map_cons, List.flatMap_cons, List.append_assoc, List.append_cancel_left_eq]
        at h
      obtain ⟨hkey, hrest⟩ := hitem a List.mem_cons_self b List.mem_cons_self _ _
        (endsItem_tail xs close r) (endsItem_tail ys close s) h
      obtain ⟨hkeys, hrs⟩ := ih (fun a ha b hb =>
        hitem a (List.mem_cons_of_mem _ ha) b (List.mem_cons_of_mem _ hb)) hrest
      exact ⟨by rw [List.map_cons, List.map_cons, hkey, hkeys], hrs⟩

/-- Items with commas between them are told apart up to the closing mark, if each of them is told
from all others before a comma or the closing mark, and none begins with the closing mark. -/
theorem joined_append_inj (hclose : close ≠ ',')
    (hitem : ∀ a ∈ xs, ∀ b ∈ ys, ∀ r s, EndsItem close r → EndsItem close s →
      write a ++ r = write b ++ s → key a = key b ∧ r = s)
    (hxs : ∀ a ∈ xs, ∀ r s, write a ++ r ≠ close :: s)
    (hys : ∀ b ∈ ys, ∀ r s, write b ++ r ≠ close :: s)
    (h : [',', ' '].intercalate (xs.map write) ++ close :: r =
      [',', ' '].intercalate (ys.map write) ++ close :: s) :
    xs.map key = ys.map key ∧ r = s := by
  cases xs with
  | nil =>
    cases ys with
    | nil => exact ⟨rfl, (List.cons.inj h).2⟩
    | cons b ys =>
      rw [List.map_cons, intercalate_cons, List.append_assoc] at h
      exact absurd h.symm (hys b List.mem_cons_self _ _)
  | cons a xs =>
    cases ys with
    | nil =>
      rw [List.map_cons, intercalate_cons, List.append_assoc] at h
      exact absurd h (hxs a List.mem_cons_self _ _)
    | cons b ys =>
      rw [List.map_cons, List.map_cons, intercalate_cons, intercalate_cons, List.append_assoc,
        List.append_assoc] at h
      obtain ⟨hkey, hrest⟩ := hitem a List.mem_cons_self b List.mem_cons_self _ _
        (endsItem_tail xs close r) (endsItem_tail ys close s) h
      obtain ⟨hkeys, hrs⟩ := tail_append_inj hclose (fun a ha b hb =>
        hitem a (List.mem_cons_of_mem _ ha) b (List.mem_cons_of_mem _ hb)) hrest
      exact ⟨by rw [List.map_cons, List.map_cons, hkey, hkeys], hrs⟩

end Joined

/-! ## Characters between quotes -/

/-- The number that hexadecimal digits stand for. -/
def hexValue (digits : List Char) : Nat :=
  digits.foldl (fun n c => n * 16 + (Lexeme.hexDigit? c).getD 0) 0

theorem hexDigit?_digitChar {n : Nat} (hn : n < 16) :
    Lexeme.hexDigit? (Nat.digitChar n) = some n := by
  interval_cases n <;> decide

theorem hexValue_toDigits (n : Nat) : hexValue (Nat.toDigits 16 n) = n := by
  induction n using Nat.strong_induction_on with
  | _ n ih =>
    by_cases hlt : n < 16
    · rw [Nat.toDigits_of_lt_base hlt, hexValue, List.foldl_cons, List.foldl_nil,
        hexDigit?_digitChar hlt, Option.getD_some]
      omega
    · have hfront := ih (n / 16) (by omega)
      rw [hexValue] at hfront
      rw [Nat.toDigits_of_base_le (by decide) (by omega), hexValue, List.foldl_append, hfront,
        List.foldl_cons, List.foldl_nil, hexDigit?_digitChar (Nat.mod_lt n (by decide)),
        Option.getD_some]
      omega

theorem ne_brace_of_mem_toDigits {n : Nat} {c : Char} (hc : c ∈ Nat.toDigits 16 n) :
    c ≠ '\x7d' := by
  have hdigit : ∀ d < 16, Nat.digitChar d ≠ '\x7d' := by decide
  induction n using Nat.strong_induction_on with
  | _ n ih =>
    by_cases hlt : n < 16
    · rw [Nat.toDigits_of_lt_base hlt, List.mem_singleton] at hc
      exact hc ▸ hdigit n hlt
    · rw [Nat.toDigits_of_base_le (by decide) (by omega), List.mem_append,
        List.mem_singleton] at hc
      rcases hc with hc | rfl
      · exact ih (n / 16) (by omega) hc
      · exact hdigit _ (Nat.mod_lt n (by decide))

/-- Reads the character that stands first between quotes. -/
def readChar : List Char → Option (Char × List Char)
  | '\\' :: mark :: rest =>
    match mark with
    | '0' => some ('\x00', rest)
    | 't' => some ('\t', rest)
    | 'r' => some ('\r', rest)
    | 'n' => some ('\n', rest)
    | 'u' =>
      let digits := rest.drop 1
      some (Char.ofNat (hexValue (digits.takeWhile (· ≠ '\x7d'))),
        (digits.dropWhile (· ≠ '\x7d')).drop 1)
    | _ => some (mark, rest)
  | c :: rest => some (c, rest)
  | [] => none

/-- A character is read back from the way in which it is written. -/
theorem readChar_escapeChar (c : Char) (rest : List Char) :
    readChar (escapeChar c ++ rest) = some (c, rest) := by
  unfold escapeChar
  split_ifs with hnull htab hreturn hline hquote hslash hhidden
  · subst hnull; rfl
  · subst htab; rfl
  · subst hreturn; rfl
  · subst hline; rfl
  · subst hquote; rfl
  · subst hslash; rfl
  · have hdigits : ∀ d ∈ Nat.toDigits 16 c.toNat, decide (d ≠ '\x7d') = true :=
      fun d hd => decide_eq_true (ne_brace_of_mem_toDigits hd)
    have htext : codePointEscape c ++ rest =
        '\\' :: 'u' :: '\x7b' :: (Nat.toDigits 16 c.toNat ++ '\x7d' :: rest) := by
      simp [codePointEscape]
    rw [htext]
    show some (Char.ofNat (hexValue ((Nat.toDigits 16 c.toNat ++ '\x7d' :: rest).takeWhile
        (· ≠ '\x7d'))),
      ((Nat.toDigits 16 c.toNat ++ '\x7d' :: rest).dropWhile (· ≠ '\x7d')).drop 1) = _
    rw [List.takeWhile_append_of_pos hdigits, List.dropWhile_append_of_pos hdigits]
    simp [hexValue_toDigits]
  · rw [List.singleton_append]
    unfold readChar
    split
    next heq => exact absurd (List.cons.inj heq).1 hslash
    next heq =>
      obtain ⟨rfl, rfl⟩ := List.cons.inj heq
      rfl
    next heq => exact absurd heq (List.cons_ne_nil c rest)

theorem escapeChar_append_inj {c d : Char} {r s : List Char}
    (h : escapeChar c ++ r = escapeChar d ++ s) : c = d ∧ r = s := by
  have hread := readChar_escapeChar c r
  rw [h, readChar_escapeChar] at hread
  obtain ⟨hcd, hrs⟩ := Prod.mk.inj (Option.some.inj hread)
  exact ⟨hcd.symm, hrs.symm⟩

/-- No character is written with a bare quote. -/
theorem escapeChar_append_ne (c : Char) (r s : List Char) : escapeChar c ++ r ≠ '"' :: s := by
  intro h
  unfold escapeChar at h
  split_ifs at h with hnull htab hreturn hline hquote hslash hhidden
  all_goals first
    | exact absurd (List.cons.inj h).1 (by decide)
    | exact absurd (List.cons.inj h).1 hquote

theorem escaped_append_inj {cs ds r s : List Char}
    (h : cs.flatMap escapeChar ++ '"' :: r = ds.flatMap escapeChar ++ '"' :: s) :
    cs = ds ∧ r = s := by
  induction cs generalizing ds with
  | nil =>
    cases ds with
    | nil => exact ⟨rfl, (List.cons.inj h).2⟩
    | cons d ds =>
      rw [List.flatMap_cons, List.append_assoc] at h
      exact absurd h.symm (escapeChar_append_ne d _ _)
  | cons c cs ih =>
    cases ds with
    | nil =>
      rw [List.flatMap_cons, List.append_assoc] at h
      exact absurd h (escapeChar_append_ne c _ _)
    | cons d ds =>
      rw [List.flatMap_cons, List.flatMap_cons, List.append_assoc, List.append_assoc] at h
      obtain ⟨rfl, hrest⟩ := escapeChar_append_inj h
      obtain ⟨rfl, hrs⟩ := ih hrest
      exact ⟨rfl, hrs⟩

theorem quoted_append (value : String) (r : List Char) :
    (quoted value).toList ++ r = '"' :: (value.toList.flatMap escapeChar ++ '"' :: r) := by
  simp [quoted]

/-- A quoted text, whatever it says, is told from all others and from what follows it. -/
theorem quoted_append_inj {a b : String} {r s : List Char}
    (h : (quoted a).toList ++ r = (quoted b).toList ++ s) : a = b ∧ r = s := by
  rw [quoted_append, quoted_append] at h
  obtain ⟨hab, hrs⟩ := escaped_append_inj (List.cons.inj h).2
  exact ⟨String.toList_inj.mp hab, hrs⟩

end TreeDerivation.Text
