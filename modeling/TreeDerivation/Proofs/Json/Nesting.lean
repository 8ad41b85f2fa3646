import TreeDerivation.Proofs.Json.ReadBack

/-!
# How deeply texts nest

The nesting of a text is the greatest number of brackets that are open at once in it, read off its
lexemes alone. Both texts that are written for a value nest as deeply as the value does
(`nesting?_compact`, `nesting?_pretty`); brackets inside quoted texts are no lexemes and do not
count.
-/

namespace TreeDerivation

namespace Lexeme

/-- The greatest number of brackets that are open at once, if `opened` are open before. -/
def nestingFrom (opened : Nat) : List Lexeme → Nat
  | [] => opened
  | .openArray :: rest | .openObject :: rest => nestingFrom (opened + 1) rest
  | .closeArray :: rest | .closeObject :: rest => max opened (nestingFrom (opened - 1) rest)
  | .comma :: rest | .colon :: rest | .quoted _ :: rest | .word _ :: rest => nestingFrom opened rest

theorem le_nestingFrom (opened : Nat) (ls : List Lexeme) : opened ≤ nestingFrom opened ls := by
  induction ls generalizing opened with
  | nil => exact Nat.le_refl _
  | cons x ls ih =>
    have hopen := ih (opened + 1)
    have hsame := ih opened
    cases x <;> simp only [nestingFrom] <;> omega

end Lexeme

namespace Json

open Lexeme

/-- The greatest number of brackets that are open at once in a text; none if it is no sequence of
lexemes. -/
def nesting? (text : String) : Option Nat :=
  (scan text.toList).map (nestingFrom 0)

mutual

/-- The greatest number of arrays and objects that stand inside each other. -/
def depth : Json → Nat
  | .array items => 1 + itemsDepth items
  | .object members => 1 + membersDepth members
  | .null | .bool _ | .number _ | .string _ => 0

/-- The greatest depth of the items. -/
def itemsDepth : List Json → Nat
  | [] => 0
  | j :: rest => max j.depth (itemsDepth rest)

/-- The greatest depth of the values of the members. -/
def membersDepth : List (Option String × Json) → Nat
  | [] => 0
  | (_, value) :: rest => max value.depth (membersDepth rest)

end

/-- A lexeme that is no bracket changes nothing. -/
theorem nestingFrom_plain (k : Nat) (rest : List Lexeme) :
    nestingFrom k rest = max (k + 0) (nestingFrom k rest) := by
  have hle := le_nestingFrom k rest
  omega

mutual

theorem nestingFrom_lexemes : ∀ (j : Json) (k : Nat) (rest : List Lexeme),
    nestingFrom k (j.lexemes ++ rest) = max (k + j.depth) (nestingFrom k rest)
  | .null, k, rest | .bool _, k, rest | .number _, k, rest | .string _, k, rest => by
    rw [lexemes, depth]
    exact nestingFrom_plain k rest
  | .array items, k, rest => by
    have hitems := nestingFrom_items items (k + 1) (.closeArray :: rest)
    rw [nestingFrom, Nat.add_sub_cancel] at hitems
    rw [lexemes, depth, List.cons_append, List.append_assoc, nestingFrom, List.singleton_append,
      hitems]
    omega
  | .object members, k, rest => by
    have hmembers := nestingFrom_members members (k + 1) (.closeObject :: rest)
    rw [nestingFrom, Nat.add_sub_cancel] at hmembers
    rw [lexemes, depth, List.cons_append, List.append_assoc, nestingFrom, List.singleton_append,
      hmembers]
    omega

theorem nestingFrom_items : ∀ (items : List Json) (k : Nat) (rest : List Lexeme),
    nestingFrom k ([Lexeme.comma].intercalate (itemLexemes items) ++ rest) =
      max (k + itemsDepth items) (nestingFrom k rest)
  | [], k, rest => by
    rw [itemLexemes, itemsDepth]
    exact nestingFrom_plain k rest
  | [j], k, rest => by
    rw [itemLexemes, itemLexemes, List.intercalate_singleton, nestingFrom_lexemes j, itemsDepth,
      itemsDepth, Nat.max_zero]
  | j :: l :: items, k, rest => by
    have hdepth : itemsDepth (j :: l :: items) = max j.depth (itemsDepth (l :: items)) := by
      rw [itemsDepth]
    have hothers := nestingFrom_items (l :: items) k rest
    rw [itemLexemes] at hothers
    rw [itemLexemes, itemLexemes, List.intercalate_cons_cons, List.append_assoc,
      List.append_assoc, nestingFrom_lexemes j, List.singleton_append, nestingFrom, hothers, hdepth]
    omega

theorem nestingFrom_members : ∀ (members : List (Option String × Json)) (k : Nat)
    (rest : List Lexeme),
    nestingFrom k ([Lexeme.comma].intercalate (memberLexemes members) ++ rest) =
      max (k + membersDepth members) (nestingFrom k rest)
  | [], k, rest => by
    rw [memberLexemes, membersDepth]
    exact nestingFrom_plain k rest
  | [(name, value)], k, rest => by
    rw [memberLexemes, memberLexemes, List.intercalate_singleton, List.cons_append,
      List.cons_append, quotedLexeme, nestingFrom, nestingFrom, nestingFrom_lexemes value,
      membersDepth, membersDepth, Nat.max_zero]
  | (name, value) :: (name', value') :: members, k, rest => by
    have hdepth : membersDepth ((name, value) :: (name', value') :: members) =
        max value.depth (membersDepth ((name', value') :: members)) := by
      rw [membersDepth]
    have hothers := nestingFrom_members ((name', value') :: members) k rest
    rw [memberLexemes] at hothers
    rw [memberLexemes, memberLexemes, List.intercalate_cons_cons, List.append_assoc,
      List.append_assoc, List.cons_append, List.cons_append, quotedLexeme, nestingFrom,
      nestingFrom, nestingFrom_lexemes value, List.singleton_append, nestingFrom, hothers, hdepth]
    omega

end

theorem nesting?_of_scan {text : String} {j : Json}
    (h : scan text.toList = some j.lexemes) : nesting? text = some j.depth := by
  have hall := nestingFrom_lexemes j 0 []
  rw [List.append_nil] at hall
  rw [nesting?, h, Option.map_some, hall, nestingFrom]
  simp

/-- The text without blanks nests as deeply as the value. -/
theorem nesting?_compact {j : Json} (h : j.Writable) : nesting? j.compact = some j.depth :=
  nesting?_of_scan (scan_compact h.numbersAreWords)

/-- So does the text with one item a line. -/
theorem nesting?_pretty {j : Json} (h : j.Writable) : nesting? j.pretty = some j.depth := by
  have htext := scan_pretty h.numbersAreWords "" (by simp)
  rw [String.append_empty] at htext
  exact nesting?_of_scan htext

end Json

end TreeDerivation
