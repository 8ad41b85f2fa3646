import TreeDerivation.Json.Basic

/-!
# Writing JSON

A value is written without blanks (`compact`) or with one item a line and two blanks of indentation
a level (`pretty`). Both write the same lexemes.
-/

namespace TreeDerivation

/-- A number as it is spelled; an exponent always has its sign. -/
def Numeral.spell (n : Numeral) : List Char :=
  (if n.minus then ['-'] else []) ++ n.whole ++
    (if n.fraction = [] then [] else '.' :: n.fraction) ++
    match n.exponent with
    | none => []
    | some (negative, digits) => 'e' :: (if negative then '-' else '+') :: digits

namespace Json

/-- Four hexadecimal digits. -/
def fourHexDigits (n : Nat) : List Char :=
  let digits := Nat.toDigits 16 n
  List.replicate (4 - digits.length) '0' ++ digits

/-- How one character is written inside a JSON text. -/
def escape (c : Char) : List Char :=
  if c = '"' then ['\\', '"']
  else if c = '\\' then ['\\', '\\']
  else if c = '\x08' then ['\\', 'b']
  else if c = '\x0c' then ['\\', 'f']
  else if c = '\n' then ['\\', 'n']
  else if c = '\r' then ['\\', 'r']
  else if c = '\t' then ['\\', 't']
  else if c.toNat < 0x20 then '\\' :: 'u' :: fourHexDigits c.toNat
  else [c]

/-- A text between quotes. A text that names no string is written as a replacement character. -/
def spellText (text : Option String) : String :=
  String.ofList ('"' :: ((text.getD "\ufffd").toList.flatMap escape ++ ['"']))

mutual

/-- The value without blanks. -/
def compact : Json → String
  | .null => "null"
  | .bool b => if b then "true" else "false"
  | .number n => String.ofList n.spell
  | .string text => spellText text
  | .array items => "[" ++ ",".intercalate (compactItems items) ++ "]"
  | .object members => "\x7b" ++ ",".intercalate (compactMembers members) ++ "\x7d"

/-- The items of an array without blanks. -/
def compactItems : List Json → List String
  | [] => []
  | j :: rest => compact j :: compactItems rest

/-- The members of an object without blanks. -/
def compactMembers : List (Option String × Json) → List String
  | [] => []
  | (name, value) :: rest => (spellText name ++ ":" ++ compact value) :: compactMembers rest

end

/-- The start of a line at a level of nesting. -/
def newLine (level : Nat) : String :=
  String.ofList ('\n' :: List.replicate (2 * level) ' ')

/-- The parts of a container at a level, each on a line of its own. -/
def block (first last : String) (level : Nat) : List String → String
  | [] => first ++ last
  | part :: parts =>
    first ++ newLine (level + 1) ++ ("," ++ newLine (level + 1)).intercalate (part :: parts) ++
      newLine level ++ last

mutual

/-- The value with one item a line, inside containers of the given level. -/
def prettyAt (level : Nat) : Json → String
  | .array items => block "[" "]" level (prettyItems (level + 1) items)
  | .object members => block "\x7b" "\x7d" level (prettyMembers (level + 1) members)
  | .null => "null"
  | .bool b => if b then "true" else "false"
  | .number n => String.ofList n.spell
  | .string text => spellText text

/-- The items of an array with one item a line. -/
def prettyItems (level : Nat) : List Json → List String
  | [] => []
  | j :: rest => prettyAt level j :: prettyItems level rest

/-- The members of an object with one member a line. -/
def prettyMembers (level : Nat) : List (Option String × Json) → List String
  | [] => []
  | (name, value) :: rest =>
    (spellText name ++ ": " ++ prettyAt level value) :: prettyMembers level rest

end

/-- The value with one item a line. -/
def pretty (j : Json) : String :=
  prettyAt 0 j

end Json

end TreeDerivation
