import TreeDerivation.Text.Hidden

/-!
# Quoted text

A text is shown between double quotes, each character written on its own: quotes, backslashes and
the common controls by a two-character escape, hidden characters by their code point in
hexadecimal, all others as they are. The written form of a character never contains a bare quote,
so the text can be read back.
-/

namespace TreeDerivation.Text

/-- The escape of a hidden character: its code point in lower-case hexadecimal between braces. -/
def codePointEscape (c : Char) : List Char :=
  ['\\', 'u', '\x7b'] ++ Nat.toDigits 16 c.toNat ++ ['\x7d']

/-- How one character is written inside a quoted text. -/
def escapeChar (c : Char) : List Char :=
  if c = '\x00' then ['\\', '0']
  else if c = '\t' then ['\\', 't']
  else if c = '\r' then ['\\', 'r']
  else if c = '\n' then ['\\', 'n']
  else if c = '"' then ['\\', '"']
  else if c = '\\' then ['\\', '\\']
  else if isHidden c then codePointEscape c
  else [c]

/-- The text between double quotes, with every character escaped that needs it. -/
def quoted (s : String) : String :=
  String.ofList ('"' :: s.toList.flatMap escapeChar ++ ['"'])

end TreeDerivation.Text
