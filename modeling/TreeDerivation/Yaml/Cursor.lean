/-!
# Reading positions in YAML

YAML is sensitive to columns, so the text that is left to read travels with its position. Lines end
at a line feed, a carriage return, both, or one of three Unicode line ends.
-/

namespace TreeDerivation.Yaml

/-- Whether a character ends a line. -/
def isBreak (c : Char) : Bool :=
  c = '\n' || c = '\r' || c = '\u0085' || c = '\u2028' || c = '\u2029'

/-- Spaces and tabs. -/
def isSpacing (c : Char) : Bool :=
  c = ' ' || c = '\t'

/-- The characters of names: letters, digits, `_` and `-` of ASCII. -/
def isNamePart (c : Char) : Bool :=
  c.isAlphanum || c = '_' || c = '-'

/-- The characters that a YAML text may hold. -/
def isAllowed (c : Char) : Bool :=
  let n := c.toNat
  c = '\t' || c = '\n' || c = '\r' || (0x20 ≤ n && n ≤ 0x7e) || n = 0x85 ||
    (0xa0 ≤ n && n ≤ 0xfffd) || 0x10000 ≤ n

/-- Where a token starts. -/
structure Place where
  index : Nat
  line : Nat
  column : Nat
  deriving DecidableEq

/-- The text left to read, and where it starts. -/
structure Cursor where
  rest : List Char
  place : Place

namespace Cursor

/-- The cursor at the start of a text. -/
def start (text : List Char) : Cursor :=
  ⟨text, ⟨0, 0, 0⟩⟩

/-- The column of the next character. -/
def column (c : Cursor) : Nat :=
  c.place.column

/-- The character `n` places ahead. -/
def peek (c : Cursor) (n : Nat) : Option Char :=
  c.rest[n]?

/-- Whether a character ends the text, a line or a word; `none` stands for the end of the text. -/
def endsWord : Option Char → Bool
  | none => true
  | some x => isSpacing x || isBreak x

/-- Whether the given character is next. -/
def isAt (c : Cursor) (x : Char) : Bool :=
  c.peek 0 = some x

/-- Goes over characters of the same line. -/
def advance (c : Cursor) (n : Nat) : Cursor :=
  ⟨c.rest.drop n, ⟨c.place.index + n, c.place.line, c.place.column + n⟩⟩

/-- Goes over one line end. -/
def advanceLine (c : Cursor) : Cursor :=
  let n :=
    match c.rest with
    | '\r' :: '\n' :: _ => 2
    | _ => 1
  ⟨c.rest.drop n, ⟨c.place.index + n, c.place.line + 1, 0⟩⟩

/-- What a line end contributes to a text: a line feed, unless it is one of the two Unicode
separators. -/
def lineEndText (c : Cursor) : List Char :=
  match c.rest with
  | [] => []
  | x :: _ => if x = '\u2028' ∨ x = '\u2029' then [x] else ['\n']

/-- The leading characters of a kind, none of which ends a line, and the cursor after them. -/
def takeWhile (c : Cursor) (p : Char → Bool) : List Char × Cursor :=
  let taken := c.rest.takeWhile p
  (taken, c.advance taken.length)

/-- The cursor after the leading characters of a kind. -/
def skipWhile (c : Cursor) (p : Char → Bool) : Cursor :=
  (c.takeWhile p).2

/-- The cursor at the end of the line. -/
def skipLineText (c : Cursor) : Cursor :=
  c.skipWhile fun x => !isBreak x

/-- Whether a mark of three characters that separates documents is next. -/
def isDocumentMark (c : Cursor) (x : Char) : Bool :=
  c.column = 0 && c.rest.take 3 = [x, x, x] && endsWord (c.peek 3)

/-- Whether either mark that separates documents is next. -/
def isAtDocumentMark (c : Cursor) : Bool :=
  c.isDocumentMark '-' || c.isDocumentMark '.'

end Cursor

end TreeDerivation.Yaml
