import TreeDerivation.Json.Basic

/-!
# Lexemes of JSON

A JSON text is a sequence of marks, quoted texts and words (numbers and the three names), separated
by blanks. `Lexeme.scan` reads the characters one by one through a small automaton; it fails on a
character that belongs nowhere, on a bad escape and on a text that is not closed.
-/

namespace TreeDerivation

/-- A smallest part of a JSON text. -/
inductive Lexeme where
  | openArray
  | closeArray
  | openObject
  | closeObject
  | comma
  | colon
  /-- A quoted text as its code units: characters, and halves of surrogate pairs. -/
  | quoted (units : List Nat)
  /-- A number or a name. -/
  | word (text : List Char)
  deriving DecidableEq, Repr

namespace Lexeme

/-- Where the automaton stands. Texts under way are kept last part first. -/
inductive Mode where
  | between
  | inWord (text : List Char)
  | inQuotes (units : List Nat)
  | afterBackslash (units : List Nat)
  /-- Within the four digits of an escape, of which `left` are missing. -/
  | inEscape (units : List Nat) (value : Nat) (left : Nat)
  deriving DecidableEq, Repr

/-- The lexemes read so far, last first, and where the automaton stands. -/
structure Scan where
  done : List Lexeme
  mode : Mode
  deriving DecidableEq, Repr

/-- The mark that a character stands for by itself. -/
def mark? : Char → Option Lexeme
  | '[' => some .openArray
  | ']' => some .closeArray
  | '\x7b' => some .openObject
  | '\x7d' => some .closeObject
  | ',' => some .comma
  | ':' => some .colon
  | _ => none

/-- The characters that separate lexemes. -/
def isSpace (c : Char) : Bool :=
  c = ' ' || c = '\t' || c = '\n' || c = '\r'

/-- The characters of numbers and names. -/
def isWordPart (c : Char) : Bool :=
  c.isAlphanum || c = '-' || c = '+' || c = '.'

/-- The unit that a one-character escape stands for. -/
def escapedUnit? : Char → Option Nat
  | '"' => some 0x22
  | '\\' => some 0x5c
  | '/' => some 0x2f
  | 'b' => some 0x08
  | 'f' => some 0x0c
  | 'n' => some 0x0a
  | 'r' => some 0x0d
  | 't' => some 0x09
  | _ => none

/-- The value of a hexadecimal digit of either case. -/
def hexDigit? (c : Char) : Option Nat :=
  if '0' ≤ c ∧ c ≤ '9' then some (c.toNat - 0x30)
  else if 'a' ≤ c ∧ c ≤ 'f' then some (c.toNat - 0x61 + 10)
  else if 'A' ≤ c ∧ c ≤ 'F' then some (c.toNat - 0x41 + 10)
  else none

/-- Reads a character outside of texts and words. -/
def stepBetween (done : List Lexeme) (c : Char) : Option Scan :=
  if isSpace c then some ⟨done, .between⟩
  else if c = '"' then some ⟨done, .inQuotes []⟩
  else if isWordPart c then some ⟨done, .inWord [c]⟩
  else (mark? c).map fun m => ⟨m :: done, .between⟩

/-- Reads one character. -/
def step (s : Scan) (c : Char) : Option Scan :=
  match s.mode with
  | .between => stepBetween s.done c
  | .inWord text =>
    if isWordPart c then some ⟨s.done, .inWord (c :: text)⟩
    else stepBetween (.word text.reverse :: s.done) c
  | .inQuotes units =>
    if c = '"' then some ⟨.quoted units.reverse :: s.done, .between⟩
    else if c = '\\' then some ⟨s.done, .afterBackslash units⟩
    else if c.toNat < 0x20 then none
    else some ⟨s.done, .inQuotes (c.toNat :: units)⟩
  | .afterBackslash units =>
    if c = 'u' then some ⟨s.done, .inEscape units 0 4⟩
    else (escapedUnit? c).map fun u => ⟨s.done, .inQuotes (u :: units)⟩
  | .inEscape units value left =>
    (hexDigit? c).map fun digit =>
      let value := value * 16 + digit
      if left ≤ 1 then ⟨s.done, .inQuotes (value :: units)⟩
      else ⟨s.done, .inEscape units value (left - 1)⟩

/-- The lexemes once the text has ended; none if it ended within a quoted text. -/
def finish (s : Scan) : Option (List Lexeme) :=
  match s.mode with
  | .between => some s.done.reverse
  | .inWord text => some (Lexeme.word text.reverse :: s.done).reverse
  | _ => none

/-- The lexemes of a text. -/
def scan (cs : List Char) : Option (List Lexeme) :=
  (cs.foldlM step ⟨[], .between⟩).bind finish

end Lexeme

/-! ## Texts -/

/-- Whether the unit is the first half of a surrogate pair. -/
def isHighHalf (u : Nat) : Bool :=
  0xd800 ≤ u && u < 0xdc00

/-- Whether the unit is the second half of a surrogate pair. -/
def isLowHalf (u : Nat) : Bool :=
  0xdc00 ≤ u && u < 0xe000

/-- The characters that code units stand for; none if a half of a pair stands alone. -/
def charsOfUnits : List Nat → Option (List Char)
  | [] => some []
  | [u] => if isHighHalf u || isLowHalf u then none else some [Char.ofNat u]
  | u :: v :: rest =>
    if isHighHalf u then
      if isLowHalf v then
        (charsOfUnits rest).map
          (Char.ofNat (0x10000 + (u - 0xd800) * 0x400 + (v - 0xdc00)) :: ·)
      else none
    else if isLowHalf u then none
    else (charsOfUnits (v :: rest)).map (Char.ofNat u :: ·)

/-! ## Numbers -/

/-- Splits the leading digits off a text. -/
def splitDigits (cs : List Char) : List Char × List Char :=
  (cs.takeWhile Char.isDigit, cs.dropWhile Char.isDigit)

namespace Numeral

/-- Reads an exponent; the text holds nothing else. -/
def readExponent? (minus : Bool) (whole fraction : List Char) : List Char → Option Numeral
  | [] => some ⟨minus, whole, fraction, none⟩
  | e :: rest =>
    if e = 'e' ∨ e = 'E' then
      let (negative, digits) :=
        match rest with
        | '-' :: digits => (true, digits)
        | '+' :: digits => (false, digits)
        | digits => (false, digits)
      if digits ≠ [] ∧ digits.all Char.isDigit then
        some ⟨minus, whole, fraction, some (negative, digits)⟩
      else none
    else none

/-- Reads a number without its sign: no needless leading zero, and a digit after a point. -/
def readUnsigned? (minus : Bool) (cs : List Char) : Option Numeral :=
  let (whole, rest) := splitDigits cs
  if whole = [] ∨ (whole.length > 1 ∧ whole.head? = some '0') then none
  else
    match rest with
    | '.' :: rest =>
      let (fraction, rest) := splitDigits rest
      if fraction = [] then none else readExponent? minus whole fraction rest
    | rest => readExponent? minus whole [] rest

/-- Reads a number. -/
def read? : List Char → Option Numeral
  | '-' :: cs => readUnsigned? true cs
  | cs => readUnsigned? false cs

/-- The value of a list of decimal digits. -/
def digitsValue (ds : List Char) : Nat :=
  ds.foldl (fun n c => n * 10 + (c.toNat - 0x30)) 0

/-- The number as an unsigned integer below `2 ^ 64`: it has no sign, point or exponent. -/
def toNat? (n : Numeral) : Option Nat :=
  if n.minus ∨ n.fraction ≠ [] ∨ n.exponent.isSome then none
  else
    let value := digitsValue n.whole
    if value < 0x10000000000000000 then some value else none

end Numeral

end TreeDerivation
