import TreeDerivation.Yaml.Scalar

/-!
# Tokens of YAML

A YAML text is a sequence of tokens. Indentation is part of it: a block collection begins where a
first entry or key is indented further than the collection around it, and ends where a line is
indented less. That a scalar is a key is known only at the colon behind it, so the lexer remembers
where a key may have begun and puts the tokens for it there afterwards.
-/

namespace TreeDerivation.Yaml

/-- A token. -/
inductive Token where
  | versionDirective (major minor : Nat)
  | tagDirective (handle lead : List Char)
  | documentStart
  | documentEnd
  | streamEnd
  | blockSequenceStart
  | blockMappingStart
  | blockEnd
  | flowSequenceStart
  | flowSequenceEnd
  | flowMappingStart
  | flowMappingEnd
  | blockEntry
  | flowEntry
  | key
  | value
  | alias (name : List Char)
  | anchor (name : List Char)
  | tag (handle suffix : List Char)
  | scalar (text : List Char) (style : ScalarStyle)
  deriving DecidableEq

/-! ## Names, tags and directives -/

/-- Reads the name of an anchor or alias; the cursor is at its mark. -/
def readAnchorName (c : Cursor) : Option (List Char × Cursor) :=
  let (name, c) := (c.advance 1).takeWhile isNamePart
  let ends := Cursor.endsWord (c.peek 0) ||
    (c.peek 0).any fun x => ['?', ':', ',', ']', '\x7d', '%', '@', '\x60'].contains x
  if name ≠ [] ∧ ends then some (name, c) else none

/-- The characters of a tag, besides those of names. Those of flow collections count only where the
tag is delimited in another way. -/
def isTagPart (withFlowMarks : Bool) (x : Char) : Bool :=
  isNamePart x || [';', '/', '?', ':', '@', '&', '=', '+', '$', '.', '!', '~', '*', '\'', '(',
    ')'].contains x || (withFlowMarks && (x = ',' || x = '[' || x = ']'))

/-- The octet that a percent sign and two hexadecimal digits stand for. -/
def octet? : List Char → Option Nat
  | '%' :: a :: b :: _ => hexValue? [a, b]
  | _ => none

/-- How many octets encode a character, told from the first of them. -/
def octetCount? (first : Nat) : Option Nat :=
  if first < 0x80 then some 1
  else if first / 0x20 = 6 then some 2
  else if first / 0x10 = 14 then some 3
  else if first / 8 = 30 then some 4
  else none

/-- Reads the percent-encoded octets of one character. -/
def readOctets (c : Cursor) : Option (Char × Cursor) := do
  let first ← octet? c.rest
  let count ← octetCount? first
  let others ← (List.range (count - 1)).mapM fun i => octet? (c.rest.drop (3 * (i + 1)))
  if others.any fun o => o / 0x40 ≠ 2 then none
  let lead := if count = 1 then first else first % (0x80 >>> count)
  let char ← charOf? (others.foldl (fun n o => n * 0x40 + o % 0x40) lead)
  return (char, c.advance (3 * count))

/-- Reads the characters of a tag. -/
def readTagText (withFlowMarks : Bool) : Nat → List Char → Cursor → Option (List Char × Cursor)
  | 0, out, c => some (out.reverse, c)
  | fuel + 1, out, c =>
    match c.rest with
    | [] => some (out.reverse, c)
    | x :: _ =>
      if x = '%' then
        match readOctets c with
        | some (y, c) => readTagText withFlowMarks fuel (y :: out) c
        | none => none
      else if isTagPart withFlowMarks x then
        readTagText withFlowMarks fuel (x :: out) (c.advance 1)
      else some (out.reverse, c)

/-- Reads a tag handle: an exclamation mark, or two with a name between them. Gives what of it is
there. -/
def readHandle (c : Cursor) : Option (List Char × Cursor) :=
  if c.isAt '!' then
    let (name, after) := (c.advance 1).takeWhile isNamePart
    if after.isAt '!' then some ('!' :: name ++ ['!'], after.advance 1)
    else some ('!' :: name, after)
  else none

/-- Whether a handle has both of its exclamation marks. -/
def isWholeHandle (handle : List Char) : Bool :=
  1 < handle.length && handle.getLast? = some '!'

/-- Whether a tag ends here. Within flow collections a comma ends it, too. -/
def endsTag (inFlow : Bool) (c : Cursor) : Bool :=
  Cursor.endsWord (c.peek 0) || (inFlow && c.isAt ',')

/-- Reads a tag; the cursor is at its exclamation mark. -/
def readTag (inFlow : Bool) (c : Cursor) : Option (Token × Cursor) := do
  if c.peek 1 = some '<' then
    let inner := c.advance 2
    let (text, after) ← readTagText true inner.rest.length [] inner
    if text = [] ∨ ¬ after.isAt '>' then none
    let after := after.advance 1
    if endsTag inFlow after then return (.tag [] text, after) else none
  else
    let (handle, after) ← readHandle c
    if isWholeHandle handle then
      let (text, after) ← readTagText false after.rest.length [] after
      if text ≠ [] ∧ endsTag inFlow after then return (.tag handle text, after) else none
    else
      let (more, after) ← readTagText false after.rest.length [] after
      let text := handle.drop 1 ++ more
      if endsTag inFlow after then
        return (if text = [] then .tag [] ['!'] else .tag ['!'] text, after)
      else none

/-- Reads a number of a version. -/
def readVersionNumber (c : Cursor) : Option (Nat × Cursor) :=
  let (digits, c) := c.takeWhile Char.isDigit
  if digits = [] ∨ 9 < digits.length then none else some (Numeral.digitsValue digits, c)

/-- Reads a directive; the cursor is at its percent sign. -/
def readDirective (c : Cursor) : Option (Token × Cursor) := do
  let (name, c) := (c.advance 1).takeWhile isNamePart
  if name = [] ∨ ¬ Cursor.endsWord (c.peek 0) then none
  let c := c.skipWhile isSpacing
  if name = ['Y', 'A', 'M', 'L'] then
    let (major, c) ← readVersionNumber c
    if ¬ c.isAt '.' then none
    let (minor, c) ← readVersionNumber (c.advance 1)
    return (.versionDirective major minor, ← restOfLine c)
  else if name = ['T', 'A', 'G'] then
    let (handle, c) ← readHandle c
    if ¬ (handle = ['!'] ∨ isWholeHandle handle) ∨ ¬ (c.peek 0).any isSpacing then none
    let c := c.skipWhile isSpacing
    let (lead, c) ← readTagText true c.rest.length [] c
    if lead = [] ∨ ¬ Cursor.endsWord (c.peek 0) then none
    return (.tagDirective handle lead, ← restOfLine c)
  else none

/-! ## The lexer -/

/-- A place where a key may have begun. -/
structure PossibleKey where
  /-- Whether nothing but a key can stand there. -/
  isRequired : Bool
  /-- How many tokens were read before it. -/
  number : Nat
  place : Place

/-- The state of the lexer. -/
structure Lexer where
  cursor : Cursor
  /-- The tokens so far, last first. -/
  done : List Token
  /-- For the block and for each open flow collection, innermost first, where a key may have
  begun. -/
  keys : List (Option PossibleKey)
  /-- The columns of the open block collections, innermost first. -/
  indents : List Nat
  /-- Whether a key may begin at the next token. -/
  keyAllowed : Bool

namespace Lexer

/-- The lexer at the start of a text. -/
def start (text : List Char) : Lexer :=
  ⟨.start text, [], [none], [], true⟩

/-- Whether a flow collection is open. -/
def inFlow (l : Lexer) : Bool :=
  1 < l.keys.length

/-- The least column of what belongs to the innermost block collection's entries. -/
def nextIndent (l : Lexer) : Nat :=
  (l.indents.head?.map (· + 1)).getD 0

/-- Adds a token and moves on. -/
def emit (l : Lexer) (t : Token) (c : Cursor) : Lexer :=
  { l with done := t :: l.done, cursor := c }

/-- Puts a token behind the first `number` tokens. -/
def insert (l : Lexer) (number : Nat) (t : Token) : Lexer :=
  let later := l.done.length - number
  { l with done := l.done.take later ++ t :: l.done.drop later }

/-- Ends the block collections that are indented further than `column`; all of them if there is
none. -/
def unroll (l : Lexer) (column : Option Nat) : Lexer :=
  if l.inFlow then l
  else
    let closing := l.indents.takeWhile fun i => column.all (· < i)
    { l with
      indents := l.indents.drop closing.length
      done := closing.map (fun _ => Token.blockEnd) ++ l.done }

/-- Begins a block collection at a column if it is indented further than the one around it. Its
token goes behind the first `number` tokens. -/
def roll (l : Lexer) (column number : Nat) (t : Token) : Lexer :=
  if l.inFlow ∨ column < l.nextIndent then l
  else { l with indents := column :: l.indents }.insert number t

/-- Gives up the key that may have begun in the innermost collection; none if it was required. -/
def dropKey (l : Lexer) : Option Lexer :=
  match l.keys with
  | some k :: outer => if k.isRequired then none else some { l with keys := none :: outer }
  | _ => some l

/-- Remembers that a key may begin here. -/
def saveKey (l : Lexer) : Option Lexer :=
  if l.keyAllowed then do
    let isRequired := !l.inFlow && l.indents.head? = some l.cursor.column
    let l ← l.dropKey
    return { l with keys := some ⟨isRequired, l.done.length, l.cursor.place⟩ :: l.keys.drop 1 }
  else some l

/-- Gives up keys that do not end on their line or within 1024 characters. -/
def dropStaleKeys (l : Lexer) : Option Lexer := do
  let now := l.cursor.place
  let keys ← l.keys.mapM fun key =>
    match key with
    | none => some none
    | some k =>
      if k.place.line < now.line ∨ k.place.index + 1024 < now.index then
        if k.isRequired then none else some none
      else some (some k)
  return { l with keys }

/-- Goes over blanks, comments and line ends up to the next token. Tabs are blanks where no key may
begin. In a block a new line lets a key begin. -/
def skipToToken : Nat → Lexer → Lexer
  | 0, l => l
  | fuel + 1, l =>
    let c := l.cursor
    let c := if c.column = 0 ∧ c.isAt '\ufeff' then c.advance 1 else c
    let c := c.skipWhile fun x => x = ' ' || (x = '\t' && (l.inFlow || !l.keyAllowed))
    let c := if c.isAt '#' then c.skipLineText else c
    if c.rest.head?.any isBreak then
      skipToToken fuel
        { l with cursor := c.advanceLine, keyAllowed := l.keyAllowed || !l.inFlow }
    else { l with cursor := c }

/-- A token that begins a line of its own: a directive or a mark between documents. -/
def atMargin (l : Lexer) (t : Token) (after : Cursor) : Option Lexer := do
  let l ← (l.unroll none).dropKey
  return { l with keyAllowed := false }.emit t after

/-- The start of a flow collection, which may be a key itself. -/
def openFlow (l : Lexer) (t : Token) : Option Lexer := do
  let l ← l.saveKey
  return { l with keys := none :: l.keys, keyAllowed := true }.emit t (l.cursor.advance 1)

/-- The end of a flow collection. -/
def closeFlow (l : Lexer) (t : Token) : Option Lexer := do
  let l ← l.dropKey
  let keys := if l.inFlow then l.keys.drop 1 else l.keys
  return { l with keys, keyAllowed := false }.emit t (l.cursor.advance 1)

/-- A comma. -/
def flowEntry (l : Lexer) : Option Lexer := do
  let l ← l.dropKey
  return { l with keyAllowed := true }.emit .flowEntry (l.cursor.advance 1)

/-- A dash, which may begin a block sequence. -/
def blockEntry (l : Lexer) : Option Lexer := do
  if ¬ l.inFlow ∧ ¬ l.keyAllowed then none
  let l ← (l.roll l.cursor.column l.done.length .blockSequenceStart).dropKey
  return { l with keyAllowed := true }.emit .blockEntry (l.cursor.advance 1)

/-- A question mark, which may begin a block mapping. -/
def explicitKey (l : Lexer) : Option Lexer := do
  if ¬ l.inFlow ∧ ¬ l.keyAllowed then none
  let l ← (l.roll l.cursor.column l.done.length .blockMappingStart).dropKey
  return { l with keyAllowed := !l.inFlow }.emit .key (l.cursor.advance 1)

/-- A colon. If a key may have begun before it, it did. -/
def value (l : Lexer) : Option Lexer :=
  match l.keys with
  | some k :: outer =>
    let l := (l.insert k.number .key).roll k.place.column k.number .blockMappingStart
    some ({ l with keys := none :: outer, keyAllowed := false }.emit .value (l.cursor.advance 1))
  | _ =>
    if ¬ l.inFlow ∧ ¬ l.keyAllowed then none
    else
      let l := l.roll l.cursor.column l.done.length .blockMappingStart
      some ({ l with keyAllowed := !l.inFlow }.emit .value (l.cursor.advance 1))

/-- A token that may begin a key, and after which none may begin on the line. -/
def content (l : Lexer) (read : Cursor → Option (Token × Cursor)) : Option Lexer := do
  let l ← l.saveKey
  let (t, after) ← read l.cursor
  return { l with keyAllowed := false }.emit t after

/-- A block scalar, which is never a key. -/
def blockScalar (l : Lexer) (style : ScalarStyle) : Option Lexer := do
  let l ← l.dropKey
  let (text, after) ← readBlock (style = .folded) l.indents.head? l.cursor
  return { l with keyAllowed := true }.emit (.scalar text style) after

/-- A plain scalar. If it was followed by a line end, a key may begin after it. -/
def plainScalar (l : Lexer) : Option Lexer := do
  let l ← l.saveKey
  let (text, crosses, after) ← readPlain l.inFlow l.nextIndent l.cursor
  return { l with keyAllowed := crosses }.emit (.scalar text .plain) after

/-- The characters that no plain scalar begins with, unless they are a dash, question mark or colon
that a word follows. -/
def isIndicator (x : Char) : Bool :=
  ['-', '?', ':', ',', '[', ']', '\x7b', '\x7d', '#', '&', '*', '!', '|', '>', '\'', '"', '%', '@',
    '\x60'].contains x

/-- Reads the next token; the cursor is at its first character `x`. -/
def readToken (l : Lexer) (x : Char) : Option Lexer :=
  let c := l.cursor
  let wordEnds := Cursor.endsWord (c.peek 1)
  if c.column = 0 ∧ x = '%' then do
    let (t, after) ← readDirective c
    l.atMargin t after
  else if c.isDocumentMark '-' then l.atMargin .documentStart (c.advance 3)
  else if c.isDocumentMark '.' then l.atMargin .documentEnd (c.advance 3)
  else if x = '[' then l.openFlow .flowSequenceStart
  else if x = '\x7b' then l.openFlow .flowMappingStart
  else if x = ']' then l.closeFlow .flowSequenceEnd
  else if x = '\x7d' then l.closeFlow .flowMappingEnd
  else if x = ',' then l.flowEntry
  else if x = '-' ∧ wordEnds then l.blockEntry
  else if x = '?' ∧ (l.inFlow ∨ wordEnds) then l.explicitKey
  else if x = ':' ∧ (l.inFlow ∨ wordEnds) then l.value
  else if x = '*' then l.content fun c => (readAnchorName c).map fun (n, c) => (.alias n, c)
  else if x = '&' then l.content fun c => (readAnchorName c).map fun (n, c) => (.anchor n, c)
  else if x = '!' then l.content (readTag l.inFlow)
  else if x = '|' ∧ ¬ l.inFlow then l.blockScalar .literal
  else if x = '>' ∧ ¬ l.inFlow then l.blockScalar .folded
  else if x = '\'' ∨ x = '"' then
    l.content fun c => (readQuoted (x = '"') c).map fun (t, c) => (.scalar t .quoted, c)
  else if isSpacing x then none
  else if ¬ isIndicator x ∨ x = '-' ∨ (¬ l.inFlow ∧ (x = '?' ∨ x = ':')) then l.plainScalar
  else none

/-- Ends all block collections at the end of the text. -/
def finish (l : Lexer) : Option (List Token) := do
  let l ← (l.unroll none).dropKey
  return (Token.streamEnd :: l.done).reverse

/-- Reads all tokens. -/
def run : Nat → Lexer → Option (List Token)
  | 0, _ => none
  | fuel + 1, l => do
    let l ← (l.skipToToken (l.cursor.rest.length + 1)).dropStaleKeys
    let l := l.unroll (some l.cursor.column)
    match l.cursor.rest with
    | [] => l.finish
    | x :: _ => run fuel (← l.readToken x)

end Lexer

/-- The tokens of a text. -/
def Token.scan (text : String) : Option (List Token) :=
  let cs := text.toList
  if cs.all isAllowed then (Lexer.start cs).run (cs.length + 1) else none

end TreeDerivation.Yaml
