import TreeDerivation.Json.Lexeme
import TreeDerivation.Yaml.Cursor

/-!
# Scalars of YAML

A scalar is plain, quoted or a block. In plain and quoted scalars a run of blanks that crosses a
line end folds: one line end is a space, of more the first is dropped. Block scalars keep their
lines, or fold them unless they are indented further.

Every reader takes a cursor and gives the text with the cursor after it; none if the scalar is
malformed. Readers that loop take the number of characters left as a bound.
-/

namespace TreeDerivation.Yaml

/-- How a scalar is written. -/
inductive ScalarStyle where
  | plain
  | quoted
  | literal
  | folded
  deriving DecidableEq

/-! ## Blanks between the words of plain and quoted scalars -/

/-- A run of blanks: the blanks before any line end, the first line end and the later ones. -/
structure Gap where
  blanks : List Char
  first : List Char
  later : List Char
  /-- Whether the run goes over a line end. -/
  crosses : Bool

namespace Gap

/-- No blanks at all. -/
def none : Gap :=
  ⟨[], [], [], false⟩

/-- No text, at the start of a line that was continued. -/
def joined : Gap :=
  ⟨[], [], [], true⟩

/-- What a run of blanks contributes to the text. -/
def text (g : Gap) : List Char :=
  if ¬ g.crosses then g.blanks
  else if g.first = ['\n'] then if g.later = [] then [' '] else g.later
  else g.first ++ g.later

/-- Reads blanks and line ends. A tab may not stand in for indentation up to `indent`. -/
def read (indent : Nat) : Nat → Gap → Cursor → Option (Gap × Cursor)
  | 0, g, c => some (g, c)
  | fuel + 1, g, c =>
    match c.rest with
    | [] => some (g, c)
    | x :: _ =>
      if isSpacing x then
        if g.crosses then
          if x = '\t' ∧ c.column < indent then Option.none
          else read indent fuel g (c.advance 1)
        else read indent fuel { g with blanks := g.blanks ++ [x] } (c.advance 1)
      else if isBreak x then
        let added := c.lineEndText
        if g.crosses then read indent fuel { g with later := g.later ++ added } c.advanceLine
        else read indent fuel ⟨[], added, [], true⟩ c.advanceLine
      else some (g, c)

end Gap

/-! ## Quoted scalars -/

/-- What ends a stretch of a quoted scalar that holds no blanks. -/
inductive StretchEnd where
  | quote
  | blank
  /-- A line end behind a backslash, which contributes nothing. -/
  | continued
  deriving DecidableEq

/-- The character that a one-character escape stands for. -/
def escaped? : Char → Option Char
  | '0' => some '\x00'
  | 'a' => some '\x07'
  | 'b' => some '\x08'
  | 't' => some '\t'
  | '\t' => some '\t'
  | 'n' => some '\n'
  | 'v' => some '\x0b'
  | 'f' => some '\x0c'
  | 'r' => some '\r'
  | 'e' => some '\x1b'
  | ' ' => some ' '
  | '"' => some '"'
  | '/' => some '/'
  | '\\' => some '\\'
  | 'N' => some '\u0085'
  | '_' => some '\u00a0'
  | 'L' => some '\u2028'
  | 'P' => some '\u2029'
  | _ => none

/-- The number of hexadecimal digits that an escape takes. -/
def escapeDigits? : Char → Option Nat
  | 'x' => some 2
  | 'u' => some 4
  | 'U' => some 8
  | _ => none

/-- The value of hexadecimal digits. -/
def hexValue? (digits : List Char) : Option Nat :=
  (digits.mapM Lexeme.hexDigit?).map fun ds => ds.foldl (fun n d => n * 16 + d) 0

/-- The character with a code point, if there is one. -/
def charOf? (n : Nat) : Option Char :=
  if n.isValidChar then some (Char.ofNat n) else none

/-- Reads a stretch between single quotes; two quotes stand for one. -/
def singleStretch : Nat → List Char → Cursor → List Char × Cursor × StretchEnd
  | 0, out, c => (out, c, .blank)
  | fuel + 1, out, c =>
    match c.rest with
    | '\'' :: '\'' :: _ => singleStretch fuel ('\'' :: out) (c.advance 2)
    | '\'' :: _ => (out, c, .quote)
    | x :: _ =>
      if isSpacing x || isBreak x then (out, c, .blank)
      else singleStretch fuel (x :: out) (c.advance 1)
    | [] => (out, c, .blank)

/-- Reads a stretch between double quotes. -/
def doubleStretch : Nat → List Char → Cursor → Option (List Char × Cursor × StretchEnd)
  | 0, out, c => some (out, c, .blank)
  | fuel + 1, out, c =>
    match c.rest with
    | [] => some (out, c, .blank)
    | x :: more =>
      if isSpacing x || isBreak x then some (out, c, .blank)
      else if x = '"' then some (out, c, .quote)
      else if x = '\\' then
        match more with
        | [] => none
        | y :: digits =>
          if isBreak y then some (out, (c.advance 1).advanceLine, .continued)
          else
            match escaped? y, escapeDigits? y with
            | some z, _ => doubleStretch fuel (z :: out) (c.advance 2)
            | none, some n =>
              if digits.length < n then none
              else
                match (hexValue? (digits.take n)).bind charOf? with
                | some z => doubleStretch fuel (z :: out) (c.advance (2 + n))
                | none => none
            | none, none => none
      else doubleStretch fuel (x :: out) (c.advance 1)

/-- Reads a quoted scalar up to its closing quote; `out` is the text so far, last character
first. -/
def quotedFrom (isDouble : Bool) : Nat → List Char → Cursor → Option (List Char × Cursor)
  | 0, _, _ => none
  | fuel + 1, out, c =>
    if c.isAtDocumentMark || c.rest.isEmpty then none
    else
      let stretch :=
        if isDouble then doubleStretch c.rest.length out c
        else some (singleStretch c.rest.length out c)
      match stretch with
      | none => none
      | some (out, c, .quote) => some (out.reverse, c.advance 1)
      | some (out, c, stop) =>
        let gap := if stop = .continued then Gap.joined else Gap.none
        match gap.read 0 c.rest.length c with
        | none => none
        | some (gap, after) =>
          quotedFrom isDouble fuel (gap.text.reverse ++ out) after

/-- Reads a quoted scalar; the cursor is at its opening quote. -/
def readQuoted (isDouble : Bool) (c : Cursor) : Option (List Char × Cursor) :=
  quotedFrom isDouble (c.rest.length + 1) [] (c.advance 1)

/-! ## Plain scalars -/

/-- The brackets and commas that structure flow collections. -/
def isFlowMark (x : Char) : Bool :=
  x = ',' || x = '[' || x = ']' || x = '\x7b' || x = '\x7d'

/-- Reads the characters of a plain scalar up to a blank or an indicator. Within flow collections a
colon may not touch what structures them. -/
def plainStretch (inFlow : Bool) : List Char → Option (List Char)
  | [] => some []
  | x :: more =>
    if isSpacing x || isBreak x then some []
    else if inFlow && x = ':' && (more.head?.any fun y => isFlowMark y || y = '?') then none
    else if (x = ':' && Cursor.endsWord more.head?) || (inFlow && isFlowMark x) then some []
    else (plainStretch inFlow more).map (x :: ·)

/-- Reads a plain scalar whose lines are indented by at least `indent`, after a text and the blanks
that follow it. Tells whether the blanks at the end go over a line end. -/
def plainFrom (inFlow : Bool) (indent : Nat) :
    Nat → List Char → Gap → Cursor → Option (List Char × Bool × Cursor)
  | 0, _, _, _ => none
  | fuel + 1, out, gap, c =>
    if c.isAtDocumentMark || c.isAt '#' then some (out, gap.crosses, c)
    else
      match plainStretch inFlow c.rest with
      | none => none
      | some stretch =>
        let after := c.advance stretch.length
        let out := if stretch = [] then out else out ++ gap.text ++ stretch
        let gap := if stretch = [] then gap else Gap.none
        if ¬ (after.rest.head?.any fun x => isSpacing x || isBreak x) then
          some (out, gap.crosses, after)
        else
          match gap.read indent after.rest.length after with
          | none => none
          | some (gap, after) =>
            if ¬ inFlow ∧ after.column < indent then some (out, gap.crosses, after)
            else plainFrom inFlow indent fuel out gap after

/-- Reads a plain scalar. -/
def readPlain (inFlow : Bool) (indent : Nat) (c : Cursor) :
    Option (List Char × Bool × Cursor) :=
  plainFrom inFlow indent (c.rest.length + 1) [] Gap.none c

/-! ## Block scalars -/

/-- What happens to the line ends at the end of a block scalar. -/
inductive Chomping where
  | strip
  | clip
  | keep
  deriving DecidableEq

/-- The chomping that an indicator asks for. -/
def chomping? : Option Char → Option Chomping
  | some '+' => some .keep
  | some '-' => some .strip
  | _ => none

/-- Reads the two optional indicators of a block scalar, in either order: chomping and indentation.
An indentation of zero is refused. -/
def blockHeader (c : Cursor) : Option (Chomping × Option Nat × Cursor) :=
  let indentation (c : Cursor) : Option (Option Nat × Cursor) :=
    match c.peek 0 with
    | some d =>
      if d = '0' then none
      else if d.isDigit then some (some (d.toNat - 0x30), c.advance 1)
      else some (none, c)
    | none => some (none, c)
  match chomping? (c.peek 0) with
  | some chomping => do
    let (indent, c) ← indentation (c.advance 1)
    return (chomping, indent, c)
  | none => do
    let (indent, after) ← indentation c
    if indent.isNone then return (.clip, none, after)
    match chomping? (after.peek 0) with
    | some chomping => return (chomping, indent, after.advance 1)
    | none => return (.clip, indent, after)

/-- Reads empty lines and indentation, up to `indent` columns or, if that is not known, as far as
they go. Gives the line ends, the widest column and the cursor after them. -/
def blockBreaks (indent : Option Nat) :
    Nat → List Char → Nat → Cursor → Option (List Char × Nat × Cursor)
  | 0, breaks, widest, c => some (breaks, widest, c)
  | fuel + 1, breaks, widest, c =>
    let room :=
      match indent with
      | some n => (c.rest.take (n - c.column)).takeWhile (· = ' ')
      | none => c.rest.takeWhile (· = ' ')
    let c := c.advance room.length
    let widest := max widest c.column
    match c.rest with
    | [] => some (breaks, widest, c)
    | x :: _ =>
      if x = '\t' ∧ indent.all (c.column < ·) then none
      else if isBreak x then
        blockBreaks indent fuel (breaks ++ c.lineEndText) widest c.advanceLine
      else some (breaks, widest, c)

/-- A block scalar under way: its text, the end of its last line, the empty lines after that, and
whether the last line began with a blank. -/
structure BlockText where
  out : List Char
  ending : List Char
  empty : List Char
  indented : Bool

namespace BlockText

/-- What the line ends between two lines contribute when the next line begins with `next`. -/
def between (folds : Bool) (b : BlockText) (next : Option Char) : List Char :=
  if folds ∧ b.ending = ['\n'] ∧ ¬ b.indented ∧ ¬ next.any isSpacing then
    if b.empty = [] then ' ' :: b.empty else b.empty
  else b.ending ++ b.empty

/-- The text without or with the line ends after it. -/
def finish (chomping : Chomping) (b : BlockText) : List Char :=
  match chomping with
  | .strip => b.out
  | .clip => b.out ++ b.ending
  | .keep => b.out ++ b.ending ++ b.empty

end BlockText

/-- Reads the lines of a block scalar that are indented by `indent`. -/
def blockLines (folds : Bool) (indent : Nat) :
    Nat → BlockText → Cursor → Option (BlockText × Cursor)
  | 0, b, c => some (b, c)
  | fuel + 1, b, c =>
    if c.column ≠ indent ∨ c.rest.isEmpty then some (b, c)
    else
      let (line, atEnd) := c.takeWhile fun x => !isBreak x
      let out := b.out ++ b.between folds (c.peek 0) ++ line
      let after := if atEnd.rest.isEmpty then atEnd else atEnd.advanceLine
      match blockBreaks (some indent) after.rest.length [] 0 after with
      | none => none
      | some (empty, _, next) =>
        blockLines folds indent fuel
          ⟨out, atEnd.lineEndText, empty, (c.peek 0).any isSpacing⟩ next

/-- Goes over the blanks and the comment at the end of a line, and over its end. -/
def restOfLine (c : Cursor) : Option Cursor :=
  let c := c.skipWhile isSpacing
  let c := if c.isAt '#' then c.skipLineText else c
  match c.rest with
  | [] => some c
  | x :: _ => if isBreak x then some c.advanceLine else none

/-- Reads a block scalar in a collection that is indented by `parent` columns; none if there is no
such collection. -/
def readBlock (folds : Bool) (parent : Option Nat) (c : Cursor) : Option (List Char × Cursor) := do
  let (chomping, given, c) ← blockHeader (c.advance 1)
  let c ← restOfLine c
  let known := given.map fun n => parent.getD 0 + n
  let (empty, widest, c) ← blockBreaks known c.rest.length [] 0 c
  let indent := known.getD (max widest (max ((parent.map (· + 1)).getD 0) 1))
  let (text, c) ← blockLines folds indent (c.rest.length + 1) ⟨[], [], empty, false⟩ c
  return (text.finish chomping, c)

end TreeDerivation.Yaml
