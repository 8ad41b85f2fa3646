import TreeDerivation.Yaml.Token

/-!
# Nodes of YAML

The tokens of a text form documents, and a document is a tree of scalars, sequences and mappings.
An alias stands for a node that was named by an anchor before; since it may stand for a node around
it, it stays an alias in the tree, and the document keeps the named nodes in a table.
-/

namespace TreeDerivation.Yaml

/-- A node of a document. -/
inductive Node where
  /-- A text with the way it is written and its tag. -/
  | scalar (text : List Char) (style : ScalarStyle) (tag : Option (List Char))
  | sequence (items : List Node)
  | mapping (entries : List (Node × Node))
  /-- The node with this number in the table of the document. -/
  | alias (number : Nat)

/-- The node where a node is left out. -/
def Node.absent (tag : Option (List Char)) : Node :=
  .scalar [] .plain tag

/-- A named node, in the order in which the names stand in the text. -/
structure Named where
  number : Nat
  order : Nat
  node : Node

/-- What reading has learned and what is left to read. -/
structure Parse where
  tokens : List Token
  /-- What each tag handle stands for. -/
  handles : List (List Char × List Char)
  /-- The names in use and the numbers that they stand for. -/
  names : List (List Char × Nat)
  /-- How many anchors were read. -/
  anchors : Nat
  named : List Named

namespace Parse

/-- The next token. A text ends with the token for its end. -/
def peek (p : Parse) : Token :=
  p.tokens.head?.getD .streamEnd

/-- Goes over the next token. -/
def skip (p : Parse) : Parse :=
  { p with tokens := p.tokens.drop 1 }

/-- Takes note of an anchor. A name gets the number of names that are in use so far, whether it is
among them or not. -/
def nameAnchor (p : Parse) (name : List Char) : Parse :=
  { p with
    names := (name, p.names.length) :: p.names.filter fun n => n.1 ≠ name
    anchors := p.anchors + 1 }

/-- Enters the node of an anchor into the table. -/
def addNamed (p : Parse) (anchor : Option (Nat × Nat)) (node : Node) : Parse :=
  match anchor with
  | some (number, order) => { p with named := ⟨number, order, node⟩ :: p.named }
  | none => p

/-- The whole tag that a handle and a suffix stand for; none if the handle is not known. -/
def resolveTag (p : Parse) (handle suffix : List Char) : Option (List Char) :=
  if handle = [] then some suffix else (p.handles.lookup handle).map (· ++ suffix)

/-- Reads an anchor, if there is one. -/
def anchor (p : Parse) : Option (List Char) × Parse :=
  match p.peek with
  | .anchor name => (some name, p.skip)
  | _ => (none, p)

/-- Reads a tag, if there is one. -/
def tag (p : Parse) : Option (List Char × List Char) × Parse :=
  match p.peek with
  | .tag handle suffix => (some (handle, suffix), p.skip)
  | _ => (none, p)

/-- Reads an anchor and a tag, each of which may be missing, in either order. -/
def properties (p : Parse) : Option (List Char) × Option (List Char × List Char) × Parse :=
  match p.anchor with
  | (some name, p) =>
    let (tag, p) := p.tag
    (some name, tag, p)
  | (none, p) =>
    let (tag, p) := p.tag
    if tag.isSome then
      let (name, p) := p.anchor
      (name, tag, p)
    else (none, none, p)

mutual

/-- Reads a node. A scalar whose tag is a lone exclamation mark has no tag. Block collections are
read only where `block` says so, and sequences without indentation of their own only where `bare`
does. -/
def node (block bare : Bool) : Nat → Parse → Option (Node × Parse)
  | 0, _ => none
  | fuel + 1, p =>
    match p.peek with
    | .alias name => (p.names.lookup name).map fun number => (.alias number, p.skip)
    | _ => do
      let (name, tag, p) := p.properties
      let tag ← match tag with
        | some (handle, suffix) => (p.resolveTag handle suffix).map some
        | none => some none
      let anchor := name.map fun _ => (p.names.length, p.anchors)
      let p := match name with
        | some name => p.nameAnchor name
        | none => p
      let (node, p) ←
        match p.peek, block, bare with
        | .blockEntry, _, true => bareEntries [] fuel p
        | .scalar text style, _, _ =>
          some (.scalar text style (if tag = some ['!'] then none else tag), p.skip)
        | .flowSequenceStart, _, _ => flowItems true [] fuel p.skip
        | .flowMappingStart, _, _ => flowEntries true [] fuel p.skip
        | .blockSequenceStart, true, _ => blockItems [] fuel p.skip
        | .blockMappingStart, true, _ => blockEntries [] fuel p.skip
        | _, _, _ =>
          if name.isSome ∨ tag.isSome then some (Node.absent tag, p) else none
      return (node, p.addNamed anchor node)

/-- Reads a node unless one of the given tokens shows that it is left out. -/
def nodeUnless (stops : List Token) (block bare : Bool) : Nat → Parse → Option (Node × Parse)
  | 0, _ => none
  | fuel + 1, p =>
    if stops.contains p.peek then some (Node.absent none, p) else node block bare fuel p

/-- Reads the items of a block sequence. -/
def blockItems (items : List Node) : Nat → Parse → Option (Node × Parse)
  | 0, _ => none
  | fuel + 1, p =>
    match p.peek with
    | .blockEntry => do
      let (item, p) ← nodeUnless [.blockEntry, .blockEnd] true false fuel p.skip
      blockItems (item :: items) fuel p
    | .blockEnd => some (.sequence items.reverse, p.skip)
    | _ => none

/-- Reads the items of a block sequence that is indented no further than the mapping around it. -/
def bareEntries (items : List Node) : Nat → Parse → Option (Node × Parse)
  | 0, _ => none
  | fuel + 1, p =>
    match p.peek with
    | .blockEntry => do
      let (item, p) ←
        nodeUnless [.blockEntry, .key, .value, .blockEnd] true false fuel p.skip
      bareEntries (item :: items) fuel p
    | _ => some (.sequence items.reverse, p)

/-- Reads the value of an entry of a block mapping. -/
def blockValue : Nat → Parse → Option (Node × Parse)
  | 0, _ => none
  | fuel + 1, p =>
    match p.peek with
    | .value => nodeUnless [.key, .value, .blockEnd] true true fuel p.skip
    | _ => some (Node.absent none, p)

/-- Reads the entries of a block mapping. -/
def blockEntries (entries : List (Node × Node)) : Nat → Parse → Option (Node × Parse)
  | 0, _ => none
  | fuel + 1, p =>
    match p.peek with
    | .key => do
      let (key, p) ← nodeUnless [.key, .value, .blockEnd] true true fuel p.skip
      let (value, p) ← blockValue fuel p
      blockEntries ((key, value) :: entries) fuel p
    | .blockEnd => some (.mapping entries.reverse, p.skip)
    | _ => none

/-- Reads a value within a flow collection that the given token ends. -/
def flowValue (stop : Token) : Nat → Parse → Option (Node × Parse)
  | 0, _ => none
  | fuel + 1, p =>
    match p.peek with
    | .value => nodeUnless [.flowEntry, stop] false false fuel p.skip
    | _ => some (Node.absent none, p)

/-- Reads the items of a flow sequence. An item with a colon is a mapping of one entry. -/
def flowItems (isFirst : Bool) (items : List Node) : Nat → Parse → Option (Node × Parse)
  | 0, _ => none
  | fuel + 1, p =>
    if p.peek = .flowSequenceEnd then some (.sequence items.reverse, p.skip)
    else if ¬ isFirst ∧ p.peek ≠ .flowEntry then none
    else
      let p := if isFirst then p else p.skip
      match p.peek with
      | .flowSequenceEnd => some (.sequence items.reverse, p.skip)
      | .key => do
        let p := p.skip
        let (key, p) ←
          if [Token.value, .flowEntry, .flowSequenceEnd].contains p.peek then
            some (Node.absent none, p.skip)
          else node false false fuel p
        let (value, p) ← flowValue .flowSequenceEnd fuel p
        flowItems false (.mapping [(key, value)] :: items) fuel p
      | _ => do
        let (item, p) ← node false false fuel p
        flowItems false (item :: items) fuel p

/-- Reads the entries of a flow mapping. An entry without a colon has no value. -/
def flowEntries (isFirst : Bool) (entries : List (Node × Node)) :
    Nat → Parse → Option (Node × Parse)
  | 0, _ => none
  | fuel + 1, p =>
    if p.peek = .flowMappingEnd then some (.mapping entries.reverse, p.skip)
    else if ¬ isFirst ∧ p.peek ≠ .flowEntry then none
    else
      let p := if isFirst then p else p.skip
      match p.peek with
      | .flowMappingEnd => some (.mapping entries.reverse, p.skip)
      | .key => do
        let (key, p) ← nodeUnless [.value, .flowEntry, .flowMappingEnd] false false fuel p.skip
        let (value, p) ← flowValue .flowMappingEnd fuel p
        flowEntries false ((key, value) :: entries) fuel p
      | _ => do
        let (key, p) ← node false false fuel p
        flowEntries false ((key, Node.absent none) :: entries) fuel p

end

/-- What tag handles stand for unless a directive says otherwise. -/
def defaultHandles : List (List Char × List Char) :=
  [(['!'], ['!']), (['!', '!'], "tag:yaml.org,2002:".toList)]

/-- Reads the directives before a document; none if one is repeated or asks for another version. -/
def directives : Nat → Bool → List (List Char × List Char) → List Token →
    Option (List (List Char × List Char) × List Token)
  | fuel + 1, seenVersion, handles, .versionDirective major minor :: rest =>
    if seenVersion ∨ major ≠ 1 ∨ (minor ≠ 1 ∧ minor ≠ 2) then none
    else directives fuel true handles rest
  | fuel + 1, seenVersion, handles, .tagDirective handle lead :: rest =>
    if (handles.lookup handle).isSome then none
    else directives fuel seenVersion ((handle, lead) :: handles) rest
  | _, _, handles, rest => some (handles ++ defaultHandles, rest)

end Parse

/-- A document: its node and the nodes that it names. -/
structure Document where
  root : Node
  named : List Named

namespace Document

/-- The node that a node stands for. If a number was given twice, it stands for the later one. -/
def resolve (d : Document) : Node → Node
  | .alias number =>
    let candidates := d.named.filter fun n => n.number = number
    let latest := candidates.foldl (fun best n => max best n.order) 0
    ((candidates.find? fun n => n.order = latest).map Named.node).getD (Node.absent none)
  | n => n

/-- Whether a token cannot begin the content of a document. -/
def isOutside : Token → Bool
  | .versionDirective .. | .tagDirective .. | .documentStart | .documentEnd | .streamEnd => true
  | _ => false

/-- Whether only the end of the text follows a document. -/
def endsText (tokens : List Token) : Bool :=
  (tokens.dropWhile (· = .documentEnd)).head? = some .streamEnd

/-- Reads the node of a document with the given tag handles. -/
def readRoot (isExplicit : Bool) (handles : List (List Char × List Char)) (tokens : List Token) :
    Option (Document × List Token) :=
  let p : Parse := ⟨tokens, handles, [], 0, []⟩
  if isExplicit ∧ isOutside p.peek then some (⟨Node.absent none, []⟩, tokens)
  else
    (p.node true false (4 * tokens.length + 4)).map fun (root, p) => (⟨root, p.named⟩, p.tokens)

/-- The only document of a text; none if the text is malformed or holds more than one. An empty text
counts as one document without content. -/
def ofTokens? (tokens : List Token) : Option Document :=
  match tokens with
  | [.streamEnd] => some ⟨Node.absent none, []⟩
  | _ => do
    let isExplicit := match tokens with
      | .versionDirective .. :: _ | .tagDirective .. :: _ | .documentStart :: _ => true
      | _ => false
    let (handles, tokens) ← Parse.directives tokens.length false [] tokens
    let tokens ← match isExplicit, tokens with
      | true, .documentStart :: rest => some rest
      | true, _ => none
      | false, rest => some rest
    let (document, tokens) ← readRoot isExplicit handles tokens
    if endsText tokens then return document else none

/-- Reads a text. -/
def read? (text : String) : Option Document :=
  (Token.scan text).bind ofTokens?

end Document

end TreeDerivation.Yaml
