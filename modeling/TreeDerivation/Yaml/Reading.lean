import TreeDerivation.Yaml.Node

/-!
# Values in YAML

What a node means depends on the type it is read into. Numbers, truth values and nothing are plain
scalars, or literal blocks with the tag of their type; a quoted scalar is only a string. Where a
record is expected, a node that is left out is a record without entries.
-/

namespace TreeDerivation.Yaml

/-- The tags of the types that are read. -/
def standardTag (name : String) : List Char :=
  "tag:yaml.org,2002:".toList ++ name.toList

/-- Whether a scalar may stand for a value of a type with the given tag. -/
def mayStandFor (typeTag : List Char) (style : ScalarStyle) (tag : Option (List Char)) : Bool :=
  match style with
  | .plain => true
  | .literal => tag == some typeTag
  | _ => false

/-- The value of digits of a base; none if there are no digits or one is too large. -/
def digitsIn? (base : Nat) (ds : List Char) : Option Nat :=
  if ds = [] then none
  else
    (ds.mapM fun c => (Lexeme.hexDigit? c).filter (· < base)).map fun digits =>
      digits.foldl (fun n d => n * base + d) 0

/-- An unsigned 64-bit integer: decimal without needless zeros, or hexadecimal, octal or binary
behind `0x`, `0o` or `0b`; a plus sign may stand before it. -/
def natOfText? (cs : List Char) : Option Nat :=
  let unsigned :=
    match cs with
    | '+' :: rest => rest
    | cs => cs
  let value :=
    match unsigned with
    | '0' :: 'x' :: ds => digitsIn? 16 ds
    | '0' :: 'o' :: ds => digitsIn? 8 ds
    | '0' :: 'b' :: ds => digitsIn? 2 ds
    | '0' :: _ :: _ => none
    | ds => digitsIn? 10 ds
  value.filter (· < 0x10000000000000000)

/-- A truth value, in one of three cases. -/
def boolOfText? (cs : List Char) : Option Bool :=
  let s := String.ofList cs
  if s = "true" ∨ s = "True" ∨ s = "TRUE" then some true
  else if s = "false" ∨ s = "False" ∨ s = "FALSE" then some false
  else none

/-- Whether a text names nothing. -/
def isNullText (cs : List Char) : Bool :=
  let s := String.ofList cs
  s = "null" || s = "Null" || s = "NULL" || s = "~"

namespace Document

/-- Reads an unsigned integer. -/
def nat? (d : Document) (n : Node) : Option Nat :=
  match d.resolve n with
  | .scalar text style tag =>
    if mayStandFor (standardTag "int") style tag then natOfText? text else none
  | _ => none

/-- Reads a truth value. -/
def bool? (d : Document) (n : Node) : Option Bool :=
  match d.resolve n with
  | .scalar text style tag =>
    if mayStandFor (standardTag "bool") style tag then boolOfText? text else none
  | _ => none

/-- Reads a value that may be nothing: a plain scalar that is empty or names nothing. With the tag
of nothing it has to name nothing, with another tag it is a value. -/
def nullable? {α : Type} (d : Document) (read : Node → Option α) (n : Node) : Option (Option α) :=
  match d.resolve n with
  | .scalar text .plain none => if text = [] ∨ isNullText text then some none else (read n).map some
  | .scalar text .plain (some tag) =>
    if tag = standardTag "null" then if isNullText text then some none else none
    else (read n).map some
  | _ => (read n).map some

/-- Reads the name of an entry. -/
def name? (d : Document) (n : Node) : Option (List Char) :=
  match d.resolve n with
  | .scalar text _ _ => some text
  | _ => none

/-- The entries of a record by their names. Other entries are left out; none if the node is no
record, an entry has no name, or one of the names is given twice. -/
def parts? (d : Document) (names : List String) (n : Node) : Option (List (Option Node)) :=
  match d.resolve n with
  | .scalar [] .plain _ => some (names.map fun _ => none)
  | .mapping entries => do
    let named ← entries.mapM fun (key, value) => (d.name? key).map (·, value)
    names.mapM fun name =>
      match named.filter fun entry => entry.1 = name.toList with
      | [] => some none
      | [(_, value)] => some (some value)
      | _ => none
  | _ => none

end Document

end TreeDerivation.Yaml
