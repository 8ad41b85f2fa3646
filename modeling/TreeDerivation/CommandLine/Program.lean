import TreeDerivation.CommandLine.Arguments
import TreeDerivation.Derivation.Rebuild
import TreeDerivation.Grammar.Json
import TreeDerivation.Json.Printer
import TreeDerivation.Search.ConfigFile
import TreeDerivation.Tree.Actions
import TreeDerivation.Tree.Display
import TreeDerivation.Tree.Json
import TreeDerivation.Vocabulary.Json

/-!
# The program

Three commands work on files: one derives the tree of a word of actions, one gives the actions of a
tree, one gathers the vocabulary of a directory of trees. What a command does with the texts of its
files is a plain function; `run` fetches the texts and says what to print and how to exit.
-/

namespace TreeDerivation

/-- The name and the version of the program. -/
def programVersion : String :=
  "treebeam 0.1.0"

/-- What a run prints, and the failure that it ends with, if any. -/
structure Outcome where
  exitCode : Nat
  output : String
  failure : Option Failure

namespace Program

/-- A status line: a coloured label and what it says. -/
def statusLine (colored : Bool) (color label detail : String) : String :=
  let shown :=
    if colored then "\x1b[0m\x1b[1m\x1b[" ++ color ++ "m" ++ label ++ "\x1b[0m" else label
  shown ++ ": " ++ detail ++ "\n"

/-- What is said about a derivation that is not complete. -/
def openDetail (d : Derivation) : String :=
  match d.head?, d.headType? with
  | some head, some type =>
    toString d.size ++ " action(s); next slot is field " ++ toString head.field ++ " of action " ++
      toString head.action ++ ", expecting " ++ type.display
  | _, _ => "no action applied"

/-- What replaying comes to: the open derivation, or the tree and the number of its actions. -/
inductive Replayed where
  | unfinished (d : Derivation)
  | complete (size : Nat) (tree : Ast)

/-- Replays a document that holds a word of actions. -/
def replay (encoding : Encoding) (text : String) : Except Failure Replayed := do
  let actions ← Json.document actionsOfJson? text
  let d ← Derivation.replay encoding actions
  if d.isComplete then return .complete d.size (← d.tree) else return .unfinished d

/-- What is printed about a replayed derivation. -/
def Replayed.output (colored asJson : Bool) : Replayed → String
  | .unfinished d => statusLine colored "33" "incomplete" (openDetail d)
  | .complete size tree =>
    if asJson then tree.toJson.pretty ++ "\n"
    else
      statusLine colored "32" "complete" (toString size ++ " action(s)") ++ tree.pretty ++ "\n"

/-- The actions of a document that holds a tree. -/
def flatten (encoding : Encoding) (tokenizer : Tokenizer) (text : String) :
    Except Failure (List Action) := do
  let tree ← Json.document Ast.ofJson? text
  tree.actions encoding tokenizer.split

/-- Adds a tree to a vocabulary. Leaves stay whole in its actions, so that each is cut once. -/
def recordTree (encoding : Encoding) (tokenize : String → List String) (v : Vocabulary)
    (tree : Ast) : Except Failure Vocabulary := do
  let actions ← tree.actions { encoding with splitLeaves := false } tokenize
  return v.record (if encoding.splitLeaves then tokenize else fun text => [text]) actions

/-- Adds a document that holds a tree to a vocabulary. -/
def recordText (encoding : Encoding) (tokenizer : Tokenizer) (path : String) (v : Vocabulary)
    (text : String) : Except Failure Vocabulary := do
  let tree ← (Json.document Ast.ofJson? text).mapError fun f =>
    f.withHelp ("while reading " ++ path)
  recordTree encoding tokenizer.split v tree

section

variable {m : Type → Type} [Monad m]

/-- The encoding that the arguments ask for: that of the configuration file, if one is given, with
what the flags turn off. -/
def encodingOf (files : FileAccess m) (a : Arguments) : m (Except Failure Encoding) := do
  let base : Except Failure Encoding ←
    match a.config with
    | some path => do return (← Config.load files path).map Config.encoding
    | none => pure (.ok {})
  return base.map fun e =>
    { retainVariadic := e.retainVariadic && !a.noVariadic
      splitLeaves := e.splitLeaves && !a.noSplit }

/-- Adds the trees of files to a vocabulary, one after the other. -/
def recordFiles (files : FileAccess m) (encoding : Encoding) (tokenizer : Tokenizer) :
    Vocabulary → List String → m (Except Failure Vocabulary)
  | v, [] => return .ok v
  | v, path :: rest => do
    match (← files.readText path).bind (recordText encoding tokenizer path v) with
    | .ok v => recordFiles files encoding tokenizer v rest
    | .error f => return .error f

/-- The vocabulary of all trees at or below a path, in files whose names end in `.json`. -/
def recordBelow (files : FileAccess m) (encoding : Encoding) (tokenizer : Tokenizer)
    (directory : String) : m (Except Failure Vocabulary) := do
  match ← files.list directory with
  | .error fault => return .error (Failure.of (.file fault))
  | .ok found =>
    let paths := (Path.sort found).map (Path.below directory)
    recordFiles files encoding tokenizer .empty
      (paths.filter fun path => Path.extension? path = some "json")

/-- Carries out a command; gives what it prints. -/
def perform (files : FileAccess m) (colored : Bool) (encoding : Encoding) :
    Command → m (Except Failure String)
  | .replay file asJson => do
    return ((← files.readText file).bind (replay encoding)).map (Replayed.output colored asJson)
  | .flatten file tokenizer => do
    return ((← files.readText file).bind (flatten encoding tokenizer)).map fun actions =>
      (actionsToJson actions).pretty ++ "\n"
  | .samples directory tokenizer => do
    return (← recordBelow files encoding tokenizer directory).map fun v => v.toJson.pretty ++ "\n"

/-- How the program is called. -/
def usage : String :=
  "usage: treebeam [--config PATH] [--no-variadic] [--no-split] COMMAND\n\n" ++
    "  replay FILE [--json]\n" ++
    "  flatten FILE [--tokenizer words|graphemes]\n" ++
    "  samples DIR [--tokenizer words|graphemes]\n"

/-- Runs a command line. Misuse exits with 2, a failure with 1. -/
def run (files : FileAccess m) (colored : Bool) (args : List String) : m Outcome := do
  match Arguments.read args with
  | .misuse => return ⟨2, "", none⟩
  | .help => return ⟨0, usage, none⟩
  | .version => return ⟨0, programVersion ++ "\n", none⟩
  | .run a =>
    match ← encodingOf files a with
    | .error f => return ⟨1, "", some f⟩
    | .ok encoding =>
      match ← perform files colored encoding a.command with
      | .error f => return ⟨1, "", some f⟩
      | .ok output => return ⟨0, output, none⟩

end

end Program

end TreeDerivation
