import TreeDerivation.Text.Clusters
import TreeDerivation.Text.Words

/-!
# Arguments of the command line

A command line names a command, its file or directory, and options. Options that apply to all
commands may stand before or after the name of the command; where a setting is given in both places
the inner one counts. No option may be given twice in one place. `--` ends the options.
-/

namespace TreeDerivation

/-- How leaf texts are cut into pieces. -/
inductive Tokenizer where
  | words
  | clusters
  deriving DecidableEq, Repr

/-- The pieces of a text. -/
def Tokenizer.split : Tokenizer → String → List String
  | .words => Text.splitWords
  | .clusters => Text.splitClusters

/-- The tokenizer with a name. -/
def Tokenizer.named? (name : String) : Option Tokenizer :=
  if name = "words" then some .words
  else if name = "graphemes" then some .clusters
  else none

/-- What the program is asked to do. -/
inductive Command where
  /-- Derives the tree of a word of actions. -/
  | replay (file : String) (asJson : Bool)
  /-- Gives the actions that derive a tree. -/
  | flatten (file : String) (tokenizer : Tokenizer)
  /-- Gives the vocabulary of all trees in a directory. -/
  | samples (directory : String) (tokenizer : Tokenizer)
  deriving DecidableEq, Repr

/-- A command with the settings for the encoding of trees. -/
structure Arguments where
  command : Command
  /-- A configuration file to take the encoding from. -/
  config : Option String
  noVariadic : Bool
  noSplit : Bool
  deriving DecidableEq, Repr

/-- What a command line asks for. -/
inductive Request where
  | run (arguments : Arguments)
  | version
  | help
  /-- The command line makes no sense. -/
  | misuse
  deriving DecidableEq, Repr

namespace Arguments

/-- A part of a command line. -/
inductive Word where
  /-- Two dashes, which end the options. -/
  | separator
  | long (name : String) (value : Option String)
  | short (letters : List Char)
  | plain (text : String)
  deriving DecidableEq, Repr

/-- What a part of a command line is, told from its first characters. A lone dash is plain. -/
def Word.of (s : String) : Word :=
  match s.toList with
  | ['-', '-'] => .separator
  | '-' :: '-' :: rest =>
    let name := String.ofList (rest.takeWhile (· ≠ '='))
    match rest.dropWhile (· ≠ '=') with
    | [] => .long name none
    | _ :: value => .long name (some (String.ofList value))
  | '-' :: letter :: letters => .short (letter :: letters)
  | _ => .plain s

/-- The options that may stand in one place. -/
structure Level where
  /-- Options without a value. -/
  flags : List String
  /-- Options with a value. -/
  settings : List String
  /-- Whether this is the place before the name of the command. -/
  isOuter : Bool

/-- What was given in one place. -/
structure Given where
  flags : List String
  settings : List (String × String)
  path : Option String

/-- What reading one place comes to. -/
inductive Reading where
  /-- All options were read; `rest` begins with the name of the command in the outer place. -/
  | done (given : Given) (rest : List String)
  /-- Something else than running a command was asked for. -/
  | other (request : Request)

/-- What the first of some one-letter options asks for. -/
def shortRequest (level : Level) : List Char → Request
  | 'h' :: _ => .help
  | 'V' :: _ => if level.isOuter then .version else .misuse
  | _ => .misuse

/-- Whether a setting can have a value. -/
def isValue (name value : String) : Bool :=
  value ≠ "" ∧ (name ≠ "tokenizer" ∨ (Tokenizer.named? value).isSome)

/-- Reads a setting, unless it was given before. -/
def addSetting (given : Given) (name value : String) : Option Given :=
  if isValue name value ∧ (given.settings.lookup name).isNone then
    some { given with settings := (name, value) :: given.settings }
  else none

/-- Reads a part that is no option. A command takes one path, and that is not empty. -/
def addPath (given : Given) (text : String) : Option Given :=
  if text ≠ "" ∧ given.path = none then some { given with path := some text } else none

/-- Reads the options of one place. -/
def readLevel (level : Level) (given : Given) : List String → Reading
  | [] => .done given []
  | arg :: rest =>
    match Word.of arg with
    | .separator =>
      if level.isOuter then .other .misuse
      else
        match rest.foldlM addPath given with
        | some given => .done given []
        | none => .other .misuse
    | .short letters => .other (shortRequest level letters)
    | .plain text =>
      if level.isOuter then .done given (arg :: rest)
      else
        match addPath given text with
        | some given => readLevel level given rest
        | none => .other .misuse
    | .long name none =>
      if name = "help" then .other .help
      else if name = "version" ∧ level.isOuter then .other .version
      else if level.flags.contains name then
        if given.flags.contains name then .other .misuse
        else readLevel level { given with flags := name :: given.flags } rest
      else if level.settings.contains name then
        match rest with
        | [] => .other .misuse
        | value :: rest =>
          match Word.of value, addSetting given name value with
          | .plain _, some given => readLevel level given rest
          | _, _ => .other .misuse
      else .other .misuse
    | .long name (some value) =>
      if level.settings.contains name then
        match addSetting given name value with
        | some given => readLevel level given rest
        | none => .other .misuse
      else .other .misuse

/-- The options of every place. -/
def sharedLevel (flags settings : List String) (isOuter : Bool) : Level :=
  ⟨["no-variadic", "no-split"] ++ flags, "config" :: settings, isOuter⟩

/-- The options after the name of a command; none if there is no such command. -/
def levelOf? (command : String) : Option Level :=
  if command = "replay" then some (sharedLevel ["json"] [] false)
  else if command = "flatten" ∨ command = "samples" then some (sharedLevel [] ["tokenizer"] false)
  else none

/-- The tokenizer that was given, words if none was. -/
def tokenizerOf (given : Given) : Tokenizer :=
  ((given.settings.lookup "tokenizer").bind Tokenizer.named?).getD .words

/-- The command with a name, from what was given for it. -/
def command? (name : String) (given : Given) : Option Command :=
  given.path.map fun path =>
    if name = "replay" then .replay path (given.flags.contains "json")
    else if name = "flatten" then .flatten path (tokenizerOf given)
    else .samples path (tokenizerOf given)

/-- Reads what follows the request for help: nothing, or the name of a command. -/
def readHelp : List String → Request
  | [] => .help
  | [name] => if name = "help" ∨ (levelOf? name).isSome then .help else .misuse
  | _ => .misuse

/-- Reads the part of a command line that begins with the name of the command. -/
def readCommand (outer : Given) : List String → Request
  | [] => .misuse
  | name :: args =>
    if name = "help" then readHelp args
    else
      match levelOf? name with
      | none => .misuse
      | some level =>
        match readLevel level ⟨[], [], none⟩ args with
        | .other request => request
        | .done given _ =>
          match command? name given with
          | none => .misuse
          | some command =>
            let isSet (flag : String) := outer.flags.contains flag || given.flags.contains flag
            .run {
              command
              config := (given.settings.lookup "config").or (outer.settings.lookup "config")
              noVariadic := isSet "no-variadic"
              noSplit := isSet "no-split" }

/-- Reads a command line. -/
def read (args : List String) : Request :=
  match readLevel (sharedLevel [] [] true) ⟨[], [], none⟩ args with
  | .other request => request
  | .done given rest => readCommand given rest

end Arguments

end TreeDerivation
