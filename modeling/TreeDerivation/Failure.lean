import TreeDerivation.Grammar.Display

/-!
# Failures

Whatever can go wrong is a `Cause`; a `Failure` is a cause with an optional hint for the reader.
Causes fall into six kinds, which a report names by a code, and each cause has one wording,
`Cause.message`. Only where a document cannot be read, the library that refused it adds words of its
own (`Cause.fullMessage`). They are not known here, so what is said about them is said about all
words.
-/

namespace TreeDerivation

/-- A field of the node that an action created: the field with number `field` of action `action`. -/
structure Slot where
  action : Nat
  field : Nat
  deriving DecidableEq, Repr

/-- The kinds of failures. -/
inductive FailureKind where
  /-- An action that does not fit the open field. -/
  | invalidAction
  /-- A tree was asked of a derivation that is empty or still open. -/
  | incomplete
  /-- The scoring oracle failed or broke its contract. -/
  | oracle
  /-- A tree that no grammar derives. -/
  | grammar
  /-- A bad configuration value or an unreadable document. -/
  | config
  /-- A file that could not be read. -/
  | io
  deriving DecidableEq, Repr

namespace FailureKind

/-- The name of a kind. -/
def name : FailureKind → String
  | .invalidAction => "InvalidAction"
  | .incomplete => "Incomplete"
  | .oracle => "Oracle"
  | .grammar => "Grammar"
  | .config => "Config"
  | .io => "Io"

/-- The code that a report shows for a kind. -/
def code (k : FailureKind) : String :=
  "treebeam::" ++ k.name

/-- The words that open the message of every failure of a kind. -/
def headline : FailureKind → String
  | .invalidAction => "Invalid action: "
  | .incomplete => "Incomplete derivation: "
  | .oracle => "Oracle error: "
  | .grammar => "Grammar error: "
  | .config => "Configuration error: "
  | .io => "I/O error: "

end FailureKind

/-- What a derivation would have accepted in place of a rejected action. -/
inductive Expectation where
  /-- Nothing: the derivation is complete. -/
  | nothing
  /-- Any token. -/
  | token
  /-- Any rule that opens a node or closes a list. -/
  | rule
  /-- Any rule that opens a node. -/
  | expansion
  /-- Something that a caller describes in its own words. -/
  | described (text : String)
  deriving DecidableEq, Repr

/-- The words for an expectation. -/
def Expectation.text : Expectation → String
  | .nothing => "no further action (derivation is complete)"
  | .token => "GenerateToken"
  | .rule => "ApplyRule"
  | .expansion => "ApplyRule(ExpandTreeRule)"
  | .described text => text

/-- The kinds of documents that are read. -/
inductive DocumentFormat where
  | json
  | yaml
  deriving DecidableEq, Repr

/-- The name of a document format. -/
def DocumentFormat.name : DocumentFormat → String
  | .json => "JSON"
  | .yaml => "YAML"

/-- Why a file could not be read. -/
inductive FileFault where
  | notFound
  | isDirectory
  | notDirectory
  | linkLoop
  | notText
  /-- Any other report of the system. -/
  | reported (text : String)
  deriving DecidableEq, Repr

/-- The words for a file fault. -/
def FileFault.text : FileFault → String
  | .notFound => "No such file or directory (os error 2)"
  | .isDirectory => "Is a directory (os error 21)"
  | .notDirectory => "Not a directory (os error 20)"
  | .linkLoop => "Too many levels of symbolic links (os error 40)"
  | .notText => "stream did not contain valid UTF-8"
  | .reported text => text

/-- What went wrong. -/
inductive Cause where
  /-- The action with this index was rejected. -/
  | rejected (expected : Expectation) (actual : Action) (index : Nat)
  /-- The derivation has no complete tree yet; `head` is its open field. -/
  | unfinished (applied : Nat) (head : Option Slot)
  /-- The action at this index creates no node. -/
  | notExpansion (action : Nat)
  /-- The field of a node holds nothing. -/
  | emptyField (name : String) (action : Nat)
  /-- The field of a list holds nothing. -/
  | emptyListField (name : String) (action : Nat)
  /-- An element of an encoded list holds nothing. -/
  | emptyElement (action : Nat)
  /-- The oracle answered for another number of hypotheses than it was asked about. -/
  | answerCount (answers : Nat) (hypotheses : Nat)
  /-- The tree is a lone leaf. -/
  | leafRoot (typeName : String)
  /-- A list holds a leaf. -/
  | leafInList (field : String) (node : String)
  /-- A leaf has another type than its field. -/
  | leafType (leaf : String) (field : String) (node : String) (expected : String)
  /-- A search needs at least one place in its beam. -/
  | zeroBeam
  /-- A configuration file whose name ends in no known way. -/
  | unsupportedFile (path : String)
  /-- A document that is not well-formed or does not have the expected shape. -/
  | invalidDocument (format : DocumentFormat)
  /-- A file that could not be read. -/
  | file (fault : FileFault)
  /-- A failure that was raised outside this library, in the words of who raised it. -/
  | reported (kind : FailureKind) (message : String)
  deriving DecidableEq, Repr

namespace Cause

/-- The kind of a cause. -/
def kind : Cause → FailureKind
  | .rejected .. => .invalidAction
  | .unfinished .. | .notExpansion .. | .emptyField .. | .emptyListField .. | .emptyElement .. =>
    .incomplete
  | .answerCount .. => .oracle
  | .leafRoot .. | .leafInList .. | .leafType .. => .grammar
  | .zeroBeam | .unsupportedFile .. | .invalidDocument .. => .config
  | .file .. => .io
  | .reported kind _ => kind

/-- How an open field is shown in messages. -/
def headText : Option Slot → String
  | none => "None"
  | some s =>
    "Some(Parent \x7b action: " ++ toString s.action ++ ", field: " ++ toString s.field ++ " \x7d)"

/-- What a cause says, without the headline of its kind. -/
def detail : Cause → String
  | .rejected expected actual _ => actual.display ++ " (expected: " ++ expected.text ++ ")"
  | .unfinished applied head =>
    toString applied ++ " action(s) applied and the head is still open at " ++ headText head
  | .notExpansion action => "action " ++ toString action ++ " does not expand a node"
  | .emptyField name action =>
    "field '" ++ name ++ "' of action " ++ toString action ++ " is empty"
  | .emptyListField name action =>
    "list field '" ++ name ++ "' of action " ++ toString action ++ " is empty"
  | .emptyElement action => "list element of action " ++ toString action ++ " is empty"
  | .answerCount answers hypotheses =>
    "batch_update returned " ++ toString answers ++ " results for " ++ toString hypotheses ++
      " hypotheses"
  | .leafRoot typeName =>
    "the root of a derivation must be a node, found leaf '" ++ typeName ++ "'"
  | .leafInList field node =>
    "list field '" ++ field ++ "' of '" ++ node ++ "' contains a leaf"
  | .leafType leaf field node expected =>
    "leaf of type '" ++ leaf ++ "' in field '" ++ field ++ "' of '" ++ node ++
      "' expecting '" ++ expected ++ "'"
  | .zeroBeam => "beam_size must be at least 1"
  | .unsupportedFile path => "unsupported config file '" ++ path ++ "'"
  | .invalidDocument format => "invalid " ++ format.name
  | .file fault => fault.text
  | .reported _ message => message

/-- The message of a cause as far as it is known here: the headline of its kind and what the cause
says. -/
def message (c : Cause) : String :=
  c.kind.headline ++ c.detail

/-- The message with what the library that reads documents had to say, if it is the cause. -/
def fullMessage (c : Cause) (words : String) : String :=
  match c with
  | .invalidDocument _ => c.message ++ ": " ++ words
  | _ => c.message

/-- The index of the action that a cause refers to, if it refers to one. -/
def index? : Cause → Option Nat
  | .rejected _ _ index => some index
  | _ => none

/-- The words of the system behind a cause, if the system raised it. -/
def source? : Cause → Option String
  | .file fault => some fault.text
  | _ => none

/-- The hint that comes with a cause unless another one is given. -/
def hint? : Cause → Option String
  | .unfinished .. => some "check Evaluator::is_complete before reconstructing"
  | .unsupportedFile .. => some "use a .yaml, .yml or .json file"
  | _ => none

end Cause

/-- A cause with the hint that a report shows beside it. -/
structure Failure where
  cause : Cause
  help : Option String
  deriving DecidableEq, Repr

namespace Failure

/-- The failure with the hint that its cause brings. -/
def of (c : Cause) : Failure :=
  ⟨c, c.hint?⟩

/-- The same failure with another hint. -/
def withHelp (f : Failure) (help : String) : Failure :=
  { f with help := some help }

/-- The kind of a failure. -/
def kind (f : Failure) : FailureKind :=
  f.cause.kind

/-- The message of a failure as far as it is known here. -/
def message (f : Failure) : String :=
  f.cause.message

/-- The message with what the library that reads documents had to say, if it is the cause. -/
def fullMessage (f : Failure) (words : String) : String :=
  f.cause.fullMessage words

/-- The index of the action that a failure refers to, if it refers to one. -/
def index? (f : Failure) : Option Nat :=
  f.cause.index?

end Failure

end TreeDerivation
