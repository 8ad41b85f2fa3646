import TreeDerivation.Json.Lexeme

/-!
# Reading JSON

The lexemes of a text are read one by one, with the containers that are still open on a stack, so
that nesting of any depth is read. A text is a JSON value when all its lexemes are read and the
stack is empty again.
-/

namespace TreeDerivation

namespace Json

/-- A container that is still open, its parts last first. -/
inductive Frame where
  | array (items : List Json)
  | object (members : List (Option String × Json))
  /-- An object whose next member has this name and still lacks its value. -/
  | member (members : List (Option String × Json)) (name : Option String)

/-- What has to follow. -/
inductive Need where
  /-- A value, or the end of the array if `mayClose`. -/
  | value (mayClose : Bool)
  /-- The name of a member, or the end of the object if `mayClose`. -/
  | name (mayClose : Bool)
  | colon
  /-- A comma or the end of the container. -/
  | separator
  /-- Nothing: the value is complete. -/
  | nothing (value : Json)

/-- Hands a complete value to the innermost open container. -/
def deliver (value : Json) : List Frame → Option (List Frame × Need)
  | [] => some ([], .nothing value)
  | .array items :: rest => some (.array (value :: items) :: rest, .separator)
  | .member members name :: rest => some (.object ((name, value) :: members) :: rest, .separator)
  | .object _ :: _ => none

/-- Ends the innermost open container and hands it to the one around it. -/
def close (mark : Lexeme) : List Frame → Option (List Frame × Need)
  | .array items :: rest => if mark = .closeArray then deliver (.array items.reverse) rest else none
  | .object members :: rest =>
    if mark = .closeObject then deliver (.object members.reverse) rest else none
  | _ => none

/-- The value of a word: a number or one of three names. -/
def ofWord? (text : List Char) : Option Json :=
  if text = ['n', 'u', 'l', 'l'] then some .null
  else if text = ['t', 'r', 'u', 'e'] then some (.bool true)
  else if text = ['f', 'a', 'l', 's', 'e'] then some (.bool false)
  else (Numeral.read? text).map .number

/-- The string of a quoted text, if it names one. -/
def textOfUnits (units : List Nat) : Option String :=
  (charsOfUnits units).map String.ofList

/-- Reads one lexeme. -/
def feed (stack : List Frame) : Need → Lexeme → Option (List Frame × Need)
  | .value _, .openArray => some (.array [] :: stack, .value true)
  | .value _, .openObject => some (.object [] :: stack, .name true)
  | .value _, .quoted units => deliver (.string (textOfUnits units)) stack
  | .value _, .word text => (ofWord? text).bind (deliver · stack)
  | .value true, .closeArray => close .closeArray stack
  | .name _, .quoted units =>
    match stack with
    | .object members :: rest => some (.member members (textOfUnits units) :: rest, .colon)
    | _ => none
  | .name true, .closeObject => close .closeObject stack
  | .colon, .colon => some (stack, .value false)
  | .separator, .comma =>
    match stack with
    | .array _ :: _ => some (stack, .value false)
    | .object _ :: _ => some (stack, .name false)
    | _ => none
  | .separator, .closeArray => close .closeArray stack
  | .separator, .closeObject => close .closeObject stack
  | _, _ => none

/-- Reads lexemes to the end. -/
def feedAll (stack : List Frame) (need : Need) : List Lexeme → Option Json
  | [] =>
    match need with
    | .nothing value => some value
    | _ => none
  | x :: xs => (feed stack need x).bind fun (stack, need) => feedAll stack need xs

/-- Reads a JSON text. -/
def read? (text : String) : Option Json :=
  (Lexeme.scan text.toList).bind (feedAll [] (.value false))

/-! ## Reading parts of a value

A type is read from a value with a bound on nesting: `room` is the number of brackets that may
still be opened. Parts that no type asks for are not bounded. -/

/-- The string that a value is. -/
def string? : Json → Option String
  | .string text => text
  | _ => none

/-- The truth value that a value is. -/
def bool? : Json → Option Bool
  | .bool b => some b
  | _ => none

/-- The unsigned 64-bit integer that a value is. -/
def nat? : Json → Option Nat
  | .number n => n.toNat?
  | _ => none

/-- The value, or none for null. -/
def nullable? {α : Type} (read : Json → Option α) : Json → Option (Option α)
  | .null => some none
  | j => (read j).map some

/-- The items of an array, each read with one bracket less of room. -/
def list? {α : Type} (read : Nat → Json → Option α) : Nat → Json → Option (List α)
  | room + 1, .array items => items.mapM (read room)
  | _, _ => none

/-- The value of the member with a name, if there is one. -/
def member? (members : List (Option String × Json)) (name : String) : Option Json :=
  (members.find? fun m => m.1 == some name).map Prod.snd

/-- Whether each of the names is the name of at most one member. -/
def noneRepeated (members : List (Option String × Json)) (names : List String) : Bool :=
  names.all fun name => (members.filter fun m => m.1 == some name).length ≤ 1

/-- The parts of a record that has the given member names: an object gives them by name, with
unknown members left out, an array by position. A part that is not there is `none`; an array may
lack parts at its end if `mayLack`. -/
def parts? (names : List String) (mayLack : Bool) : Json → Option (List (Option Json))
  | .object members =>
    if (members.all fun m => m.1.isSome) && noneRepeated members names then
      some (names.map (member? members))
    else none
  | .array items =>
    if items.length = names.length ∨ (mayLack ∧ items.length < names.length) then
      some (items.map some ++ List.replicate (names.length - items.length) none)
    else none
  | _ => none

/-- The parts of a record all of whose members have to be there. -/
def allParts? (names : List String) (j : Json) : Option (List Json) :=
  (j.parts? names false).bind fun parts => parts.mapM id

/-- Whether a value names an alternative without content: by its bare name, or as an object whose
only member has that name and the value null. -/
def isUnit (room : Nat) (tag : String) : Json → Bool
  | .string text => text == some tag
  | .object [(name, .null)] => 0 < room && name == some tag
  | _ => false

/-- The content of an alternative: an object with one member holds it. -/
def content? {α : Type} (room : Nat) (alternatives : List (String × (Nat → Json → Option α))) :
    Json → Option α
  | .object [(some name, value)] =>
    match room with
    | 0 => none
    | room + 1 =>
      match alternatives.find? fun a => a.1 == name with
      | some (_, read) => read room value
      | none => none
  | _ => none

end Json

end TreeDerivation
