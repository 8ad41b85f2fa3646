/-!
# JSON values

A JSON value as a document spells it: members of objects keep their order and may repeat, numbers
keep their digits, and a text whose escapes name a lone surrogate stands for no string. What a
value means to a type of this library is decided where that type is read.
-/

namespace TreeDerivation

/-- A number as it is spelled: sign, whole digits, digits after the point, and the sign and digits
of an exponent. -/
structure Numeral where
  minus : Bool
  whole : List Char
  /-- The digits after the point; no point is written without them. -/
  fraction : List Char
  /-- Whether the exponent is negative, and its digits. -/
  exponent : Option (Bool × List Char)
  deriving DecidableEq, Repr

/-- A JSON value. -/
inductive Json where
  | null
  | bool (b : Bool)
  | number (n : Numeral)
  /-- A text; none if it names a lone surrogate. -/
  | string (text : Option String)
  | array (items : List Json)
  | object (members : List (Option String × Json))

namespace Json

/-- The JSON form of a string. -/
def ofString (s : String) : Json :=
  .string (some s)

/-- The object with the given members, in order. -/
def record (members : List (String × Json)) : Json :=
  .object (members.map fun (name, value) => (some name, value))

/-- The object whose only member says which alternative its value belongs to. -/
def tagged (tag : String) (value : Json) : Json :=
  .object [(some tag, value)]

/-- The JSON form of a natural number. -/
def ofNat (n : Nat) : Json :=
  .number ⟨false, Nat.toDigits 10 n, [], none⟩

/-- The JSON form of a value that may be missing. -/
def ofOption {α : Type} (toJson : α → Json) : Option α → Json
  | some a => toJson a
  | none => .null

/-- The JSON form of a list. -/
def ofList {α : Type} (toJson : α → Json) (as : List α) : Json :=
  .array (as.map toJson)

end Json

end TreeDerivation
