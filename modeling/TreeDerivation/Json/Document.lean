import TreeDerivation.Failure
import TreeDerivation.Json.Reader

/-!
# Documents

A JSON document is read into a type by the reader of that type. Whether the text is no JSON, nests
too deeply or has another shape, the failure is the same up to the words in which it is explained.
-/

namespace TreeDerivation

namespace Json

/-- The number of brackets that may be open at once where a document is read into a type. -/
def documentRoom : Nat :=
  127

/-- Reads a document into a type. -/
def document {α : Type} (read : Nat → Json → Option α) (text : String) : Except Failure α :=
  match (read? text).bind (read documentRoom) with
  | some a => .ok a
  | none => .error (Failure.of (.invalidDocument .json))

end Json

end TreeDerivation
