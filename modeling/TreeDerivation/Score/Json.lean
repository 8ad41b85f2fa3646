import TreeDerivation.Json.Reader
import TreeDerivation.Score.Text

/-!
# Scores in JSON

A score is a JSON number. It is positional from `0.00001` up to, but not including, `1e+16`, and has
at least one digit after the point there.
-/

namespace TreeDerivation

namespace Score

/-- How JSON documents write scores. -/
def jsonStyle : NumberStyle :=
  { least := -5, greatest := 15, tie := .toEven }

/-- The score as a number; null if it is not finite. -/
def toJson (s : Score) : Json :=
  if s.isNaN || s.isInfinite then .null else .number (s.numeral jsonStyle)

/-- Reads a score. -/
def ofJson? : Json → Option Score
  | .number n => ofNumeral? n
  | _ => none

end Score

end TreeDerivation
