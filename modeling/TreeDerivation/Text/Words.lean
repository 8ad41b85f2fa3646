import TreeDerivation.Text.WordChar

/-!
# Words

A text falls into runs of word characters, runs of blanks, and single characters that are neither.
The pieces follow one another without gaps, so they join up to the text again.
-/

namespace TreeDerivation.Text

/-- Whether two neighbouring characters belong to one piece. -/
def sameRun (a b : Char) : Bool :=
  (isWordChar a && isWordChar b) || (isBlank a && isBlank b)

/-- The words, blanks and single marks of a text, in order. -/
def splitWords (s : String) : List String :=
  (s.toList.splitBy sameRun).map String.ofList

end TreeDerivation.Text
