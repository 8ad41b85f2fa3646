import TreeDerivation.Text.ClusterClass

/-!
# User-perceived characters

A text falls into extended grapheme clusters. Whether a cluster ends before a character depends on
the class of the character before it and on three facts about the text read so far, which
`ClusterContext` keeps: how far a pictograph sequence, a conjunct and a run of regional indicators
have come.
-/

namespace TreeDerivation.Text

/-- How far a sequence of joined pictographs has come. -/
inductive PictographState where
  | absent
  /-- The text ends in a pictograph and marks that extend it. -/
  | shown
  /-- A joiner follows those, so a second pictograph would be part of the sequence. -/
  | joining
  deriving DecidableEq

/-- How far a conjunct of consonants has come. -/
inductive ConjunctState where
  | absent
  /-- The text ends in a consonant and marks that keep it open. -/
  | consonant
  /-- One of those marks was a linker, so a second consonant would be part of the conjunct. -/
  | linked
  deriving DecidableEq

/-- What the text read so far says about the next boundary. -/
structure ClusterContext where
  /-- The class of the last character; none at the start. -/
  last : Option ClusterClass
  pictographs : PictographState
  conjunct : ConjunctState
  /-- Whether the text ends in an odd number of regional indicators. -/
  oddRegional : Bool

namespace ClusterContext

/-- The context at the start of a text. -/
def start : ClusterContext :=
  ⟨none, .absent, .absent, false⟩

/-- The context after one more character. -/
def push (ctx : ClusterContext) (c : Char) : ClusterContext :=
  let k := clusterClass c
  { last := some k
    pictographs :=
      if k = .pictograph then .shown
      else if k = .extend ∧ ctx.pictographs = .shown then .shown
      else if k = .joiner ∧ ctx.pictographs = .shown then .joining
      else .absent
    conjunct :=
      if k = .consonant then .consonant
      else if ctx.conjunct = .absent then .absent
      else if isLinker c then .linked
      else if keepsConjunct c then ctx.conjunct
      else .absent
    oddRegional := k = .regional && !ctx.oddRegional }

/-- Whether the character of class `next` belongs to the cluster of the character before it. -/
def joins (ctx : ClusterContext) (next : ClusterClass) : Bool :=
  match ctx.last, next with
  | none, _ => false
  | some .carriageReturn, .lineFeed => true
  | some .carriageReturn, _ | some .lineFeed, _ | some .control, _ => false
  | _, .carriageReturn | _, .lineFeed | _, .control => false
  | some .leading, .leading | some .leading, .vowel => true
  | some .leading, .openSyllable | some .leading, .closedSyllable => true
  | some .openSyllable, .vowel | some .openSyllable, .trailing => true
  | some .vowel, .vowel | some .vowel, .trailing => true
  | some .closedSyllable, .trailing | some .trailing, .trailing => true
  | _, .extend | _, .joiner | _, .spacingMark => true
  | some .prepend, _ => true
  | _, .consonant => ctx.conjunct = .linked
  | some .joiner, .pictograph => ctx.pictographs = .joining
  | some .regional, .regional => ctx.oddRegional
  | _, _ => false

end ClusterContext

/-- Each character with whether it belongs to the cluster of the character before it. -/
def markJoined (ctx : ClusterContext) : List Char → List (Char × Bool)
  | [] => []
  | c :: cs => (c, ctx.joins (clusterClass c)) :: markJoined (ctx.push c) cs

/-- The extended grapheme clusters of a text, in order. -/
def splitClusters (s : String) : List String :=
  ((markJoined .start s.toList).splitBy fun _ b => b.2).map fun cluster =>
    String.ofList (cluster.map Prod.fst)

end TreeDerivation.Text
