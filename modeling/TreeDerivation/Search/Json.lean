import TreeDerivation.Grammar.Json
import TreeDerivation.Score.Json
import TreeDerivation.Search.Basic
import TreeDerivation.Tree.Json

/-!
# Results of a search in JSON

Candidates, reports and rounds are records. A report may lack its parent.
-/

namespace TreeDerivation

/-- A record of the score and the tree. -/
def Candidate.toJson (c : Candidate) : Json :=
  .record [("score", c.score.toJson), ("ast", c.ast.toJson)]

/-- Reads a candidate. -/
def Candidate.ofJson? : Nat → Json → Option Candidate
  | room + 1, j => do
    let [score, ast] ← j.allParts? ["score", "ast"] | none
    return ⟨← Score.ofJson? score, ← Ast.ofJson? room ast⟩
  | 0, _ => none

/-- A record of the five parts. -/
def Progress.toJson (p : Progress) : Json :=
  .record [("id", .ofNat p.id), ("parent", .ofOption .ofNat p.parent), ("score", p.score.toJson),
    ("action", p.action.toJson), ("is_complete", .bool p.isComplete)]

/-- Reads a report. -/
def Progress.ofJson? : Nat → Json → Option Progress
  | room + 1, j => do
    let [some id, parent, some score, some action, some isComplete] ←
      j.parts? ["id", "parent", "score", "action", "is_complete"] false | none
    return {
      id := ← id.nat?
      parent := ← partOr none (Json.nullable? Json.nat?) parent
      score := ← Score.ofJson? score
      action := ← Action.ofJson? room action
      isComplete := ← isComplete.bool? }
  | 0, _ => none

/-- A record of the two lists. -/
def Round.toJson (r : Round) : Json :=
  .record [("candidates", .ofList Candidate.toJson r.candidates),
    ("progress", .ofList Progress.toJson r.progress)]

/-- Reads a round. -/
def Round.ofJson? : Nat → Json → Option Round
  | room + 1, j => do
    let [candidates, progress] ← j.allParts? ["candidates", "progress"] | none
    return ⟨← Json.list? Candidate.ofJson? room candidates,
      ← Json.list? Progress.ofJson? room progress⟩
  | 0, _ => none

end TreeDerivation
