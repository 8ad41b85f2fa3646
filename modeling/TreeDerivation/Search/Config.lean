import TreeDerivation.Grammar.Json
import TreeDerivation.Json.Document

/-!
# The configuration of a search

The width of the beam, an optional bound on the number of rounds, and the encoding of trees as
actions. A document gives any of these; what it leaves out has its default. A beam without places is
refused.
-/

namespace TreeDerivation

/-- How a search is run. -/
structure Config where
  /-- The number of candidates to produce, and the most hypotheses that are live at once. -/
  beamSize : Nat := 10
  /-- The most rounds of a search; without it a search runs until nothing is left to do. -/
  maxSteps : Option Nat := none
  encoding : Encoding := {}
  deriving DecidableEq, Repr

namespace Config

/-- Refuses a beam without places. -/
def validate (c : Config) : Except Failure Config :=
  if c.beamSize = 0 then .error (Failure.of .zeroBeam) else .ok c

/-- A record of the three parts. -/
def toJson (c : Config) : Json :=
  .record [("beam_size", .ofNat c.beamSize), ("max_steps", .ofOption .ofNat c.maxSteps),
    ("options", c.encoding.toJson)]

/-- Reads a configuration; a part that is not given has its default. -/
def ofJson? : Nat → Json → Option Config
  | room + 1, j => do
    let [beam, steps, encoding] ← j.parts? ["beam_size", "max_steps", "options"] true | none
    return {
      beamSize := ← partOr 10 Json.nat? beam
      maxSteps := ← partOr none (Json.nullable? Json.nat?) steps
      encoding := ← partOr {} (Encoding.ofJson? room) encoding }
  | 0, _ => none

/-- Reads and validates a JSON document. -/
def ofJsonText (text : String) : Except Failure Config :=
  (Json.document ofJson? text).bind validate

end Config

end TreeDerivation
