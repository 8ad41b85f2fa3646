import TreeDerivation.Derivation.Basic
import TreeDerivation.Json.Reader

/-!
# Slots in JSON

A slot is a record of its action and its field.
-/

namespace TreeDerivation

/-- A record of the two parts. -/
def Slot.toJson (s : Slot) : Json :=
  .record [("action", .ofNat s.action), ("field", .ofNat s.field)]

/-- Reads a slot. -/
def Slot.ofJson? : Nat → Json → Option Slot
  | _ + 1, j => do
    let [action, field] ← j.allParts? ["action", "field"] | none
    return ⟨← action.nat?, ← field.nat?⟩
  | 0, _ => none

end TreeDerivation
