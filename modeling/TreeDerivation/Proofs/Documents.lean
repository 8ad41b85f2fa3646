import TreeDerivation.Proofs.Tree.Nesting
import TreeDerivation.Search.Json

/-!
# Documents are read back

What is written for a value is read back as that value, from the text without blanks and from the
text with one item a line (`readsBack_of_written`). Strings may hold any characters; numbers are
bounded, since a reader takes no more than 64 bits.

A tree is read back if it nests no deeper than `Json.documentRoom`, and neither of its texts is read
otherwise (`Ast.readsBack`, `Ast.document_eq_error`). The bound costs nothing to a program that
reads trees before it writes them: no spelling of a tree opens fewer brackets than the text that is
written for it, so a tree that came from a document is within the bound.

A refused document is told by how its message begins (`Failure.fullMessage_invalidDocument`); the
words that follow are those of the library that refused it.

Candidates, reports and rounds hold scores, and are left out.
-/

namespace TreeDerivation

/-! ## Refusals -/

/-- Every message begins as it is known here. -/
theorem Cause.exists_fullMessage_eq (c : Cause) (words : String) :
    ∃ rest, c.fullMessage words = c.message ++ rest := by
  cases c with
  | invalidDocument format => exact ⟨": " ++ words, String.append_assoc⟩
  | _ => exact ⟨"", String.append_empty.symm⟩

theorem Failure.fullMessage_invalidDocument (words : String) :
    (Failure.of (.invalidDocument .json)).fullMessage words =
      "Configuration error: invalid JSON: " ++ words := by
  have hbegins : (Cause.invalidDocument .json).message ++ ": " =
      "Configuration error: invalid JSON: " := by decide
  exact congrArg (· ++ words) hbegins

/-! ## Trees -/

namespace Ast

theorem readsBack (t : Ast) (h : t.nest ≤ Json.documentRoom) :
    ReadsBack Ast.toJson Ast.ofJson? t := by
  have hread := t.ofJson?_toJson Json.documentRoom
  rw [if_pos h] at hread
  exact readsBack_of_ofJson? t.writable_toJson hread

/-- Neither text of a tree that nests too deeply is read. -/
theorem document_eq_error (t : Ast) (h : Json.documentRoom < t.nest) {text : String}
    (htext : text = t.toJson.compact ∨ text = t.toJson.pretty) :
    Json.document Ast.ofJson? text = .error (Failure.of (.invalidDocument .json)) := by
  have hread := t.ofJson?_toJson Json.documentRoom
  rw [if_neg (by omega)] at hread
  rcases htext with rfl | rfl
  · exact Json.document_eq_error_of_read? (Json.read?_compact t.writable_toJson) hread
  · exact Json.document_eq_error_of_read? (Json.read?_pretty_self t.writable_toJson) hread

theorem nest_le_of_readsBack {t : Ast} (h : ReadsBack Ast.toJson Ast.ofJson? t) :
    t.nest ≤ Json.documentRoom := by
  by_contra hdeep
  have herror := t.document_eq_error (by omega) (.inl rfl)
  rw [h.1] at herror
  contradiction

/-- A tree that a document spells, in whatever way, is within the bound. -/
theorem nest_le_of_document {text : String} {t : Ast}
    (h : Json.document Ast.ofJson? text = .ok t) : t.nest ≤ Json.documentRoom := by
  obtain ⟨j, -, hread⟩ := Json.exists_of_document h
  exact Ast.nest_le_of_ofJson? hread

end Ast

/-! ## All types -/

/-- Every word of actions, rule, node type, token, slot, encoding, configuration and vocabulary is
read back from both texts that are written for it. A tree is read back exactly if its texts nest at
most 127 brackets; the texts of deeper trees fail as no valid JSON, with a message that begins so
and goes on in the words of the reader. Trees that were read from any document are read back. -/
theorem readsBack_of_written :
    (∀ w, ReadsBack actionsToJson actionsOfJson? w) ∧
    (∀ r, ReadsBack Rule.toJson Rule.ofJson? r) ∧
    (∀ t, ReadsBack NodeType.toJson NodeType.ofJson? t) ∧
    (∀ t, ReadsBack Token.toJson Token.ofJson? t) ∧
    (∀ s : Slot, s.action < 2 ^ 64 → s.field < 2 ^ 64 → ReadsBack Slot.toJson Slot.ofJson? s) ∧
    (∀ e, ReadsBack Encoding.toJson Encoding.ofJson? e) ∧
    (∀ c : Config, c.beamSize < 2 ^ 64 → (∀ n ∈ c.maxSteps, n < 2 ^ 64) →
      ReadsBack Config.toJson Config.ofJson? c) ∧
    (∀ v, ReadsBack Vocabulary.toJson Vocabulary.ofJson? v) ∧
    (∀ t : Ast, Json.nesting? t.toJson.compact = some t.nest ∧
      Json.nesting? t.toJson.pretty = some t.nest ∧
      (ReadsBack Ast.toJson Ast.ofJson? t ↔ t.nest ≤ 127)) ∧
    (∀ t : Ast, 127 < t.nest → ∀ text, text = t.toJson.compact ∨ text = t.toJson.pretty →
      ∃ f : Failure, Json.document Ast.ofJson? text = .error f ∧ f.kind = .config ∧
        f.message = "Configuration error: invalid JSON" ∧
        ∀ words, f.fullMessage words = "Configuration error: invalid JSON: " ++ words) ∧
    (∀ text t, Json.document Ast.ofJson? text = .ok t → ReadsBack Ast.toJson Ast.ofJson? t) := by
  refine ⟨fun w => ?words, fun r => ?rules, fun t => ?nodeTypes, fun t => ?tokens,
    fun s haction hfield => ?slots, fun e => ?encodings, fun c hbeam hsteps => ?configs,
    fun v => ?vocabularies, fun t => ⟨?compact, ?pretty, ?bound⟩, fun t hdeep text htext => ?deep,
    fun text t htext => ?again⟩
  case words =>
    exact readsBack_of_ofJson? (writable_actionsToJson w) (actionsOfJson?_actionsToJson w _)
  case rules => exact readsBack_of_ofJson? r.writable_toJson (r.ofJson?_toJson _)
  case nodeTypes => exact readsBack_of_ofJson? t.writable_toJson (t.ofJson?_toJson _)
  case tokens => exact readsBack_of_ofJson? t.writable_toJson (t.ofJson?_toJson _)
  case slots => exact readsBack_of_ofJson? s.writable_toJson (Slot.ofJson?_toJson haction hfield _)
  case encodings => exact readsBack_of_ofJson? e.writable_toJson (e.ofJson?_toJson _)
  case configs =>
    exact readsBack_of_ofJson? c.writable_toJson (Config.ofJson?_toJson hbeam hsteps _)
  case vocabularies => exact readsBack_of_ofJson? v.writable_toJson (v.ofJson?_toJson _)
  case compact =>
    rw [Json.nesting?_compact t.writable_toJson, t.depth_toJson]
  case pretty =>
    rw [Json.nesting?_pretty t.writable_toJson, t.depth_toJson]
  case bound => exact ⟨Ast.nest_le_of_readsBack, t.readsBack⟩
  case deep =>
    exact ⟨_, t.document_eq_error hdeep htext, rfl, by decide, Failure.fullMessage_invalidDocument⟩
  case again => exact t.readsBack (Ast.nest_le_of_document htext)

/-- Nodes inside each other, each alone in the only field of the next. -/
def boxes : Nat → Ast
  | 0 => .node "Box" []
  | n + 1 => .node "Box" [.mk "inner" "Box" (.single (boxes n))]

theorem nest_boxes (n : Nat) : (boxes n).nest = 3 + 5 * n := by
  induction n with
  | zero => rfl
  | succ n ih =>
    rw [boxes, Ast.nest, Field.nestAll, Field.nestAll, Content.nest, ih]
    omega

/-- Numbers of 64 bits, trees with as many boxes as can be read and with one more, and a leaf that a
document spells by position. -/
theorem readsBack_of_written_boxes :
    let leaf := Json.tagged "leaf" (.array [.ofString "str", .ofString "a"])
    ReadsBack Slot.toJson Slot.ofJson? ⟨2 ^ 64 - 1, 0⟩ ∧
    ReadsBack Config.toJson Config.ofJson? ⟨2 ^ 64 - 1, some 3, {}⟩ ∧
    ReadsBack Ast.toJson Ast.ofJson? (boxes 24) ∧
    (∃ f : Failure, Json.document Ast.ofJson? (boxes 25).toJson.pretty = .error f ∧
      f.kind = .config ∧ f.message = "Configuration error: invalid JSON" ∧
      ∀ words, f.fullMessage words = "Configuration error: invalid JSON: " ++ words) ∧
    Json.document Ast.ofJson? leaf.compact = .ok (.leaf "str" "a") ∧
    ReadsBack Ast.toJson Ast.ofJson? (.leaf "str" "a") := by
  intro leaf
  obtain ⟨-, -, -, -, hslots, -, hconfigs, -, htrees, hdeep, hagain⟩ := readsBack_of_written
  have hwithin : (boxes 24).nest ≤ 127 := by
    rw [nest_boxes]
    omega
  have hbeyond : 127 < (boxes 25).nest := by
    rw [nest_boxes]
    omega
  have hleaf : Json.document Ast.ofJson? leaf.compact = .ok (.leaf "str" "a") :=
    Json.document_of_read? (Json.read?_compact (by simp [leaf])) rfl
  exact ⟨hslots _ (by decide) (by decide), hconfigs _ (by decide) (by decide),
    (htrees (boxes 24)).2.2.mpr hwithin, hdeep (boxes 25) hbeyond _ (.inr rfl), hleaf,
    hagain _ _ hleaf⟩

end TreeDerivation
