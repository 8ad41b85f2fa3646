import Mathlib.Data.List.Nodup
import TreeDerivation.Derivation.Json
import TreeDerivation.Json.Document
import TreeDerivation.Proofs.Json.ReadBack
import TreeDerivation.Search.Config
import TreeDerivation.Vocabulary.Json

/-!
# Records are read back

The types of rules, actions, slots, encodings, configurations and vocabularies come back from the
JSON values that are written for them, as long as there is room for the brackets that they open. For
each type two facts are shown beside each other: the value has texts of its own
(`T.writable_toJson`), and it is read as what it was written for (`T.ofJson?_toJson`).

Both rest on one lemma for each way in which values are put together: records with distinct names
(`allParts?_record`), alternatives under a tag, lists (`list?_ofList`) and numbers below `2 ^ 64`
(`nat?_ofNat`).
-/

namespace TreeDerivation

namespace Json

/-! ## Values with texts of their own -/

theorem membersWritable_iff {members : List (Option String × Json)} :
    MembersWritable members ↔ ∀ m ∈ members, m.1.isSome = true ∧ m.2.Writable := by
  induction members with
  | nil => simp [MembersWritable]
  | cons m members ih =>
    obtain ⟨name, value⟩ := m
    rw [MembersWritable, ih, List.forall_mem_cons, and_assoc]

theorem itemsWritable_iff {items : List Json} :
    ItemsWritable items ↔ ∀ j ∈ items, j.Writable := by
  induction items with
  | nil => simp [ItemsWritable]
  | cons j items ih => rw [ItemsWritable, ih, List.forall_mem_cons]

@[simp] theorem writable_ofString (s : String) : (ofString s).Writable := by
  rw [ofString, Writable]
  rfl

@[simp] theorem writable_bool (b : Bool) : (Json.bool b).Writable := by
  rw [Writable]
  trivial

@[simp] theorem writable_ofNat (n : Nat) : (ofNat n).Writable := by
  rw [ofNat, Writable]
  exact Numeral.wellSpelled_ofNat n

@[simp] theorem writable_record {members : List (String × Json)} :
    (record members).Writable ↔ ∀ m ∈ members, m.2.Writable := by
  rw [record, Writable, membersWritable_iff, List.forall_mem_map]
  simp

@[simp] theorem writable_tagged {tag : String} {j : Json} :
    (tagged tag j).Writable ↔ j.Writable := by
  rw [tagged, Writable, membersWritable_iff]
  simp

@[simp] theorem writable_array {items : List Json} :
    (Json.array items).Writable ↔ ∀ j ∈ items, j.Writable := by
  rw [Writable, itemsWritable_iff]

@[simp] theorem writable_ofList {α : Type} {toJson : α → Json} {as : List α} :
    (ofList toJson as).Writable ↔ ∀ a ∈ as, (toJson a).Writable := by
  simp [ofList]

theorem writable_ofOption {α : Type} {toJson : α → Json} (h : ∀ a, (toJson a).Writable)
    (o : Option α) : (ofOption toJson o).Writable := by
  cases o with
  | none =>
    rw [ofOption, Writable]
    trivial
  | some a => exact h a

/-! ## Parts of values -/

/-- In a record whose names are distinct, each name has its own value. -/
theorem member?_record {members : List (String × Json)} (h : (members.map Prod.fst).Nodup)
    {m : String × Json} (hm : m ∈ members) :
    member? (members.map fun (name, value) => (some name, value)) m.1 = some m.2 := by
  induction members with
  | nil => exact absurd hm List.not_mem_nil
  | cons n members ih =>
    obtain ⟨hnew, hrest⟩ := List.nodup_cons.mp h
    rcases List.mem_cons.mp hm with rfl | hm
    · simp [member?]
    · have hne : n.1 ≠ m.1 := by
        intro heq
        exact hnew (heq ▸ List.mem_map_of_mem hm)
      have hothers := ih hrest hm
      rw [member?] at hothers ⊢
      rw [List.map_cons, List.find?_cons_of_neg (by simpa using hne)]
      exact hothers

theorem noneRepeated_iff {members : List (Option String × Json)} {names : List String} :
    noneRepeated members names = true ↔
      ∀ name ∈ names, (members.map Prod.fst).count (some name) ≤ 1 := by
  have hcount : ∀ name : String, (members.map Prod.fst).count (some name) =
      (members.filter fun m => m.1 == some name).length := by
    intro name
    rw [List.count, List.countP_map, List.countP_eq_length_filter]
    rfl
  simp only [noneRepeated, List.all_eq_true, decide_eq_true_eq, hcount]

theorem count_record (members : List (String × Json)) (name : String) :
    ((members.map fun (name, value) => (some name, value)).map Prod.fst).count (some name) =
      (members.map Prod.fst).count name := by
  simp only [List.count, List.countP_map]
  congr 1

theorem noneRepeated_record {members : List (String × Json)} (h : (members.map Prod.fst).Nodup)
    (names : List String) :
    noneRepeated (members.map fun (name, value) => (some name, value)) names = true := by
  rw [noneRepeated_iff]
  intro name _
  rw [count_record]
  exact List.nodup_iff_count_le_one.mp h name

section Record

variable {members : List (String × Json)} (names : List String)

/-- A record gives its parts under its own names, whether or not some of them may be missing. -/
theorem parts?_record (h : names.Nodup) (hnames : members.map Prod.fst = names)
    (mayLack : Bool) :
    (record members).parts? names mayLack = some (members.map fun m => some m.2) := by
  subst hnames
  have hnamed : (members.map fun (name, value) => (some name, value)).all
      (fun m => m.1.isSome) = true := by simp
  rw [record, parts?, hnamed, noneRepeated_record h, Bool.and_self, if_pos rfl, List.map_map]
  congr 1
  exact List.map_congr_left fun m hm => member?_record h hm

theorem allParts?_record (h : names.Nodup) (hnames : members.map Prod.fst = names) :
    (record members).allParts? names = some (members.map Prod.snd) := by
  have hall : ∀ js : List (String × Json),
      (js.map fun m => some m.2).mapM id = some (js.map Prod.snd) := by
    intro js
    induction js with
    | nil => rfl
    | cons j js ih =>
      rw [List.map_cons, List.mapM_cons, ih]
      rfl
  rw [allParts?, parts?_record names h hnames, Option.bind_some, hall]

end Record

/-- The content under a tag is read by the reader that stands beside the tag. -/
theorem content?_tagged {α : Type} {alternatives : List (String × (Nat → Json → Option α))}
    {tag : String} {read : Nat → Json → Option α}
    (h : alternatives.find? (fun a => a.1 == tag) = some (tag, read)) (room : Nat) (j : Json) :
    (tagged tag j).content? (room + 1) alternatives = read room j := by
  rw [tagged, content?, h]

theorem mapM_map_eq_some {α β : Type} {f : β → Option α} {g : α → β} {as : List α}
    (h : ∀ a ∈ as, f (g a) = some a) : (as.map g).mapM f = some as := by
  induction as with
  | nil => rfl
  | cons a as ih =>
    have hrest := ih fun b hb => h b (List.mem_cons_of_mem a hb)
    rw [List.map_cons, List.mapM_cons, h a List.mem_cons_self, hrest]
    rfl

theorem list?_ofList {α : Type} {read : Nat → Json → Option α} {toJson : α → Json} {room : Nat}
    {as : List α} (h : ∀ a ∈ as, read room (toJson a) = some a) :
    list? read (room + 1) (ofList toJson as) = some as :=
  mapM_map_eq_some h

theorem nat?_ofNat {n : Nat} (hn : n < 2 ^ 64) : (ofNat n).nat? = some n := by
  show Numeral.toNat? ⟨false, Nat.toDigits 10 n, [], none⟩ = some n
  rw [Numeral.toNat?, if_neg (by simp)]
  dsimp only
  rw [Numeral.digitsValue_toDigits]
  exact if_pos hn

@[simp] theorem string?_ofString (s : String) : (ofString s).string? = some s := rfl

/-! ## Documents -/

theorem document_of_read? {α : Type} {read : Nat → Json → Option α} {text : String} {j : Json}
    (htext : read? text = some j) {a : α} (h : read documentRoom j = some a) :
    document read text = .ok a := by
  rw [document, htext, Option.bind_some, h]

theorem document_eq_error_of_read? {α : Type} {read : Nat → Json → Option α} {text : String}
    {j : Json} (htext : read? text = some j) (h : read documentRoom j = none) :
    document read text = .error (Failure.of (.invalidDocument .json)) := by
  rw [document, htext, Option.bind_some, h]

theorem exists_of_document {α : Type} {read : Nat → Json → Option α} {text : String} {a : α}
    (h : document read text = .ok a) :
    ∃ j, read? text = some j ∧ read documentRoom j = some a := by
  unfold document at h
  split at h
  · next hread =>
    cases h
    exact Option.bind_eq_some_iff.mp hread
  · exact nomatch h

/-- The text with one item a line is read with nothing behind it, too. -/
theorem read?_pretty_self {j : Json} (h : j.Writable) : read? j.pretty = some j := by
  have htext := read?_pretty h "" (by simp)
  rwa [String.append_empty] at htext

end Json

/-- Whether a value is read back from both texts that are written for it. -/
def ReadsBack {α : Type} (toJson : α → Json) (ofJson? : Nat → Json → Option α) (a : α) : Prop :=
  Json.document ofJson? (toJson a).compact = .ok a ∧ Json.document ofJson? (toJson a).pretty = .ok a

theorem readsBack_of_ofJson? {α : Type} {toJson : α → Json} {ofJson? : Nat → Json → Option α}
    {a : α} (hwrite : (toJson a).Writable) (hread : ofJson? Json.documentRoom (toJson a) = some a) :
    ReadsBack toJson ofJson? a :=
  ⟨Json.document_of_read? (Json.read?_compact hwrite) hread,
    Json.document_of_read? (Json.read?_pretty_self hwrite) hread⟩

/-! ## Rules and actions -/

theorem Constraint.writable_toJson (c : Constraint) : c.toJson.Writable := by
  cases c <;> exact Json.writable_ofString _

theorem Constraint.ofJson?_toJson (c : Constraint) (room : Nat) :
    Constraint.ofJson? room c.toJson = some c := by
  cases c <;> rfl

namespace NodeType

theorem writable_toJson (t : NodeType) : t.toJson.Writable := by
  simp [toJson, t.constraint.writable_toJson]

theorem ofJson?_toJson (t : NodeType) (room : Nat) :
    NodeType.ofJson? (room + 1) t.toJson = some t := by
  have hparts : t.toJson.allParts? ["type_name", "constraint"] =
      some [.ofString t.typeName, t.constraint.toJson] := Json.allParts?_record _ (by decide) rfl
  have hconstraint := t.constraint.ofJson?_toJson room
  simp [NodeType.ofJson?, hparts, hconstraint]

end NodeType

theorem writable_fieldToJson (field : String × NodeType) : (fieldToJson field).Writable := by
  simp [fieldToJson, field.2.writable_toJson]

theorem fieldOfJson?_fieldToJson (field : String × NodeType) (room : Nat) :
    fieldOfJson? (room + 2) (fieldToJson field) = some field := by
  have htype := field.2.ofJson?_toJson room
  simp [fieldOfJson?, fieldToJson, htype]

namespace Expansion

theorem writable_toJson (e : Expansion) : e.toJson.Writable := by
  simp [toJson, e.parent.writable_toJson, writable_fieldToJson]

theorem ofJson?_toJson (e : Expansion) (room : Nat) :
    Expansion.ofJson? (room + 4) e.toJson = some e := by
  have hparts : e.toJson.allParts? ["parent", "children"] =
      some [e.parent.toJson, .ofList fieldToJson e.children] :=
    Json.allParts?_record _ (by decide) rfl
  have hparent := e.parent.ofJson?_toJson (room + 2)
  have hchildren : Json.list? fieldOfJson? (room + 3) (.ofList fieldToJson e.children) =
      some e.children := Json.list?_ofList fun field _ => fieldOfJson?_fieldToJson field room
  simp [Expansion.ofJson?, hparts, hparent, hchildren]

end Expansion

namespace Rule

theorem writable_toJson (r : Rule) : r.toJson.Writable := by
  cases r with
  | expandTree e => exact Json.writable_tagged.mpr e.writable_toJson
  | closeVariadic => exact Json.writable_ofString _

theorem ofJson?_toJson (r : Rule) (room : Nat) : Rule.ofJson? (room + 5) r.toJson = some r := by
  cases r with
  | expandTree e =>
    have hunit : (Rule.expandTree e).toJson.isUnit (room + 5) "close_variadic_field" = false := rfl
    have hcontent := e.ofJson?_toJson room
    rw [Rule.ofJson?, hunit, if_neg (by decide), toJson, Json.content?_tagged rfl, hcontent]
    rfl
  | closeVariadic => rfl

end Rule

namespace Token

theorem writable_toJson (t : Token) : t.toJson.Writable := by
  cases t with
  | value text => exact Json.writable_tagged.mpr (Json.writable_ofString text)
  | closeNode => exact Json.writable_ofString _

theorem ofJson?_toJson (t : Token) (room : Nat) : Token.ofJson? (room + 1) t.toJson = some t := by
  cases t with
  | value text =>
    have hunit : (Token.value text).toJson.isUnit (room + 1) "close_node" = false := rfl
    rw [Token.ofJson?, hunit, if_neg (by decide), toJson, Json.content?_tagged rfl]
    rfl
  | closeNode => rfl

end Token

namespace Action

theorem writable_toJson (a : Action) : a.toJson.Writable := by
  cases a with
  | applyRule r => exact Json.writable_tagged.mpr r.writable_toJson
  | generateToken t => exact Json.writable_tagged.mpr t.writable_toJson

theorem ofJson?_toJson (a : Action) (room : Nat) :
    Action.ofJson? (room + 6) a.toJson = some a := by
  cases a with
  | applyRule r =>
    rw [Action.ofJson?, toJson, Json.content?_tagged rfl, r.ofJson?_toJson room]
    rfl
  | generateToken t =>
    rw [Action.ofJson?, toJson, Json.content?_tagged rfl, t.ofJson?_toJson (room + 4)]
    rfl

end Action

theorem writable_actionsToJson (w : List Action) : (actionsToJson w).Writable :=
  Json.writable_ofList.mpr fun a _ => a.writable_toJson

theorem actionsOfJson?_actionsToJson (w : List Action) (room : Nat) :
    actionsOfJson? (room + 7) (actionsToJson w) = some w :=
  Json.list?_ofList fun a _ => a.ofJson?_toJson room

/-! ## Slots, encodings, configurations and vocabularies -/

namespace Slot

theorem writable_toJson (s : Slot) : s.toJson.Writable := by
  simp [toJson]

theorem ofJson?_toJson {s : Slot} (haction : s.action < 2 ^ 64) (hfield : s.field < 2 ^ 64)
    (room : Nat) : Slot.ofJson? (room + 1) s.toJson = some s := by
  have hparts : s.toJson.allParts? ["action", "field"] = some [.ofNat s.action, .ofNat s.field] :=
    Json.allParts?_record _ (by decide) rfl
  simp [Slot.ofJson?, hparts, Json.nat?_ofNat haction, Json.nat?_ofNat hfield]

end Slot

namespace Encoding

theorem writable_toJson (e : Encoding) : e.toJson.Writable := by
  simp [toJson]

theorem ofJson?_toJson (e : Encoding) (room : Nat) :
    Encoding.ofJson? (room + 1) e.toJson = some e := by
  have hnames : ["retain_variadic_fields", "split_non_terminal"].Nodup := by decide
  have hparts : e.toJson.parts? ["retain_variadic_fields", "split_non_terminal"] true =
      some [some (.bool e.retainVariadic), some (.bool e.splitLeaves)] :=
    Json.parts?_record _ hnames rfl true
  rw [Encoding.ofJson?, hparts]
  rfl

end Encoding

namespace Config

theorem writable_toJson (c : Config) : c.toJson.Writable := by
  simp [toJson, c.encoding.writable_toJson, Json.writable_ofOption Json.writable_ofNat]

theorem nullable?_ofOption {steps : Option Nat} (h : ∀ n ∈ steps, n < 2 ^ 64) :
    Json.nullable? Json.nat? (.ofOption .ofNat steps) = some steps := by
  cases steps with
  | none => rfl
  | some n =>
    show (Json.ofNat n).nat?.map some = _
    rw [Json.nat?_ofNat (h n rfl)]
    rfl

theorem ofJson?_toJson {c : Config} (hbeam : c.beamSize < 2 ^ 64)
    (hsteps : ∀ n ∈ c.maxSteps, n < 2 ^ 64) (room : Nat) :
    Config.ofJson? (room + 2) c.toJson = some c := by
  have hnames : ["beam_size", "max_steps", "options"].Nodup := by decide
  have hparts : c.toJson.parts? ["beam_size", "max_steps", "options"] true =
      some [some (.ofNat c.beamSize), some (.ofOption .ofNat c.maxSteps),
        some c.encoding.toJson] := Json.parts?_record _ hnames rfl true
  have hencoding := c.encoding.ofJson?_toJson room
  simp [Config.ofJson?, hparts, partOr, Json.nat?_ofNat hbeam, nullable?_ofOption hsteps,
    hencoding]

end Config

namespace Vocabulary

theorem writable_toJson (v : Vocabulary) : v.toJson.Writable := by
  simp [toJson, Rule.writable_toJson, NodeType.writable_toJson]

theorem ofJson?_toJson (v : Vocabulary) (room : Nat) :
    Vocabulary.ofJson? (room + 7) v.toJson = some v := by
  have hparts : v.toJson.allParts? ["rules", "node_types", "tokens"] =
      some [.ofList Rule.toJson v.rules, .ofList NodeType.toJson v.nodeTypes,
        .ofList .ofString v.tokens] := Json.allParts?_record _ (by decide) rfl
  have hrules : Json.list? Rule.ofJson? (room + 6) (.ofList Rule.toJson v.rules) =
      some v.rules := Json.list?_ofList fun r _ => r.ofJson?_toJson room
  have htypes : Json.list? NodeType.ofJson? (room + 6) (.ofList NodeType.toJson v.nodeTypes) =
      some v.nodeTypes := Json.list?_ofList fun t _ => t.ofJson?_toJson (room + 4)
  have htokens : Json.list? (fun _ => Json.string?) (room + 6) (.ofList .ofString v.tokens) =
      some v.tokens := Json.list?_ofList fun _ _ => rfl
  simp [Vocabulary.ofJson?, hparts, hrules, htypes, htokens]

end Vocabulary

end TreeDerivation
