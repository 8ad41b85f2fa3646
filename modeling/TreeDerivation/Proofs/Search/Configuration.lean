import TreeDerivation.Proofs.Json.Records
import TreeDerivation.Proofs.Json.Spelling
import TreeDerivation.Proofs.Outcome
import TreeDerivation.Search.Config

/-!
# Configuration documents that say little or much

A configuration document may leave out any of its parts and may have members that no part has the
name of, in any order. What it sets is a row of settings (`Setting`), each with the member that says
it. However a document of settings is written, and whatever its other members hold, the
configuration that is read has what is set, and the default where nothing is (`Config.given`); only
a beam without places is refused. Parts that are set twice are refused, too, and no document gives a
configuration without places in its beam (`config_of_document`).

A name that is no string, such as half of a surrogate pair, is refused as well; as a value it does
no harm.
-/

namespace TreeDerivation

/-! ## Settings -/

/-- The names of the parts of an encoding. -/
def Encoding.known : List String := ["retain_variadic_fields", "split_non_terminal"]

/-- The names of the parts of a configuration. -/
def Config.known : List String := ["beam_size", "max_steps", "options"]

/-- Whether each of the names is the name of one member at most. -/
def OnceEach (names : List String) (members : List (String × Json)) : Prop :=
  ∀ name ∈ names, (members.map Prod.fst).count name ≤ 1

instance (names : List String) : DecidablePred (OnceEach names) :=
  fun members =>
    inferInstanceAs (Decidable (∀ name ∈ names, (members.map Prod.fst).count name ≤ 1))

/-- What a member of the options says. -/
inductive Switch where
  | retainVariadic (on : Bool)
  | splitLeaves (on : Bool)
  /-- Nothing: no part of an encoding has this name. -/
  | unknown (name : String) (value : Json) (h : name ∉ Encoding.known)

/-- The member that turns a switch. -/
def Switch.member : Switch → String × Json
  | .retainVariadic on => ("retain_variadic_fields", .bool on)
  | .splitLeaves on => ("split_non_terminal", .bool on)
  | .unknown name value _ => (name, value)

/-- What a member of a configuration document says. -/
inductive Setting where
  | beamSize (n : Nat) (h : n < 2 ^ 64)
  | maxSteps (n : Option Nat) (h : ∀ k ∈ n, k < 2 ^ 64)
  | options (switches : List Switch) (h : OnceEach Encoding.known (switches.map Switch.member))
  /-- The first switches in their order, without names. -/
  | firstOptions (values : List Bool) (h : values.length ≤ 2)
  /-- Nothing: no part of a configuration has this name. -/
  | unknown (name : String) (value : Json) (h : name ∉ Config.known)

/-- The member that makes a setting. -/
def Setting.member : Setting → String × Json
  | .beamSize n _ => ("beam_size", .ofNat n)
  | .maxSteps n _ => ("max_steps", .ofOption .ofNat n)
  | .options switches _ => ("options", .record (switches.map Switch.member))
  | .firstOptions values _ => ("options", .array (values.map .bool))
  | .unknown name value _ => (name, value)

/-! ## What settings give -/

namespace Switch

/-- What the switch says about lists. -/
def retainVariadic? : Switch → Option Bool
  | .retainVariadic on => some on
  | _ => none

/-- What the switch says about leaf texts. -/
def splitLeaves? : Switch → Option Bool
  | .splitLeaves on => some on
  | _ => none

end Switch

/-- The encoding that switches give; what none of them says is on. -/
def Encoding.given (switches : List Switch) : Encoding where
  retainVariadic := (switches.findSome? Switch.retainVariadic?).getD true
  splitLeaves := (switches.findSome? Switch.splitLeaves?).getD true

namespace Setting

/-- The width of the beam, if it is set. -/
def beamSize? : Setting → Option Nat
  | .beamSize n _ => some n
  | _ => none

/-- The bound on the rounds, if it is set. -/
def maxSteps? : Setting → Option (Option Nat)
  | .maxSteps n _ => some n
  | _ => none

/-- The encoding, if something is said about it. -/
def encoding? : Setting → Option Encoding
  | .options switches _ => some (.given switches)
  | .firstOptions values _ => some ⟨values.getD 0 true, values.getD 1 true⟩
  | _ => none

end Setting

/-- The configuration that settings give: the default, with what is set in its place. -/
def Config.given (settings : List Setting) : Config :=
  let default : Config := {}
  { beamSize := (settings.findSome? Setting.beamSize?).getD default.beamSize
    maxSteps := (settings.findSome? Setting.maxSteps?).getD default.maxSteps
    encoding := (settings.findSome? Setting.encoding?).getD default.encoding }

/-! ## Members by name -/

/-- Whether members give one of the names twice, or have a name that is no string. -/
def Refused (names : List String) (members : List (Option String × Json)) : Prop :=
  (∃ m ∈ members, m.1 = none) ∨ ∃ name ∈ names, 2 ≤ (members.map Prod.fst).count (some name)

namespace Json

theorem parts?_object_of_refused {members : List (Option String × Json)} {names : List String}
    (h : Refused names members) (mayLack : Bool) :
    (Json.object members).parts? names mayLack = none := by
  rw [parts?]
  refine if_neg fun hboth => ?_
  rw [Bool.and_eq_true, noneRepeated_iff, List.all_eq_true] at hboth
  rcases h with ⟨m, hm, hnone⟩ | ⟨name, hname, htwice⟩
  · exact absurd (hboth.1 m hm) (by simp [hnone])
  · have honce := hboth.2 name hname
    omega

theorem parts?_object_of_not_refused {members : List (Option String × Json)} {names : List String}
    (h : ¬ Refused names members) (mayLack : Bool) :
    (Json.object members).parts? names mayLack = some (names.map (member? members)) := by
  simp only [Refused, not_or, not_exists, not_and, Nat.not_le] at h
  rw [parts?]
  refine if_pos ?_
  rw [Bool.and_eq_true, noneRepeated_iff, List.all_eq_true]
  exact ⟨fun m hm => Option.isSome_iff_ne_none.mpr (h.1 m hm),
    fun name hname => Nat.lt_succ_iff.mp (h.2 name hname)⟩

theorem not_refused_of_onceEach {members : List (String × Json)} {names : List String}
    (h : OnceEach names members) :
    ¬ Refused names (members.map fun (name, value) => (some name, value)) := by
  rintro (⟨m, hm, hnone⟩ | ⟨name, hname, htwice⟩)
  · obtain ⟨n, -, rfl⟩ := List.mem_map.mp hm
    exact nomatch hnone
  · rw [count_record] at htwice
    have honce := h name hname
    omega

theorem parts?_record_of_onceEach {members : List (String × Json)} {names : List String}
    (h : OnceEach names members) (mayLack : Bool) :
    (record members).parts? names mayLack =
      some (names.map (member? (members.map fun (name, value) => (some name, value)))) :=
  parts?_object_of_not_refused (not_refused_of_onceEach h) mayLack

/-- The only member of a name is the one that is found. -/
theorem member?_eq_some {members : List (Option String × Json)} {name : String} {value : Json}
    (h : (members.map Prod.fst).count (some name) ≤ 1) (hm : (some name, value) ∈ members) :
    member? members name = some value := by
  induction members with
  | nil => exact absurd hm List.not_mem_nil
  | cons m members ih =>
    rw [member?]
    by_cases hname : m.1 = some name
    · rw [List.find?_cons_of_pos (by simpa using hname), Option.map_some]
      rw [List.map_cons, hname, List.count_cons_self] at h
      rcases List.mem_cons.mp hm with rfl | hm
      · rfl
      · have hcount : 0 < (members.map Prod.fst).count (some name) :=
          List.count_pos_iff.mpr (List.mem_map_of_mem hm)
        omega
    · rw [List.find?_cons_of_neg (by simpa using hname)]
      rw [List.map_cons, List.count_cons_of_ne hname] at h
      rcases List.mem_cons.mp hm with rfl | hm
      · exact absurd rfl hname
      · exact ih h hm

end Json

/-- A part is read as what is said about it, or as its default. -/
theorem partOr_member? {σ α : Type} {settings : List σ} {member : σ → String × Json}
    {pick : σ → Option α} {read : Json → Option α} {name : String} (default : α)
    (hpick : ∀ s ∈ settings, (member s).1 = name → pick s ≠ none ∧ read (member s).2 = pick s)
    (hother : ∀ s ∈ settings, (member s).1 ≠ name → pick s = none) :
    partOr default read
        (Json.member? ((settings.map member).map fun (name, value) => (some name, value)) name) =
      some ((settings.findSome? pick).getD default) := by
  induction settings with
  | nil => rfl
  | cons s settings ih =>
    have hrest := ih (fun t ht => hpick t (List.mem_cons_of_mem s ht))
      (fun t ht => hother t (List.mem_cons_of_mem s ht))
    rw [Json.member?] at hrest ⊢
    rw [List.map_cons, List.map_cons]
    by_cases hname : (member s).1 = name
    · obtain ⟨hne, hread⟩ := hpick s List.mem_cons_self hname
      obtain ⟨a, ha⟩ := Option.ne_none_iff_exists'.mp hne
      rw [List.find?_cons_of_pos (by simpa using hname), List.findSome?_cons, ha, Option.map_some,
        Option.getD_some]
      exact hread.trans ha
    · rw [List.find?_cons_of_neg (by simpa using hname), List.findSome?_cons,
        hother s List.mem_cons_self hname]
      exact hrest

/-! ## Settings are read -/

namespace Encoding

theorem retainVariadic_given (switches : List Switch) :
    partOr true Json.bool? (Json.member? ((switches.map Switch.member).map fun (name, value) =>
      (some name, value)) "retain_variadic_fields") = some (given switches).retainVariadic := by
  refine partOr_member? true (fun s _ hname => ?_) (fun s _ hname => ?_)
  · cases s with
    | retainVariadic on => exact ⟨Option.some_ne_none on, rfl⟩
    | splitLeaves on => exact absurd hname (by simp [Switch.member])
    | unknown name value h =>
      obtain rfl : name = _ := hname
      exact absurd h (by decide)
  · cases s with
    | retainVariadic on => exact absurd rfl hname
    | splitLeaves on => rfl
    | unknown name value h => rfl

theorem splitLeaves_given (switches : List Switch) :
    partOr true Json.bool? (Json.member? ((switches.map Switch.member).map fun (name, value) =>
      (some name, value)) "split_non_terminal") = some (given switches).splitLeaves := by
  refine partOr_member? true (fun s _ hname => ?_) (fun s _ hname => ?_)
  · cases s with
    | retainVariadic on => exact absurd hname (by simp [Switch.member])
    | splitLeaves on => exact ⟨Option.some_ne_none on, rfl⟩
    | unknown name value h =>
      obtain rfl : name = _ := hname
      exact absurd h (by decide)
  · cases s with
    | retainVariadic on => rfl
    | splitLeaves on => exact absurd rfl hname
    | unknown name value h => rfl

theorem ofJson?_switches {switches : List Switch}
    (h : OnceEach known (switches.map Switch.member)) (room : Nat) :
    Encoding.ofJson? (room + 1) (.record (switches.map Switch.member)) = some (given switches) := by
  have hparts := Json.parts?_record_of_onceEach h true
  simp only [known, List.map_cons, List.map_nil] at hparts
  simp only [Encoding.ofJson?, hparts, bind, Option.bind_some, retainVariadic_given,
    splitLeaves_given]
  rfl

theorem ofJson?_values {values : List Bool} (h : values.length ≤ 2) (room : Nat) :
    Encoding.ofJson? (room + 1) (.array (values.map .bool)) =
      some ⟨values.getD 0 true, values.getD 1 true⟩ := by
  match values, h with
  | [], _ => rfl
  | [_], _ => rfl
  | [_, _], _ => rfl

end Encoding

namespace Config

section Given

variable (settings : List Setting)

theorem beamSize_given :
    partOr 10 Json.nat? (Json.member? ((settings.map Setting.member).map fun (name, value) =>
      (some name, value)) "beam_size") = some (given settings).beamSize := by
  refine partOr_member? 10 (fun s _ hname => ?_) (fun s _ hname => ?_)
  · cases s with
    | beamSize n h => exact ⟨Option.some_ne_none n, Json.nat?_ofNat h⟩
    | unknown name value h =>
      obtain rfl : name = _ := hname
      exact absurd h (by decide)
    | _ => exact absurd hname (by simp [Setting.member])
  · cases s with
    | beamSize n h => exact absurd rfl hname
    | _ => rfl

theorem maxSteps_given :
    partOr none (Json.nullable? Json.nat?) (Json.member? ((settings.map Setting.member).map
      fun (name, value) => (some name, value)) "max_steps") = some (given settings).maxSteps := by
  refine partOr_member? none (fun s _ hname => ?_) (fun s _ hname => ?_)
  · cases s with
    | maxSteps n h => exact ⟨Option.some_ne_none n, nullable?_ofOption h⟩
    | unknown name value h =>
      obtain rfl : name = _ := hname
      exact absurd h (by decide)
    | _ => exact absurd hname (by simp [Setting.member])
  · cases s with
    | maxSteps n h => exact absurd rfl hname
    | _ => rfl

theorem encoding_given (room : Nat) :
    partOr {} (Encoding.ofJson? (room + 1)) (Json.member? ((settings.map Setting.member).map
      fun (name, value) => (some name, value)) "options") = some (given settings).encoding := by
  refine partOr_member? ({} : Encoding) (fun s _ hname => ?_) (fun s _ hname => ?_)
  · cases s with
    | options switches h => exact ⟨Option.some_ne_none _, Encoding.ofJson?_switches h room⟩
    | firstOptions values h => exact ⟨Option.some_ne_none _, Encoding.ofJson?_values h room⟩
    | unknown name value h =>
      obtain rfl : name = _ := hname
      exact absurd h (by decide)
    | _ => exact absurd hname (by simp [Setting.member])
  · cases s with
    | options switches h => exact absurd rfl hname
    | firstOptions values h => exact absurd rfl hname
    | _ => rfl

end Given

theorem ofJson?_settings {settings : List Setting}
    (h : OnceEach known (settings.map Setting.member)) (room : Nat) :
    Config.ofJson? (room + 2) (.record (settings.map Setting.member)) = some (given settings) := by
  have hparts := Json.parts?_record_of_onceEach h true
  simp only [known, List.map_cons, List.map_nil] at hparts
  simp only [Config.ofJson?, hparts, bind, Option.bind_some, beamSize_given, maxSteps_given,
    encoding_given]
  rfl

end Config

/-! ## Documents that are refused -/

theorem Encoding.ofJson?_of_refused {switches : List (Option String × Json)}
    (h : Refused known switches) (room : Nat) :
    Encoding.ofJson? room (.object switches) = none := by
  cases room with
  | zero => rfl
  | succ room =>
    have hparts := Json.parts?_object_of_refused h true
    rw [known] at hparts
    rw [Encoding.ofJson?, hparts]
    rfl

/-- Whether the members or those of the options among them are refused. -/
def Config.RefusedIn (members : List (Option String × Json)) : Prop :=
  Refused known members ∨
    ∃ switches, (some "options", .object switches) ∈ members ∧ Refused Encoding.known switches

theorem Config.ofJson?_of_refusedIn {members : List (Option String × Json)} (h : RefusedIn members)
    (room : Nat) : Config.ofJson? (room + 1) (.object members) = none := by
  by_cases hrefused : Refused known members
  · have hparts := Json.parts?_object_of_refused hrefused true
    rw [known] at hparts
    rw [Config.ofJson?, hparts]
    rfl
  · obtain ⟨switches, hm, hswitches⟩ := h.resolve_left hrefused
    have hparts := Json.parts?_object_of_not_refused hrefused true
    have honce : (members.map Prod.fst).count (some "options") ≤ 1 := by
      by_contra htwice
      exact hrefused (.inr ⟨"options", by decide, by omega⟩)
    have hoptions : partOr {} (Encoding.ofJson? room) (Json.member? members "options") = none := by
      rw [Json.member?_eq_some honce hm]
      exact Encoding.ofJson?_of_refused hswitches room
    simp only [known, List.map_cons, List.map_nil] at hparts
    simp [Config.ofJson?, hparts, hoptions]

/-! ## All documents -/

/-- However a document is written whose members set each part of a configuration once at most, it
gives the default with what is set in its place, and fails as a configuration if that is a beam
without places. A document that sets a part twice fails as one, too, and so does one with a name
that is no string; in its other members it may hold any values. Every configuration that a document
gives has a place in its beam. -/
theorem config_of_document :
    (∀ (settings : List Setting) (text : String),
      OnceEach Config.known (settings.map Setting.member) →
      Json.Padded text.toList (.record (settings.map Setting.member)) →
      (1 ≤ (Config.given settings).beamSize →
        Config.ofJsonText text = .ok (Config.given settings)) ∧
      ((Config.given settings).beamSize = 0 →
        ∃ f : Failure, Config.ofJsonText text = .error f ∧ f.kind = .config)) ∧
    (∀ (members : List (Option String × Json)) (text : String),
      Config.RefusedIn members → Json.Padded text.toList (.object members) →
      ∃ f : Failure, Config.ofJsonText text = .error f ∧ f.kind = .config) ∧
    ∀ (text : String) (c : Config), Config.ofJsonText text = .ok c → 1 ≤ c.beamSize := by
  refine ⟨fun settings text honce htext => ?settings, fun members text hrefused htext => ?refused,
    fun text c h => ?places⟩
  case settings =>
    have hread : Json.document Config.ofJson? text = .ok (Config.given settings) :=
      Json.document_of_read? (Json.read?_of_padded htext) (Config.ofJson?_settings honce _)
    rw [Config.ofJsonText, hread]
    refine ⟨fun hplaces => ?_, fun hzero => ⟨Failure.of .zeroBeam, ?_, rfl⟩⟩
    · exact if_neg (by omega)
    · exact if_pos hzero
  case refused =>
    have hread : Json.document Config.ofJson? text = .error (Failure.of (.invalidDocument .json)) :=
      Json.document_eq_error_of_read? (Json.read?_of_padded htext)
        (Config.ofJson?_of_refusedIn hrefused _)
    rw [Config.ofJsonText, hread]
    exact ⟨_, rfl, rfl⟩
  case places =>
    obtain ⟨d, -, hvalid⟩ := exists_of_bind_eq_ok h
    rw [Config.validate] at hvalid
    split at hvalid
    next => exact nomatch hvalid
    next hplaces =>
      cases hvalid
      omega

/-- A part whose name is spelled with an escape, one switch of two, blanks, and unknown members that
hold a number with an exponent and half of a surrogate pair; and a part that is set twice. -/
theorem config_of_document_partial :
    let text := "\x7b\"x\": [1E5,\"\\ud800\"],\"options\":\x7b\"split_non_terminal\":false," ++
      "\"y\" :null\x7d,\n\"beam\\u005fsize\":2\x7d\n"
    let halves := Json.array [.number ⟨false, ['1'], [], some (false, ['5'])⟩, .string none]
    let settings := [Setting.unknown "x" halves (by decide),
      .options [.splitLeaves false, .unknown "y" .null (by decide)] (by decide),
      .beamSize 2 (by decide)]
    OnceEach Config.known (settings.map Setting.member) ∧
    Json.Padded text.toList (.record (settings.map Setting.member)) ∧
    Config.ofJsonText text = .ok ⟨2, none, ⟨true, false⟩⟩ ∧
    Config.RefusedIn [(some "max_steps", .null), (some "max_steps", .null)] ∧
    (∃ f : Failure, Config.ofJsonText "\x7b\"max_steps\":null,\"max_steps\":null\x7d" = .error f ∧
      f.kind = .config) := by
  intro text halves settings
  have honce : OnceEach Config.known (settings.map Setting.member) := by decide
  have hblank : Blank [] := by decide
  have hpad : ∀ {cs : List Char} {j : Json},
      Json.Spelling cs j → Json.Padded ([] ++ (cs ++ [])) j :=
    fun h => .mk hblank h hblank
  have hmember : ∀ (s : String), s.toList.all isBare = true →
      ∀ {after cs : List Char} {value : Json}, Blank after → Json.Padded cs value →
      Json.MemberSpelling ([] ++ (('"' :: (s.toList ++ ['"'])) ++ (after ++ ':' :: cs)))
        (some s, value) :=
    fun s hs _ _ _ hafter h => .mk hblank (textSpelling_bare hs) hafter h
  have hhalf : TextSpelling ['\\', 'u', 'd', '8', '0', '0'] none := by
    have hunit : UnitSpelling ['\\', 'u', 'd', '8', '0', '0'] (((13 * 16 + 8) * 16 + 0) * 16 + 0) :=
      .code ⟨by decide, .inl rfl⟩ ⟨by decide, .inl rfl⟩ ⟨by decide, .inl rfl⟩ ⟨by decide, .inl rfl⟩
    exact ⟨_, _, .cons hunit .nil, rfl,
      fun s => ⟨fun h => (nomatch h), fun h => (nomatch charsOfUnits_of_denotes h)⟩⟩
  have hnumber : NumberSpelling ['1', 'E', '5'] ⟨false, ['1'], [], some (false, ['5'])⟩ := by
    have hdigits : ∀ d : Char, d.isDigit = true → ∀ c ∈ [d], c.isDigit = true := by simp
    refine ⟨⟨by decide, hdigits '1' (by decide), by decide, List.forall_mem_nil _, ?_⟩, ['E', '5'],
      .written (.inr rfl) List.mem_cons_self, rfl⟩
    rintro _ ⟨⟩
    exact ⟨by decide, hdigits '5' (by decide)⟩
  have hlowLine : TextSpelling ['\\', 'u', '0', '0', '5', 'f'] (some "_") := by
    have hunit : UnitSpelling ['\\', 'u', '0', '0', '5', 'f'] (((0 * 16 + 0) * 16 + 5) * 16 + 15) :=
      .code ⟨by decide, .inl rfl⟩ ⟨by decide, .inl rfl⟩ ⟨by decide, .inl rfl⟩ ⟨by decide, .inl rfl⟩
    exact textSpelling_of_denotes (.cons hunit .nil) (Denotes.nil.whole '_')
  have hbeam : TextSpelling ("beam".toList ++ (['\\', 'u', '0', '0', '5', 'f'] ++ "size".toList))
      (some "beam_size") :=
    (textSpelling_bare (s := "beam") (by decide)).append
      (hlowLine.append (textSpelling_bare (s := "size") (by decide)))
  have hspace : Blank [' '] := by decide
  have hline : Blank ['\n'] := by decide
  have hunknown := hmember "x" (by decide) hblank (.mk hspace
    (.array (.cons (hpad (.number hnumber)) (.singleton (hpad (.string hhalf))))) hblank)
  have hoptions := hmember "options" (by decide) hblank (hpad (.object (.cons
    (hmember "split_non_terminal" (by decide) hblank (hpad (.bool false)))
    (.singleton (hmember "y" (by decide) hspace (hpad .null))))))
  have hsize : Json.MemberSpelling _ (some "beam_size", .ofNat 2) :=
    .mk hline hbeam hblank (hpad (.number (numberSpelling_ofNat 2)))
  have hsettings : Json.Padded _ (.record (settings.map Setting.member)) :=
    .mk hblank (.object (.cons hunknown (.cons hoptions (.singleton hsize)))) hline
  have htext : Json.Padded text.toList (.record (settings.map Setting.member)) := by
    refine Eq.subst (motive := (Json.Padded · _)) ?_ hsettings
    decide +kernel
  have htwice : Json.Padded "\x7b\"max_steps\":null,\"max_steps\":null\x7d".toList
      (.object [(some "max_steps", .null), (some "max_steps", .null)]) :=
    hpad (.object (.cons (hmember "max_steps" (by decide) hblank (hpad .null))
      (.singleton (hmember "max_steps" (by decide) hblank (hpad .null)))))
  have hrefused : Config.RefusedIn [(some "max_steps", .null), (some "max_steps", .null)] :=
    .inl (.inr ⟨"max_steps", by decide, by decide⟩)
  obtain ⟨hgives, hrefuses, -⟩ := config_of_document
  exact ⟨honce, htext, (hgives settings text honce htext).1 (by decide), hrefused,
    hrefuses _ _ hrefused htwice⟩

end TreeDerivation
