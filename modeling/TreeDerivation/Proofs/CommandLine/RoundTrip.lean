import TreeDerivation.CommandLine.Program
import TreeDerivation.Proofs.Documents
import TreeDerivation.Proofs.Text.Words
import TreeDerivation.Proofs.Tree.RoundTrip

/-!
# Flattening and replaying through files

What one command prints, the other reads from a file. The actions that flattening a tree prints
replay to the tree, in whatever way the file of the tree spelled it, and the tree that is printed
then flattens to the same actions again, character by character (`Program.roundTrip_of_flatten`).

Three things have to fit together. Neither tokenizer loses anything of a leaf
(`Tokenizer.join_split`), so the actions of a tree derive that very tree. The actions are a flat
list, which a reader has room for however deep the tree is. And the tree was read from a file, so it
is no deeper than what is read from a file again.

A command reads its file and then is a plain function of the text (`Program.perform_replay`,
`Program.perform_flatten`), so each run may have its own files, as long as the one that it is told
to read holds the text.
-/

namespace TreeDerivation

/-! ## The tokenizers lose nothing -/

theorem join_map_ofList (pieces : List (List Char)) :
    String.join (pieces.map String.ofList) = String.ofList pieces.flatten := by
  rw [← String.toList_inj, String.toList_join, String.toList_ofList, List.flatMap_map]
  simp [List.flatMap_id']

theorem Text.map_fst_markJoined (ctx : ClusterContext) (cs : List Char) :
    (markJoined ctx cs).map Prod.fst = cs := by
  induction cs generalizing ctx with
  | nil => rfl
  | cons c cs ih => rw [markJoined, List.map_cons, ih]

theorem Text.join_splitClusters (s : String) : String.join (splitClusters s) = s := by
  have hmap : splitClusters s = (((markJoined .start s.toList).splitBy fun _ b => b.2).map
      (List.map Prod.fst)).map String.ofList := by
    rw [splitClusters, List.map_map]
    rfl
  rw [hmap, join_map_ofList, ← List.map_flatten, List.flatten_splitBy, map_fst_markJoined,
    String.ofList_toList]

/-- Both tokenizers cut a text into consecutive pieces. -/
theorem Tokenizer.join_split (tokenizer : Tokenizer) (s : String) :
    String.join (tokenizer.split s) = s := by
  cases tokenizer with
  | words => exact Text.join_splitWords s
  | clusters => exact Text.join_splitClusters s

/-! ## Commands as functions of the text -/

/-- Whether the file at a path holds a text. -/
def FileAccess.Holds {m : Type → Type} [Monad m] (files : FileAccess m) (path text : String) :
    Prop :=
  files.read path = pure (.ok text.toUTF8)

theorem FileAccess.decode_toUTF8 (text : String) : decode text.toUTF8 = .ok text := by
  have htext : String.fromUTF8? text.toUTF8 = some text := by
    unfold String.fromUTF8?
    exact dif_pos text.isValidUTF8
  rw [decode, htext]

section

variable {m : Type → Type} [Monad m] [LawfulMonad m] {files : FileAccess m} {path text : String}

theorem FileAccess.readText_of_holds (h : files.Holds path text) :
    files.readText path = pure (.ok text) := by
  unfold FileAccess.Holds at h
  rw [readText, h, pure_bind]
  show pure (((Except.ok text.toUTF8).bind decode).mapError fun fault =>
    Failure.of (.file fault)) = _
  rw [Except.bind, decode_toUTF8]
  rfl

namespace Program

theorem perform_replay (h : files.Holds path text) (colored : Bool) (e : Encoding)
    (asJson : Bool) :
    perform files colored e (.replay path asJson) =
      pure ((replay e text).map (Replayed.output colored asJson)) := by
  rw [perform, FileAccess.readText_of_holds h, pure_bind]
  rfl

theorem perform_flatten (h : files.Holds path text) (colored : Bool) (e : Encoding)
    (tokenizer : Tokenizer) :
    perform files colored e (.flatten path tokenizer) =
      pure ((flatten e tokenizer text).map fun w => (actionsToJson w).pretty ++ "\n") := by
  rw [perform, FileAccess.readText_of_holds h, pure_bind]
  rfl

end Program

end

/-! ## There and back -/

namespace Program

variable {e : Encoding} {tokenizer : Tokenizer} {t : Ast} {w : List Action}

/-- The text with one item a line and the end of the last line. -/
theorem document_pretty_line {α : Type} {read : Nat → Json → Option α} {j : Json}
    (hwrite : j.Writable) {a : α} (hread : read Json.documentRoom j = some a) :
    Json.document read (j.pretty ++ "\n") = .ok a := by
  have hblank : ∀ c ∈ "\n".toList, Lexeme.isSpace c = true := List.all_eq_true.mp (by decide)
  exact Json.document_of_read? (Json.read?_pretty hwrite "\n" hblank) hread

theorem tree_of_replay (h : t.actions e tokenizer.split = .ok w) :
    ∃ d, Derivation.replay e w = .ok d ∧ d.isComplete = true ∧ d.tree = .ok t := by
  obtain ⟨p, hfits, rfl, hread⟩ := exists_parse_of_actions h
  obtain ⟨d, hreplay, hcomplete, htree⟩ := Derivation.tree_of_replay_word hfits
  have hleaves : t.mapLeaves (e.respell tokenizer.split) = t := by
    refine Ast.mapLeaves_eq_self fun v _ => ?_
    rw [Encoding.respell, tokenizer.join_split, ite_self]
  rw [hread, hleaves] at htree
  exact ⟨d, hreplay, hcomplete, htree⟩

/-- The printed actions of a tree replay to the tree. -/
theorem replay_of_actions (h : t.actions e tokenizer.split = .ok w) :
    ∃ n, replay e ((actionsToJson w).pretty ++ "\n") = .ok (.complete n t) := by
  obtain ⟨d, hreplay, hcomplete, htree⟩ := tree_of_replay h
  have hdocument : Json.document actionsOfJson? ((actionsToJson w).pretty ++ "\n") = .ok w :=
    document_pretty_line (writable_actionsToJson w) (actionsOfJson?_actionsToJson w _)
  refine ⟨d.size, ?_⟩
  simp only [replay, hdocument, bind, Except.bind, hreplay, hcomplete, if_true, htree]
  rfl

theorem flatten_of_document {text : String} (h : Json.document Ast.ofJson? text = .ok t) :
    flatten e tokenizer text = t.actions e tokenizer.split := by
  rw [flatten, h]
  rfl

/-- A printed tree is read again if it came from a file. -/
theorem document_pretty_line_of_document {text : String}
    (h : Json.document Ast.ofJson? text = .ok t) :
    Json.document Ast.ofJson? (t.toJson.pretty ++ "\n") = .ok t := by
  have hread := t.ofJson?_toJson Json.documentRoom
  rw [if_pos (Ast.nest_le_of_document h)] at hread
  exact document_pretty_line t.writable_toJson hread

/-- If a file holds a tree and flattening it succeeds, then replaying what was printed succeeds and
prints the tree, and flattening the printed tree prints the same actions again. -/
theorem roundTrip_of_flatten {files : FileAccess Id} {source text printed : String}
    {colored : Bool} (hsource : files.Holds source text)
    (htext : Json.document Ast.ofJson? text = .ok t)
    (hflatten : perform files colored e (.flatten source tokenizer) = .ok printed) :
    (∀ (files : FileAccess Id) (path : String) (colored : Bool), files.Holds path printed →
      perform files colored e (.replay path true) = .ok (t.toJson.pretty ++ "\n")) ∧
    (∀ (files : FileAccess Id) (path : String) (colored : Bool),
      files.Holds path (t.toJson.pretty ++ "\n") →
        perform files colored e (.flatten path tokenizer) = .ok printed) := by
  rw [perform_flatten hsource, flatten_of_document htext] at hflatten
  obtain ⟨w, hactions, rfl⟩ := map_eq_ok_iff.mp hflatten
  refine ⟨fun files path colored hfile => ?replayed, fun files path colored hfile => ?again⟩
  case replayed =>
    obtain ⟨n, hreplay⟩ := replay_of_actions hactions
    rw [perform_replay hfile, hreplay]
    rfl
  case again =>
    rw [perform_flatten hfile, flatten_of_document (document_pretty_line_of_document htext),
      hactions]
    rfl

/-- The same text at every path. -/
def everywhere (text : String) : FileAccess Id :=
  { read := fun _ => .ok text.toUTF8
    list := fun _ => .ok [[]] }

/-- A tree whose only leaf is cut into three words, from a file that spells all its records by
position. -/
theorem roundTrip_of_flatten_words :
    let t := Ast.node "Sum" [.mk "text" "str" (.single (.leaf "str" "x +"))]
    let leaf := Json.tagged "leaf" (.array [.ofString "str", .ofString "x +"])
    let field := Json.array [.ofString "text", .ofString "str", .tagged "single" leaf]
    let text := (Json.tagged "node" (.array [.ofString "Sum", .array [field]])).compact
    ∃ printed,
      perform (everywhere text) false {} (.flatten "tree.json" .words) = .ok printed ∧
      perform (everywhere printed) false {} (.replay "actions.json" true) =
        .ok (t.toJson.pretty ++ "\n") ∧
      perform (everywhere (t.toJson.pretty ++ "\n")) true {} (.flatten "tree.json" .words) =
        .ok printed := by
  intro t leaf field text
  have htext : Json.document Ast.ofJson? text = .ok t :=
    Json.document_of_read? (Json.read?_compact (by simp [leaf, field])) rfl
  have hsource : (everywhere text).Holds "tree.json" text := rfl
  obtain ⟨w, hactions⟩ : ∃ w, t.actions {} (Tokenizer.split .words) = .ok w := ⟨_, rfl⟩
  have hflatten : perform (everywhere text) false {} (.flatten "tree.json" .words) =
      .ok ((actionsToJson w).pretty ++ "\n") := by
    rw [perform_flatten hsource, flatten_of_document htext, hactions]
    rfl
  obtain ⟨hreplay, hagain⟩ := roundTrip_of_flatten hsource htext hflatten
  exact ⟨_, hflatten, hreplay _ _ _ rfl, hagain _ _ _ rfl⟩

end Program

end TreeDerivation
