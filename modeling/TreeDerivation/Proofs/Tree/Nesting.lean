import TreeDerivation.Proofs.Json.Nesting
import TreeDerivation.Proofs.Json.Records
import TreeDerivation.Tree.Json

/-!
# How deeply trees nest as documents

A document opens two brackets for a leaf and three for a node, and from a node to a tree in one of
its fields it opens five more, or six where the field holds a list. `Ast.nest` counts them, and it
is the depth of the value that is written for the tree (`Ast.depth_toJson`).

A reader with room for a number of brackets reads the value of a tree exactly if the tree nests no
deeper than that (`Ast.ofJson?_toJson`). The bound holds of every tree that it reads, from whatever
value (`Ast.nest_le_of_ofJson?`), since each way to spell a record opens one bracket. So a tree that
was read once is read again from the value that is written for it.
-/

namespace TreeDerivation

mutual

/-- The brackets that are open at once in the document of a tree: three in a node without fields,
and in any other node as many as in the deepest of its fields, which is more
(`Content.five_lt_nest`). -/
def Ast.nest : Ast → Nat
  | .leaf _ _ => 2
  | .node _ fields => max 3 (Field.nestAll fields)

/-- The same inside a field, counted from the node that the field belongs to. -/
def Content.nest : Content → Nat
  | .single tree => 5 + tree.nest
  | .list trees => 6 + Ast.nestEach trees

/-- The greatest number in any of the fields. -/
def Field.nestAll : List Field → Nat
  | [] => 0
  | .mk _ _ content :: rest => max content.nest (Field.nestAll rest)

/-- The greatest number in any of the trees. -/
def Ast.nestEach : List Ast → Nat
  | [] => 0
  | tree :: rest => max tree.nest (Ast.nestEach rest)

end

theorem Field.nestAll_le_iff {fields : List Field} {k : Nat} :
    Field.nestAll fields ≤ k ↔ ∀ field ∈ fields, field.content.nest ≤ k := by
  induction fields with
  | nil => simp [Field.nestAll]
  | cons field fields ih =>
    obtain ⟨name, t, content⟩ := field
    rw [Field.nestAll, Nat.max_le, ih, List.forall_mem_cons, Field.content]

theorem Ast.nestEach_le_iff {trees : List Ast} {k : Nat} :
    Ast.nestEach trees ≤ k ↔ ∀ tree ∈ trees, tree.nest ≤ k := by
  induction trees with
  | nil => simp [Ast.nestEach]
  | cons tree trees ih => rw [Ast.nestEach, Nat.max_le, ih, List.forall_mem_cons]

/-! ## The depth of the value of a tree -/

namespace Json

theorem depth_tagged (tag : String) (j : Json) : (tagged tag j).depth = 1 + j.depth := by
  rw [tagged, depth, membersDepth, membersDepth, Nat.max_zero]

theorem depth_array (items : List Json) : (Json.array items).depth = 1 + itemsDepth items := by
  rw [depth]

theorem depth_ofString (s : String) : (ofString s).depth = 0 := by
  rw [ofString, depth]

theorem depth_record_nil : (record []).depth = 1 := by
  rw [record, List.map_nil, depth, membersDepth]

theorem depth_record_cons (m : String × Json) (members : List (String × Json)) :
    (record (m :: members)).depth = max (1 + m.2.depth) (record members).depth := by
  rw [record, record, List.map_cons, depth, depth, membersDepth]
  omega

end Json

open Json in
mutual

/-- A tree nests as deeply as the value that is written for it. -/
theorem Ast.depth_toJson : ∀ t : Ast, t.toJson.depth = t.nest
  | .leaf t value => by
    rw [Ast.toJson, leafToJson, Ast.nest]
    simp only [depth_tagged, depth_record_cons, depth_record_nil, depth_ofString]
    omega
  | .node t fields => by
    have hfields := Field.itemsDepth_fieldsToJson fields
    rw [Ast.toJson, nodeToJson, Ast.nest]
    simp only [depth_tagged, depth_record_cons, depth_record_nil, depth_ofString, depth_array]
    omega

theorem Content.depth_toJson : ∀ c : Content, 4 + c.toJson.depth = c.nest
  | .single tree => by
    have htree := Ast.depth_toJson tree
    rw [Content.toJson, Content.nest, depth_tagged]
    omega
  | .list trees => by
    have htrees := Ast.itemsDepth_treesToJson trees
    rw [Content.toJson, Content.nest, depth_tagged, depth_array]
    omega

theorem Field.itemsDepth_fieldsToJson : ∀ fields : List Field,
    3 + itemsDepth (fieldsToJson fields) = max 3 (Field.nestAll fields)
  | [] => by
    rw [fieldsToJson, itemsDepth, Field.nestAll]
    rfl
  | .mk name t content :: rest => by
    have hcontent := Content.depth_toJson content
    have hrest := Field.itemsDepth_fieldsToJson rest
    rw [fieldsToJson, itemsDepth, Field.nestAll, Field.toJson]
    simp only [depth_record_cons, depth_record_nil, depth_ofString]
    omega

theorem Ast.itemsDepth_treesToJson : ∀ trees : List Ast,
    itemsDepth (treesToJson trees) = Ast.nestEach trees
  | [] => by rw [treesToJson, itemsDepth, Ast.nestEach]
  | tree :: rest => by
    rw [treesToJson, itemsDepth, Ast.nestEach, Ast.depth_toJson tree,
      Ast.itemsDepth_treesToJson rest]

end

/-! ## The value of a tree has texts -/

open Json in
mutual

theorem Ast.writable_toJson : ∀ t : Ast, t.toJson.Writable
  | .leaf t value => by simp [Ast.toJson, leafToJson]
  | .node t fields => by
    have hfields := Field.itemsWritable_fieldsToJson fields
    rw [itemsWritable_iff] at hfields
    simpa [Ast.toJson, nodeToJson] using hfields

theorem Content.writable_toJson : ∀ c : Content, c.toJson.Writable
  | .single tree => by
    have htree := Ast.writable_toJson tree
    simpa [Content.toJson] using htree
  | .list trees => by
    have htrees := Ast.itemsWritable_treesToJson trees
    rw [itemsWritable_iff] at htrees
    simpa [Content.toJson] using htrees

theorem Field.itemsWritable_fieldsToJson : ∀ fields : List Field,
    ItemsWritable (fieldsToJson fields)
  | [] => by
    rw [fieldsToJson, ItemsWritable]
    trivial
  | .mk name t content :: rest => by
    have hcontent := Content.writable_toJson content
    rw [fieldsToJson, ItemsWritable, Field.toJson]
    exact ⟨by simpa using hcontent, Field.itemsWritable_fieldsToJson rest⟩

theorem Ast.itemsWritable_treesToJson : ∀ trees : List Ast, ItemsWritable (treesToJson trees)
  | [] => by
    rw [treesToJson, ItemsWritable]
    trivial
  | tree :: rest => by
    rw [treesToJson, ItemsWritable]
    exact ⟨Ast.writable_toJson tree, Ast.itemsWritable_treesToJson rest⟩

end

/-! ## Trees that there is room for -/

theorem leafOfJson?_leafToJson (t value : String) (room : Nat) :
    leafOfJson? (room + 1) (leafToJson t value) = some (.leaf t value) := by
  have hparts : (leafToJson t value).allParts? ["type_name", "value"] =
      some [.ofString t, .ofString value] := Json.allParts?_record _ (by decide) rfl
  simp [leafOfJson?, hparts]

theorem Field.allParts?_toJson (name t : String) (content : Content) :
    (Field.mk name t content).toJson.allParts? ["name", "type_name", "value"] =
      some [.ofString name, .ofString t, content.toJson] := by
  rw [Field.toJson]
  exact Json.allParts?_record _ (by decide) rfl

theorem allParts?_nodeToJson (t : String) (fields : List Field) :
    (nodeToJson t fields).allParts? ["type_name", "fields"] =
      some [.ofString t, .array (fieldsToJson fields)] := by
  rw [nodeToJson]
  exact Json.allParts?_record _ (by decide) rfl

theorem Field.ofJson?_of_content {name t : String} {content : Content} {room : Nat}
    (h : Content.ofJson? room content.toJson =
      if content.nest ≤ room + 4 then some content else none) :
    Field.ofJson? (room + 1) (Field.mk name t content).toJson =
      if content.nest ≤ room + 4 then some (.mk name t content) else none := by
  have hparts := Field.allParts?_toJson name t content
  rw [Field.ofJson?, hparts]
  by_cases hroom : content.nest ≤ room + 4
  · rw [if_pos hroom] at h ⊢
    simp [h]
  · rw [if_neg hroom] at h ⊢
    simp [h]

/-- A list is read if its first item and the others are. -/
theorem mapM_cons_eq_ite {α β : Type} {f : α → Option β} {x : α} {xs : List α} {y : β}
    {ys : List β} {k l m : Nat} (hx : f x = if k ≤ m then some y else none)
    (hxs : xs.mapM f = if l ≤ m then some ys else none) :
    (x :: xs).mapM f = if max k l ≤ m then some (y :: ys) else none := by
  rw [List.mapM_cons, hx, hxs]
  by_cases hk : k ≤ m
  · by_cases hl : l ≤ m
    · rw [if_pos hk, if_pos hl, if_pos (Nat.max_le.mpr ⟨hk, hl⟩)]
      rfl
    · rw [if_pos hk, if_neg hl, if_neg (fun h => hl (Nat.max_le.mp h).2)]
      rfl
  · rw [if_neg hk, if_neg (fun h => hk (Nat.max_le.mp h).1)]
    rfl

theorem Content.five_lt_nest (c : Content) : 5 < c.nest := by
  cases c with
  | single tree =>
    rw [Content.nest]
    cases tree <;> simp only [Ast.nest] <;> omega
  | list trees =>
    rw [Content.nest]
    omega

mutual

/-- The value of a tree is read as the tree if there is room for its brackets, and not at all
otherwise. -/
theorem Ast.ofJson?_toJson : ∀ (t : Ast) (room : Nat),
    Ast.ofJson? room t.toJson = if t.nest ≤ room then some t else none
  | .leaf t value, 0 | .leaf t value, 1 => by
    rw [Ast.nest, if_neg (by omega), Ast.toJson]
    rfl
  | .leaf t value, room + 2 => by
    rw [Ast.nest, if_pos (by omega), Ast.toJson]
    exact leafOfJson?_leafToJson t value room
  | .node t fields, 0 | .node t fields, 1 | .node t fields, 2 => by
    rw [Ast.nest, if_neg (by omega), Ast.toJson]
    rfl
  | .node t fields, room + 3 => by
    have hparts := allParts?_nodeToJson t fields
    have hfields := Field.mapM_fieldsToJson fields room
    rw [Ast.nest, Ast.toJson]
    show nodeOfJson? (room + 2) (nodeToJson t fields) = _
    rw [nodeOfJson?, hparts]
    by_cases hroom : Field.nestAll fields ≤ room + 3
    · rw [if_pos hroom] at hfields
      rw [if_pos (by omega)]
      simp [hfields]
    · rw [if_neg hroom] at hfields
      rw [if_neg (by omega)]
      simp [hfields]

theorem Content.ofJson?_toJson : ∀ (c : Content) (room : Nat),
    Content.ofJson? room c.toJson = if c.nest ≤ room + 4 then some c else none
  | .single tree, 0 => by
    have hnest := Content.five_lt_nest (.single tree)
    rw [if_neg (by omega), Content.toJson]
    rfl
  | .single tree, room + 1 => by
    have htree := Ast.ofJson?_toJson tree room
    rw [Content.nest, Content.toJson]
    show (Ast.ofJson? room tree.toJson).map Content.single = _
    by_cases hroom : tree.nest ≤ room
    · rw [htree, if_pos hroom, if_pos (by omega)]
      rfl
    · rw [htree, if_neg hroom, if_neg (by omega)]
      rfl
  | .list trees, 0 | .list trees, 1 => by
    have hnest := Content.five_lt_nest (.list trees)
    rw [if_neg (by omega), Content.toJson]
    rfl
  | .list trees, room + 2 => by
    have htrees := Ast.mapM_treesToJson trees room
    rw [Content.nest, Content.toJson]
    show ((treesToJson trees).mapM (Ast.ofJson? room)).map Content.list = _
    by_cases hroom : Ast.nestEach trees ≤ room
    · rw [htrees, if_pos hroom, if_pos (by omega)]
      rfl
    · rw [htrees, if_neg hroom, if_neg (by omega)]
      rfl

theorem Field.mapM_fieldsToJson : ∀ (fields : List Field) (room : Nat),
    (fieldsToJson fields).mapM (Field.ofJson? room) =
      if Field.nestAll fields ≤ room + 3 then some fields else none
  | [], room => by
    rw [fieldsToJson, Field.nestAll, if_pos (Nat.zero_le _)]
    rfl
  | .mk name t content :: rest, 0 => by
    have hnest := content.five_lt_nest
    rw [fieldsToJson, Field.nestAll, if_neg (by omega), List.mapM_cons]
    rfl
  | .mk name t content :: rest, room + 1 => by
    have hcontent := Content.ofJson?_toJson content room
    have hfield := @Field.ofJson?_of_content name t content room hcontent
    have hrest := Field.mapM_fieldsToJson rest (room + 1)
    rw [fieldsToJson, Field.nestAll]
    exact mapM_cons_eq_ite hfield hrest

theorem Ast.mapM_treesToJson : ∀ (trees : List Ast) (room : Nat),
    (treesToJson trees).mapM (Ast.ofJson? room) =
      if Ast.nestEach trees ≤ room then some trees else none
  | [], room => by
    rw [treesToJson, Ast.nestEach, if_pos (Nat.zero_le _)]
    rfl
  | tree :: rest, room => by
    have htree := Ast.ofJson?_toJson tree room
    have hrest := Ast.mapM_treesToJson rest room
    rw [treesToJson, Ast.nestEach]
    exact mapM_cons_eq_ite htree hrest

end

/-! ## Trees that were read -/

theorem exists_mem_of_mapM_eq_some {α β : Type} {f : α → Option β} {xs : List α} {ys : List β}
    (h : xs.mapM f = some ys) {y : β} (hy : y ∈ ys) : ∃ x ∈ xs, f x = some y := by
  induction xs generalizing ys with
  | nil =>
    obtain rfl : [] = ys := Option.some.inj h
    exact absurd hy List.not_mem_nil
  | cons x xs ih =>
    simp only [List.mapM_cons, bind, Option.bind_eq_some_iff, pure, Option.some.injEq] at h
    obtain ⟨z, hz, zs, hzs, rfl⟩ := h
    rcases List.mem_cons.mp hy with rfl | hy
    · exact ⟨x, List.mem_cons_self, hz⟩
    · obtain ⟨w, hw, hfw⟩ := ih hzs hy
      exact ⟨w, List.mem_cons_of_mem x hw, hfw⟩

theorem nest_of_leafOfJson? {room : Nat} {j : Json} {t : Ast} (h : leafOfJson? room j = some t) :
    1 ≤ room ∧ t.nest = 2 := by
  unfold leafOfJson? at h
  split at h
  · refine ⟨by omega, ?_⟩
    simp only [bind, Option.bind_eq_some_iff] at h
    obtain ⟨parts, -, h⟩ := h
    split at h
    · simp only [Option.bind_eq_some_iff, pure, Option.some.injEq] at h
      obtain ⟨_, -, _, -, rfl⟩ := h
      rw [Ast.nest]
    · exact nomatch h
  · exact nomatch h

-- The recursion is on the room, which every part is read with less of; a value may spell its parts
-- in another order, so it does not say which part of it a part of the tree came from.
mutual

/-- Whatever value a tree is read from, there was room for the brackets that the tree needs. -/
theorem Ast.nest_le_of_ofJson? : ∀ {room : Nat} {j : Json} {t : Ast},
    Ast.ofJson? room j = some t → t.nest ≤ room
  | 0, j, t, h => by
    unfold Ast.ofJson? at h
    exact nomatch h
  | room + 1, j, t, h => by
    unfold Ast.ofJson? at h
    split at h
    · next hroom =>
      cases hroom
      split at h
      · exact nest_le_of_nodeOfJson? h
      · split at h
        · have hleaf := nest_of_leafOfJson? h
          omega
        · exact nomatch h
    · exact nomatch h

theorem nest_le_of_nodeOfJson? : ∀ {room : Nat} {j : Json} {t : Ast},
    nodeOfJson? room j = some t → t.nest ≤ room + 1
  | 0, j, t, h | 1, j, t, h => by
    unfold nodeOfJson? at h
    exact nomatch h
  | room + 2, j, t, h => by
    unfold nodeOfJson? at h
    simp only [bind, Option.bind_eq_some_iff] at h
    obtain ⟨parts, -, h⟩ := h
    split at h
    · simp only [Option.bind_eq_some_iff, pure, Option.some.injEq] at h
      obtain ⟨_, -, fields, hfields, rfl⟩ := h
      rw [Ast.nest, Nat.max_le, Field.nestAll_le_iff]
      refine ⟨by omega, fun field hfield => ?_⟩
      obtain ⟨item, -, hitem⟩ := exists_mem_of_mapM_eq_some hfields hfield
      exact Field.nest_le_of_ofJson? hitem
    · exact nomatch h

theorem Field.nest_le_of_ofJson? : ∀ {room : Nat} {j : Json} {field : Field},
    Field.ofJson? room j = some field → field.content.nest ≤ room + 3
  | 0, j, field, h => by
    unfold Field.ofJson? at h
    exact nomatch h
  | room + 1, j, field, h => by
    unfold Field.ofJson? at h
    simp only [bind, Option.bind_eq_some_iff] at h
    obtain ⟨parts, -, h⟩ := h
    split at h
    · simp only [Option.bind_eq_some_iff, pure, Option.some.injEq] at h
      obtain ⟨_, -, _, -, content, hcontent, rfl⟩ := h
      rw [Field.content]
      exact Content.nest_le_of_ofJson? hcontent
    · exact nomatch h

theorem Content.nest_le_of_ofJson? : ∀ {room : Nat} {j : Json} {c : Content},
    Content.ofJson? room j = some c → c.nest ≤ room + 4
  | 0, j, c, h => by
    unfold Content.ofJson? at h
    exact nomatch h
  | room + 1, j, c, h => by
    unfold Content.ofJson? at h
    split at h
    · next hroom =>
      cases hroom
      split at h
      · obtain ⟨tree, htree, rfl⟩ := Option.map_eq_some_iff.mp h
        have hnest := Ast.nest_le_of_ofJson? htree
        rw [Content.nest]
        omega
      · split at h
        · split at h
          · next room items =>
            obtain ⟨trees, htrees, rfl⟩ := Option.map_eq_some_iff.mp h
            have hnest : Ast.nestEach trees ≤ room := by
              refine Ast.nestEach_le_iff.mpr fun tree htree => ?_
              obtain ⟨item, -, hitem⟩ := exists_mem_of_mapM_eq_some htrees htree
              exact Ast.nest_le_of_ofJson? hitem
            rw [Content.nest]
            omega
          · exact nomatch h
        · exact nomatch h
    · exact nomatch h

end

end TreeDerivation
