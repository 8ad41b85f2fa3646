import TreeDerivation.Derivation.Rebuild
import TreeDerivation.Proofs.Derivation.Layout

/-!
# The tree of a parse

`Parse.read` reads a parse as a tree, by recursion on the parse and with no steps or links: an
expansion is a node with the type name of its parent, and each of its fields holds what fills it.
The reading fails only where a list is encoded as one expansion and a field of that expansion holds
a text, because such a field holds no tree.

The tree that a derivation rebuilds from its steps is the reading of its parse, failures with the
numbers of their steps included (`tree_of_replay_word`).
-/

namespace TreeDerivation

/-! ## Reading a parse -/

/-- The text of a leaf that is one token. -/
def Token.text : Token → String
  | .value s => s
  | .closeNode => ""

mutual

/-- The tree of a parse whose first step has number `i`. -/
def Parse.read (i : Nat) : Parse → Except Cause Ast
  | .expand r fs => (Fill.readAll (i + 1) r.children fs).map (.node r.parent.typeName)

/-- What a field of type `t` holds. -/
def Fill.read (i : Nat) (t : NodeType) : Fill → Except Cause Content
  | .node p =>
    if t.constraint = .variadic then (p.readElements i).map .list else (p.read i).map .single
  | .list ps => (Parse.readEach i ps).map .list
  | .text pieces => .ok (.single (.leaf t.typeName (String.join pieces)))
  | .token k => .ok (.single (.leaf t.typeName k.text))

/-- The fields of a node, filled one after the other from number `i` on. -/
def Fill.readAll (i : Nat) : List (String × NodeType) → List Fill → Except Cause (List Field)
  | c :: cs, f :: fs => do
    let content ← f.read i c.2
    let fields ← Fill.readAll (i + f.word.length) cs fs
    return .mk c.1 c.2.typeName content :: fields
  | _, _ => return []

/-- The elements of an open-ended list, the first of which starts at number `i`. -/
def Parse.readEach (i : Nat) : List Parse → Except Cause (List Ast)
  | [] => return []
  | p :: ps => do
    let tree ← p.read i
    let trees ← Parse.readEach (i + p.word.length) ps
    return tree :: trees

/-- The elements of a list that is encoded as one expansion: what its fields begin with. -/
def Parse.readElements (i : Nat) : Parse → Except Cause (List Ast)
  | .expand _ fs => Fill.readFirsts (i + 1) fs

/-- The trees that fields begin with. -/
def Fill.readFirsts (i : Nat) : List Fill → Except Cause (List Ast)
  | [] => return []
  | f :: fs => do
    let tree ← f.readFirst i
    let trees ← Fill.readFirsts (i + f.word.length) fs
    return tree :: trees

/-- The tree that a field begins with; a text begins with none. -/
def Fill.readFirst (i : Nat) : Fill → Except Cause Ast
  | .node p => p.read i
  | .list _ | .text _ | .token _ => .error (.notExpansion i)

end

/-! ## Trees of steps -/

namespace Derivation

/-- The tree of step `i`. -/
def treeAt (d : Derivation) (i : Nat) : Except Cause Ast :=
  d.lookUp d.trees i

/-- The trees of the last steps, the last one first. -/
def treesOf (d : Derivation) (last : List Step) : Array (Except Cause Ast) :=
  last.foldr
    (fun s later => later.push (d.nodeOf (d.lookUp later) (d.size - 1 - later.size) s)) #[]

theorem trees_eq_treesOf (d : Derivation) : d.trees = d.treesOf d.steps.toList := by
  simp only [trees, treesOf, Array.foldr_toList]

theorem treesOf_cons (d : Derivation) (s : Step) (last : List Step) :
    d.treesOf (s :: last) = (d.treesOf last).push
      (d.nodeOf (d.lookUp (d.treesOf last)) (d.size - 1 - (d.treesOf last).size) s) := rfl

@[simp] theorem size_treesOf (d : Derivation) (last : List Step) :
    (d.treesOf last).size = last.length := by
  induction last with
  | nil => rfl
  | cons s last ih => rw [treesOf_cons, Array.size_push, ih, List.length_cons]

/-- Building the trees of earlier steps keeps those of later ones. -/
theorem getElem?_treesOf_append (d : Derivation) (before last : List Step) {k : Nat}
    (hk : k < last.length) : (d.treesOf (before ++ last))[k]? = (d.treesOf last)[k]? := by
  induction before with
  | nil => rfl
  | cons s before ih =>
    have hsize : k < (d.treesOf (before ++ last)).size := by
      rw [size_treesOf, List.length_append]
      omega
    rw [List.cons_append, treesOf_cons, Array.getElem?_push_lt hsize, ← ih,
      Array.getElem?_eq_getElem hsize]

/-- The steps before and after a step. -/
theorem exists_steps_eq {d : Derivation} {i : Nat} {s : Step} (h : d.steps[i]? = some s) :
    ∃ before last, d.steps.toList = before ++ s :: last ∧ before.length = i := by
  obtain ⟨hi, rfl⟩ := Array.getElem?_eq_some_iff.mp h
  refine ⟨d.steps.toList.take i, d.steps.toList.drop (i + 1), ?_, ?_⟩
  · rw [← Array.getElem_toList hi, List.getElem_cons_drop, List.take_append_drop]
  · rw [List.length_take, Array.length_toList]
    omega

/-- The tree of a step is built from the trees of later steps. -/
theorem exists_treeAt_eq_nodeOf {d : Derivation} {i : Nat} {s : Step} (h : d.steps[i]? = some s) :
    ∃ g, (∀ j, i < j → j < d.size → g j = d.treeAt j) ∧ d.treeAt i = d.nodeOf g i s := by
  obtain ⟨before, last, hsplit, rfl⟩ := exists_steps_eq h
  have hsize : d.size = before.length + 1 + last.length := by
    rw [size, ← Array.length_toList, hsplit, List.length_append, List.length_cons]
    omega
  refine ⟨d.lookUp (d.treesOf last), ?_, ?_⟩
  · intro j hij hj
    have hk : d.size - 1 - j < last.length := by omega
    rw [treeAt, trees_eq_treesOf, lookUp, lookUp, if_pos hj, if_pos hj, hsplit, List.append_cons,
      getElem?_treesOf_append d _ _ hk]
  · have hk : d.size - 1 - before.length < (s :: last).length := by
      rw [List.length_cons]
      omega
    have hlast : d.size - 1 - before.length = (d.treesOf last).size := by
      rw [size_treesOf]
      omega
    have hnumber : d.size - 1 - (d.treesOf last).size = before.length := by
      rw [size_treesOf]
      omega
    rw [treeAt, trees_eq_treesOf, lookUp, if_pos (by omega), hsplit,
      getElem?_treesOf_append d _ _ hk, treesOf_cons, hlast, Array.getElem?_push_size,
      Option.getD_some, hnumber]

/-! ## Steps in place -/

/-- Whether the steps from number `i` on are the given ones. -/
def Holds (d : Derivation) (i : Nat) (ss : List Step) : Prop :=
  ∀ k s, ss[k]? = some s → d.steps[i + k]? = some s

theorem Holds.head {d : Derivation} {i : Nat} {s : Step} {ss : List Step}
    (h : d.Holds i (s :: ss)) : d.steps[i]? = some s :=
  h 0 s rfl

theorem Holds.tail {d : Derivation} {i : Nat} {s : Step} {ss : List Step}
    (h : d.Holds i (s :: ss)) : d.Holds (i + 1) ss := by
  intro k s' hk
  rw [Nat.add_assoc, Nat.add_comm 1 k]
  exact h (k + 1) s' hk

theorem Holds.left {d : Derivation} {i : Nat} {ss ts : List Step} (h : d.Holds i (ss ++ ts)) :
    d.Holds i ss := by
  intro k s hk
  apply h k s
  rw [List.getElem?_append_left (List.getElem?_eq_some_iff.mp hk).1]
  exact hk

theorem Holds.right {d : Derivation} {i : Nat} {ss ts : List Step} (h : d.Holds i (ss ++ ts)) :
    d.Holds (i + ss.length) ts := by
  intro k s hk
  rw [Nat.add_assoc]
  apply h (ss.length + k) s
  rw [List.getElem?_append_right (Nat.le_add_right _ _), Nat.add_sub_cancel_left]
  exact hk

theorem Holds.lt {d : Derivation} {i : Nat} {s : Step} {ss : List Step}
    (h : d.Holds i (s :: ss)) : i < d.size :=
  (Array.getElem?_eq_some_iff.mp h.head).1

theorem Holds.action? {d : Derivation} {i : Nat} {s : Step} {ss : List Step}
    (h : d.Holds i (s :: ss)) : d.action? i = some s.action := by
  simp [Derivation.action?, h.head]

/-- A step that opens no node has no tree. -/
theorem Holds.treeAt_plain {d : Derivation} {i : Nat} {slot : Slot} {k : Token} {ss : List Step}
    (h : d.Holds i (.plain slot (.generateToken k) :: ss)) :
    d.treeAt i = .error (.notExpansion i) := by
  obtain ⟨g, -, htree⟩ := exists_treeAt_eq_nodeOf h.head
  rw [htree]
  rfl

/-! ## Reading the steps of a parse -/

/-- The texts of the pieces up to the sentinel. -/
theorem leadingTexts_range' {d : Derivation} {slot : Slot} (pieces : List String) {i : Nat}
    (h : d.Holds i ((pieceActions pieces ++ [Action.generateToken .closeNode]).map
      (Step.plain slot))) :
    d.leadingTexts (List.range' i (pieces.length + 1)) = pieces := by
  induction pieces generalizing i with
  | nil =>
    have hclose : d.action? i = some (.generateToken .closeNode) := h.action?
    simp [leadingTexts, hclose]
  | cons s pieces ih =>
    have hpiece : d.action? i = some (.generateToken (.value s)) := h.action?
    rw [List.length_cons, List.range'_succ, leadingTexts, hpiece]
    simp only [List.cons.injEq, true_and]
    exact ih h.tail

/-- The elements of a list up to the sentinel. -/
theorem beforeClose_starts {d : Derivation} {slot : Slot} (ps : List Parse) {i : Nat}
    (h : d.Holds i (Parse.eachSteps slot i ps ++ [.plain slot (.applyRule .closeVariadic)])) :
    d.beforeClose (Parse.starts i ps ++ [i + (Parse.words ps).length]) = Parse.starts i ps := by
  induction ps generalizing i with
  | nil =>
    have hclose : d.action? i = some (.applyRule .closeVariadic) := h.action?
    simp [beforeClose, Parse.starts, Parse.words, hclose]
  | cons p ps ih =>
    obtain ⟨r, fs⟩ := p
    rw [Parse.eachSteps, List.append_assoc] at h
    have hopen : d.action? i = some (.applyRule (.expandTree r)) := by
      have hleft := h.left
      rw [Parse.steps] at hleft
      exact hleft.action?
    have hrest := h.right
    rw [Parse.length_steps] at hrest
    have hlength : i + (Parse.words (.expand r fs :: ps)).length =
        i + (Parse.expand r fs).word.length + (Parse.words ps).length := by
      rw [Parse.words, List.length_append, Nat.add_assoc]
    rw [Parse.starts, hlength, List.cons_append, beforeClose, List.takeWhile_cons_of_pos]
    · exact congrArg (i :: ·) (ih hrest)
    · simp [hopen]

/-- A function gives the trees of the steps from number `i` on. -/
def Agrees (d : Derivation) (i : Nat) (g : Nat → Except Cause Ast) : Prop :=
  ∀ j, i ≤ j → j < d.size → g j = d.treeAt j

theorem Agrees.mono {d : Derivation} {i j : Nat} {g : Nat → Except Cause Ast}
    (h : d.Agrees i g) (hij : i ≤ j) : d.Agrees j g :=
  fun k hjk hk => h k (Nat.le_trans hij hjk) hk

theorem Agrees.eq_treeAt {d : Derivation} {i : Nat} {parent : Option Slot}
    {g : Nat → Except Cause Ast} {p : Parse} (hg : d.Agrees i g)
    (h : d.Holds i (p.steps i parent)) : g i = d.treeAt i := by
  obtain ⟨r, fs⟩ := p
  rw [Parse.steps] at h
  exact hg i (Nat.le_refl i) h.lt

mutual

theorem treeAt_eq_read {admits : NodeType → Expansion → Prop} :
    ∀ (p : Parse) {d : Derivation} {i : Nat} {parent : Option Slot},
      d.Holds i (p.steps i parent) → p.Fits d.encoding admits → d.treeAt i = p.read i
  | .expand r fs, d, i, parent, h, hp => by
    rw [Parse.steps] at h
    rw [Parse.Fits] at hp
    obtain ⟨g, hg, htree⟩ := exists_treeAt_eq_nodeOf h.head
    have hfields := mapM_fieldContent fs i h.tail hp (g := g) hg
    rw [htree, Parse.read, ← hfields, nodeOf]
    simp only [Step.expansion?, Step.opening, slotsOf]
    rfl

theorem fieldContent_eq_read {admits : NodeType → Expansion → Prop} :
    ∀ (f : Fill) {d : Derivation} {g : Nat → Except Cause Ast} (owner : Nat) {i : Nat}
      {slot : Slot} {c : String × NodeType}, d.Holds i (f.steps slot i) →
      f.Fits d.encoding admits c.2 → d.Agrees i g →
      d.fieldContent g owner c (f.links i).toArray = f.read i c.2
  | .node (.expand r fs), d, g, owner, i, slot, c, h, hf, hg => by
    obtain ⟨hone, -, hp⟩ := hf
    rw [Fill.steps] at h
    have htree : g i = (Parse.expand r fs).read i :=
      (hg.eq_treeAt h).trans (treeAt_eq_read (.expand r fs) h hp)
    rw [Fill.read, Fill.links]
    rcases hone with hc | ⟨hc, he⟩
    · simp [fieldContent, hc, htree]
    · rw [Parse.steps] at h
      rw [Parse.Fits] at hp
      have helements := mapM_firsts fs i h.tail hp he (hg.mono (Nat.le_succ i))
      have hslots : d.slots? i = some (slotsOf (Fill.allLinks (i + 1) fs)) := by
        simp [slots?, h.head, Step.opening]
      have hencoded : d.encodedElements g i = Fill.readFirsts (i + 1) fs := by
        unfold encodedElements
        rw [hslots]
        exact helements
      simp [fieldContent, hc, he, hencoded, Parse.readElements]
  | .list ps, d, g, owner, i, slot, c, h, hf, hg => by
    obtain ⟨⟨hc, he⟩, hps⟩ := hf
    rw [Fill.steps] at h
    rw [Fill.read, Fill.links, ← mapM_starts ps h.left hps hg]
    simp [fieldContent, hc, he, beforeClose_starts ps h]
  | .text pieces, d, g, owner, i, slot, c, h, hf, hg => by
    rw [Fill.steps] at h
    rw [Fill.read, Fill.links]
    simp [fieldContent, hf.1, leadingTexts_range' pieces h]
  | .token k, d, g, owner, i, slot, c, h, hf, hg => by
    rw [Fill.steps] at h
    have htoken : d.action? i = some (.generateToken k) := h.action?
    rw [Fill.read, Fill.links]
    cases k with
    | value s => simp [fieldContent, hf.1, leadingTexts, htoken, Token.text, String.join]
    | closeNode => simp [fieldContent, hf.1, leadingTexts, htoken, Token.text, String.join]

theorem mapM_fieldContent {admits : NodeType → Expansion → Prop} :
    ∀ (fs : List Fill) {d : Derivation} {g : Nat → Except Cause Ast} (owner : Nat) {k i : Nat}
      {cs : List (String × NodeType)}, d.Holds i (Fill.allSteps owner k i fs) →
      Fill.FitAll d.encoding admits (cs.map Prod.snd) fs → d.Agrees i g →
      ((cs.zip ((Fill.allLinks i fs).map List.toArray)).mapM fun (c, slot) => do
        return Field.mk c.1 c.2.typeName (← d.fieldContent g owner c slot)) =
        Fill.readAll i cs fs
  | [], d, g, owner, k, i, cs, h, hfs, hg => by
    cases cs with
    | nil => rfl
    | cons c cs => exact absurd hfs (by simp [Fill.FitAll])
  | f :: fs, d, g, owner, k, i, cs, h, hfs, hg => by
    cases cs with
    | nil => exact absurd hfs (by simp [Fill.FitAll])
    | cons c cs =>
      rw [Fill.allSteps] at h
      have hright := h.right
      rw [Fill.length_steps] at hright
      have hfirst := fieldContent_eq_read f owner h.left hfs.1 hg
      have hrest := mapM_fieldContent fs owner hright hfs.2 (hg.mono (Nat.le_add_right i _))
      rw [Fill.allLinks, List.map_cons, List.zip_cons_cons, List.mapM_cons, Fill.readAll]
      dsimp only
      rw [hfirst, hrest]
      cases f.read i c.2 with
      | error x => rfl
      | ok content => rfl

theorem mapM_starts {admits : NodeType → Expansion → Prop} :
    ∀ (ps : List Parse) {d : Derivation} {g : Nat → Except Cause Ast} {i : Nat} {slot : Slot}
      {t : NodeType}, d.Holds i (Parse.eachSteps slot i ps) →
      Parse.FitEach d.encoding admits t ps → d.Agrees i g →
      (Parse.starts i ps).mapM g = Parse.readEach i ps
  | [], d, g, i, slot, t, h, hps, hg => by
    rw [Parse.starts, Parse.readEach, List.mapM_nil]
  | p :: ps, d, g, i, slot, t, h, hps, hg => by
    rw [Parse.eachSteps] at h
    have hright := h.right
    rw [Parse.length_steps] at hright
    have htree : g i = p.read i := (hg.eq_treeAt h.left).trans (treeAt_eq_read p h.left hps.1.2)
    have hrest := mapM_starts ps hright hps.2 (hg.mono (Nat.le_add_right i _))
    rw [Parse.starts, List.mapM_cons, Parse.readEach, htree, hrest]

theorem mapM_firsts {admits : NodeType → Expansion → Prop} :
    ∀ (fs : List Fill) {d : Derivation} {g : Nat → Except Cause Ast} {owner k i : Nat}
      {ts : List NodeType} (m : Nat), d.Holds i (Fill.allSteps owner k i fs) →
      Fill.FitAll d.encoding admits ts fs → d.encoding.retainVariadic = false → d.Agrees i g →
      (((Fill.allLinks i fs).map List.toArray).mapM fun slot =>
        match slot[0]? with
        | some child => g child
        | none => .error (.emptyElement m)) = Fill.readFirsts i fs
  | [], d, g, owner, k, i, ts, m, h, hfs, he, hg => by
    rw [Fill.allLinks, List.map_nil, List.mapM_nil, Fill.readFirsts]
  | f :: fs, d, g, owner, k, i, ts, m, h, hfs, he, hg => by
    cases ts with
    | nil => exact absurd hfs (by simp [Fill.FitAll])
    | cons t ts =>
      rw [Fill.allSteps] at h
      have hright := h.right
      rw [Fill.length_steps] at hright
      have hrest := mapM_firsts fs m hright hfs.2 he (hg.mono (Nat.le_add_right i _))
      obtain ⟨hlink, hfirst⟩ := eq_readFirst f h.left hfs.1 he hg
      rw [Fill.allLinks, List.map_cons, List.mapM_cons, Fill.readFirsts, hrest, hlink]
      simp only [hfirst]

theorem eq_readFirst {admits : NodeType → Expansion → Prop} :
    ∀ (f : Fill) {d : Derivation} {g : Nat → Except Cause Ast} {i : Nat} {slot : Slot}
      {t : NodeType}, d.Holds i (f.steps slot i) → f.Fits d.encoding admits t →
      d.encoding.retainVariadic = false → d.Agrees i g →
      (f.links i).toArray[0]? = some i ∧ g i = f.readFirst i
  | .node p, d, g, i, slot, t, h, hf, he, hg => by
    rw [Fill.steps] at h
    exact ⟨rfl, (hg.eq_treeAt h).trans (treeAt_eq_read p h hf.2.2)⟩
  | .list ps, d, g, i, slot, t, h, hf, he, hg => by
    simp [Fill.Fits, takesMany, he] at hf
  | .text pieces, d, g, i, slot, t, h, hf, he, hg => by
    refine ⟨by simp [Fill.links, List.range'_succ], ?_⟩
    rw [Fill.steps] at h
    cases pieces with
    | nil => exact (hg i (Nat.le_refl i) h.lt).trans h.treeAt_plain
    | cons s pieces => exact (hg i (Nat.le_refl i) h.lt).trans h.treeAt_plain
  | .token k, d, g, i, slot, t, h, hf, he, hg => by
    rw [Fill.steps] at h
    exact ⟨rfl, (hg i (Nat.le_refl i) h.lt).trans h.treeAt_plain⟩

end

theorem holds_toArray (e : Encoding) (ss : List Step) (spine : List OpenNode) :
    Holds ⟨e, ss.toArray, spine⟩ 0 ss := by
  intro k s hk
  simpa using hk

/-- The tree of a complete derivation is the reading of its parse. -/
theorem tree_of_replay_word {e : Encoding} {admits : NodeType → Expansion → Prop} {p : Parse}
    (hp : p.Fits e admits) : ∃ d, replay e p.word = .ok d ∧ d.isComplete = true ∧
      d.tree = (p.read 0).mapError Failure.of := by
  refine ⟨_, replay_word hp, isComplete_steps e p, ?_⟩
  rw [tree, if_pos (isComplete_steps e p), ← treeAt_eq_read p (holds_toArray e _ []) hp]
  rfl

end Derivation

end TreeDerivation
