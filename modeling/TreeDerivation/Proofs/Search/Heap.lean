import TreeDerivation.Proofs.Search.Standings

/-!
# A selector that numbers its offers

`TopK` keeps a list in order, and an item that has come later stands lower only because of where it
was put. Here nothing is in order: an offer whose score is a number gets the next number, which is
kept with it, and `Numbered.rank` compares scores first and then numbers. A heap that is full gives
up its lowest item for an offer that ranks above it, and what is left in the end is sorted.

Both hold the same offers at any time and say the same about them (`Heap.after_agrees`): the items
of the heap, put in order, are the list (`Heap.Mirrors`), and they still are after one more offer to
both (`Heap.Mirrors.add`). No two items are tied, since no number is given twice. So there is one
lowest item, wherever the heap has it, which is the last of the list (`Heap.Mirrors.exists_init`),
and one way to sort what is left.
-/

namespace TreeDerivation

variable {α : Type}

/-- What is kept of an offer: its score, its number and its payload. -/
abbrev Numbered (α : Type) :=
  Score × Nat × α

namespace Numbered

/-- The order of what is kept: by score, and of two equal scores the earlier ranks higher. -/
def rank (x y : Numbered α) : Ordering :=
  (compare x.1.rank y.1.rank).then (compare y.2.1 x.2.1)

/-- Whether an item was offered before another one. -/
def Earlier (x y : Numbered α) : Prop :=
  x.2.1 < y.2.1

/-- Whether an item ranks above another one, by `rank`. -/
abbrev Above : Numbered α → Numbered α → Prop :=
  TopK.Outranks Earlier

theorem above_iff {x y : Numbered α} :
    Above x y ↔ y.1.rank < x.1.rank ∨ x.1.rank = y.1.rank ∧ x.2.1 < y.2.1 := Iff.rfl

theorem rank_eq_gt_iff {x y : Numbered α} : rank x y = .gt ↔ Above x y := by
  rw [rank, Ordering.then_eq_gt, Nat.compare_eq_gt, Nat.compare_eq_eq, Nat.compare_eq_gt, above_iff]

theorem rank_eq_lt_iff {x y : Numbered α} : rank x y = .lt ↔ Above y x := by
  rw [rank, Ordering.then_eq_lt, Nat.compare_eq_lt, Nat.compare_eq_eq, Nat.compare_eq_lt, eq_comm,
    above_iff]

theorem isGE_rank_iff {x y : Numbered α} : (rank x y).isGE = true ↔ ¬ Above y x := by
  rw [← rank_eq_lt_iff]
  cases rank x y <;> decide

theorem not_above_self (x : Numbered α) : ¬ Above x x := by
  rw [above_iff]
  omega

theorem above_trans {x y z : Numbered α} (hxy : Above x y) (hyz : Above y z) : Above x z := by
  rw [above_iff] at hxy hyz ⊢
  omega

theorem isGE_rank_trans (x y z : Numbered α) (hxy : (rank x y).isGE = true)
    (hyz : (rank y z).isGE = true) : (rank x z).isGE = true := by
  rw [isGE_rank_iff, above_iff] at hxy hyz ⊢
  omega

theorem isGE_rank_total (x y : Numbered α) : ((rank x y).isGE || (rank y x).isGE) = true := by
  rw [Bool.or_eq_true, isGE_rank_iff, isGE_rank_iff, above_iff, above_iff]
  omega

/-- Where each item ranks above all that follow, no two are tied. -/
theorem eq_of_not_above {ranked : List (Numbered α)} (h : ranked.Pairwise Above)
    {x y : Numbered α} (hx : x ∈ ranked) (hy : y ∈ ranked) (hxy : ¬ Above x y)
    (hyx : ¬ Above y x) : x = y :=
  List.Pairwise.forall_of_forall_of_flip (R := fun x y => ¬ Above x y → ¬ Above y x → x = y)
    (fun _ _ _ _ => rfl) (h.imp fun habove hxy _ => absurd habove hxy)
    (h.imp fun habove _ hyx => absurd habove hyx) hx hy hxy hyx

/-- An item that comes later ranks above another one if its score is better. -/
theorem rank_eq_gt_iff_better {x y : Numbered α} (h : Earlier y x) :
    rank x y = .gt ↔ x.1.better y.1 = true := by
  rw [Earlier] at h
  rw [rank_eq_gt_iff, above_iff, Score.better, decide_eq_true_iff]
  omega

end Numbered

/-- A selector that keeps what it was offered in a heap, and counts the offers whose score is a
number. -/
structure Heap (α : Type) where
  capacity : Nat
  items : List (Numbered α)
  offered : Nat

namespace Heap

/-! ## The selector -/

/-- The selector that was offered nothing. -/
def empty (capacity : Nat) : Heap α :=
  ⟨capacity, [], 0⟩

/-- The lowest item, and all others. -/
def pop? : List (Numbered α) → Option (Numbered α × List (Numbered α))
  | [] => none
  | x :: rest =>
    match pop? rest with
    | none => some (x, rest)
    | some (lowest, others) =>
      if Numbered.rank x lowest = .lt then some (x, rest) else some (lowest, x :: others)

/-- The lowest score that is kept. -/
def minScore? (h : Heap α) : Option Score :=
  (pop? h.items).map fun popped => popped.1.1

/-- Makes one more offer; tells whether it was kept. -/
def add (h : Heap α) (s : Score) (a : α) : Bool × Heap α :=
  if s.isNaN then (false, h)
  else
    let item : Numbered α := (s, h.offered, a)
    if h.items.length < h.capacity then
      (true, { h with items := item :: h.items, offered := h.offered + 1 })
    else
      match pop? h.items with
      | none => (false, { h with offered := h.offered + 1 })
      | some (lowest, others) =>
        if Numbered.rank item lowest = .gt then
          (true, { h with items := item :: others, offered := h.offered + 1 })
        else (false, { h with offered := h.offered + 1 })

/-- What is kept, best first. -/
def sorted (h : Heap α) : List (Score × α) :=
  (h.items.mergeSort fun x y => (Numbered.rank x y).isGE).map (Prod.map id Prod.snd)

/-- The selector after a stream of offers. -/
def after (capacity : Nat) (offers : List (Score × α)) : Heap α :=
  offers.foldl (fun h offer => (h.add offer.1 offer.2).2) (empty capacity)

/-! ## The lowest item -/

theorem pop?_eq_none {items : List (Numbered α)} (h : pop? items = none) : items = [] := by
  cases items with
  | nil => rfl
  | cons x rest =>
    rw [pop?] at h
    split at h
    · exact nomatch h
    · split at h <;> exact nomatch h

theorem perm_of_pop? {items others : List (Numbered α)} {lowest : Numbered α}
    (h : pop? items = some (lowest, others)) : (lowest :: others).Perm items := by
  induction items generalizing lowest others with
  | nil => exact nomatch h
  | cons x rest ih =>
    rw [pop?] at h
    split at h
    next =>
      cases h
      exact .refl _
    next lowest' others' hrest =>
      split at h
      · cases h
        exact .refl _
      · cases h
        exact (List.Perm.swap x lowest others').trans ((ih hrest).cons x)

/-- No item ranks below the one that is popped. -/
theorem not_above_of_pop? {items others : List (Numbered α)} {lowest : Numbered α}
    (h : pop? items = some (lowest, others)) : ∀ y ∈ items, ¬ Numbered.Above lowest y := by
  induction items generalizing lowest others with
  | nil => exact nomatch h
  | cons x rest ih =>
    rw [pop?] at h
    intro y hy
    split at h
    next hrest =>
      cases h
      obtain rfl : y = x := by simpa [pop?_eq_none hrest] using hy
      exact Numbered.not_above_self y
    next lowest' others' hrest =>
      split at h
      next hlt =>
        cases h
        have hbelow := Numbered.rank_eq_lt_iff.mp hlt
        rcases List.mem_cons.mp hy with rfl | hy
        · exact Numbered.not_above_self y
        · exact fun hlower => ih hrest y hy (Numbered.above_trans hbelow hlower)
      next hnot =>
        cases h
        rcases List.mem_cons.mp hy with rfl | hy
        · exact fun hlower => hnot (Numbered.rank_eq_lt_iff.mpr hlower)
        · exact ih hrest y hy

/-! ## The heap and the list -/

/-- Whether a heap holds what a list of the best holds: put in order, its items are the list. -/
structure Mirrors (h : Heap α) (t : TopK α) : Prop where
  capacity_eq : h.capacity = t.capacity
  length_le : h.items.length ≤ h.capacity
  number_lt : ∀ x ∈ h.items, x.2.1 < h.offered
  exists_ranked : ∃ ranked : List (Numbered α), ranked.Perm h.items ∧
    ranked.Pairwise Numbered.Above ∧ ranked.map (Prod.map id Prod.snd) = t.kept

namespace Mirrors

variable {h : Heap α} {t : TopK α}

theorem empty (capacity : Nat) : Mirrors (Heap.empty capacity : Heap α) (.empty capacity) where
  capacity_eq := rfl
  length_le := Nat.zero_le capacity
  number_lt _ hx := absurd hx List.not_mem_nil
  exists_ranked := ⟨[], .nil, .nil, rfl⟩

theorem length_eq (hm : Mirrors h t) : h.items.length = t.size := by
  obtain ⟨ranked, hperm, -, hkept⟩ := hm.exists_ranked
  rw [TopK.size, ← hkept, List.length_map, hperm.length_eq]

/-- The lowest item of the heap is the last of the list. -/
theorem exists_init (hm : Mirrors h t) {lowest : Numbered α} {others : List (Numbered α)}
    (hpop : pop? h.items = some (lowest, others)) :
    ∃ init : List (Numbered α), init.Perm others ∧ init.Pairwise Numbered.Above ∧
      t.kept = init.map (Prod.map id Prod.snd) ++ [(lowest.1, lowest.2.2)] := by
  obtain ⟨ranked, hperm, hranked, hkept⟩ := hm.exists_ranked
  have hpopped := perm_of_pop? hpop
  rcases List.eq_nil_or_concat ranked with rfl | ⟨init, last, rfl⟩
  · rw [← hperm.nil_eq] at hpop
    exact nomatch hpop
  · rw [List.concat_eq_append] at hperm hranked hkept
    obtain ⟨hinit, -, hlast⟩ := List.pairwise_append.mp hranked
    obtain rfl : lowest = last := by
      have hlowest : lowest ∈ init ++ [last] :=
        hperm.mem_iff.mpr (hpopped.mem_iff.mp List.mem_cons_self)
      rcases List.mem_append.mp hlowest with hearlier | hsingle
      · have hbelow := not_above_of_pop? hpop last (hperm.mem_iff.mp (by simp))
        exact absurd (hlast lowest hearlier last List.mem_cons_self) hbelow
      · exact List.mem_singleton.mp hsingle
    have hsame : (lowest :: init).Perm (lowest :: others) :=
      (List.perm_append_singleton lowest init).symm.trans (hperm.trans hpopped.symm)
    rw [List.map_append] at hkept
    exact ⟨init, hsame.cons_inv, hinit, hkept.symm⟩

theorem minScore?_eq (hm : Mirrors h t) : h.minScore? = t.minScore? := by
  rw [minScore?, TopK.minScore?]
  cases hpop : pop? h.items with
  | none =>
    have hsize := hm.length_eq
    rw [pop?_eq_none hpop] at hsize
    rw [List.eq_nil_of_length_eq_zero hsize.symm]
    rfl
  | some popped =>
    obtain ⟨init, -, -, hkept⟩ := hm.exists_init hpop
    rw [hkept, List.getLast?_concat]
    rfl

/-- No two items are tied, so there is one way to sort them. -/
theorem sorted_eq (hm : Mirrors h t) : h.sorted = t.kept := by
  obtain ⟨ranked, hperm, hranked, hkept⟩ := hm.exists_ranked
  have hsame : (h.items.mergeSort fun x y => (Numbered.rank x y).isGE).Perm ranked :=
    (List.mergeSort_perm _ _).trans hperm.symm
  have hsorted : (h.items.mergeSort fun x y => (Numbered.rank x y).isGE) = ranked := by
    refine hsame.eq_of_pairwise ?antisymm
      (List.pairwise_mergeSort Numbered.isGE_rank_trans Numbered.isGE_rank_total _)
      (hranked.imp ?descending)
    case antisymm =>
      intro x y hx hy hxy hyx
      exact Numbered.eq_of_not_above hranked (hsame.mem_iff.mp hx) hy
        (Numbered.isGE_rank_iff.mp hyx) (Numbered.isGE_rank_iff.mp hxy)
    case descending =>
      intro x y hxy
      exact Numbered.isGE_rank_iff.mpr fun hyx =>
        Numbered.not_above_self x (Numbered.above_trans hxy hyx)
  rw [sorted, hsorted, hkept]

/-- An offer that is counted but not kept changes nothing of what is held. -/
theorem count (hm : Mirrors h t) : Mirrors { h with offered := h.offered + 1 } t where
  capacity_eq := hm.capacity_eq
  length_le := hm.length_le
  number_lt x hx := Nat.lt_succ_of_lt (hm.number_lt x hx)
  exists_ranked := hm.exists_ranked

theorem admits_of_lt (hm : Mirrors h t) {s : Score} (hs : s.isNaN = false)
    (hroom : h.items.length < h.capacity) : t.admits s = true := by
  rw [hm.length_eq, hm.capacity_eq] at hroom
  rw [TopK.admits, hs, decide_eq_true hroom]
  rfl

theorem admits_of_not_lt (hm : Mirrors h t) {s : Score} (hs : s.isNaN = false)
    (hfull : ¬ h.items.length < h.capacity) :
    t.admits s = (pop? h.items).any fun popped => s.better popped.1.1 := by
  rw [TopK.admits, hs, ← hm.minScore?_eq, ← hm.length_eq, ← hm.capacity_eq, decide_eq_false hfull,
    minScore?, Option.any_map]
  rfl

/-- One more item beside some that are held, if the list has it in its place among them. -/
theorem of_place (hm : Mirrors h t) {s : Score} {a : α} {others ranked : List (Numbered α)}
    (hothers : ∀ x ∈ others, x ∈ h.items) (hroom : others.length < h.capacity)
    (hperm : ranked.Perm others) (hranked : ranked.Pairwise Numbered.Above)
    (hkept : (t.add s a).kept = TopK.place (s, a) (ranked.map (Prod.map id Prod.snd))) :
    Mirrors { h with items := (s, h.offered, a) :: others, offered := h.offered + 1 }
      (t.add s a) := by
  let item : Numbered α := (s, h.offered, a)
  have hearlier : ∀ x ∈ others, x.2.1 < h.offered := fun x hx => hm.number_lt x (hothers x hx)
  refine
    { capacity_eq := hm.capacity_eq.trans (TopK.capacity_add t s a).symm
      length_le := hroom
      number_lt := ?number_lt
      exists_ranked := ⟨TopK.place item ranked, ?perm, ?ranked, ?kept⟩ }
  case number_lt =>
    intro x hx
    rcases List.mem_cons.mp hx with rfl | hx
    · exact Nat.lt_succ_self _
    · exact Nat.lt_succ_of_lt (hearlier x hx)
  case perm => exact (TopK.perm_place item ranked).trans (hperm.cons item)
  case ranked =>
    exact TopK.pairwise_place hranked fun x hx => hearlier x (hperm.mem_iff.mp hx)
  case kept =>
    rw [hkept, TopK.map_place]
    rfl

/-- One more item, where there is room for it. -/
theorem push (hm : Mirrors h t) {s : Score} (hs : s.isNaN = false) (a : α)
    (hroom : h.items.length < h.capacity) :
    Mirrors { h with items := (s, h.offered, a) :: h.items, offered := h.offered + 1 }
      (t.add s a) := by
  obtain ⟨ranked, hperm, hranked, hkept⟩ := hm.exists_ranked
  have hlength : (TopK.place (s, a) t.kept).length ≤ t.capacity := by
    rw [(TopK.perm_place (s, a) t.kept).length_eq, ← hm.capacity_eq]
    exact Nat.lt_of_le_of_lt (Nat.le_of_eq hm.length_eq.symm) hroom
  refine hm.of_place (fun _ hx => hx) hroom hperm hranked ?_
  rw [TopK.add, if_pos (hm.admits_of_lt hs hroom), hkept]
  exact List.take_of_length_le hlength

/-- One more item in the place of the lowest one. -/
theorem replace (hm : Mirrors h t) {s : Score} (hs : s.isNaN = false) (a : α)
    (hfull : ¬ h.items.length < h.capacity) {lowest : Numbered α} {others : List (Numbered α)}
    (hpop : pop? h.items = some (lowest, others)) (hbetter : s.better lowest.1 = true) :
    Mirrors { h with items := (s, h.offered, a) :: others, offered := h.offered + 1 }
      (t.add s a) := by
  obtain ⟨init, hinit, hranked, hkept⟩ := hm.exists_init hpop
  have hpopped := perm_of_pop? hpop
  have hcapacity : others.length + 1 = h.capacity :=
    hpopped.length_eq.trans (Nat.le_antisymm hm.length_le (Nat.le_of_not_lt hfull))
  have hadmits : t.admits s = true := by
    rw [hm.admits_of_not_lt hs hfull, hpop]
    exact hbetter
  have hlength : (TopK.place (s, a) (init.map (Prod.map id Prod.snd))).length = t.capacity := by
    rw [(TopK.perm_place _ _).length_eq, List.length_cons, List.length_map, hinit.length_eq,
      hcapacity, hm.capacity_eq]
  refine hm.of_place (fun x hx => hpopped.mem_iff.mp (List.mem_cons_of_mem lowest hx))
    (Nat.lt_of_succ_le (Nat.le_of_eq hcapacity)) hinit hranked ?_
  -- the new item goes before the last one, which falls off
  rw [TopK.add, if_pos hadmits, hkept, ← hlength]
  dsimp only
  rw [TopK.place_append_singleton _ hbetter, List.take_left]

/-- Whether an offer is kept, and what is held after it. -/
theorem add (hm : Mirrors h t) (s : Score) (a : α) :
    (h.add s a).1 = t.admits s ∧ Mirrors (h.add s a).2 (t.add s a) := by
  have hrefused : t.admits s = false → t.add s a = t := fun h => by
    rw [TopK.add, if_neg (by simp [h])]
  rw [Heap.add]
  cases hs : s.isNaN with
  | true =>
    have hadmits : t.admits s = false := by rw [TopK.admits, hs]; rfl
    rw [if_pos rfl, hrefused hadmits]
    exact ⟨hadmits.symm, hm⟩
  | false =>
    rw [if_neg Bool.false_ne_true]
    dsimp only
    split
    next hroom => exact ⟨(hm.admits_of_lt hs hroom).symm, hm.push hs a hroom⟩
    next hfull =>
      have hadmits := hm.admits_of_not_lt hs hfull
      split
      next hpop =>
        rw [hpop] at hadmits
        rw [hrefused hadmits]
        exact ⟨hadmits.symm, hm.count⟩
      next lowest others hpop =>
        have hlater : Numbered.Earlier lowest (s, h.offered, a) :=
          hm.number_lt lowest ((perm_of_pop? hpop).mem_iff.mp List.mem_cons_self)
        rw [hpop] at hadmits
        split
        next hgt =>
          have hbetter := (Numbered.rank_eq_gt_iff_better hlater).mp hgt
          exact ⟨(hadmits.trans hbetter).symm, hm.replace hs a hfull hpop hbetter⟩
        next hnot =>
          have hworse : s.better lowest.1 = false := Bool.eq_false_iff.mpr fun hbetter =>
            hnot ((Numbered.rank_eq_gt_iff_better hlater).mpr hbetter)
          rw [hrefused (hadmits.trans hworse)]
          exact ⟨(hadmits.trans hworse).symm, hm.count⟩

theorem foldl_add (hm : Mirrors h t) (offers : List (Score × α)) :
    Mirrors (offers.foldl (fun h offer => (h.add offer.1 offer.2).2) h)
      (offers.foldl (fun t offer => t.add offer.1 offer.2) t) := by
  induction offers generalizing h t with
  | nil => exact hm
  | cons offer offers ih => exact ih (hm.add offer.1 offer.2).2

end Mirrors

/-! ## A stream of offers -/

theorem offered_add (h : Heap α) (s : Score) (a : α) :
    (h.add s a).2.offered = if s.isNaN then h.offered else h.offered + 1 := by
  rw [add]
  split
  · rfl
  · dsimp only
    split
    · rfl
    · split
      · rfl
      · split <;> rfl

theorem offered_foldl_add (offers : List (Score × α)) (h : Heap α) :
    (offers.foldl (fun h offer => (h.add offer.1 offer.2).2) h).offered =
      h.offered + (offers.filter fun offer => !offer.1.isNaN).length := by
  induction offers generalizing h with
  | nil => rfl
  | cons offer offers ih =>
    rw [List.foldl_cons, ih, offered_add]
    cases hs : offer.1.isNaN with
    | true => rw [if_pos rfl, List.filter_cons_of_neg (by simp [hs])]
    | false =>
      rw [if_neg Bool.false_ne_true, List.filter_cons_of_pos (by simp [hs]), List.length_cons]
      omega

/-- At any time of a stream a heap and a list of the best have kept the same offers, as many, with
the same lowest score, and they agree on whether the next offer is kept. A heap has given away as
many numbers as there were numbers among the scores. -/
theorem after_agrees (capacity : Nat) (offers : List (Score × α)) :
    let h := after capacity offers
    let t := TopK.after capacity offers
    h.sorted = t.kept ∧ h.items.length = t.size ∧ h.minScore? = t.minScore? ∧
      (∀ s a, (h.add s a).1 = t.admits s) ∧
      h.offered = (offers.filter fun offer => !offer.1.isNaN).length := by
  intro h t
  have hm : Mirrors h t := (Mirrors.empty capacity).foldl_add offers
  refine ⟨hm.sorted_eq, hm.length_eq, hm.minScore?_eq, fun s a => (hm.add s a).1, ?_⟩
  exact (offered_foldl_add offers (empty capacity)).trans (Nat.zero_add _)

/-- Of two zeros the later one gives way. -/
example : (after 2 [(.zero, "a"), (.nan, "b"), (.zero, "c"), (.infinity, "d")]).items =
    [(.infinity, 2, "d"), (.zero, 0, "a")] := by decide

end Heap

end TreeDerivation
