import Mathlib.Data.List.Basic
import TreeDerivation.Search.TopK

/-!
# A selector keeps the first places of a ranking

A selector forgets what falls off its end and refuses what would fall off at once. Neither changes
what it keeps in the end: that are the first places of the ranking of all numbers that it was
offered (`best_eq_take_rankAll`), as if it had no capacity and each offer had been put into place.

In that ranking a better score stands first, and of two equal scores the one offered first
(`pairwise_rankAll`). Any order of the offers that says so sorts them into the same ranking
(`best_eq_take_mergeSort`).
-/

namespace TreeDerivation

theorem pairwise_zipIdx {α : Type} (xs : List α) : xs.zipIdx.Pairwise fun a b => a.2 < b.2 := by
  have hsnd : (xs.zipIdx.map Prod.snd).Pairwise (· < ·) := by
    rw [List.zipIdx_map_snd]
    exact List.pairwise_lt_range'
  exact List.pairwise_map.mp hsnd

namespace TopK

variable {α β : Type}

/-! ## Putting an item into its place -/

theorem perm_place (item : Score × α) (kept : List (Score × α)) :
    (place item kept).Perm (item :: kept) := by
  induction kept with
  | nil => exact .refl [item]
  | cons other rest ih =>
    rw [place]
    split
    · exact .refl _
    · exact (ih.cons other).trans (.swap item other rest)

theorem map_place (f : α → β) (item : Score × α) (kept : List (Score × α)) :
    (place item kept).map (Prod.map id f) =
      place (Prod.map id f item) (kept.map (Prod.map id f)) := by
  induction kept with
  | nil => rfl
  | cons other rest ih =>
    rw [List.map_cons, place, place, Prod.map_fst, Prod.map_fst, id_eq, id_eq]
    split
    · rfl
    · rw [List.map_cons, ih]

/-- Whether an item ranks above another one: by its score, or by `before` if the scores are
equal. -/
def Outranks (before : Score × α → Score × α → Prop) (a b : Score × α) : Prop :=
  b.1.rank < a.1.rank ∨ a.1.rank = b.1.rank ∧ before a b

theorem Outranks.le {before : Score × α → Score × α → Prop} {a b : Score × α}
    (h : Outranks before a b) : b.1.rank ≤ a.1.rank := by
  rcases h with h | ⟨h, -⟩ <;> omega

/-- An item that comes last of its score is put where it belongs. -/
theorem pairwise_place {before : Score × α → Score × α → Prop} {item : Score × α}
    {kept : List (Score × α)} (hkept : kept.Pairwise (Outranks before))
    (hitem : ∀ a ∈ kept, before a item) : (place item kept).Pairwise (Outranks before) := by
  induction kept with
  | nil => exact List.pairwise_singleton _ _
  | cons other rest ih =>
    obtain ⟨hother, hrest⟩ := List.pairwise_cons.mp hkept
    rw [place]
    split
    next hbetter =>
      have hlt : other.1.rank < item.1.rank := of_decide_eq_true hbetter
      refine List.pairwise_cons.mpr ⟨?_, hkept⟩
      intro a ha
      left
      rcases List.mem_cons.mp ha with rfl | ha
      · exact hlt
      · exact Nat.lt_of_le_of_lt (hother a ha).le hlt
    next hnot =>
      have hle : item.1.rank ≤ other.1.rank := Nat.le_of_not_lt fun h => hnot (decide_eq_true h)
      refine List.pairwise_cons.mpr ⟨?_, ih hrest fun a ha => hitem a (List.mem_cons_of_mem _ ha)⟩
      intro a ha
      rcases List.mem_cons.mp ((perm_place item rest).mem_iff.mp ha) with rfl | ha
      · rcases Nat.lt_or_eq_of_le hle with hlt | heq
        · exact .inl hlt
        · exact .inr ⟨heq.symm, hitem other List.mem_cons_self⟩
      · exact hother a ha

/-! ## What a capacity changes -/

/-- What falls off the end has no say in what is kept later. -/
theorem take_place_take (item : Score × α) (k : Nat) (kept : List (Score × α)) :
    (place item (kept.take k)).take k = (place item kept).take k := by
  induction kept generalizing k with
  | nil => rw [List.take_nil]
  | cons other rest ih =>
    cases k with
    | zero => rfl
    | succ k =>
      rw [List.take_succ_cons, place, place]
      split
      · have hrest : (other :: rest.take k).take k = (other :: rest).take k := by
          rw [← List.take_succ_cons, List.take_take, Nat.min_eq_left (Nat.le_succ k)]
        rw [List.take_succ_cons, List.take_succ_cons, hrest]
      · rw [List.take_succ_cons, List.take_succ_cons, ih]

/-- What beats the last stands before it. -/
theorem place_append_singleton {item last : Score × α} (init : List (Score × α))
    (h : item.1.better last.1 = true) :
    place item (init ++ [last]) = place item init ++ [last] := by
  induction init with
  | nil => exact if_pos h
  | cons other rest ih =>
    rw [List.cons_append, place, place]
    split
    · rfl
    · rw [ih, List.cons_append]

/-- What beats nothing that is kept falls off at once. -/
theorem take_place_of_not_better {item : Score × α} {k : Nat} {kept : List (Score × α)}
    (hk : k ≤ kept.length) (h : ∀ a ∈ kept.take k, item.1.better a.1 = false) :
    (place item kept).take k = kept.take k := by
  induction kept generalizing k with
  | nil =>
    obtain rfl : k = 0 := Nat.le_zero.mp hk
    rfl
  | cons other rest ih =>
    cases k with
    | zero => rfl
    | succ k =>
      rw [List.take_succ_cons] at h
      rw [place, if_neg (by simp [h other List.mem_cons_self]), List.take_succ_cons,
        List.take_succ_cons, ih (Nat.le_of_succ_le_succ hk)]
      exact fun a ha => h a (List.mem_cons_of_mem other ha)

/-- An offer that is not admitted would not have stayed among the first places. -/
theorem take_place_of_not_admits {t : TopK α} {all : List (Score × α)} {s : Score} {a : α}
    (ht : t.kept = all.take t.capacity) (hall : all.Pairwise (Outranks fun _ _ => True))
    (hs : s.isNaN = false) (h : t.admits s = false) :
    (place (s, a) all).take t.capacity = all.take t.capacity := by
  obtain ⟨hfull, hmin⟩ : ¬ t.size < t.capacity ∧ t.minScore?.any s.better = false := by
    simpa [admits, hs] using h
  have hk : t.capacity ≤ all.length := by
    rw [size, ht, List.length_take] at hfull
    omega
  refine take_place_of_not_better hk ?_
  intro b hb
  -- the last that is kept ranks lowest
  rw [← ht] at hb
  rcases List.eq_nil_or_concat t.kept with hnil | ⟨init, last, hlast⟩
  · rw [hnil] at hb
    exact absurd hb List.not_mem_nil
  · have hle : s.rank ≤ last.1.rank := by
      rw [minScore?, hlast, List.concat_eq_append, List.getLast?_concat] at hmin
      exact Nat.le_of_not_lt fun hlt => by simp [Score.better, hlt] at hmin
    have hsorted : (init ++ [last]).Pairwise (Outranks fun _ _ => True) := by
      rw [← List.concat_eq_append, ← hlast, ht]
      exact hall.sublist (List.take_sublist _ _)
    have hlowest : last.1.rank ≤ b.1.rank := by
      rw [hlast, List.concat_eq_append] at hb
      rcases List.mem_append.mp hb with hb | hb
      · exact ((List.pairwise_append.mp hsorted).2.2 b hb last List.mem_cons_self).le
      · obtain rfl := List.mem_singleton.mp hb
        exact Nat.le_refl _
    exact decide_eq_false (Nat.not_lt.mpr (Nat.le_trans hle hlowest))

/-! ## The ranking of a stream -/

/-- All numbers that were offered, each put into its place. -/
def rankAll (offers : List (Score × α)) : List (Score × α) :=
  (offers.filter fun offer => !offer.1.isNaN).foldl (fun kept offer => place offer kept) []

theorem perm_foldl_place (offers kept : List (Score × α)) :
    (offers.foldl (fun kept offer => place offer kept) kept).Perm (offers ++ kept) := by
  induction offers generalizing kept with
  | nil => exact .refl kept
  | cons offer offers ih =>
    rw [List.foldl_cons]
    exact (ih _).trans (((perm_place offer kept).append_left offers).trans List.perm_middle)

theorem perm_rankAll (offers : List (Score × α)) :
    (rankAll offers).Perm (offers.filter fun offer => !offer.1.isNaN) := by
  rw [rankAll]
  exact (perm_foldl_place _ []).trans (List.append_nil _ ▸ .refl _)

theorem pairwise_foldl_place {before : Score × α → Score × α → Prop}
    {offers kept : List (Score × α)} (hkept : kept.Pairwise (Outranks before))
    (hoffers : offers.Pairwise before) (hacross : ∀ a ∈ kept, ∀ b ∈ offers, before a b) :
    (offers.foldl (fun kept offer => place offer kept) kept).Pairwise (Outranks before) := by
  induction offers generalizing kept with
  | nil => exact hkept
  | cons offer offers ih =>
    obtain ⟨hoffer, hoffers⟩ := List.pairwise_cons.mp hoffers
    rw [List.foldl_cons]
    refine ih (pairwise_place hkept fun a ha => hacross a ha offer List.mem_cons_self) hoffers ?_
    intro a ha b hb
    rcases List.mem_cons.mp ((perm_place offer kept).mem_iff.mp ha) with rfl | ha
    · exact hoffer b hb
    · exact hacross a ha b (List.mem_cons_of_mem offer hb)

/-- A better score ranks higher, and of two equal scores the one that was offered first. -/
theorem pairwise_rankAll {before : Score × α → Score × α → Prop} {offers : List (Score × α)}
    (h : offers.Pairwise before) : (rankAll offers).Pairwise (Outranks before) :=
  pairwise_foldl_place .nil (h.sublist List.filter_sublist) (by simp)

theorem map_rankAll (f : α → β) (offers : List (Score × α)) :
    (rankAll offers).map (Prod.map id f) = rankAll (offers.map (Prod.map id f)) := by
  have hfold : ∀ (offers kept : List (Score × α)),
      (offers.foldl (fun kept offer => place offer kept) kept).map (Prod.map id f) =
        (offers.map (Prod.map id f)).foldl (fun kept offer => place offer kept)
          (kept.map (Prod.map id f)) := by
    intro offers
    induction offers with
    | nil => exact fun kept => rfl
    | cons offer offers ih =>
      intro kept
      rw [List.foldl_cons, ih, map_place, List.map_cons, List.foldl_cons]
  rw [rankAll, rankAll, hfold, List.filter_map]
  rfl

/-! ## What a selector keeps -/

theorem capacity_add (t : TopK α) (s : Score) (a : α) : (t.add s a).capacity = t.capacity := by
  rw [add]
  split <;> rfl

theorem kept_foldl_add {offers all : List (Score × α)} {t : TopK α}
    (ht : t.kept = all.take t.capacity) (hall : all.Pairwise (Outranks fun _ _ => True)) :
    (offers.foldl (fun t offer => t.add offer.1 offer.2) t).kept =
      ((offers.filter fun offer => !offer.1.isNaN).foldl (fun kept offer => place offer kept)
        all).take t.capacity := by
  induction offers generalizing t all with
  | nil => exact ht
  | cons offer offers ih =>
    obtain ⟨s, a⟩ := offer
    rw [List.foldl_cons]
    cases hs : s.isNaN with
    | true =>
      have hadd : t.add s a = t := by rw [add, admits, hs]; rfl
      rw [hadd, List.filter_cons_of_neg (by simp [hs]), ih ht hall]
    | false =>
      have hplaced : (place (s, a) all).Pairwise (Outranks fun _ _ => True) :=
        pairwise_place hall fun _ _ => trivial
      have hkept : (t.add s a).kept = (place (s, a) all).take t.capacity := by
        cases hadmits : t.admits s with
        | true => rw [add, if_pos hadmits, ht, take_place_take]
        | false =>
          rw [add, if_neg (by simp [hadmits]), take_place_of_not_admits ht hall hs hadmits, ht]
      rw [List.filter_cons_of_pos (by simp [hs]), List.foldl_cons,
        ih ((capacity_add t s a).symm ▸ hkept) hplaced, capacity_add]

/-- A selector keeps the first places of the ranking of all that it was offered. -/
theorem best_eq_take_rankAll (capacity : Nat) (offers : List (Score × α)) :
    best capacity offers = (rankAll offers).take capacity := by
  have hempty : (empty capacity : TopK α).kept = [].take capacity := List.take_nil.symm
  exact kept_foldl_add hempty .nil

theorem best_map (f : α → β) (capacity : Nat) (offers : List (Score × α)) :
    (best capacity offers).map (Prod.map id f) =
      best capacity (offers.map (Prod.map id f)) := by
  rw [best_eq_take_rankAll, best_eq_take_rankAll, List.map_take, map_rankAll]

/-- What is kept is one of the offers whose score is a number. -/
theorem mem_filter_of_mem_best {capacity : Nat} {offers : List (Score × α)} {x : Score × α}
    (h : x ∈ best capacity offers) : x ∈ offers.filter fun offer => !offer.1.isNaN := by
  rw [best_eq_take_rankAll] at h
  exact (perm_rankAll offers).mem_iff.mp (List.mem_of_mem_take h)

theorem mem_of_mem_best {capacity : Nat} {offers : List (Score × α)} {x : Score × α}
    (h : x ∈ best capacity offers) : x ∈ offers :=
  List.mem_of_mem_filter (mem_filter_of_mem_best h)

/-- No offer is kept twice. -/
theorem nodup_best {f : Score × α → β} {offers : List (Score × α)} (h : (offers.map f).Nodup)
    (capacity : Nat) : ((best capacity offers).map f).Nodup := by
  have hnumbers : ((offers.filter fun offer => !offer.1.isNaN).map f).Nodup :=
    h.sublist (List.filter_sublist.map f)
  have hranked : ((rankAll offers).map f).Nodup :=
    ((perm_rankAll offers).map f).nodup_iff.mpr hnumbers
  rw [best_eq_take_rankAll]
  exact hranked.sublist ((List.take_sublist capacity _).map f)

/-- A selector with room for all offers whose score is a number keeps each of them. -/
theorem mem_best_of_length_le {capacity : Nat} {offers : List (Score × α)} {x : Score × α}
    (hx : x ∈ offers) (hnumber : x.1.isNaN = false)
    (hroom : (offers.filter fun offer => !offer.1.isNaN).length ≤ capacity) :
    x ∈ best capacity offers := by
  have hperm := perm_rankAll offers
  have hranked : x ∈ rankAll offers :=
    hperm.mem_iff.mpr (List.mem_filter.mpr ⟨hx, by simp [hnumber]⟩)
  rwa [best_eq_take_rankAll, List.take_of_length_le (hperm.length_eq ▸ hroom)]

theorem not_isNaN_of_mem_best {capacity : Nat} {offers : List (Score × α)} {x : Score × α}
    (h : x ∈ best capacity offers) : x.1.isNaN = false := by
  simpa using (List.mem_filter.mp (mem_filter_of_mem_best h)).2

/-- What is kept stands best first. -/
theorem pairwise_best (capacity : Nat) (offers : List (Score × α)) :
    (best capacity offers).Pairwise fun a b => b.1.rank ≤ a.1.rank := by
  have hranked : (rankAll offers).Pairwise (Outranks fun _ _ => True) :=
    pairwise_rankAll (List.pairwise_of_forall fun _ _ => trivial)
  rw [best_eq_take_rankAll]
  exact (hranked.sublist (List.take_sublist _ _)).imp Outranks.le

/-- A selector keeps the first places of its offers in any order that puts a better score first and
equal scores as they were offered. -/
theorem best_eq_take_mergeSort {γ : Type} {items : List γ} {score : γ → Score} {payload : γ → α}
    {le : γ → γ → Bool} (htrans : ∀ a b c, le a b = true → le b c = true → le a c = true)
    (htotal : ∀ a b, (le a b || le b a) = true)
    (hbetter : ∀ a b, (score b).rank < (score a).rank → le a b = true)
    (hties : items.Pairwise fun a b => (score a).rank = (score b).rank → le a b = true)
    (hantisymm : ∀ a ∈ items, ∀ b ∈ items, le a b = true → le b a = true → a = b)
    (capacity : Nat) :
    best capacity (items.map fun a => (score a, payload a)) =
      (((items.filter fun a => !(score a).isNaN).mergeSort le).take capacity).map
        fun a => (score a, payload a) := by
  let tag : γ → Score × γ := fun a => (score a, a)
  have hmem : ∀ x ∈ rankAll (items.map tag), ∃ a ∈ items, tag a = x := fun x hx =>
    List.mem_map.mp (List.mem_of_mem_filter ((perm_rankAll _).mem_iff.mp hx))
  have hranked : (rankAll (items.map tag)).Pairwise fun x y => le x.2 y.2 = true := by
    have hpairs : (items.map tag).Pairwise
        fun x y => x.1.rank = y.1.rank → le x.2 y.2 = true := List.pairwise_map.mpr hties
    refine (pairwise_rankAll hpairs).imp_of_mem ?_
    intro x y hx hy hxy
    obtain ⟨a, -, rfl⟩ := hmem x hx
    obtain ⟨b, -, rfl⟩ := hmem y hy
    rcases hxy with hlt | ⟨heq, hle⟩
    · exact hbetter a b hlt
    · exact hle heq
  have hsorted : ((items.filter fun a => !(score a).isNaN).mergeSort le).map tag =
      rankAll (items.map tag) := by
    refine List.Perm.eq_of_pairwise ?_ (List.pairwise_map.mpr
      (List.pairwise_mergeSort htrans htotal _)) hranked ?_
    · intro x y hx hy hxy hyx
      obtain ⟨a, ha, rfl⟩ := List.mem_map.mp hx
      obtain ⟨b, hb, rfl⟩ := hmem y hy
      have ha := List.mem_of_mem_filter ((List.mergeSort_perm _ le).mem_iff.mp ha)
      exact congrArg tag (hantisymm a ha b hb hxy hyx)
    · have hfilter : (items.map tag).filter (fun x => !x.1.isNaN) =
          (items.filter fun a => !(score a).isNaN).map tag := List.filter_map
      have hperm := perm_rankAll (items.map tag)
      rw [hfilter] at hperm
      exact ((List.mergeSort_perm _ le).map tag).trans hperm.symm
  have htags : items.map (fun a => (score a, payload a)) =
      (items.map tag).map (Prod.map id payload) := by
    rw [List.map_map]
    rfl
  rw [htags, ← best_map, best_eq_take_rankAll, ← hsorted, ← List.map_take, List.map_map]
  rfl

end TopK

end TreeDerivation
