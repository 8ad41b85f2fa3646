import Mathlib.Data.List.Nodup
import TreeDerivation.Proofs.Search.TopK

/-!
# The standings of a stream

A selector sees its offers one after the other and keeps no more of them than it has room for. The
standings of a stream are made with all of it in sight: every offer whose score is a number, with
its place in the stream, sorted by score and then by place.

At any time a selector holds the first places of the standings of what it was offered so far, and it
admits an offer exactly if the offer is among these first places once it is part of the stream
(`selector_of_stream`). An offer is told by its place: another one with the same score and the same
payload does not stand for it.

Scores are equal if their bits are (`Score.rank_injective`), so negative zero stands below zero.
-/

namespace TreeDerivation

/-- Two scores at one place of the total order are the same. -/
theorem Score.rank_injective {a b : Score} (h : a.rank = b.rank) : a = b := by
  obtain ⟨a⟩ := a
  obtain ⟨b⟩ := b
  have ha := a.toNat_lt
  have hb := b.toNat_lt
  have hbits : a.toNat = b.toNat := by
    simp only [rank, isNegative, decide_eq_true_eq] at h
    split at h <;> split at h <;> omega
  rw [UInt64.toNat_inj.mp hbits]

namespace TopK

variable {α β : Type}

/-! ## A selector along a stream -/

/-- The selector after a stream of offers. -/
def after (capacity : Nat) (offers : List (Score × α)) : TopK α :=
  offers.foldl (fun t offer => t.add offer.1 offer.2) (empty capacity)

theorem kept_after (capacity : Nat) (offers : List (Score × α)) :
    (after capacity offers).kept = best capacity offers := rfl

theorem after_append_singleton (capacity : Nat) (offers : List (Score × α)) (s : Score) (a : α) :
    after capacity (offers ++ [(s, a)]) = (after capacity offers).add s a := by
  rw [after, List.foldl_append]
  rfl

theorem capacity_foldl_add (offers : List (Score × α)) (t : TopK α) :
    (offers.foldl (fun t offer => t.add offer.1 offer.2) t).capacity = t.capacity := by
  induction offers generalizing t with
  | nil => rfl
  | cons offer offers ih => rw [List.foldl_cons, ih, capacity_add]

theorem capacity_after (capacity : Nat) (offers : List (Score × α)) :
    (after capacity offers).capacity = capacity :=
  capacity_foldl_add offers (empty capacity)

/-- Whether an offer is admitted is a matter of scores. -/
theorem admits_after_map (f : α → β) (capacity : Nat) (offers : List (Score × α)) (s : Score) :
    (after capacity (offers.map (Prod.map id f))).admits s = (after capacity offers).admits s := by
  have hkept : (after capacity (offers.map (Prod.map id f))).kept =
      (after capacity offers).kept.map (Prod.map id f) := (best_map f capacity offers).symm
  have hfst : (Prod.fst ∘ Prod.map id f : Score × α → Score) = Prod.fst := rfl
  simp only [admits, size, minScore?, hkept, capacity_after, List.length_map, List.getLast?_map,
    Option.map_map, hfst]

/-- An item that beats the last of a list, or for which there is room, is among the first places
once it was put into its place. -/
theorem mem_take_place {item : Score × α} {k : Nat} {kept : List (Score × α)}
    (hk : kept.length ≤ k)
    (h : kept.length < k ∨ (kept.getLast?.map Prod.fst).any item.1.better = true) :
    item ∈ (place item kept).take k := by
  induction kept generalizing k with
  | nil =>
    have hroom : 0 < k := by simpa using h
    rw [place, List.take_of_length_le hroom]
    exact List.mem_cons_self
  | cons other rest ih =>
    obtain ⟨k, rfl⟩ : ∃ j, k = j + 1 := ⟨k - 1, by rw [List.length_cons] at hk; omega⟩
    rw [place]
    split
    next => exact List.mem_cons_self
    next hnot =>
      rw [List.take_succ_cons]
      refine List.mem_cons_of_mem other (ih (Nat.le_of_succ_le_succ hk) ?_)
      rcases h with hroom | hbeats
      · exact .inl (Nat.lt_of_succ_lt_succ hroom)
      · cases rest with
        | nil => exact absurd hbeats hnot
        | cons next rest =>
          rw [List.getLast?_cons_cons] at hbeats
          exact .inr hbeats

/-- An offer with a number for its score is kept if and only if it is admitted, unless it was there
before. -/
theorem mem_kept_add_iff {t : TopK α} {s : Score} {a : α} (hsize : t.size ≤ t.capacity)
    (hnew : (s, a) ∉ t.kept) : (s, a) ∈ (t.add s a).kept ↔ t.admits s = true := by
  rw [add]
  split
  next hadmits =>
    refine iff_of_true ?_ hadmits
    refine mem_take_place hsize ?_
    simp only [admits, Bool.and_eq_true, Bool.or_eq_true, decide_eq_true_eq] at hadmits
    exact hadmits.2
  next hrefused => exact iff_of_false hnew hrefused

/-! ## Standings -/

/-- An offer with its place in the stream. -/
structure Standing (α : Type) where
  place : Nat
  score : Score
  payload : α

namespace Standing

/-- The offer itself. -/
def offer (x : Standing α) : Score × α :=
  (x.score, x.payload)

/-- Whether an offer stands no later than another one: by its score, or by its place in the stream
if the scores are equal. -/
def precedes (x y : Standing α) : Bool :=
  x.score.better y.score ∨ x.score = y.score ∧ x.place ≤ y.place

theorem precedes_iff {x y : Standing α} : x.precedes y = true ↔
    y.score.rank < x.score.rank ∨ x.score.rank = y.score.rank ∧ x.place ≤ y.place := by
  have heq : x.score = y.score ↔ x.score.rank = y.score.rank :=
    ⟨congrArg Score.rank, Score.rank_injective⟩
  rw [precedes, decide_eq_true_iff, heq, Score.better, decide_eq_true_iff]

theorem precedes_trans (x y z : Standing α) (hxy : x.precedes y = true)
    (hyz : y.precedes z = true) : x.precedes z = true := by
  rw [precedes_iff] at hxy hyz ⊢
  omega

theorem precedes_total (x y : Standing α) : (x.precedes y || y.precedes x) = true := by
  rw [Bool.or_eq_true, precedes_iff, precedes_iff]
  omega

end Standing

/-- The offers of a stream, each with its place. -/
def placed (offers : List (Score × α)) : List (Standing α) :=
  offers.zipIdx.map fun x => ⟨x.2, x.1.1, x.1.2⟩

/-- The offers whose score is a number, the better score first and equal scores as they were
offered. -/
def standings (offers : List (Score × α)) : List (Standing α) :=
  ((placed offers).filter fun x => !x.score.isNaN).mergeSort Standing.precedes

theorem map_offer_placed (offers : List (Score × α)) :
    (placed offers).map Standing.offer = offers := by
  rw [placed, List.map_map]
  exact List.zipIdx_map_fst 0 offers

theorem placed_append_singleton (offers : List (Score × α)) (s : Score) (a : α) :
    placed (offers ++ [(s, a)]) = placed offers ++ [⟨offers.length, s, a⟩] := by
  rw [placed, List.zipIdx_append, List.map_append, Nat.zero_add]
  rfl

theorem pairwise_placed (offers : List (Score × α)) :
    (placed offers).Pairwise fun x y => x.place < y.place :=
  List.pairwise_map.mpr (pairwise_zipIdx offers)

theorem place_lt_of_mem_placed {offers : List (Score × α)} {x : Standing α}
    (h : x ∈ placed offers) : x.place < offers.length := by
  obtain ⟨y, hy, rfl⟩ := List.mem_map.mp h
  exact List.snd_lt_of_mem_zipIdx hy

/-- Two offers of a stream that precede each other are the same. -/
theorem eq_of_precedes_of_mem_placed {offers : List (Score × α)} {x y : Standing α}
    (hx : x ∈ placed offers) (hy : y ∈ placed offers) (hxy : x.precedes y = true)
    (hyx : y.precedes x = true) : x = y := by
  have hplaces : ((placed offers).map Standing.place).Nodup :=
    List.pairwise_map.mpr ((pairwise_placed offers).imp Nat.ne_of_lt)
  refine List.inj_on_of_nodup_map hplaces hx hy ?_
  rw [Standing.precedes_iff] at hxy hyx
  omega

/-- What a selector keeps of a stream are the first of its standings. -/
theorem best_placed (f : Standing α → β) (capacity : Nat) (offers : List (Score × α)) :
    best capacity ((placed offers).map fun x => (x.score, f x)) =
      ((standings offers).take capacity).map fun x => (x.score, f x) := by
  refine best_eq_take_mergeSort Standing.precedes_trans Standing.precedes_total ?_ ?_ ?_ capacity
  · exact fun x y hlt => Standing.precedes_iff.mpr (.inl hlt)
  · refine (pairwise_placed offers).imp ?_
    exact fun hlt heq => Standing.precedes_iff.mpr (.inr ⟨heq, Nat.le_of_lt hlt⟩)
  · exact fun x hx y hy => eq_of_precedes_of_mem_placed hx hy

theorem best_eq_take_standings (capacity : Nat) (offers : List (Score × α)) :
    best capacity offers = ((standings offers).take capacity).map Standing.offer := by
  have hbest := best_placed Standing.payload capacity offers
  rwa [show (placed offers).map (fun x => (x.score, x.payload)) = offers from
    map_offer_placed offers] at hbest

theorem length_standings (offers : List (Score × α)) :
    (standings offers).length = (offers.filter fun offer => !offer.1.isNaN).length := by
  rw [standings, List.length_mergeSort]
  conv_rhs => rw [← map_offer_placed offers, List.filter_map, List.length_map]
  rfl

/-- The next offer of a stream is admitted if and only if it is among the first places with it. -/
theorem admits_after_iff (capacity : Nat) (offers : List (Score × α)) (s : Score) (a : α) :
    (after capacity offers).admits s = true ↔
      ⟨offers.length, s, a⟩ ∈ (standings (offers ++ [(s, a)])).take capacity := by
  -- as its payload each offer carries itself with its place, so that it is told from its like
  let tagged := (placed offers).map fun x => (x.score, x)
  let next : Standing α := ⟨offers.length, s, a⟩
  have hadmits : (after capacity tagged).admits s = (after capacity offers).admits s := by
    rw [← admits_after_map Standing.payload capacity tagged s, List.map_map]
    exact congrArg (fun offers => (after capacity offers).admits s) (map_offer_placed offers)
  have hsize : (after capacity tagged).size ≤ (after capacity tagged).capacity := by
    rw [size, kept_after, best_placed, capacity_after, List.length_map]
    exact List.length_take_le _ _
  have hnew : (s, next) ∉ (after capacity tagged).kept := by
    intro hmem
    obtain ⟨x, hx, heq⟩ := List.mem_map.mp (mem_of_mem_best hmem)
    rw [(Prod.mk.inj heq).2] at hx
    exact Nat.lt_irrefl _ (place_lt_of_mem_placed hx)
  have hkept : ((after capacity tagged).add s next).kept =
      ((standings (offers ++ [(s, a)])).take capacity).map fun x => (x.score, x) := by
    rw [← best_placed, placed_append_singleton, List.map_append, ← after_append_singleton]
    rfl
  rw [← hadmits, ← mem_kept_add_iff hsize hnew, hkept, List.mem_map]
  constructor
  · rintro ⟨x, hx, heq⟩
    rwa [(Prod.mk.inj heq).2] at hx
  · exact fun hx => ⟨next, hx, rfl⟩

/-- At every time a selector holds the first places of the standings of its stream up to then, and
tells their number and the lowest score among them. It holds as many as it has room for, or all
whose score is a number. It takes up the next offer, and says that it does, exactly if that offer is
among the first places of the standings that include it. -/
theorem selector_of_stream (capacity : Nat) (offers : List (Score × α)) (n : Nat) :
    let t := after capacity (offers.take n)
    let first := (standings (offers.take n)).take capacity
    t.kept = first.map Standing.offer ∧
    t.size = first.length ∧
    first.length =
      min capacity ((offers.take n).filter fun offer => !offer.1.isNaN).length ∧
    t.minScore? = first.getLast?.map Standing.score ∧
    ∀ s a, offers[n]? = some (s, a) →
      after capacity (offers.take (n + 1)) = t.add s a ∧
      (t.admits s = true ↔ ⟨n, s, a⟩ ∈ (standings (offers.take (n + 1))).take capacity) := by
  intro t first
  have hkept : t.kept = first.map Standing.offer := best_eq_take_standings capacity (offers.take n)
  refine ⟨hkept, ?size, ?length, ?minScore, fun s a hoffer => ?next⟩
  case size => rw [size, hkept, List.length_map]
  case length => rw [List.length_take, length_standings]
  case minScore =>
    rw [minScore?, hkept, List.getLast?_map, Option.map_map]
    rfl
  case next =>
    obtain ⟨hn, -⟩ := List.getElem?_eq_some_iff.mp hoffer
    have htake : offers.take (n + 1) = offers.take n ++ [(s, a)] := by
      rw [List.take_add_one, hoffer]
      rfl
    have hlength : (offers.take n).length = n := List.length_take_of_le (Nat.le_of_lt hn)
    rw [htake]
    refine ⟨after_append_singleton capacity (offers.take n) s a, ?_⟩
    have hadmits := admits_after_iff capacity (offers.take n) s a
    rwa [hlength] at hadmits

/-- Room for two, a NaN, and both zeros: the second zero pushes the negative one out, the third has
the same score as the last that is kept and comes too late. -/
theorem selector_of_stream_zeros :
    let negativeZero := Score.zero.negate
    let offers := [(negativeZero, "a"), (.nan, "b"), (.zero, "c"), (.zero, "d"), (.zero, "e")]
    (after 2 (offers.take 4)).kept = [(.zero, "c"), (.zero, "d")] ∧
    (after 2 (offers.take 3)).admits .zero = true ∧
    (⟨3, .zero, "d"⟩ : Standing String) ∈ (standings (offers.take 4)).take 2 ∧
    (⟨4, .zero, "e"⟩ : Standing String) ∉ (standings offers).take 2 := by
  intro negativeZero offers
  obtain ⟨-, -, -, -, hfourth⟩ := selector_of_stream 2 offers 3
  obtain ⟨-, -, -, -, hfifth⟩ := selector_of_stream 2 offers 4
  have hadmits : (after 2 (offers.take 3)).admits .zero = true := by decide
  have hrefuses : ¬ (after 2 (offers.take 4)).admits .zero = true := by decide
  refine ⟨by decide, hadmits, (hfourth .zero "d" rfl).2.mp hadmits, ?_⟩
  exact fun hmem => hrefuses ((hfifth .zero "e" rfl).2.mpr hmem)

end TopK

end TreeDerivation
