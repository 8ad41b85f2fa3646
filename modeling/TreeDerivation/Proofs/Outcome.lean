import Mathlib.Data.List.Forall2

/-!
# Outcomes that may fail

When a computation that may fail succeeds, so did its parts. These lemmas take such a computation
apart along the ways it is put together: one part after the other, a function on the result, and one
part for each element of a list.
-/

namespace TreeDerivation

variable {ε α β : Type}

theorem exists_of_bind_eq_ok {x : Except ε α} {f : α → Except ε β} {b : β}
    (h : x >>= f = .ok b) : ∃ a, x = .ok a ∧ f a = .ok b := by
  cases x with
  | ok a => exact ⟨a, rfl, h⟩
  | error _ => exact absurd h (by simp [bind, Except.bind])

theorem exists_of_bind_eq_error {x : Except ε α} {f : α → Except ε β} {c : ε}
    (h : x >>= f = .error c) : x = .error c ∨ ∃ a, x = .ok a ∧ f a = .error c := by
  cases x with
  | ok a => exact .inr ⟨a, rfl, h⟩
  | error _ => exact .inl (by simpa [bind, Except.bind] using h)

theorem map_eq_ok_iff {x : Except ε α} {g : α → β} {b : β} :
    x.map g = .ok b ↔ ∃ a, x = .ok a ∧ g a = b := by
  cases x <;> simp [Except.map]

theorem map_eq_error_iff {x : Except ε α} {g : α → β} {c : ε} :
    x.map g = .error c ↔ x = .error c := by
  cases x <;> simp [Except.map]

theorem mapError_eq_ok_iff {δ : Type} {x : Except ε α} {g : ε → δ} {a : α} :
    x.mapError g = .ok a ↔ x = .ok a := by
  cases x <;> simp [Except.mapError]

theorem mapError_eq_error_iff {δ : Type} {x : Except ε α} {g : ε → δ} {c : δ} :
    x.mapError g = .error c ↔ ∃ b, x = .error b ∧ g b = c := by
  cases x <;> simp [Except.mapError]

/-- The failure of a computation, if it failed. -/
def failure? : Except ε α → Option ε
  | .ok _ => none
  | .error c => some c

theorem failure?_eq_some_iff {x : Except ε α} {c : ε} : failure? x = some c ↔ x = .error c := by
  cases x <;> simp [failure?]

theorem failure?_eq_none_iff {x : Except ε α} : failure? x = none ↔ ∃ a, x = .ok a := by
  cases x <;> simp [failure?]

/-- Of two parts the first that fails tells the failure, if that of the second does not depend on
what the first gave. -/
theorem failure?_bind {x : Except ε α} {f : α → Except ε β} {later : Option ε}
    (h : ∀ a, failure? (f a) = later) : failure? (x >>= f) = (failure? x).or later := by
  cases x with
  | ok a => exact h a
  | error c => rfl

theorem failure?_bind_pure (x : Except ε α) (g : α → β) :
    failure? (x >>= fun a => pure (g a)) = failure? x := by
  rw [failure?_bind fun a => show failure? (pure (g a)) = none from rfl, Option.or_none]

theorem failure?_mapError {δ : Type} (x : Except ε α) (g : ε → δ) :
    failure? (x.mapError g) = (failure? x).map g := by
  cases x <;> rfl

/-- Every part of a successful list computation succeeded, in order. -/
theorem mapM_eq_ok_iff {f : α → Except ε β} {xs : List α} {ys : List β} :
    xs.mapM f = .ok ys ↔ List.Forall₂ (fun x y => f x = .ok y) xs ys := by
  induction xs generalizing ys with
  | nil =>
    rw [List.mapM_nil, List.forall₂_nil_left_iff]
    exact ⟨fun h => (Except.ok.inj h).symm, fun h => h ▸ rfl⟩
  | cons x xs ih =>
    rw [List.mapM_cons, List.forall₂_cons_left_iff]
    constructor
    · intro h
      obtain ⟨y, hy, h⟩ := exists_of_bind_eq_ok h
      obtain ⟨zs, hzs, h⟩ := exists_of_bind_eq_ok h
      exact ⟨y, zs, hy, ih.mp hzs, (Except.ok.inj h).symm⟩
    · rintro ⟨y, zs, hy, hzs, rfl⟩
      rw [hy, ih.mpr hzs]
      rfl

theorem exists_mem_of_mapM_eq_ok {f : α → Except ε β} {xs : List α} {ys : List β} {y : β}
    (h : xs.mapM f = .ok ys) (hy : y ∈ ys) : ∃ x ∈ xs, f x = .ok y := by
  induction mapM_eq_ok_iff.mp h with
  | nil => exact absurd hy List.not_mem_nil
  | cons hxy hrest ih =>
    rcases List.mem_cons.mp hy with rfl | hy
    · exact ⟨_, List.mem_cons_self, hxy⟩
    · obtain ⟨x, hx, hfx⟩ := ih (mapM_eq_ok_iff.mpr hrest) hy
      exact ⟨x, List.mem_cons_of_mem _ hx, hfx⟩

theorem exists_of_mem_of_mapM_eq_ok {f : α → Except ε β} {xs : List α} {ys : List β} {x : α}
    (h : xs.mapM f = .ok ys) (hx : x ∈ xs) : ∃ y ∈ ys, f x = .ok y := by
  induction mapM_eq_ok_iff.mp h with
  | nil => exact absurd hx List.not_mem_nil
  | cons hxy hrest ih =>
    rcases List.mem_cons.mp hx with rfl | hx
    · exact ⟨_, List.mem_cons_self, hxy⟩
    · obtain ⟨y, hy, hfx⟩ := ih (mapM_eq_ok_iff.mpr hrest) hx
      exact ⟨y, List.mem_cons_of_mem _ hy, hfx⟩

/-- What each part keeps of its argument, the whole keeps in order. -/
theorem map_eq_map_of_mapM_eq_ok {γ : Type} {f : α → Except ε β} {g : β → γ} {k : α → γ}
    {xs : List α} {ys : List β} (h : xs.mapM f = .ok ys)
    (hkeep : ∀ x y, f x = .ok y → g y = k x) : ys.map g = xs.map k := by
  induction mapM_eq_ok_iff.mp h with
  | nil => rfl
  | cons hxy hrest ih =>
    rw [List.map_cons, List.map_cons, hkeep _ _ hxy, ih (mapM_eq_ok_iff.mpr hrest)]

/-- A list computation fails with the failure of a part. -/
theorem exists_of_mapM_eq_error {f : α → Except ε β} {xs : List α} {c : ε}
    (h : xs.mapM f = .error c) : ∃ x ∈ xs, f x = .error c := by
  induction xs with
  | nil => exact absurd h (by simp [List.mapM_nil, pure, Except.pure])
  | cons x xs ih =>
    rw [List.mapM_cons] at h
    rcases exists_of_bind_eq_error h with hx | ⟨y, -, h⟩
    · exact ⟨x, List.mem_cons_self, hx⟩
    · rcases exists_of_bind_eq_error h with hxs | ⟨ys, -, h⟩
      · obtain ⟨z, hz, hfz⟩ := ih hxs
        exact ⟨z, List.mem_cons_of_mem x hz, hfz⟩
      · exact absurd h (by simp [pure, Except.pure])

end TreeDerivation
