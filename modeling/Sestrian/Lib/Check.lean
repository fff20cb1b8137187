import Mathlib.Tactic.Common

/-!
# Checks that stop at the first failure

A validator in `Except` is a row of checks. These lemmas read an accepted run
back as the conjunction of what was checked, so that no proof unfolds a bind.
-/

namespace Check

variable {ε α β σ : Type}

/-- Goes on when `p` holds, and fails with `e` when it does not. -/
def require (p : Prop) [Decidable p] (e : ε) : Except ε Unit :=
  if p then .ok () else .error e

@[simp]
theorem require_eq_ok (p : Prop) [Decidable p] (e : ε) (u : Unit) :
    require p e = .ok u ↔ p := by
  unfold require
  split <;> simp_all

@[simp]
theorem pure_eq_ok (a b : α) : (pure a : Except ε α) = .ok b ↔ a = b := by
  simp [pure, Except.pure]

@[simp]
theorem bind_eq_ok (x : Except ε α) (f : α → Except ε β) (r : β) :
    x >>= f = .ok r ↔ ∃ a, x = .ok a ∧ f a = .ok r := by
  cases x <;> simp [bind, Except.bind]

/-- The result of a check carries nothing. -/
@[simp]
theorem exists_unit (p : Unit → Prop) : (∃ u, p u) ↔ p () :=
  ⟨fun ⟨_, h⟩ => h, fun h => ⟨(), h⟩⟩

/-- `Ok` of an optional value, or the given error. -/
def ok_or (o : Option α) (e : ε) : Except ε α :=
  match o with
  | some a => .ok a
  | none => .error e

@[simp]
theorem ok_or_eq_ok (o : Option α) (e : ε) (a : α) : ok_or o e = .ok a ↔ o = some a := by
  cases o <;> simp [ok_or]

theorem mapM_some_eq_ok (a : α) (f : α → Except ε β) (r : Option β) :
    (some a).mapM f = .ok r ↔ ∃ b, f a = .ok b ∧ some b = r := by
  cases h : f a <;> simp [h, Functor.map, Except.map]

theorem mapM_none_eq_ok (f : α → Except ε β) (r : Option β) : (none : Option α).mapM f = .ok r ↔ none = r := by
  simp

/-! ## Loops of checks -/

/-- A loop of checks passes when every round passes. -/
@[simp]
theorem forM_eq_ok (xs : List α) (f : α → Except ε Unit) (u : Unit) :
    forM xs f = .ok u ↔ ∀ x ∈ xs, f x = .ok () := by
  induction xs with
  | nil => simp
  | cons x xs ih =>
    rw [List.forM_cons, bind_eq_ok, List.forall_mem_cons]
    constructor
    · rintro ⟨⟨⟩, hx, hxs⟩
      exact ⟨hx, ih.mp hxs⟩
    · rintro ⟨hx, hxs⟩
      exact ⟨(), hx, ih.mpr hxs⟩

/-- A loop that checks each item and keeps what it read. -/
theorem mapM_eq_ok (xs : List α) (f : α → Except ε β) (ys : List β) :
    xs.mapM f = .ok ys ↔ List.Forall₂ (fun x y => f x = .ok y) xs ys := by
  induction xs generalizing ys with
  | nil =>
    rw [List.mapM_nil, pure_eq_ok]
    constructor
    · rintro rfl
      exact .nil
    · rintro ⟨⟩
      rfl
  | cons x xs ih =>
    rw [List.mapM_cons, bind_eq_ok]
    constructor
    · rintro ⟨y, hy, h⟩
      obtain ⟨ys', hys, h⟩ := (bind_eq_ok _ _ _).mp h
      obtain rfl := (pure_eq_ok _ _).mp h
      exact .cons hy ((ih _).mp hys)
    · rintro (_ | ⟨hy, hys⟩)
      exact ⟨_, hy, (bind_eq_ok _ _ _).mpr ⟨_, (ih _).mpr hys, rfl⟩⟩

theorem mapM_ok {f : α → Except ε β} {g : α → β} {xs : List α} (h : ∀ x ∈ xs, f x = .ok (g x)) :
    xs.mapM f = .ok (xs.map g) := by
  rw [mapM_eq_ok]
  induction xs with
  | nil => exact .nil
  | cons x xs ih =>
    obtain ⟨hx, hxs⟩ := List.forall_mem_cons.mp h
    exact .cons hx (ih hxs)

theorem mapM_ok_iff (xs : List α) (f : α → Except ε β) :
    (∃ ys, xs.mapM f = .ok ys) ↔ ∀ x ∈ xs, ∃ y, f x = .ok y := by
  simp only [mapM_eq_ok]
  constructor
  · rintro ⟨ys, h⟩
    induction h with
    | nil => simp
    | cons hxy _ ih => exact List.forall_mem_cons.mpr ⟨⟨_, hxy⟩, ih⟩
  · intro h
    induction xs with
    | nil => exact ⟨[], .nil⟩
    | cons x xs ih =>
      obtain ⟨⟨y, hy⟩, hxs⟩ := List.forall_mem_cons.mp h
      obtain ⟨ys, hys⟩ := ih hxs
      exact ⟨y :: ys, .cons hy hys⟩

/-- What every round keeps, a loop that ends well keeps. -/
theorem foldlM_inv (P : σ → Prop) (f : σ → α → Except ε σ) (xs : List α)
    (hstep : ∀ s s' x, x ∈ xs → P s → f s x = .ok s' → P s') (s s' : σ) (hs : P s)
    (h : xs.foldlM f s = .ok s') : P s' := by
  induction xs generalizing s with
  | nil => simp at h; exact h ▸ hs
  | cons x xs ih =>
    simp only [List.foldlM_cons, bind_eq_ok] at h
    obtain ⟨s₁, hx, hxs⟩ := h
    exact ih (fun a b y hy => hstep a b y (List.mem_cons_of_mem _ hy)) s₁
      (hstep s s₁ x List.mem_cons_self hs hx) hxs

end Check
