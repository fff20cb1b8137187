import Mathlib.Tactic.Common

/-!
# Runs that may panic

A run ends with a result, rejects its input, or panics. `Safe` says that it does not panic and what holds of its
result.
-/

namespace Panic

inductive Stop (ρ : Type) where
  | panic
  | reject (why : ρ)

variable {ρ α β σ : Type}

/-- `unwrap()` and an index: there is a value, or the run panics. -/
def unwrap (o : Option α) : Except (Stop ρ) α :=
  match o with
  | some a => .ok a
  | none => .error .panic

def reject_unless (p : Prop) [Decidable p] (why : ρ) : Except (Stop ρ) Unit :=
  if p then .ok () else .error (.reject why)

/-- A check that rejects, in a run that may panic. -/
def lift_check (x : Except ρ α) : Except (Stop ρ) α :=
  match x with
  | .ok a => .ok a
  | .error why => .error (.reject why)

/-- The run does not panic, and a result satisfies `Q`. -/
def Safe (x : Except (Stop ρ) α) (Q : α → Prop) : Prop :=
  match x with
  | .ok a => Q a
  | .error .panic => False
  | .error (.reject _) => True

section Rules

variable {x : Except (Stop ρ) α} {P Q : α → Prop}

theorem safe_ok {a : α} (h : Q a) : Safe (.ok a : Except (Stop ρ) α) Q := h

theorem safe_pure {a : α} (h : Q a) : Safe (pure a : Except (Stop ρ) α) Q := h

theorem safe_mono (h : Safe x P) (hPQ : ∀ a, P a → Q a) : Safe x Q := by
  rcases x with (_ | _) | a
  · exact h
  · exact h
  · exact hPQ a h

theorem safe_bind {f : α → Except (Stop ρ) β} {R : β → Prop} (h : Safe x P) (hf : ∀ a, P a → Safe (f a) R) :
    Safe (x >>= f) R := by
  rcases x with (_ | _) | a
  · exact h
  · exact h
  · exact hf a h

theorem safe_unwrap {o : Option α} {a : α} (ho : o = some a) (h : Q a) : Safe (unwrap o : Except (Stop ρ) α) Q := by
  rw [ho]
  exact h

theorem safe_reject_unless {p : Prop} [Decidable p] {why : ρ} {Q : Unit → Prop} (h : p → Q ()) :
    Safe (reject_unless p why) Q := by
  unfold reject_unless
  split
  · rename_i hp
    exact h hp
  · trivial

theorem safe_lift_check {c : Except ρ α} (h : ∀ a, c = .ok a → Q a) : Safe (lift_check c) Q := by
  cases c with
  | ok a => exact h a rfl
  | error why => trivial

/-- A loop, with an invariant that knows what is still to come. -/
theorem safe_foldlM {f : σ → β → Except (Stop ρ) σ} (I : List β → σ → Prop) {xs : List β} {s : σ} (h : I xs s)
    (hf : ∀ x xs s, I (x :: xs) s → Safe (f s x) (I xs)) : Safe (xs.foldlM f s) (I []) := by
  induction xs generalizing s with
  | nil => exact h
  | cons x xs ih => exact safe_bind (hf x xs s h) fun s' hs' => ih hs'

theorem safe_mapM {f : β → Except (Stop ρ) α} {xs : List β} (h : ∀ x ∈ xs, Safe (f x) P) :
    Safe (xs.mapM f) fun ys => ∀ y ∈ ys, P y := by
  induction xs with
  | nil => exact nofun
  | cons x xs ih =>
    rw [List.mapM_cons]
    obtain ⟨hx, hxs⟩ := List.forall_mem_cons.mp h
    refine safe_bind hx fun y hy => safe_bind (ih hxs) fun ys hys => ?_
    exact safe_pure (List.forall_mem_cons.mpr ⟨hy, hys⟩)

theorem safe_ne_panic (h : Safe x Q) : x ≠ .error .panic := by
  rintro rfl
  exact h

theorem Safe.ok {a : α} (h : Safe x Q) (hx : x = .ok a) : Q a := by
  rw [hx] at h
  exact h

end Rules

/-! ## Where a run panics -/

theorem bind_panic_iff {x : Except (Stop ρ) α} {f : α → Except (Stop ρ) β} :
    (x >>= f) = .error .panic ↔ x = .error .panic ∨ ∃ a, x = .ok a ∧ f a = .error .panic := by
  rcases x with (_ | _) | a
  · exact ⟨fun _ => .inl rfl, fun _ => rfl⟩
  · refine ⟨fun h => (by cases h), ?_⟩
    rintro (h | ⟨a, h, -⟩) <;> cases h
  · refine ⟨fun h => .inr ⟨a, rfl, h⟩, ?_⟩
    rintro (h | ⟨a', h, hf⟩)
    · cases h
    · obtain rfl := Except.ok.inj h
      exact hf

theorem bind_ok_iff {x : Except (Stop ρ) α} {f : α → Except (Stop ρ) β} {b : β} :
    (x >>= f) = .ok b ↔ ∃ a, x = .ok a ∧ f a = .ok b := by
  rcases x with (_ | _) | a
  · exact ⟨fun h => (by cases h), fun ⟨_, h, _⟩ => (by cases h)⟩
  · exact ⟨fun h => (by cases h), fun ⟨_, h, _⟩ => (by cases h)⟩
  · refine ⟨fun h => ⟨a, rfl, h⟩, ?_⟩
    rintro ⟨a', h, hf⟩
    obtain rfl := Except.ok.inj h
    exact hf

theorem unwrap_ok_iff {o : Option α} {a : α} : (unwrap o : Except (Stop ρ) α) = .ok a ↔ o = some a := by
  cases o with
  | none => exact ⟨fun h => (by cases h), fun h => (by cases h)⟩
  | some b => exact ⟨fun h => congrArg some (Except.ok.inj h), fun h => congrArg Except.ok (Option.some.inj h)⟩

theorem lift_check_ok_iff {x : Except ρ α} {a : α} : lift_check x = .ok a ↔ x = .ok a := by
  cases x with
  | error why => exact ⟨fun h => (by cases h), fun h => (by cases h)⟩
  | ok b => exact ⟨fun h => congrArg Except.ok (Except.ok.inj h), fun h => congrArg Except.ok (Except.ok.inj h)⟩

/-- A loop over items panics at the first that panics, after results only. -/
theorem mapM_panic_iff {f : β → Except (Stop ρ) α} {xs : List β} :
    xs.mapM f = .error .panic ↔
      ∃ before x after, xs = before ++ x :: after ∧ (∀ y ∈ before, ∃ a, f y = .ok a) ∧ f x = .error .panic := by
  induction xs with
  | nil =>
    refine ⟨fun h => (by cases h), ?_⟩
    rintro ⟨before, x, after, h, -⟩
    exact absurd h (by simp)
  | cons y xs ih =>
    rw [List.mapM_cons, bind_panic_iff]
    constructor
    · rintro (h | ⟨a, hy, h⟩)
      · exact ⟨[], y, xs, rfl, by simp, h⟩
      · rcases bind_panic_iff.mp h with h | ⟨as, -, h⟩
        · obtain ⟨before, x, after, rfl, hbefore, hx⟩ := ih.mp h
          exact ⟨y :: before, x, after, rfl, List.forall_mem_cons.mpr ⟨⟨a, hy⟩, hbefore⟩, hx⟩
        · cases h
    · rintro ⟨before, x, after, hxs, hbefore, hx⟩
      cases before with
      | nil =>
        obtain ⟨rfl, rfl⟩ := List.cons.inj hxs
        exact .inl hx
      | cons z before =>
        obtain ⟨rfl, rfl⟩ := List.cons.inj hxs
        obtain ⟨⟨a, hy⟩, hbefore⟩ := List.forall_mem_cons.mp hbefore
        exact .inr ⟨a, hy, bind_panic_iff.mpr (.inl (ih.mpr ⟨before, x, after, rfl, hbefore, hx⟩))⟩

end Panic
