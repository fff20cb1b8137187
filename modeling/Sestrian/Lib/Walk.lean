import Mathlib.Data.List.Basic
import Mathlib.Tactic.Common

/-!
# Walks along parent pointers

A tree given by a partial `next` function and its root. A loop that follows the
pointers until a test holds is `walk`, and `Path` is the whole line down to the root.
-/

namespace Walk

variable {α : Type}

/-- Follows `next` from `cur` until `stop` holds: the points it passed, and where it ended.
It also ends at a point that has no next one. -/
def walk (next : α → Option α) (stop : α → Bool) : Nat → α → List α × α
  | 0, cur => ([], cur)
  | n + 1, cur =>
    if stop cur then ([], cur)
    else match next cur with
      | none => ([], cur)
      | some p => (cur :: (walk next stop n p).1, (walk next stop n p).2)

/-- The points from `a` down to the root, both included. -/
inductive Path (next : α → Option α) (root : α) : α → List α → Prop where
  | root : Path next root root [root]
  | step {a b : α} {l : List α} : a ≠ root → next a = some b → Path next root b l → Path next root a (a :: l)

variable {next : α → Option α} {root a b : α} {l : List α}

namespace Path

theorem unique {l' : List α} (h : Path next root a l) (h' : Path next root a l') : l = l' := by
  induction h generalizing l' with
  | root =>
    cases h' with
    | root => rfl
    | step hne _ _ => exact absurd rfl hne
  | step hne hnext _ ih =>
    cases h' with
    | root => exact absurd rfl hne
    | step _ hnext' hl' =>
      obtain rfl := Option.some.inj (hnext.symm.trans hnext')
      rw [ih hl']

theorem start_mem (h : Path next root a l) : a ∈ l := by
  cases h <;> simp

/-- A path with more than one point starts with a step. -/
theorem uncons {x : α} (h : Path next root a (x :: l)) (hl : l ≠ []) :
    ∃ b, x = a ∧ next a = some b ∧ Path next root b l := by
  cases h with
  | root => exact absurd rfl hl
  | step _ hnext hb => exact ⟨_, rfl, hnext, hb⟩

theorem root_mem (h : Path next root a l) : root ∈ l := by
  induction h with
  | root => simp
  | step _ _ _ ih => exact List.mem_cons_of_mem _ ih

/-- From any point of a path, the rest of it is the path of that point. -/
theorem split (h : Path next root a l) (hb : b ∈ l) : ∃ l₁ l₂, l = l₁ ++ l₂ ∧ Path next root b l₂ := by
  induction h with
  | root =>
    obtain rfl := List.mem_singleton.mp hb
    exact ⟨[], [b], rfl, .root⟩
  | @step a _ l hne hnext hl ih =>
    rcases List.mem_cons.mp hb with rfl | hb
    · exact ⟨[], b :: l, rfl, .step hne hnext hl⟩
    · obtain ⟨l₁, l₂, rfl, hl₂⟩ := ih hb
      exact ⟨a :: l₁, l₂, rfl, hl₂⟩

/-- No point comes twice: the second time would have the same path as the first. -/
theorem nodup (h : Path next root a l) : l.Nodup := by
  induction h with
  | root => simp
  | @step a _ l hne hnext hl ih =>
    refine List.nodup_cons.mpr ⟨fun ha => ?_, ih⟩
    obtain ⟨l₁, l₂, rfl, hl₂⟩ := hl.split ha
    have := congrArg List.length (hl₂.unique (.step hne hnext hl))
    simp at this
    omega

theorem mono {next' : α → Option α} (h : Path next root a l) (hn : ∀ x ∈ l, x ≠ root → next' x = next x) :
    Path next' root a l := by
  induction h with
  | root => exact .root
  | @step a _ l hne hnext _ ih =>
    exact .step hne ((hn a List.mem_cons_self hne).trans hnext)
      (ih fun x hx => hn x (List.mem_cons_of_mem _ hx))

theorem trans {l' : List α} (h : Path next root a l) (hb : b ∈ l) (h' : Path next root b l') :
    ∃ l₁, l = l₁ ++ l' := by
  obtain ⟨l₁, l₂, rfl, hl₂⟩ := h.split hb
  exact ⟨l₁, by rw [hl₂.unique h']⟩

end Path

/-- A walk that meets its stop somewhere on the path ends at the first such point. -/
theorem walk_path (stop : α → Bool) (h : Path next root a l) (hstop : ∃ x ∈ l, stop x) (n : Nat)
    (hn : l.length ≤ n) :
    ∃ l₂, l = (walk next stop n a).1 ++ l₂ ∧ Path next root (walk next stop n a).2 l₂ ∧
      stop (walk next stop n a).2 ∧ ∀ x ∈ (walk next stop n a).1, ¬ stop x := by
  induction h generalizing n with
  | root =>
    obtain ⟨x, hx, hs⟩ := hstop
    obtain rfl := List.mem_singleton.mp hx
    obtain ⟨n, rfl⟩ : ∃ m, n = m + 1 := ⟨n - 1, by simp at hn; omega⟩
    refine ⟨[x], ?_⟩
    simp [walk, hs, Path.root]
  | @step a b l hne hnext hl ih =>
    obtain ⟨n, rfl⟩ : ∃ m, n = m + 1 := ⟨n - 1, by simp at hn; omega⟩
    by_cases hs : stop a
    · refine ⟨a :: l, ?_⟩
      simp [walk, hs, Path.step hne hnext hl]
    · obtain ⟨x, hx, hsx⟩ := hstop
      have hx : x ∈ l := (List.mem_cons.mp hx).resolve_left (fun he => hs (he ▸ hsx))
      obtain ⟨l₂, hl₂, hp, hs₂, hall⟩ := ih ⟨x, hx, hsx⟩ n (by simpa using hn)
      refine ⟨l₂, ?_⟩
      simp only [walk, hs, hnext, Bool.false_eq_true, if_false, List.cons_append, ← hl₂, true_and,
        List.mem_cons, forall_eq_or_imp, not_false_eq_true]
      exact ⟨hp, hs₂, hall⟩

/-- A walk that stops at the root reads `next` on its path only. -/
theorem walk_congr {f : α → Option α} (stop : α → Bool) (h : Path next root a l) (hroot : stop root)
    (hn : ∀ x ∈ l, f x = next x) (n : Nat) :
    walk f stop n a = walk next stop n a ∧ ∀ x ∈ (walk next stop n a).1, x ∈ l := by
  induction h generalizing n with
  | root => cases n <;> simp [walk, hroot]
  | @step a b l hne hnext hl ih =>
    cases n with
    | zero => simp [walk]
    | succ n =>
      obtain ⟨hw, hm⟩ := ih (fun x hx => hn x (List.mem_cons_of_mem _ hx)) n
      by_cases hs : stop a
      · simp [walk, hs]
      · simp only [walk, hs, hn a List.mem_cons_self, hnext, hw, Bool.false_eq_true, if_false, List.mem_cons,
          forall_eq_or_imp, true_or, true_and]
        exact fun x hx => .inr (hm x hx)

end Walk
