import Sestrian.Lib.Check

/-!
# Runs in another order

Two runs of checks agree when they accept with the same results. What a loop does to a list does not depend on
the order of the list where any two of its rounds agree in both orders.
-/

namespace Check

variable {ε α β σ : Type}

/-- Both accept with the same result, or neither accepts. -/
def Agree (x y : Except ε α) : Prop := ∀ r, x = .ok r ↔ y = .ok r

theorem Agree.refl (x : Except ε α) : Agree x x := fun _ => Iff.rfl

theorem Agree.symm {x y : Except ε α} (h : Agree x y) : Agree y x := fun r => (h r).symm

theorem Agree.trans {x y z : Except ε α} (h : Agree x y) (h' : Agree y z) : Agree x z := fun r => (h r).trans (h' r)

theorem Agree.of_never {x y : Except ε α} (hx : ∀ r, x ≠ .ok r) (hy : ∀ r, y ≠ .ok r) : Agree x y := fun r =>
  ⟨fun h => absurd h (hx r), fun h => absurd h (hy r)⟩

theorem Agree.bind {x y : Except ε α} {f g : α → Except ε β} (h : Agree x y) (hf : ∀ a, Agree (f a) (g a)) :
    Agree (x >>= f) (y >>= g) := by
  intro r
  rw [bind_eq_ok, bind_eq_ok]
  constructor
  · rintro ⟨a, ha, hr⟩
    exact ⟨a, (h a).mp ha, (hf a r).mp hr⟩
  · rintro ⟨a, ha, hr⟩
    exact ⟨a, (h a).mpr ha, (hf a r).mpr hr⟩

/-- Two rounds of the loop agree in both orders. -/
def Swap (f : σ → α → Except ε σ) (x y : α) : Prop :=
  ∀ s, Agree (f s x >>= fun s => f s y) (f s y >>= fun s => f s x)

theorem Swap.cons {f : σ → α → Except ε σ} {x y : α} (h : Swap f x y) (l : List α) (s : σ) :
    Agree ((x :: y :: l).foldlM f s) ((y :: x :: l).foldlM f s) := by
  simp only [List.foldlM_cons]
  rw [← bind_assoc, ← bind_assoc]
  exact (h s).bind fun _ => .refl _

/-- A round that agrees with all rounds before it can go first. -/
theorem foldlM_front {f : σ → α → Except ε σ} {x : α} {p : List α} (h : ∀ y ∈ p, Swap f y x) (q : List α) (s : σ) :
    Agree ((p ++ x :: q).foldlM f s) ((x :: (p ++ q)).foldlM f s) := by
  induction p generalizing s with
  | nil => exact .refl _
  | cons y p ih =>
    obtain ⟨hy, hp⟩ := List.forall_mem_cons.mp h
    refine Agree.trans ?_ (hy.cons (p ++ q) s)
    rw [List.cons_append, List.foldlM_cons, List.foldlM_cons]
    exact (Agree.refl _).bind fun s' => ih hp s'

/-- Sorted lists differ only in the order of equal elements, so it is enough that these agree in both orders. -/
theorem foldlM_sorted {f : σ → α → Except ε σ} {le : α → α → Prop} {l l' : List α} (hp : l.Perm l') (hs : l.Pairwise le)
    (hs' : l'.Pairwise le) (h : ∀ x ∈ l, ∀ y ∈ l, le x y → le y x → Swap f x y) (s : σ) :
    Agree (l.foldlM f s) (l'.foldlM f s) := by
  induction l generalizing l' s with
  | nil =>
    rw [List.nil_perm.mp hp]
    exact .refl _
  | cons x l ih =>
    obtain ⟨p, q, rfl⟩ := List.append_of_mem (hp.mem_iff.mp List.mem_cons_self)
    have hrest : l.Perm (p ++ q) := (hp.trans List.perm_middle).cons_inv
    obtain ⟨hx, hl⟩ := List.pairwise_cons.mp hs
    have hfront : ∀ y ∈ p, Swap f y x := by
      intro y hy
      have hmem : y ∈ l := hrest.mem_iff.mpr (List.mem_append_left _ hy)
      have hyx : le y x := (List.pairwise_append.mp hs').2.2 y hy x List.mem_cons_self
      exact h y (List.mem_cons_of_mem _ hmem) x List.mem_cons_self hyx (hx y hmem)
    refine Agree.trans ?_ (foldlM_front hfront q s).symm
    rw [List.foldlM_cons, List.foldlM_cons]
    refine (Agree.refl _).bind fun s' => ih hrest hl ?_ (fun y hy z hz => ?_) s'
    · exact hs'.sublist ((List.sublist_cons_self x q).append_left p)
    · exact h y (List.mem_cons_of_mem _ hy) z (List.mem_cons_of_mem _ hz)

end Check
