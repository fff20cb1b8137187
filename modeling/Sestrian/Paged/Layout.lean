import Sestrian.Code.Paged
import Sestrian.Tree.Leaves

/-!
# Where the held pages lie

A paged node keeps the weights of its pages one after another. A page's base is where its
weights start there.
-/

namespace Sestrian

open Aggregate Pages

/-- The bases are the running length of the held pages. -/
def Based : Nat → List (Option Nat) → List (Nat × Nat) → Prop
  | _, [], [] => True
  | n, some b :: bs, s :: ss => b = n ∧ Based (n + (s.2 - s.1)) bs ss
  | n, none :: bs, _ :: ss => Based n bs ss
  | _, _, _ => False

/-- The weights of the held pages, in page order. -/
def compact (w : List Int64) : List (Option Nat) → List (Nat × Nat) → List Int64
  | some _ :: bs, s :: ss => slice w s.1 s.2 ++ compact w bs ss
  | none :: bs, _ :: ss => compact w bs ss
  | _, _ => []

variable {w : List Int64} {bs : List (Option Nat)} {ss : List (Nat × Nat)} {n : Nat}

theorem Based.length_eq (h : Based n bs ss) : bs.length = ss.length := by
  induction bs generalizing n ss with
  | nil => cases ss <;> simp_all [Based]
  | cons b bs ih =>
    cases ss with
    | nil => cases b <;> simp [Based] at h
    | cons s ss =>
      cases b with
      | none => simp [ih (show Based n bs ss from h)]
      | some b => simp [ih h.2]

/-- A held weight: its page, its place in the page and its place in the compact vector. -/
structure HeldAt (bs : List (Option Nat)) (ss : List (Nat × Nat)) (pid base : Nat) (s : Nat × Nat) (j : Nat) : Prop where
  base : bs[pid]? = some (some base)
  span : ss[pid]? = some s
  inside : j < s.2 - s.1

theorem Based.le_base (h : Based n bs ss) {pid base : Nat} (hb : bs[pid]? = some (some base)) : n ≤ base := by
  induction bs generalizing n ss pid with
  | nil => simp at hb
  | cons b bs ih =>
    cases ss with
    | nil => cases b <;> simp [Based] at h
    | cons s ss =>
      cases pid with
      | zero =>
        simp only [List.getElem?_cons_zero, Option.some.injEq] at hb
        subst hb
        exact h.1.symm.le
      | succ pid =>
        rw [List.getElem?_cons_succ] at hb
        cases b with
        | none => exact ih (show Based n bs ss from h) hb
        | some b => exact (Nat.le_add_right _ _).trans (ih h.2 hb)

/-- The compact vector has the weight at its base. -/
theorem compact_get (h : Based n bs ss) (hstop : ∀ s ∈ ss, s.2 ≤ w.length) {pid base j : Nat} {s : Nat × Nat}
    (hh : HeldAt bs ss pid base s j) : (compact w bs ss)[base - n + j]? = w[s.1 + j]? := by
  induction bs generalizing n ss pid with
  | nil => simpa using hh.base
  | cons b bs ih =>
    cases ss with
    | nil => cases b <;> simp [Based] at h
    | cons s' ss =>
      have hstop' : ∀ s ∈ ss, s.2 ≤ w.length := fun s hs => hstop s (List.mem_cons_of_mem _ hs)
      have hlen : (slice w s'.1 s'.2).length = s'.2 - s'.1 := length_slice _ _ _ (hstop s' List.mem_cons_self)
      cases pid with
      | zero =>
        obtain ⟨hb, hs, hj⟩ := hh
        simp only [List.getElem?_cons_zero, Option.some.injEq] at hb hs
        subst hb hs
        obtain rfl := h.1
        rw [Nat.sub_self, Nat.zero_add, compact, List.getElem?_append_left (by omega), getElem?_slice, if_pos hj]
      | succ pid =>
        have hh' : HeldAt bs ss pid base s j := ⟨by simpa using hh.base, by simpa using hh.span, hh.inside⟩
        cases b with
        | none => exact ih (show Based n bs ss from h) hstop' hh'
        | some b =>
          have hle := h.2.le_base hh'.base
          rw [compact, List.getElem?_append_right (by omega), hlen, ← ih h.2 hstop' hh']
          congr 1
          omega

/-- Every place of the compact vector belongs to a held page. -/
theorem compact_place (h : Based n bs ss) (hstop : ∀ s ∈ ss, s.2 ≤ w.length) {k : Nat}
    (hk : k < (compact w bs ss).length) : ∃ pid base s j, HeldAt bs ss pid base s j ∧ n + k = base + j := by
  induction bs generalizing n ss k with
  | nil => cases ss <;> simp [compact] at hk
  | cons b bs ih =>
    cases ss with
    | nil => cases b <;> simp [Based] at h
    | cons s ss =>
      have hstop' : ∀ s ∈ ss, s.2 ≤ w.length := fun s hs => hstop s (List.mem_cons_of_mem _ hs)
      have hlen : (slice w s.1 s.2).length = s.2 - s.1 := length_slice _ _ _ (hstop s List.mem_cons_self)
      cases b with
      | none =>
        obtain ⟨pid, base, s', j, hh, he⟩ := ih (show Based n bs ss from h) hstop' hk
        exact ⟨pid + 1, base, s', j, ⟨hh.base, hh.span, hh.inside⟩, he⟩
      | some b =>
        obtain rfl := h.1
        by_cases hin : k < s.2 - s.1
        · exact ⟨0, b, s, k, ⟨rfl, rfl, hin⟩, rfl⟩
        · rw [compact, List.length_append, hlen] at hk
          obtain ⟨pid, base, s', j, hh, he⟩ := ih (k := k - (s.2 - s.1)) h.2 hstop' (by omega)
          exact ⟨pid + 1, base, s', j, ⟨hh.base, hh.span, hh.inside⟩, by omega⟩

/-- A later held page lies behind an earlier one. -/
theorem Based.apart (h : Based n bs ss) {pid pid' base base' : Nat} {s : Nat × Nat} (hb : bs[pid]? = some (some base))
    (hs : ss[pid]? = some s) (hb' : bs[pid']? = some (some base')) (hlt : pid < pid') : base + (s.2 - s.1) ≤ base' := by
  induction bs generalizing n ss pid pid' with
  | nil => simp at hb
  | cons b bs ih =>
    cases ss with
    | nil => simp at hs
    | cons s' ss =>
      obtain ⟨q, rfl⟩ : ∃ q, pid' = q + 1 := ⟨pid' - 1, by omega⟩
      rw [List.getElem?_cons_succ] at hb'
      cases pid with
      | zero =>
        simp only [List.getElem?_cons_zero, Option.some.injEq] at hb hs
        subst hb hs
        obtain rfl := h.1
        exact h.2.le_base hb'
      | succ pid =>
        rw [List.getElem?_cons_succ] at hb hs
        cases b with
        | none => exact ih (show Based n bs ss from h) hb hs hb' (by omega)
        | some b => exact ih h.2 hb hs hb' (by omega)

/-- One place, one weight. -/
theorem HeldAt.unique (h : Based n bs ss) {pid pid' base base' j j' : Nat} {s s' : Nat × Nat}
    (hh : HeldAt bs ss pid base s j) (hh' : HeldAt bs ss pid' base' s' j') (he : base + j = base' + j') :
    pid = pid' ∧ s = s' ∧ j = j' := by
  have hj := hh.inside
  have hj' := hh'.inside
  rcases Nat.lt_trichotomy pid pid' with hlt | rfl | hlt
  · have := h.apart hh.base hh.span hh'.base hlt
    omega
  · have hb := hh.base.symm.trans hh'.base
    have hs := hh.span.symm.trans hh'.span
    simp only [Option.some.injEq] at hb hs
    exact ⟨rfl, hs, by omega⟩
  · have := h.apart hh'.base hh'.span hh.base hlt
    omega

/-- The compact vector's own slice of a held page. -/
theorem slice_compact (h : Based 0 bs ss) (hstop : ∀ s ∈ ss, s.2 ≤ w.length) {pid base : Nat} {s : Nat × Nat}
    (hb : bs[pid]? = some (some base)) (hs : ss[pid]? = some s) :
    slice (compact w bs ss) base (base + (s.2 - s.1)) = slice w s.1 s.2 := by
  apply List.ext_getElem?
  intro j
  rw [getElem?_slice, getElem?_slice, Nat.add_sub_cancel_left]
  split
  · next hj =>
    have := compact_get h hstop ⟨hb, hs, hj⟩
    rwa [Nat.sub_zero] at this
  · rfl

end Sestrian
