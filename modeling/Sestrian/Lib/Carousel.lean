import Mathlib

/-!
# A list read around and around

`stretch xs c n` is the `n` entries from place `c` on, where the list begins again after its end.
-/

namespace Carousel

variable {α : Type*} {xs : List α}

def stretch (xs : List α) (c n : Nat) : List α := (List.range' c n).filterMap fun s => xs[s % xs.length]?

theorem stretch_append (c n k : Nat) : stretch xs c n ++ stretch xs (c + n) k = stretch xs c (n + k) := by
  rw [stretch, stretch, stretch, ← List.filterMap_append, List.range'_append_1]

theorem stretch_zero (c : Nat) : stretch xs c 0 = [] := rfl

/-- The places count modulo the length. -/
theorem stretch_mod (c n : Nat) : stretch xs (c % xs.length) n = stretch xs c n := by
  induction n with
  | zero => rfl
  | succ n ih =>
    rw [← stretch_append _ n 1, ← stretch_append c n 1, ih]
    simp only [stretch, List.range'_one, List.filterMap_cons, Nat.mod_add_mod]

theorem stretch_one {c : Nat} {x : α} (h : xs[c % xs.length]? = some x) : stretch xs c 1 = [x] := by
  rw [stretch, List.range'_one, List.filterMap_cons, h, List.filterMap_nil]

theorem length_stretch (hxs : xs ≠ []) (c n : Nat) : (stretch xs c n).length = n := by
  have hpos := List.length_pos_iff.mpr hxs
  induction n with
  | zero => rfl
  | succ n ih =>
    rw [← stretch_append, List.length_append, ih,
      stretch_one (List.getElem?_eq_getElem (Nat.mod_lt (c + n) hpos)), List.length_singleton]

/-- Once around, every entry has been seen. -/
theorem mem_stretch {c n : Nat} (hn : xs.length ≤ n) {x : α} (hx : x ∈ xs) : x ∈ stretch xs c n := by
  obtain ⟨i, hi⟩ := List.mem_iff_getElem?.mp hx
  have hlt : i < xs.length := (List.getElem?_eq_some_iff.mp hi).1
  have hpos : 0 < xs.length := Nat.zero_lt_of_lt hlt
  -- The first place at or after `c` that is `i` modulo the length.
  refine List.mem_filterMap.mpr ⟨c + (i + xs.length - c % xs.length) % xs.length, ?_, ?_⟩
  · rw [List.mem_range'_1]
    have := Nat.mod_lt (i + xs.length - c % xs.length) hpos
    omega
  · have hc := Nat.mod_lt c hpos
    rw [Nat.add_mod_mod, ← Nat.mod_add_mod, show c % xs.length + (i + xs.length - c % xs.length) = i + xs.length by omega,
      Nat.add_mod_right, Nat.mod_eq_of_lt hlt, hi]

/-- Less than once around, no entry is seen twice. -/
theorem nodup_stretch (hnd : xs.Nodup) {c n : Nat} (hn : n ≤ xs.length) : (stretch xs c n).Nodup := by
  refine List.pairwise_filterMap.mpr ((List.pairwise_lt_range' 1).imp_of_mem fun {a b} ha hb hlt x hx y hy => ?_)
  rintro rfl
  obtain ⟨ha', hxa⟩ := List.getElem?_eq_some_iff.mp hx
  obtain ⟨hb', hxb⟩ := List.getElem?_eq_some_iff.mp hy
  have hmod : b % xs.length = a % xs.length := (List.Nodup.getElem_inj_iff hnd).mp (hxb.trans hxa.symm)
  have hdvd := Nat.sub_mod_eq_zero_of_mod_eq hmod
  rw [List.mem_range'_1] at ha hb
  rw [Nat.mod_eq_of_lt (by omega)] at hdvd
  omega

end Carousel
