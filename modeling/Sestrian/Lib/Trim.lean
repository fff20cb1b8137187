import Mathlib

/-!
# What survives trimming

The entries that are left of a sorted list lie between two good ones, when no more are bad than are trimmed at each end.
-/

namespace Trim

variable {α : Type*}

/-- A property of more entries than are bad holds of a good one. -/
theorem exists_good {xs good bad : List α} (hxs : xs.Perm (good ++ bad)) {p : α → Bool} (h : bad.length < xs.countP p) :
    ∃ x ∈ good, p x := by
  rw [hxs.countP_eq, List.countP_append] at h
  have hbad : bad.countP p ≤ bad.length := List.countP_le_length
  exact List.countP_pos_iff.mp (by omega)

variable [LinearOrder α]

/-- With `lo` entries before it, an entry is no less than a good one. -/
theorem exists_good_le {xs good bad : List α} (hs : xs.Pairwise (· ≤ ·)) (hxs : xs.Perm (good ++ bad)) {i : Nat}
    (hi : bad.length ≤ i) (hlen : i < xs.length) : ∃ x ∈ good, x ≤ xs[i] := by
  have hall : ∀ x ∈ xs.take (i + 1), decide (x ≤ xs[i]) = true := by
    intro x hx
    obtain ⟨j, hj, rfl⟩ := List.mem_take_iff_getElem.mp hx
    rw [decide_eq_true_eq]
    rcases Nat.lt_or_eq_of_le (Nat.le_of_lt_succ (lt_of_lt_of_le hj (Nat.min_le_left _ _))) with hlt | rfl
    · exact List.pairwise_iff_getElem.mp hs j i _ hlen hlt
    · exact le_rfl
  have hcount : i + 1 ≤ xs.countP fun x => decide (x ≤ xs[i]) := by
    calc i + 1 = (xs.take (i + 1)).length := by rw [List.length_take, Nat.min_eq_left hlen]
      _ = (xs.take (i + 1)).countP fun x => decide (x ≤ xs[i]) := (List.countP_eq_length.mpr hall).symm
      _ ≤ xs.countP fun x => decide (x ≤ xs[i]) := (List.take_sublist _ _).countP_le
  obtain ⟨x, hx, hle⟩ := exists_good hxs (lt_of_le_of_lt hi hcount)
  exact ⟨x, hx, by simpa using hle⟩

/-- With `lo` entries after it, an entry is no greater than a good one. -/
theorem exists_good_ge {xs good bad : List α} (hs : xs.Pairwise (· ≤ ·)) (hxs : xs.Perm (good ++ bad)) {i : Nat}
    (hi : bad.length + i < xs.length) : ∃ x ∈ good, xs[i] ≤ x := by
  have hall : ∀ x ∈ xs.drop i, decide (xs[i] ≤ x) = true := by
    intro x hx
    obtain ⟨j, hj, rfl⟩ := List.mem_drop_iff_getElem.mp hx
    rw [decide_eq_true_eq]
    rcases Nat.eq_zero_or_pos j with rfl | hpos
    · exact le_rfl
    · exact List.pairwise_iff_getElem.mp hs i (i + j) _ _ (by omega)
  have hcount : xs.length - i ≤ xs.countP fun x => decide (xs[i] ≤ x) := by
    calc xs.length - i = (xs.drop i).length := List.length_drop.symm
      _ = (xs.drop i).countP fun x => decide (xs[i] ≤ x) := (List.countP_eq_length.mpr hall).symm
      _ ≤ xs.countP fun x => decide (xs[i] ≤ x) := (List.drop_sublist _ _).countP_le
  have hbad : bad.length < xs.length - i := by omega
  obtain ⟨x, hx, hle⟩ := exists_good hxs (lt_of_lt_of_le hbad hcount)
  exact ⟨x, hx, by simpa using hle⟩

/-- The floor of the mean lies between two bounds of the entries. -/
theorem floor_mean_bounds {xs : List Int} {a b : Int} (hne : xs ≠ []) (ha : ∀ x ∈ xs, a ≤ x) (hb : ∀ x ∈ xs, x ≤ b) :
    a ≤ xs.sum / xs.length ∧ xs.sum / xs.length ≤ b := by
  have hpos : (0 : Int) < xs.length := by exact_mod_cast List.length_pos_of_ne_nil hne
  have hlow := List.card_nsmul_le_sum xs a ha
  have hhigh := List.sum_le_card_nsmul xs b hb
  rw [nsmul_eq_mul] at hlow hhigh
  exact ⟨(Int.le_ediv_iff_mul_le hpos).mpr (by rwa [mul_comm]), Int.ediv_le_of_le_mul hpos (by rwa [mul_comm])⟩

end Trim
