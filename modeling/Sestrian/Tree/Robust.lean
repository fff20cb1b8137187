import Sestrian.Lib.Trim
import Sestrian.Code.Core

/-!
# The trimmed mean against a minority

No more outliers than are trimmed at each end cannot move a coordinate past the honest values.
-/

namespace Sestrian

/-- The entries that are averaged, and how many. -/
def core_of (col : List Int64) : List Int64 :=
  slice (col.insertionSort (· ≤ ·)) (trim_bounds col.length).1 (trim_bounds col.length).2

def core_count (k : Nat) : Nat := (trim_bounds k).2 - (trim_bounds k).1

theorem trimmed_mean_scalar_eq (col : List Int64) :
    trimmed_mean_scalar col = Int64.ofInt (((core_of col).foldl (· + ·) 0).toInt / (core_count col.length : Int)) := rfl

theorem trim_bounds_eq {k : Nat} (hk : 3 ≤ k) : trim_bounds k = (max 1 (k / 5), k - max 1 (k / 5)) := by
  have hlo : k - max 1 (k / 5) > max 1 (k / 5) := by omega
  simp only [trim_bounds, ge_iff_le, if_pos hk, max_comm (k / 5) 1, if_pos hlo]

/-! ## The values as integers -/

theorem toInt_foldl_add (a : Int64) (xs : List Int64) :
    (xs.foldl (· + ·) a).toInt = (a.toInt + (xs.map Int64.toInt).sum).bmod (2 ^ 64) := by
  induction xs generalizing a with
  | nil =>
    rw [List.foldl_nil, List.map_nil, List.sum_nil, add_zero]
    exact a.toInt_bmod.symm
  | cons x xs ih =>
    rw [List.foldl_cons, ih, Int64.toInt_add, Int.bmod_add_bmod, List.map_cons, List.sum_cons, add_assoc]

theorem sorted_ints (col : List Int64) :
    (col.insertionSort (· ≤ ·)).map Int64.toInt = (col.map Int64.toInt).insertionSort (· ≤ ·) :=
  List.map_insertionSort _ _ _ _ fun _ _ _ _ => Int64.le_iff_toInt_le

theorem core_ints (col : List Int64) :
    (core_of col).map Int64.toInt =
      slice ((col.map Int64.toInt).insertionSort (· ≤ ·)) (trim_bounds col.length).1 (trim_bounds col.length).2 := by
  rw [core_of, slice, List.map_take, List.map_drop, sorted_ints]
  rfl

theorem core_perm {col col' : List Int64} (h : col.Perm col') : core_of col = core_of col' := by
  have hints : (core_of col).map Int64.toInt = (core_of col').map Int64.toInt := by
    rw [core_ints, core_ints, h.length_eq]
    have hsort : (col.map Int64.toInt).insertionSort (· ≤ ·) = (col'.map Int64.toInt).insertionSort (· ≤ ·) :=
      List.Perm.eq_of_pairwise (fun _ _ _ _ => le_antisymm) (List.pairwise_insertionSort _ _)
        (List.pairwise_insertionSort _ _) (((List.perm_insertionSort _ _).trans (h.map _)).trans (List.perm_insertionSort _ _).symm)
    rw [hsort]
  exact List.map_injective_iff.mpr (fun _ _ => Int64.toInt_inj.mp) hints

/-! ## The bound -/

def IsI32 (v : Int64) : Prop := -2 ^ 31 ≤ v.toInt ∧ v.toInt < 2 ^ 31

/-- The values of a coordinate: those of the honest contributors and the others, in any order. -/
structure Column (col honest others : List Int64) : Prop where
  perm : col.Perm (honest ++ others)
  three : 3 ≤ col.length
  few : others.length ≤ (trim_bounds col.length).1
  i32 : ∀ v ∈ col, IsI32 v

/-- Between the least and the greatest of the values. -/
def Between (vals : List Int64) (x : Int64) : Prop := (∃ a ∈ vals, a ≤ x) ∧ ∃ b ∈ vals, x ≤ b

variable {col honest others : List Int64}

theorem Column.core_between (h : Column col honest others) {x : Int} (hx : x ∈ (core_of col).map Int64.toInt) :
    (∃ a ∈ honest, a.toInt ≤ x) ∧ ∃ b ∈ honest, x ≤ b.toInt := by
  set s := (col.map Int64.toInt).insertionSort (· ≤ ·) with hs
  have hperm : s.Perm (honest.map Int64.toInt ++ others.map Int64.toInt) := by
    rw [← List.map_append]
    exact (List.perm_insertionSort _ _).trans (h.perm.map _)
  have hsorted : s.Pairwise (· ≤ ·) := List.pairwise_insertionSort _ _
  have hlen : s.length = col.length := by rw [hs, List.length_insertionSort, List.length_map]
  have hfew := h.few
  have hthree := h.three
  rw [core_ints, trim_bounds_eq hthree] at hx
  rw [trim_bounds_eq hthree] at hfew
  simp only [slice] at hx
  obtain ⟨i, hi, rfl⟩ := List.mem_take_iff_getElem.mp hx
  rw [← hs, List.length_drop, hlen] at hi
  simp only [← hs, List.getElem_drop]
  have hothers : (others.map Int64.toInt).length = others.length := List.length_map _
  obtain ⟨a', ha', hle⟩ := Trim.exists_good_le hsorted hperm (i := max 1 (col.length / 5) + i) (by omega) (by omega)
  obtain ⟨b', hb', hge⟩ := Trim.exists_good_ge hsorted hperm (i := max 1 (col.length / 5) + i) (by omega)
  obtain ⟨a, ha, rfl⟩ := List.mem_map.mp ha'
  obtain ⟨b, hb, rfl⟩ := List.mem_map.mp hb'
  exact ⟨⟨a, ha, hle⟩, b, hb, hge⟩

/-- The sum is the sum of the integers. -/
def ExactSum (col : List Int64) : Prop := ((core_of col).foldl (· + ·) 0).toInt = ((core_of col).map Int64.toInt).sum

theorem core_length (hk : 3 ≤ col.length) : (core_of col).length = core_count col.length := by
  rw [core_of, core_count, trim_bounds_eq hk, slice, List.length_take, List.length_drop, List.length_insertionSort]
  omega

theorem Column.core_i32 (h : Column col honest others) {x : Int} (hx : x ∈ (core_of col).map Int64.toInt) :
    -2 ^ 31 ≤ x ∧ x ≤ 2 ^ 31 - 1 := by
  obtain ⟨v, hv, rfl⟩ := List.mem_map.mp hx
  have hmem : v ∈ col := (List.mem_insertionSort _).mp (List.mem_of_mem_drop (List.mem_of_mem_take hv))
  obtain ⟨hlow, hhigh⟩ := h.i32 v hmem
  omega

theorem Column.exact_sum (h : Column col honest others) (hfits : core_count col.length ≤ 2 ^ 32) : ExactSum col := by
  have hlen : ((core_of col).map Int64.toInt).length = core_count col.length := by
    rw [List.length_map, core_length h.three]
  have hlow := List.card_nsmul_le_sum _ _ fun x hx => (h.core_i32 hx).1
  have hhigh := List.sum_le_card_nsmul _ _ fun x hx => (h.core_i32 hx).2
  rw [hlen, nsmul_eq_mul] at hlow hhigh
  rw [ExactSum, toInt_foldl_add, Int64.toInt_zero, zero_add]
  apply Int.bmod_eq_of_le <;> omega

/-- Where the sum of the kept values fits, the mean lies between two honest values, whoever comes first. -/
theorem trimmed_mean_robust (h : Column col honest others) (hfits : core_count col.length ≤ 2 ^ 32) :
    trim_bounds col.length = (max 1 (col.length / 5), col.length - max 1 (col.length / 5)) ∧ ExactSum col ∧
      Between honest (trimmed_mean_scalar col) ∧
      ∀ col', col'.Perm col → trimmed_mean_scalar col' = trimmed_mean_scalar col := by
  have hwrap := h.exact_sum hfits
  refine ⟨trim_bounds_eq h.three, hwrap, ?_, fun col' hperm => ?_⟩
  · have hpos : 0 < core_count col.length := by
      rw [core_count, trim_bounds_eq h.three]
      have := h.three
      omega
    have hlen : ((core_of col).map Int64.toInt).length = core_count col.length := by
      rw [List.length_map, core_length h.three]
    have hne : (core_of col).map Int64.toInt ≠ [] := List.ne_nil_of_length_pos (hlen ▸ hpos)
    obtain ⟨x, hx⟩ := List.exists_mem_of_ne_nil _ hne
    obtain ⟨⟨v, hv, -⟩, -⟩ := h.core_between hx
    obtain ⟨a, ha, hmin⟩ := honest.toFinset.exists_min_image Int64.toInt ⟨v, List.mem_toFinset.mpr hv⟩
    obtain ⟨b, hb, hmax⟩ := honest.toFinset.exists_max_image Int64.toInt ⟨v, List.mem_toFinset.mpr hv⟩
    have hlow : ∀ x ∈ (core_of col).map Int64.toInt, a.toInt ≤ x := fun x hx => by
      obtain ⟨⟨a', ha', hle⟩, -⟩ := h.core_between hx
      exact (hmin a' (List.mem_toFinset.mpr ha')).trans hle
    have hhigh : ∀ x ∈ (core_of col).map Int64.toInt, x ≤ b.toInt := fun x hx => by
      obtain ⟨-, b', hb', hge⟩ := h.core_between hx
      exact hge.trans (hmax b' (List.mem_toFinset.mpr hb'))
    obtain ⟨hmean, hmean'⟩ := Trim.floor_mean_bounds hne hlow hhigh
    rw [hlen, ← hwrap] at hmean hmean'
    have hexact : (trimmed_mean_scalar col).toInt = ((core_of col).foldl (· + ·) 0).toInt / (core_count col.length : Int) := by
      rw [trimmed_mean_scalar_eq]
      exact Int64.toInt_ofInt_of_le (a.le_toInt.trans hmean) (lt_of_le_of_lt hmean' b.toInt_lt)
    refine ⟨⟨a, List.mem_toFinset.mp ha, ?_⟩, b, List.mem_toFinset.mp hb, ?_⟩
    · rw [Int64.le_iff_toInt_le, hexact]
      exact hmean
    · rw [Int64.le_iff_toInt_le, hexact]
      exact hmean'
  · rw [trimmed_mean_scalar_eq, trimmed_mean_scalar_eq, core_perm hperm, hperm.length_eq]

theorem trimmed_mean_robust_five : Between [3, 4, 5, 6] (trimmed_mean_scalar [4, 2147483647, 3, 6, 5]) := by
  have hcolumn : Column [4, 2147483647, 3, 6, 5] [3, 4, 5, 6] [2147483647] := by
    refine ⟨by decide, by decide, by decide, fun v hv => ?_⟩
    unfold IsI32
    simp only [List.mem_cons, List.not_mem_nil, or_false] at hv
    obtain rfl | rfl | rfl | rfl | rfl := hv <;> decide
  exact (trimmed_mean_robust hcolumn (by decide)).2.2.1

/-! ## A column too long to sum -/

namespace Toy

/-- So many equal values that the sum of those kept is past `2 ^ 63`. -/
def crowd : List Int64 := List.replicate (5 * 2 ^ 32) 2147483647

theorem length_crowd : crowd.length = 5 * 2 ^ 32 := List.length_replicate

theorem core_crowd : core_of crowd = List.replicate (3 * 2 ^ 32) 2147483647 := by
  have hsort : crowd.insertionSort (· ≤ ·) = crowd := List.perm_replicate.mp (List.perm_insertionSort _ _)
  rw [core_of, hsort, length_crowd, trim_bounds_eq (by norm_num), crowd, slice, List.drop_replicate, List.take_replicate]
  norm_num

theorem sum_crowd : ((core_of crowd).foldl (· + ·) 0).toInt = 2 ^ 63 - 3 * 2 ^ 32 := by
  rw [toInt_foldl_add, core_crowd, List.map_replicate, List.sum_replicate, Int64.toInt_zero, zero_add]
  decide

theorem mean_crowd : trimmed_mean_scalar crowd = 715827881 := by
  rw [trimmed_mean_scalar_eq, sum_crowd, core_count, length_crowd]
  decide

end Toy

/-- Everyone is honest and says the same, and the mean is another value. -/
theorem crowd_wraps : Column Toy.crowd Toy.crowd [] ∧ ¬ExactSum Toy.crowd ∧ ¬Between Toy.crowd (trimmed_mean_scalar Toy.crowd) := by
  refine ⟨⟨?_, ?_, Nat.zero_le _, ?_⟩, ?_, ?_⟩
  · rw [List.append_nil]
  · rw [Toy.length_crowd]
    norm_num
  · intro v hv
    obtain rfl := List.eq_of_mem_replicate hv
    unfold IsI32
    decide
  · rw [ExactSum, Toy.sum_crowd, Toy.core_crowd, List.map_replicate, List.sum_replicate]
    decide
  · rintro ⟨⟨a, ha, hle⟩, -⟩
    obtain rfl := List.eq_of_mem_replicate ha
    rw [Toy.mean_crowd] at hle
    exact absurd hle (by decide)

end Sestrian
