import Sestrian.Lib.Elim
import Sestrian.Da.Field

/-!
# The inverse of a matrix

Each round of `mat_inv` is one round of elimination. Where only zero is orthogonal to the rows, a
pivot is always found, and the result times the matrix is the identity.
-/

namespace Sestrian

namespace da

/-- One entry of a row, zero past its end. -/
def coef (row : List UInt8) (c : Nat) : GF := ⟨row.getD c 0⟩

/-- The rows of the code as rows of the field. -/
def matrix (a : List (List UInt8)) (r : Nat) : Nat → GF := coef (a.getD r [])

/-- `k` rows of one length. -/
structure Shape (k width : Nat) (a : List (List UInt8)) : Prop where
  rows : a.length = k
  row : ∀ r < k, (a.getD r []).length = width

/-! ## Entries -/

theorem coef_of_length_le {row : List UInt8} {c : Nat} (h : row.length ≤ c) : coef row c = 0 :=
  congrArg GF.mk (List.getD_eq_default _ _ h)

theorem coef_map_mul (x : UInt8) (row : List UInt8) (c : Nat) :
    coef (row.map fun v => gf_mul v x) c = coef row c * ⟨x⟩ := by
  refine GF.eq_of_byte ?_
  have hzero : gf_mul 0 x = 0 := zero_gf_mul x
  change (row.map fun v => gf_mul v x).getD c 0 = gf_mul (row.getD c 0) x
  rw [List.getD_eq_getElem?_getD, List.getD_eq_getElem?_getD, List.getElem?_map]
  cases row[c]?
  · exact hzero.symm
  · rfl

@[simp] theorem length_add_scaled (f : UInt8) (row pivot_row : List UInt8) :
    (add_scaled f row pivot_row).length = row.length := by
  induction row generalizing pivot_row with
  | nil => cases pivot_row <;> rfl
  | cons x row ih =>
    cases pivot_row with
    | nil => rfl
    | cons y pivot_row => exact congrArg Nat.succ (ih pivot_row)

theorem coef_add_scaled (f : UInt8) {row pivot_row : List UInt8} (h : row.length = pivot_row.length) (c : Nat) :
    coef (add_scaled f row pivot_row) c = coef row c + ⟨f⟩ * coef pivot_row c := by
  induction row generalizing pivot_row c with
  | nil =>
    have hp : pivot_row = [] := List.eq_nil_of_length_eq_zero h.symm
    have hnil : coef [] c = 0 := coef_of_length_le (Nat.zero_le c)
    rw [hp, hnil, mul_zero, add_zero]
    exact hnil
  | cons x row ih =>
    cases pivot_row with
    | nil => exact absurd h (by simp)
    | cons y pivot_row =>
      cases c with
      | zero => rfl
      | succ c => exact ih (Nat.succ.inj h) c

theorem matrix_ne_zero {a : List (List UInt8)} {r c : Nat} (h : (a.getD r []).getD c 0 ≠ 0) : matrix a r c ≠ 0 :=
  fun he => h (congrArg GF.byte he)

/-! ## One round -/

variable {k width col : Nat} {a : List (List UInt8)}

theorem getD_swap_rows {piv : Nat} (ha : Shape k width a) (hcol : col < k) (hpiv : piv < k) (r : Nat) :
    (swap_rows a col piv).getD r [] = a.getD (Equiv.swap col piv r) [] := by
  have hlc : col < a.length := ha.rows.symm ▸ hcol
  have hlp : piv < a.length := ha.rows.symm ▸ hpiv
  unfold swap_rows
  rw [Equiv.swap_apply_def, List.getD_eq_getElem?_getD, List.getElem?_set, List.getElem?_set, List.length_set]
  by_cases hrp : piv = r
  · rw [if_pos hrp, if_pos hlp]
    by_cases hrc : r = col
    · rw [if_pos hrc, hrp, hrc]
      rfl
    · rw [if_neg hrc, if_pos hrp.symm]
      rfl
  · rw [if_neg hrp, if_neg (Ne.symm hrp)]
    by_cases hrc : col = r
    · rw [if_pos hrc, if_pos hlc, if_pos hrc.symm]
      rfl
    · rw [if_neg hrc, if_neg (Ne.symm hrc), List.getD_eq_getElem?_getD]

theorem shape_swap_rows {piv : Nat} (ha : Shape k width a) (hcol : col < k) (hpiv : piv < k) :
    Shape k width (swap_rows a col piv) where
  rows := by
    unfold swap_rows
    rw [List.length_set, List.length_set, ha.rows]
  row := by
    intro r hr
    rw [getD_swap_rows ha hcol hpiv]
    exact ha.row _ (Elim.swap_lt hcol hpiv hr)

theorem getD_clear_column (ha : Shape k width a) (pivot_row : List UInt8) {r : Nat} (hr : r < k) :
    (clear_column a col pivot_row).getD r [] =
      if r = col then pivot_row
      else if (a.getD r []).getD col 0 ≠ 0 then add_scaled ((a.getD r []).getD col 0) (a.getD r []) pivot_row
      else a.getD r [] := by
  have hlen : r < a.length := ha.rows.symm ▸ hr
  unfold clear_column
  rw [List.getD_eq_getElem?_getD, List.getElem?_map, List.getElem?_zipIdx, List.getElem?_eq_getElem hlen,
    List.getD_eq_getElem a _ hlen]
  simp only [Option.map_some, Option.getD_some, Nat.zero_add]

theorem shape_clear_column (ha : Shape k width a) {pivot_row : List UInt8} (hp : pivot_row.length = width) :
    Shape k width (clear_column a col pivot_row) where
  rows := by
    unfold clear_column
    rw [List.length_map, List.length_zipIdx, ha.rows]
  row := by
    intro r hr
    rw [getD_clear_column ha _ hr]
    split
    · exact hp
    · split
      · rw [length_add_scaled, ha.row r hr]
      · exact ha.row r hr

/-- What a round that finds its pivot does. -/
theorem eliminate_some {a' : List (List UInt8)} (ha : Shape k width a) (hcol : col < k)
    (h : eliminate k a col = some a') :
    Shape k width a' ∧ ∃ piv, col ≤ piv ∧ piv < k ∧ matrix a piv col ≠ 0 ∧
      ∀ r < k, matrix a' r = Elim.round (matrix a) col piv r := by
  unfold eliminate at h
  cases hfind : (List.range' col (k - col)).find? fun r => (a.getD r []).getD col 0 ≠ 0 with
  | none =>
    rw [hfind] at h
    cases h
  | some piv =>
    rw [hfind] at h
    have hmem := List.mem_range'_1.mp (List.mem_of_find?_eq_some hfind)
    have hpiv : piv < k := by omega
    have hne : matrix a piv col ≠ 0 := matrix_ne_zero (by simpa using List.find?_some hfind)
    have hs := shape_swap_rows ha hcol hpiv
    have hrow := getD_swap_rows ha hcol hpiv col
    rw [Equiv.swap_apply_left] at hrow
    have hpivot (c : Nat) :
        coef ((a.getD piv []).map fun v => gf_mul v (gf_inv ((a.getD piv []).getD col 0))) c =
          Elim.pivot (matrix a) col piv c := by
      have hinv : (⟨gf_inv ((a.getD piv []).getD col 0)⟩ : GF) = (matrix a piv col)⁻¹ :=
        GF.eq_of_byte (GF.byte_inv hne).symm
      rw [coef_map_mul, hinv]
      rfl
    have hwidth : ((a.getD piv []).map fun v => gf_mul v (gf_inv ((a.getD piv []).getD col 0))).length = width := by
      rw [List.length_map, ha.row piv hpiv]
    simp only [Option.bind_eq_bind, Option.bind_some, Option.some.injEq, hrow] at h
    subst h
    refine ⟨shape_clear_column hs hwidth, piv, hmem.1, hpiv, hne, fun r hr => ?_⟩
    funext c
    have hentry : matrix (swap_rows a col piv) r = Elim.swapped (matrix a) col piv r := by
      unfold matrix Elim.swapped
      rw [getD_swap_rows ha hcol hpiv]
    unfold matrix Elim.round
    rw [getD_clear_column hs _ hr]
    by_cases hrc : r = col
    · rw [if_pos hrc, if_pos hrc, hpivot]
      rfl
    · rw [if_neg hrc, if_neg hrc]
      change _ = Elim.swapped (matrix a) col piv r c - Elim.swapped (matrix a) col piv r col * Elim.pivot (matrix a) col piv c
      rw [← hentry, GF.sub_eq_add]
      by_cases hz : ((swap_rows a col piv).getD r []).getD col 0 = 0
      · have hentry0 : matrix (swap_rows a col piv) r col = 0 := congrArg GF.mk hz
        rw [if_neg (not_not.mpr hz), hentry0, zero_mul, add_zero]
        rfl
      · rw [if_pos hz, coef_add_scaled _ ((hs.row r hr).trans hwidth.symm), hpivot]
        rfl

theorem eliminate_none (h : eliminate k a col = none) {r : Nat} (hle : col ≤ r) (hr : r < k) : matrix a r col = 0 := by
  unfold eliminate at h
  cases hfind : (List.range' col (k - col)).find? fun r => (a.getD r []).getD col 0 ≠ 0 with
  | some piv =>
    rw [hfind] at h
    cases h
  | none =>
    have hzero := List.find?_eq_none.mp hfind r (List.mem_range'_1.mpr (by omega))
    exact congrArg GF.mk (by simpa using hzero)

/-! ## The whole inversion -/

/-- After `n` rounds: `n` columns are done, and the row space is that of the start. -/
structure Eliminated (k n : Nat) (m a : List (List UInt8)) : Prop where
  shape : Shape k (2 * k) a
  reduced : Elim.Reduced k n (matrix a)
  span : ∀ S : Submodule GF (Nat → GF), (∀ r < k, matrix a r ∈ S) ↔ ∀ r < k, matrix (augment m) r ∈ S

variable {m : List (List UInt8)}

theorem getD_augment (hm : m.length = k) {r : Nat} (hr : r < k) :
    (augment m).getD r [] = m.getD r [] ++ (List.range k).map fun j => if r = j then 1 else 0 := by
  have hlen : r < m.length := hm.symm ▸ hr
  unfold augment
  rw [List.getD_eq_getElem?_getD, List.getElem?_map, List.getElem?_zipIdx, List.getElem?_eq_getElem hlen,
    List.getD_eq_getElem m _ hlen, hm]
  simp only [Option.map_some, Option.getD_some, Nat.zero_add]

theorem shape_augment (hm : Shape k k m) : Shape k (2 * k) (augment m) where
  rows := by
    unfold augment
    rw [List.length_map, List.length_zipIdx, hm.rows]
  row := by
    intro r hr
    rw [getD_augment hm.rows hr, List.length_append, hm.row r hr, List.length_map, List.length_range, two_mul]

theorem matrix_augment_left (hm : Shape k k m) {r c : Nat} (hr : r < k) (hc : c < k) :
    matrix (augment m) r c = matrix m r c := by
  have hlen : c < (m.getD r []).length := (hm.row r hr).symm ▸ hc
  unfold matrix coef
  rw [getD_augment hm.rows hr, List.getD_append _ _ _ _ hlen]

theorem matrix_augment_right (hm : Shape k k m) {r j : Nat} (hr : r < k) (hj : j < k) :
    matrix (augment m) r (k + j) = if r = j then 1 else 0 := by
  have hlen : (m.getD r []).length ≤ k + j := (hm.row r hr).symm ▸ Nat.le_add_right k j
  have hplace : k + j - (m.getD r []).length = j := by rw [hm.row r hr, Nat.add_sub_cancel_left]
  unfold matrix coef
  rw [getD_augment hm.rows hr, List.getD_append_right _ _ _ _ hlen, hplace, List.getD_eq_getElem?_getD,
    List.getElem?_map, List.getElem?_range hj, Option.map_some, Option.getD_some]
  split
  · rfl
  · rfl

/-- Only zero is orthogonal to the rows. -/
def Independent (k : Nat) (m : List (List UInt8)) : Prop :=
  ∀ z : Nat → GF, (∀ r < k, matrix m r ∈ Elim.orthogonal k z) → ∀ c < k, z c = 0

theorem eliminated_step (hm : Shape k k m) (hind : Independent k m) {n : Nat} (hn : n < k)
    (h : Eliminated k n m a) : ∃ a', eliminate k a n = some a' ∧ Eliminated k (n + 1) m a' := by
  cases he : eliminate k a n with
  | none =>
    obtain ⟨z, hone, hz⟩ := Elim.exists_orthogonal h.reduced hn fun r hle hr => eliminate_none he hle hr
    have hrows : ∀ r < k, matrix m r ∈ Elim.orthogonal k z := by
      intro r hr
      have hrow := (h.span _).mp hz r hr
      rw [Elim.mem_orthogonal] at hrow ⊢
      rw [← hrow]
      exact Finset.sum_congr rfl fun c hc => by rw [matrix_augment_left hm hr (Finset.mem_range.mp hc)]
    exact absurd (hone.symm.trans (hind z hrows n hn)) one_ne_zero
  | some a' =>
    obtain ⟨hshape, piv, hle, hpiv, hne, hround⟩ := eliminate_some h.shape hn he
    refine ⟨a', rfl, hshape, ?_, fun S => ?_⟩
    · intro c hc r hr
      rw [hround r hr]
      exact Elim.reduced_round h.reduced hle hpiv hne c hc r hr
    · rw [← h.span S, ← Elim.rows_mem_iff S hn hpiv hne]
      exact forall₂_congr fun r hr => by rw [hround r hr]

theorem eliminated_run (hm : Shape k k m) (hind : Independent k m) {n : Nat} (hn : n ≤ k) :
    ∃ a, (List.range n).foldlM (eliminate k) (augment m) = some a ∧ Eliminated k n m a := by
  induction n with
  | zero => exact ⟨_, rfl, shape_augment hm, fun c hc => absurd hc (Nat.not_lt_zero c), fun _ => Iff.rfl⟩
  | succ n ih =>
    obtain ⟨a, hrun, ha⟩ := ih (Nat.le_of_succ_le hn)
    obtain ⟨a', hstep, ha'⟩ := eliminated_step hm hind hn ha
    refine ⟨a', ?_, ha'⟩
    rw [List.range_succ, List.foldlM_append, hrun]
    simpa using hstep

/-- The inverse exists, and times the matrix it is the identity. -/
theorem mat_inv_some (hm : Shape k k m) (hind : Independent k m) :
    ∃ inv, mat_inv m = some inv ∧ Shape k k inv ∧
      ∀ r < k, ∀ c < k, ∑ j ∈ Finset.range k, matrix inv r j * matrix m j c = if r = c then 1 else 0 := by
  obtain ⟨a, hrun, ha⟩ := eliminated_run hm hind (le_refl k)
  have hrow (r : Nat) : (a.map (·.drop k)).getD r [] = (a.getD r []).drop k := by
    rw [List.getD_eq_getElem?_getD, List.getD_eq_getElem?_getD, List.getElem?_map]
    cases a[r]? <;> simp
  refine ⟨a.map (·.drop k), ?_, ⟨?_, ?_⟩, ?_⟩
  · unfold mat_inv
    rw [hm.rows, hrun]
    rfl
  · rw [List.length_map, ha.shape.rows]
  · intro r hr
    rw [hrow, List.length_drop, ha.shape.row r hr]
    omega
  · -- The start solves itself, so the end does, and its left half is the identity.
    have hstart : ∀ r < k, matrix (augment m) r ∈ Elim.solved k (matrix m) := by
      intro r hr c hc
      have hterm : ∀ j ∈ Finset.range k,
          matrix (augment m) r (k + j) * matrix m j c = if r = j then matrix m j c else 0 := by
        intro j hj
        rw [matrix_augment_right hm hr (Finset.mem_range.mp hj)]
        split
        · exact one_mul _
        · exact zero_mul _
      rw [Finset.sum_congr rfl hterm, Finset.sum_ite_eq, if_pos (Finset.mem_range.mpr hr),
        matrix_augment_left hm hr hc]
    intro r hr c hc
    rw [← ha.reduced c hc r hr, ← (ha.span _).mpr hstart r hr c hc]
    refine Finset.sum_congr rfl fun j _ => ?_
    unfold matrix coef
    rw [hrow, List.getD_eq_getElem?_getD, List.getElem?_drop, ← List.getD_eq_getElem?_getD]

end da

end Sestrian
