import Mathlib.LinearAlgebra.Vandermonde
import Mathlib.LinearAlgebra.Pi

/-!
# Elimination, row by row

Rows are functions, and one round of Gauss-Jordan says what every row becomes. What a round keeps
is said with a subspace: it holds all rows before the round exactly when it holds all rows after.
-/

namespace Elim

variable {F : Type*} [Field F]

/-- The rows with `col` and `piv` exchanged. -/
def swapped (a : ℕ → ℕ → F) (col piv : ℕ) : ℕ → ℕ → F := fun r => a (Equiv.swap col piv r)

/-- The pivot row, its pivot one. -/
def pivot (a : ℕ → ℕ → F) (col piv : ℕ) : ℕ → F := fun c => a piv c * (a piv col)⁻¹

/-- One round: exchange, scale, clear the column. -/
def round (a : ℕ → ℕ → F) (col piv : ℕ) : ℕ → ℕ → F := fun r =>
  if r = col then pivot a col piv
  else fun c => swapped a col piv r c - swapped a col piv r col * pivot a col piv c

/-- The first `n` columns of the first `k` rows are those of the identity. -/
def Reduced (k n : ℕ) (a : ℕ → ℕ → F) : Prop := ∀ c < n, ∀ r < k, a r c = if r = c then 1 else 0

variable {a : ℕ → ℕ → F} {k col piv : ℕ}

theorem pivot_eq_smul : pivot a col piv = (a piv col)⁻¹ • a piv := by
  funext c
  exact mul_comm ..

theorem round_col : round a col piv col = pivot a col piv := if_pos rfl

theorem round_of_ne {r : ℕ} (h : r ≠ col) :
    round a col piv r = swapped a col piv r - swapped a col piv r col • pivot a col piv := if_neg h

theorem swap_lt (hcol : col < k) (hpiv : piv < k) {r : ℕ} (h : r < k) : Equiv.swap col piv r < k := by
  rw [Equiv.swap_apply_def]
  split
  · exact hpiv
  · split
    · exact hcol
    · exact h

theorem pivot_col (hne : a piv col ≠ 0) : pivot a col piv col = 1 := mul_inv_cancel₀ hne

theorem smul_pivot (hne : a piv col ≠ 0) : a piv col • pivot a col piv = a piv := by
  rw [pivot_eq_smul, smul_smul, mul_inv_cancel₀ hne, one_smul]

/-- A round neither loses a row nor adds a new one to the row space. -/
theorem rows_mem_iff (S : Submodule F (ℕ → F)) (hcol : col < k) (hpiv : piv < k) (hne : a piv col ≠ 0) :
    (∀ r < k, round a col piv r ∈ S) ↔ ∀ r < k, a r ∈ S := by
  constructor
  · intro h r hr
    have hpivot : pivot a col piv ∈ S := by
      have hrow := h col hcol
      rwa [round_col] at hrow
    by_cases hrp : r = piv
    · rw [hrp, ← smul_pivot hne]
      exact S.smul_mem _ hpivot
    · have hrow := h _ (swap_lt hcol hpiv hr)
      have hne' : Equiv.swap col piv r ≠ col := by
        intro he
        have hback := congrArg (Equiv.swap col piv) he
        rw [Equiv.swap_apply_self, Equiv.swap_apply_left] at hback
        exact hrp hback
      rw [round_of_ne hne'] at hrow
      have hback : swapped a col piv (Equiv.swap col piv r) = a r := by
        unfold swapped
        rw [Equiv.swap_apply_self]
      rw [hback] at hrow
      have hsum := S.add_mem hrow (S.smul_mem (a r col) hpivot)
      rwa [sub_add_cancel] at hsum
  · intro h r hr
    have hpivot : pivot a col piv ∈ S := by
      rw [pivot_eq_smul]
      exact S.smul_mem _ (h piv hpiv)
    by_cases hrc : r = col
    · rw [hrc, round_col]
      exact hpivot
    · rw [round_of_ne hrc]
      exact S.sub_mem (h _ (swap_lt hcol hpiv hr)) (S.smul_mem _ hpivot)

/-- A round with its pivot at or below `col` reduces one more column. -/
theorem reduced_round (h : Reduced k col a) (hle : col ≤ piv) (hpiv : piv < k) (hne : a piv col ≠ 0) :
    Reduced k (col + 1) (round a col piv) := by
  have hcol : col < k := Nat.lt_of_le_of_lt hle hpiv
  intro c hc r hr
  -- The pivot row is zero in the columns that are done.
  have hzero (hlt : c < col) : pivot a col piv c = 0 := by
    unfold pivot
    rw [h c hlt piv hpiv, if_neg (by omega), zero_mul]
  rcases Nat.lt_succ_iff_lt_or_eq.mp hc with hlt | rfl
  · by_cases hrc : r = col
    · rw [hrc, round_col, hzero hlt, if_neg (by omega)]
    · have hsame : swapped a col piv r c = if r = c then 1 else 0 := by
        unfold swapped
        rw [h c hlt _ (swap_lt hcol hpiv hr), Equiv.swap_apply_def, if_neg hrc]
        by_cases hrp : r = piv
        · rw [if_pos hrp, if_neg (by omega), if_neg (by omega)]
        · rw [if_neg hrp]
      rw [round_of_ne hrc, Pi.sub_apply, Pi.smul_apply, hzero hlt, smul_zero, sub_zero, hsame]
  · by_cases hrc : r = c
    · rw [hrc, round_col, pivot_col hne, if_pos rfl]
    · rw [round_of_ne hrc, Pi.sub_apply, Pi.smul_apply, pivot_col hne, smul_eq_mul, mul_one, sub_self, if_neg hrc]

/-- The rows that `z` is orthogonal to on the first `k` columns. -/
def orthogonal (k : ℕ) (z : ℕ → F) : Submodule F (ℕ → F) where
  carrier := { row | ∑ c ∈ Finset.range k, row c * z c = 0 }
  zero_mem' := Finset.sum_eq_zero fun _ _ => zero_mul _
  add_mem' := by
    intro x y hx hy
    have hsum : ∑ c ∈ Finset.range k, (x + y) c * z c =
        ∑ c ∈ Finset.range k, x c * z c + ∑ c ∈ Finset.range k, y c * z c := by
      rw [← Finset.sum_add_distrib]
      exact Finset.sum_congr rfl fun c _ => add_mul ..
    exact hsum.trans (by rw [hx, hy, add_zero])
  smul_mem' := by
    intro f x hx
    have hsum : ∑ c ∈ Finset.range k, (f • x) c * z c = f * ∑ c ∈ Finset.range k, x c * z c := by
      rw [Finset.mul_sum]
      exact Finset.sum_congr rfl fun c _ => mul_assoc ..
    exact hsum.trans (by rw [hx, mul_zero])

theorem mem_orthogonal {z row : ℕ → F} : row ∈ orthogonal k z ↔ ∑ c ∈ Finset.range k, row c * z c = 0 := Iff.rfl

/-- Without a pivot some vector that is not zero is orthogonal to every row. -/
theorem exists_orthogonal (h : Reduced k col a) (hcol : col < k) (hnone : ∀ r, col ≤ r → r < k → a r col = 0) :
    ∃ z : ℕ → F, z col = 1 ∧ ∀ r < k, a r ∈ orthogonal k z := by
  refine ⟨fun c => if c < col then -a c col else if c = col then 1 else 0, by simp, fun r hr => ?_⟩
  have hterm : ∀ c ∈ Finset.range k, a r c * (if c < col then -a c col else if c = col then 1 else 0) =
      (if c = r then (if r < col then -a r col else 0) else 0) + if c = col then a r col else 0 := by
    intro c hc
    rcases lt_trichotomy c col with hlt | rfl | hgt
    · rw [if_pos hlt, if_neg (by omega : ¬c = col), h c hlt r hr, add_zero]
      by_cases hrc : r = c
      · rw [if_pos hrc, if_pos hrc.symm, one_mul, hrc, if_pos hlt]
      · rw [if_neg hrc, if_neg (Ne.symm hrc), zero_mul]
    · rw [if_neg (lt_irrefl c), if_pos rfl, if_pos rfl, mul_one]
      by_cases hrc : c = r
      · rw [if_pos hrc, if_neg (by omega), zero_add]
      · rw [if_neg hrc, zero_add]
    · rw [if_neg (by omega), if_neg (by omega), if_neg (by omega : ¬c = col), mul_zero, add_zero]
      by_cases hrc : c = r
      · rw [if_pos hrc, if_neg (by omega)]
      · rw [if_neg hrc]
  rw [mem_orthogonal, Finset.sum_congr rfl hterm, Finset.sum_add_distrib, Finset.sum_ite_eq', Finset.sum_ite_eq',
    if_pos (Finset.mem_range.mpr hr), if_pos (Finset.mem_range.mpr hcol)]
  by_cases hlt : r < col
  · rw [if_pos hlt, neg_add_cancel]
  · rw [if_neg hlt, zero_add, hnone r (by omega) hr]

/-- The rows that the right half turns into the left half: `m` times the right half is the left. -/
def solved (k : ℕ) (m : ℕ → ℕ → F) : Submodule F (ℕ → F) where
  carrier := { row | ∀ c < k, ∑ j ∈ Finset.range k, row (k + j) * m j c = row c }
  zero_mem' := fun _ _ => Finset.sum_eq_zero fun _ _ => zero_mul _
  add_mem' := by
    intro x y hx hy c hc
    have hsum : ∑ j ∈ Finset.range k, (x + y) (k + j) * m j c =
        ∑ j ∈ Finset.range k, x (k + j) * m j c + ∑ j ∈ Finset.range k, y (k + j) * m j c := by
      rw [← Finset.sum_add_distrib]
      exact Finset.sum_congr rfl fun j _ => add_mul ..
    rw [hsum, hx c hc, hy c hc]
    rfl
  smul_mem' := by
    intro f x hx c hc
    have hsum : ∑ j ∈ Finset.range k, (f • x) (k + j) * m j c = f * ∑ j ∈ Finset.range k, x (k + j) * m j c := by
      rw [Finset.mul_sum]
      exact Finset.sum_congr rfl fun j _ => mul_assoc ..
    rw [hsum, hx c hc]
    rfl

/-- Only zero is orthogonal to `k` rows of powers of distinct points. -/
theorem eq_zero_of_powers {m : ℕ → ℕ → F} {x : ℕ → F} (hinj : ∀ i < k, ∀ j < k, x i = x j → i = j)
    (hm : ∀ r < k, ∀ c < k, m r c = x r ^ c) {z : ℕ → F} (h : ∀ r < k, m r ∈ orthogonal k z) {c : ℕ} (hc : c < k) :
    z c = 0 := by
  have hinj' : Function.Injective fun i : Fin k => x i := fun i j he => Fin.ext (hinj i i.2 j j.2 he)
  have hrows (j : Fin k) : ∑ i : Fin k, x j ^ (i : ℕ) * z i = 0 := by
    have hrow := h j j.2
    rw [mem_orthogonal, Finset.sum_range] at hrow
    rw [← hrow]
    exact Finset.sum_congr rfl fun i _ => by rw [hm j j.2 i i.2]
  exact congrFun (Matrix.eq_zero_of_forall_index_sum_pow_mul_eq_zero hinj' hrows) ⟨c, hc⟩

end Elim
