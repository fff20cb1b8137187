import Mathlib

/-!
# A secret shared by a polynomial

The shares of a polynomial are its values, and enough of them give its value at zero back.
-/

open Polynomial

namespace Shamir

variable {F : Type*} [Field F]

/-! ## Polynomials from coefficients -/

/-- The sum of `c * x ^ j` over the coefficients, with `j` from `k` on. -/
def value (x : F) : Nat → List F → F
  | _, [] => 0
  | k, c :: cs => c * x ^ k + value x (k + 1) cs

noncomputable def poly : Nat → List F → F[X]
  | _, [] => 0
  | k, c :: cs => monomial k c + poly (k + 1) cs

theorem eval_poly (x : F) (k : Nat) (cs : List F) : (poly k cs).eval x = value x k cs := by
  induction cs generalizing k with
  | nil => exact eval_zero
  | cons c cs ih => rw [poly, eval_add, eval_monomial, ih, value]

theorem degree_poly_lt {k b : Nat} (cs : List F) (h : k + cs.length ≤ b) : (poly k cs).degree < b := by
  induction cs generalizing k with
  | nil => exact degree_zero.trans_lt (WithBot.bot_lt_coe b)
  | cons c cs ih =>
    rw [List.length_cons] at h
    refine (degree_add_le _ _).trans_lt (max_lt ?_ (ih (by omega)))
    exact (degree_monomial_le k c).trans_lt (Nat.cast_lt.mpr (by omega))

theorem value_zero (k : Nat) (cs : List F) : value 0 (k + 1) cs = 0 := by
  induction cs generalizing k with
  | nil => rfl
  | cons c cs ih => rw [value, ih, zero_pow (Nat.succ_ne_zero k), mul_zero, add_zero]

/-- The secret is the constant term. -/
theorem eval_zero_poly (c : F) (cs : List F) : (poly 0 (c :: cs)).eval 0 = c := by
  rw [eval_poly, value, value_zero, pow_zero, mul_one, add_zero]

/-! ## Back to the secret -/

variable [DecidableEq F]

/-- The weight of the point `x` among `xs` in the value at zero. -/
def weight (xs : List F) (x : F) : F :=
  ((xs.filter (· ≠ x)).map (- ·)).prod * (((xs.filter (· ≠ x)).map (x - ·)).prod)⁻¹

theorem secret_of_shares (f : F[X]) {xs : List F} (hnd : xs.Nodup) (hdeg : f.degree < xs.length) :
    (xs.map fun x => weight xs x * f.eval x).sum = f.eval 0 := by
  have hcard : xs.toFinset.card = xs.length := List.toFinset_card_of_nodup hnd
  have hf := Lagrange.eq_interpolate (s := xs.toFinset) (v := id) Function.injective_id.injOn (by rwa [hcard])
  have hbasis (x : F) : (Lagrange.basis xs.toFinset id x).eval 0 = weight xs x := by
    have herase : xs.toFinset.erase x = (xs.filter (· ≠ x)).toFinset := by
      ext y
      simp [and_comm]
    rw [Lagrange.basis, eval_prod, herase, List.prod_toFinset _ (hnd.filter _), weight, List.prod_inv, List.map_map,
      ← List.prod_map_mul]
    refine congrArg List.prod (List.map_congr_left fun y _ => ?_)
    simp [Lagrange.basisDivisor, mul_comm]
  conv_rhs => rw [hf]
  rw [Lagrange.interpolate_apply, eval_finsetSum, List.sum_toFinset _ hnd]
  refine congrArg List.sum (List.map_congr_left fun x _ => ?_)
  rw [eval_mul, eval_C, hbasis, id, mul_comm]

/-- The same in the exponent: shares of a point add up to the secret's multiple of it. -/
theorem secret_of_points {M : Type*} [AddCommGroup M] [Module F M] (f : F[X]) {xs : List F} (hnd : xs.Nodup)
    (hdeg : f.degree < xs.length) (P : M) : (xs.map fun x => weight xs x • f.eval x • P).sum = f.eval 0 • P := by
  have hsum := secret_of_shares f hnd hdeg
  rw [← hsum, List.sum_smul, List.map_map]
  exact congrArg List.sum (List.map_congr_left fun x _ => smul_smul _ _ _)

end Shamir
