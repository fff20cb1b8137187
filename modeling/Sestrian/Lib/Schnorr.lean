import Mathlib.GroupTheory.OrderOfElement
import Mathlib.Tactic.Common

/-!
# Schnorr signatures over an abstract group

A signature is a commitment and a response. For one commitment there is one response, and the
holder of a key has a signature for every commitment.
-/

namespace Schnorr

/-- The group, its encoding of points, and the challenge hash. -/
structure Scheme (G C M : Type) [AddCommGroup G] where
  base : G
  order : Nat
  order_pos : 0 < order
  base_order : addOrderOf base = order
  compress : G → C
  compress_inj : Function.Injective compress
  decompress : C → Option G
  challenge : C → C → M → Nat

variable {G C M : Type} [AddCommGroup G] (sch : Scheme G C M)

/-- The response is reduced, and the equation gives back the commitment. -/
def Scheme.Verifies (pk : C) (msg : M) (com : C) (resp : Nat) : Prop :=
  resp < sch.order ∧ ∃ A, sch.decompress pk = some A ∧
    sch.compress (resp • sch.base - sch.challenge com pk msg • A) = com

instance [DecidableEq C] (pk : C) (msg : M) (com : C) (resp : Nat) : Decidable (sch.Verifies pk msg com resp) :=
  inferInstanceAs (Decidable (_ ∧ ∃ A ∈ sch.decompress pk,
    sch.compress (resp • sch.base - sch.challenge com pk msg • A) = com))

variable {sch}

theorem response_unique {pk : C} {msg : M} {com : C} {z z' : Nat} (h : sch.Verifies pk msg com z)
    (h' : sch.Verifies pk msg com z') : z = z' := by
  obtain ⟨hz, A, hA, he⟩ := h
  obtain ⟨hz', A', hA', he'⟩ := h'
  obtain rfl := Option.some.inj (hA.symm.trans hA')
  have hsub := sch.compress_inj (he.trans he'.symm)
  have hmul : z • sch.base = z' • sch.base := sub_left_inj.mp hsub
  have hmod : z ≡ z' [MOD sch.order] := by
    rw [← sch.base_order]
    exact nsmul_eq_nsmul_iff_modEq.mp hmul
  exact Nat.ModEq.eq_of_lt_of_lt hmod hz hz'

/-- The response that the holder of the key `a` gives to the nonce `r`. -/
def Scheme.respond (sch : Scheme G C M) (a r : Nat) (pk : C) (msg : M) : Nat :=
  (r + sch.challenge (sch.compress (r • sch.base)) pk msg * a) % sch.order

theorem every_nonce_verifies {pk : C} {a : Nat} (hpk : sch.decompress pk = some (a • sch.base)) (msg : M) (r : Nat) :
    sch.Verifies pk msg (sch.compress (r • sch.base)) (sch.respond a r pk msg) := by
  refine ⟨Nat.mod_lt _ sch.order_pos, _, hpk, congrArg sch.compress ?_⟩
  have hred : sch.respond a r pk msg • sch.base =
      (r + sch.challenge (sch.compress (r • sch.base)) pk msg * a) • sch.base := by
    refine nsmul_eq_nsmul_iff_modEq.mpr ?_
    rw [sch.base_order]
    exact Nat.mod_modEq _ _
  rw [hred, add_nsmul, mul_nsmul', add_sub_cancel_right]

end Schnorr
