import Mathlib.Algebra.Field.MinimalAxioms
import Mathlib.Data.List.Iterate
import Mathlib.Dynamics.PeriodicPts.Defs
import Sestrian.Code.Da

/-!
# The field of the code

The log and exp tables are those of a field: addition is exclusive or, and multiplication by a
power of the generator is that many single steps.
-/

namespace Sestrian

namespace da

/-! ## Powers of the generator -/

/-- Times the generator, on bytes. -/
def shift (x : UInt8) : UInt8 := UInt8.ofNat (gf_step x.toNat)

theorem length_powers : powers.length = 255 := List.length_iterate ..

theorem step_cycle : gf_step^[255] 1 = 1 ∧ gf_step^[85] 1 ≠ 1 ∧ gf_step^[51] 1 ≠ 1 ∧ gf_step^[15] 1 ≠ 1 := by
  decide +kernel

/-- The generator has order 255: none of the exponents 85, 51 and 15 brings it back to one. -/
theorem step_period : Function.minimalPeriod gf_step 1 = 255 := by
  obtain ⟨hcycle, h₈₅, h₅₁, h₁₅⟩ := step_cycle
  have hdvd : Function.minimalPeriod gf_step 1 ∣ 255 := Function.IsPeriodicPt.minimalPeriod_dvd hcycle
  have hback {n : Nat} (h : Function.minimalPeriod gf_step 1 ∣ n) : gf_step^[n] 1 = 1 :=
    Function.isPeriodicPt_iff_minimalPeriod_dvd.mpr h
  generalize Function.minimalPeriod gf_step 1 = d at hdvd hback
  have hle : d ≤ 255 := Nat.le_of_dvd (by decide) hdvd
  have hproper : ∀ d : Fin 256, d.val ∣ 255 → d.val ∣ 85 ∨ d.val ∣ 51 ∨ d.val ∣ 15 ∨ d.val = 255 := by
    decide +kernel
  rcases hproper ⟨d, by omega⟩ hdvd with h | h | h | h
  · exact absurd (hback h) h₈₅
  · exact absurd (hback h) h₅₁
  · exact absurd (hback h) h₁₅
  · exact h

theorem nodup_powers : powers.Nodup := by
  rw [powers, ← List.range_map_iterate]
  refine List.Nodup.map_on (fun i hi j hj he => ?_) List.nodup_range
  rw [List.mem_range] at hi hj
  exact (Function.iterate_eq_iterate_iff_of_lt_minimalPeriod (step_period ▸ hi) (step_period ▸ hj)).mp he

theorem powers_byte : ∀ p ∈ powers, p ≠ 0 ∧ p < 256 := by decide +kernel

/-- 255 different bytes that are not zero are all of them. -/
theorem mem_powers (x : UInt8) (h : x ≠ 0) : x.toNat ∈ powers := by
  have hsub : powers ⊆ List.range' 1 255 := by
    intro p hp
    have hbyte := powers_byte p hp
    exact List.mem_range'_1.mpr (by omega)
  have hlen : (List.range' 1 255).length ≤ powers.length := by rw [length_powers, List.length_range']
  have hperm := (nodup_powers.subperm hsub).perm_of_length_le hlen
  have hpos : x.toNat ≠ 0 := fun he => h (UInt8.toNat_inj.mp he)
  have hlt := x.toNat_lt
  exact hperm.mem_iff.mpr (List.mem_range'_1.mpr (by omega))

theorem gf_exp_eq {i : Nat} (h : i < powers.length) : (gf_exp i).toNat = powers[i] := by
  have hi : i < 255 := by rwa [length_powers] at h
  have hlt := (powers_byte _ (List.getElem_mem h)).2
  unfold gf_exp
  rw [Nat.mod_eq_of_lt hi, List.getD_eq_getElem _ _ h, UInt8.toNat_ofNat', Nat.mod_eq_of_lt hlt]

theorem mod_lt_length (i : Nat) : i % 255 < powers.length := by
  rw [length_powers]
  exact Nat.mod_lt _ (by decide)

theorem gf_exp_mod (i : Nat) : gf_exp (i % 255) = gf_exp i := by
  unfold gf_exp
  rw [Nat.mod_mod]

theorem gf_exp_ne_zero (i : Nat) : gf_exp i ≠ 0 := by
  rw [← gf_exp_mod]
  intro h
  have hp := gf_exp_eq (mod_lt_length i)
  rw [h] at hp
  exact (powers_byte _ (List.getElem_mem _)).1 hp.symm

/-- Every nonzero byte is the power that its logarithm says. -/
theorem gf_exp_log {x : UInt8} (h : x ≠ 0) : gf_exp (gf_log x) = x := by
  have hmem := List.idxOf_lt_length_of_mem (mem_powers x h)
  unfold gf_log
  rw [if_neg h]
  refine UInt8.toNat_inj.mp ?_
  rw [gf_exp_eq hmem, List.getElem_idxOf]

theorem gf_log_exp (i : Nat) : gf_log (gf_exp i) = i % 255 := by
  rw [← gf_exp_mod]
  unfold gf_log
  rw [if_neg (gf_exp_ne_zero _), gf_exp_eq (mod_lt_length i)]
  exact nodup_powers.idxOf_getElem _ (mod_lt_length i)

theorem gf_exp_succ (i : Nat) : gf_exp (i + 1) = shift (gf_exp i) := by
  have hi : i % 255 < 255 := Nat.mod_lt _ (by decide)
  have hlen := mod_lt_length i
  rw [← gf_exp_mod i, ← gf_exp_mod (i + 1)]
  unfold shift
  rw [gf_exp_eq hlen]
  have hstep : ∀ (j : Nat) (hj : j < powers.length), powers[j] = gf_step^[j] 1 := by
    intro j hj
    exact List.getElem_iterate ..
  by_cases hlast : i % 255 = 254
  · have hwrap : (i + 1) % 255 = 0 := by omega
    have hcycle : gf_step (gf_step^[254] 1) = 1 := (Function.iterate_succ_apply' gf_step 254 1).symm.trans step_cycle.1
    rw [hwrap, hstep _ hlen, hlast, hcycle]
    rfl
  · have hnext : (i + 1) % 255 = i % 255 + 1 := by omega
    have hlen' : i % 255 + 1 < powers.length := by rw [length_powers]; omega
    have hlt := (powers_byte _ (List.getElem_mem hlen')).2
    have hone : powers[i % 255 + 1] = gf_step powers[i % 255] := by
      rw [hstep _ hlen, hstep _ hlen', Function.iterate_succ_apply' gf_step]
    refine UInt8.toNat_inj.mp ?_
    rw [hnext, gf_exp_eq hlen', UInt8.toNat_ofNat', ← hone, Nat.mod_eq_of_lt hlt]

/-! ## Multiplication in steps -/

theorem gf_step_eq (x : Nat) :
    gf_step x = x ^^^ (x <<< 1) ^^^ (if (x ^^^ (x <<< 1)).testBit 8 then 0x11b else 0) := by
  have hbit (y : Nat) : y &&& 0x100 ≠ 0 ↔ y.testBit 8 = true := by
    have h := Nat.and_two_pow y 8
    rw [show (2 : Nat) ^ 8 = 0x100 from rfl] at h
    rw [h]
    cases y.testBit 8 <;> simp
  unfold gf_step
  dsimp only
  by_cases h : (x ^^^ (x <<< 1)).testBit 8 = true
  · rw [if_pos ((hbit _).mpr h), if_pos h]
  · rw [if_neg fun he => h ((hbit _).mp he), if_neg h, Nat.xor_zero]

/-- Times the generator is linear. -/
theorem shift_xor (x y : UInt8) : shift (x ^^^ y) = shift x ^^^ shift y := by
  have hstep (a b : Nat) : gf_step (a ^^^ b) = gf_step a ^^^ gf_step b := by
    rw [gf_step_eq, gf_step_eq, gf_step_eq, Nat.shiftLeft_xor_distrib]
    have hswap : a ^^^ b ^^^ (a <<< 1 ^^^ b <<< 1) = (a ^^^ (a <<< 1)) ^^^ (b ^^^ (b <<< 1)) := by ac_rfl
    rw [hswap, Nat.testBit_xor]
    generalize a ^^^ (a <<< 1) = u
    generalize b ^^^ (b <<< 1) = v
    cases u.testBit 8 <;> cases v.testBit 8
    · simp
    · simp [Nat.xor_assoc]
    · simp only [Bool.true_bne, Bool.not_false, if_true, Bool.false_eq_true, if_false, Nat.xor_zero]
      ac_rfl
    · have hpair : u ^^^ 0x11b ^^^ (v ^^^ 0x11b) = u ^^^ v ^^^ (0x11b ^^^ 0x11b) := by ac_rfl
      simp only [bne_self_eq_false, Bool.false_eq_true, if_false, if_true, hpair, Nat.xor_self]
  unfold shift
  rw [UInt8.toNat_xor, hstep, UInt8.ofNat_xor]

theorem shift_zero : shift 0 = 0 := by decide

theorem shift_iterate_xor (n : Nat) (x y : UInt8) : shift^[n] (x ^^^ y) = shift^[n] x ^^^ shift^[n] y := by
  induction n with
  | zero => rfl
  | succ n ih => rw [Function.iterate_succ_apply', ih, shift_xor, ← Function.iterate_succ_apply' shift,
      ← Function.iterate_succ_apply' shift]

theorem shift_iterate_zero (n : Nat) : shift^[n] 0 = 0 := by
  induction n with
  | zero => rfl
  | succ n ih => rw [Function.iterate_succ_apply', ih, shift_zero]

theorem gf_exp_add (n i : Nat) : gf_exp (n + i) = shift^[n] (gf_exp i) := by
  induction n with
  | zero => rw [Nat.zero_add, Function.iterate_zero_apply]
  | succ n ih => rw [Function.iterate_succ_apply', ← ih, Nat.add_right_comm, gf_exp_succ]

theorem gf_mul_eq {a : UInt8} (h : a ≠ 0) (b : UInt8) : gf_mul a b = shift^[gf_log a] b := by
  unfold gf_mul
  by_cases hb : b = 0
  · rw [if_pos (.inr hb), hb, shift_iterate_zero]
  · rw [if_neg (by simp [h, hb]), gf_exp_add, gf_exp_log hb]

@[simp] theorem zero_gf_mul (b : UInt8) : gf_mul 0 b = 0 := if_pos (.inl rfl)

@[simp] theorem gf_mul_zero (a : UInt8) : gf_mul a 0 = 0 := if_pos (.inr rfl)

theorem gf_mul_exp (i j : Nat) : gf_mul (gf_exp i) (gf_exp j) = gf_exp (i + j) := by
  unfold gf_mul
  rw [if_neg (by simp [gf_exp_ne_zero]), gf_log_exp, gf_log_exp, ← gf_exp_mod, ← Nat.add_mod, gf_exp_mod]

theorem gf_mul_comm (a b : UInt8) : gf_mul a b = gf_mul b a := by
  simp only [gf_mul, Nat.add_comm, or_comm]

theorem gf_mul_assoc (a b c : UInt8) : gf_mul (gf_mul a b) c = gf_mul a (gf_mul b c) := by
  by_cases ha : a = 0
  · rw [ha, zero_gf_mul, zero_gf_mul, zero_gf_mul]
  by_cases hb : b = 0
  · rw [hb, gf_mul_zero, zero_gf_mul, gf_mul_zero]
  by_cases hc : c = 0
  · rw [hc, gf_mul_zero, gf_mul_zero, gf_mul_zero]
  rw [← gf_exp_log ha, ← gf_exp_log hb, ← gf_exp_log hc, gf_mul_exp, gf_mul_exp, gf_mul_exp, gf_mul_exp, Nat.add_assoc]

theorem gf_mul_xor (a b c : UInt8) : gf_mul a (b ^^^ c) = gf_mul a b ^^^ gf_mul a c := by
  by_cases ha : a = 0
  · rw [ha, zero_gf_mul, zero_gf_mul, zero_gf_mul, UInt8.xor_self]
  · rw [gf_mul_eq ha, gf_mul_eq ha, gf_mul_eq ha, shift_iterate_xor]

theorem gf_exp_zero : gf_exp 0 = 1 := rfl

theorem one_gf_mul (a : UInt8) : gf_mul 1 a = a := by
  by_cases ha : a = 0
  · rw [ha, gf_mul_zero]
  · conv_lhs => rw [← gf_exp_zero, ← gf_exp_log ha]
    rw [gf_mul_exp, Nat.zero_add, gf_exp_log ha]

theorem gf_mul_inv {a : UInt8} (h : a ≠ 0) : gf_mul a (gf_inv a) = 1 := by
  have hlt : gf_log a < 255 := by
    have hmod := gf_log_exp (gf_log a)
    rw [gf_exp_log h] at hmod
    omega
  have hsum : gf_log a + (255 - gf_log a) = 255 := by omega
  unfold gf_inv
  conv_lhs => rw [← gf_exp_log h]
  rw [gf_log_exp, Nat.mod_eq_of_lt hlt, gf_mul_exp, hsum, ← gf_exp_mod, gf_exp_zero]

/-! ## The field -/

/-- A byte as an element of the field. -/
structure GF where
  byte : UInt8
  deriving DecidableEq

namespace GF

instance : Zero GF := ⟨⟨0⟩⟩
instance : One GF := ⟨⟨1⟩⟩
instance : Add GF := ⟨fun a b => ⟨a.byte ^^^ b.byte⟩⟩
instance : Neg GF := ⟨id⟩
instance : Mul GF := ⟨fun a b => ⟨gf_mul a.byte b.byte⟩⟩
instance : Inv GF := ⟨fun a => if a = 0 then 0 else ⟨gf_inv a.byte⟩⟩

theorem eq_of_byte {a b : GF} (h : a.byte = b.byte) : a = b := by
  cases a
  cases b
  exact congrArg GF.mk h

@[simp] theorem byte_zero : (0 : GF).byte = 0 := rfl
@[simp] theorem byte_one : (1 : GF).byte = 1 := rfl
@[simp] theorem byte_add (a b : GF) : (a + b).byte = a.byte ^^^ b.byte := rfl
@[simp] theorem byte_mul (a b : GF) : (a * b).byte = gf_mul a.byte b.byte := rfl

theorem byte_ne_zero {a : GF} (h : a ≠ 0) : a.byte ≠ 0 := fun hb => h (eq_of_byte hb)

theorem byte_inv {a : GF} (h : a ≠ 0) : a⁻¹.byte = gf_inv a.byte := by
  change (if a = 0 then (0 : GF) else ⟨gf_inv a.byte⟩).byte = _
  rw [if_neg h]

instance : Field GF :=
  Field.ofMinimalAxioms GF
    (fun a b c => eq_of_byte (UInt8.xor_assoc ..))
    (fun a => eq_of_byte (UInt8.zero_xor))
    (fun a => eq_of_byte (UInt8.xor_self))
    (fun a b c => eq_of_byte (gf_mul_assoc ..))
    (fun a b => eq_of_byte (gf_mul_comm ..))
    (fun a => eq_of_byte (one_gf_mul _))
    (fun a h => eq_of_byte (by rw [byte_mul, byte_inv h, gf_mul_inv (byte_ne_zero h), byte_one]))
    (if_pos rfl)
    (fun a b c => eq_of_byte (gf_mul_xor ..))
    ⟨0, 1, by decide⟩

theorem neg_eq (a : GF) : -a = a := rfl

theorem sub_eq_add (a b : GF) : a - b = a + b := by rw [sub_eq_add_neg, neg_eq]

theorem byte_pow (x : UInt8) (h : x ≠ 0) (j : Nat) : ((⟨x⟩ : GF) ^ j).byte = gf_exp (gf_log x * j % 255) := by
  rw [gf_exp_mod]
  induction j with
  | zero => rw [pow_zero, Nat.mul_zero, gf_exp_zero, byte_one]
  | succ j ih => rw [pow_succ, byte_mul, ih, Nat.mul_succ, ← gf_mul_exp, gf_exp_log h]

end GF

end da

end Sestrian
