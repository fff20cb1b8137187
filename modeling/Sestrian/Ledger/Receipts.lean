import Sestrian.Ledger.Owners
import Sestrian.Code.RigReceipt

/-!
# Inference receipts in both languages

As long as nothing wraps, the two split a fee alike. The product of the fee with a share wraps
from `2^64 / 2000` on, which is within the supply.
-/

namespace Sestrian

open Check TokenLedger

/-! ## Wrapping sums -/

theorem i128_add (x y : Int) : i128 (i128 x + y) = i128 (x + y) := Int.bmod_add_bmod

theorem i128_of_range {x : Int} (hlo : -2 ^ 127 ≤ x) (hhi : x < 2 ^ 127) : i128 x = x :=
  Int.bmod_eq_of_le (by norm_num; omega) (by norm_num; omega)

theorem i128_sum_eq (xs : List Int) : i128_sum (xs.map i128) = i128 xs.sum := by
  have hfold (xs : List Int) (a : Int) :
      (xs.map i128).foldl (fun acc x => i128 (acc + x)) (i128 a) = i128 (a + xs.sum) := by
    induction xs generalizing a with
    | nil => simp
    | cons x xs ih =>
      rw [List.map_cons, List.foldl_cons, List.sum_cons]
      have hone : i128 (i128 a + i128 x) = i128 (a + x) := by
        unfold i128
        rw [Int.bmod_add_bmod, Int.add_bmod_bmod]
      rw [hone, ih, add_assoc]
  have h := hfold xs 0
  rwa [zero_add, show i128 0 = 0 from by unfold i128; simp] at h

theorem sketch_dot_eq (sk ans : List Int64) : sketch_dot sk ans = i128 (rig.dot sk ans) := by
  unfold sketch_dot rig.dot
  rw [← i128_sum_eq, List.map_map]
  rfl

/-! ## Alignments -/

/-- The dot products of the active entries with the answer are within `i128`. -/
def DotsFit (led : TokenLedger) (ans : List Int64) : Prop :=
  ∀ k e sk, led.registry[(k : String)]? = some e → e.status = .active → e.sketch = some sk →
    -2 ^ 127 ≤ rig.dot sk ans ∧ rig.dot sk ans < 2 ^ 127

/-- One dictionary holds the wrapped values of the other. -/
def Wrapped (m m' : Dict Int) : Prop := ∀ k : String, m[k]? = m'[k]?.map i128

theorem wrapped_align_entry {ans : List Int64} {m m' : Dict Int} (h : Wrapped m m') {e : RegistryEntry}
    (hfit : e.status = .active → ∀ sk, e.sketch = some sk → -2 ^ 127 ≤ rig.dot sk ans ∧ rig.dot sk ans < 2 ^ 127) :
    Wrapped (align_entry ans m e) (rig.align_entry ans m' e) := by
  unfold align_entry rig.align_entry
  cases hs : e.status with
  | revoked => exact h
  | active =>
    cases hsk : e.sketch with
    | none => exact h
    | some sk =>
      obtain ⟨hlo, hhi⟩ := hfit hs sk hsk
      simp only [sketch_dot_eq, i128_of_range hlo hhi]
      split
      · intro k
        rw [SumMap.get_insert, SumMap.get_insert]
        split
        · have howner := h e.owner
          rw [howner]
          cases m'[e.owner]? with
          | none => rfl
          | some x =>
            simp only [Option.map_some, Option.getD_some]
            rw [i128_add]
        · exact h k
      · exact h

theorem wrapped_aligns {led : TokenLedger} {ans : List Int64} (h : DotsFit led ans) :
    Wrapped (led.aligns ans) (rig.aligns led ans) := by
  have hfold (es : List (String × RegistryEntry))
      (hes : ∀ e ∈ es, e.2.status = .active → ∀ sk, e.2.sketch = some sk → -2 ^ 127 ≤ rig.dot sk ans ∧ rig.dot sk ans < 2 ^ 127)
      {m m' : Dict Int} (hm : Wrapped m m') :
      Wrapped (es.foldl (fun m e => align_entry ans m e.2) m) (es.foldl (fun m e => rig.align_entry ans m e.2) m') := by
    induction es generalizing m m' with
    | nil => exact hm
    | cons e es ih =>
      obtain ⟨he, hes⟩ := List.forall_mem_cons.mp hes
      exact ih hes (wrapped_align_entry hm he)
  refine hfold _ (fun e he hs sk hsk => ?_) fun k => by simp
  exact h e.1 e.2 sk (Std.ExtTreeMap.mem_toList_iff_getElem?_eq_some.mp he) hs hsk

/-- Owners are credited only with positive products. -/
theorem rig_aligns_pos {led : TokenLedger} {ans : List Int64} {k : String} {a : Int}
    (h : (rig.aligns led ans)[k]? = some a) : 0 < a := by
  have hfold (es : List (String × RegistryEntry)) {m : Dict Int} (hm : ∀ k a, m[(k : String)]? = some a → 0 < a) :
      ∀ k a, (es.foldl (fun m e => rig.align_entry ans m e.2) m)[(k : String)]? = some a → 0 < a := by
    induction es generalizing m with
    | nil => exact hm
    | cons e es ih =>
      refine ih fun k a hget => ?_
      beta_reduce at hget
      unfold rig.align_entry at hget
      split at hget
      · split at hget
        · rename_i hdot
          rw [SumMap.get_insert] at hget
          split at hget
          · obtain rfl := Option.some.inj hget
            cases hold : m[e.2.owner]? with
            | none => simpa using hdot.2
            | some x =>
              have hx := hm _ _ hold
              have hd := hdot.2
              simp only [Option.getD_some]
              omega
          · exact hm k a hget
        · exact hm k a hget
      · exact hm k a hget
  exact hfold _ (fun k a hget => by simp at hget) k a h

/-! ## The split -/

def rig_total (led : TokenLedger) (ans : List Int64) : Int := ((rig.aligns led ans).toList.map (·.2)).sum

/-- Nothing that the split computes wraps. -/
structure NoWrap (led : TokenLedger) (t : InferenceReceiptTx) : Prop where
  fee : t.fee.toNat * 2000 < 2 ^ 64
  dots : DotsFit led t.answer_sketch
  total : rig_total led t.answer_sketch < 2 ^ 127
  products : ∀ k a, (rig.aligns led t.answer_sketch)[(k : String)]? = some a →
    ((t.fee.toNat * 2000 / 10000 : Nat) : Int) * a < 2 ^ 127

/-- The two split the fee alike, into parts that are not negative and within the fee. -/
structure SplitsExactly (led : TokenLedger) (t : InferenceReceiptTx) : Prop where
  same : (receipt_split led t).toInt = rig.receipt_split led t
  nonneg : ∀ x ∈ (rig.receipt_split led t).amounts, 0 ≤ x
  within : (rig.receipt_split led t).amounts.sum ≤ t.fee.toNat

variable {led : TokenLedger} {t : InferenceReceiptTx}

theorem rig_total_mem {ans : List Int64} {a : String × Int} (h : a ∈ (rig.aligns led ans).toList) :
    0 < a.2 ∧ a.2 ≤ rig_total led ans := by
  have hpos : ∀ x ∈ (rig.aligns led ans).toList.map (·.2), 0 ≤ x := by
    intro x hx
    obtain ⟨b, hb, rfl⟩ := List.mem_map.mp hx
    exact (rig_aligns_pos (Std.ExtTreeMap.mem_toList_iff_getElem?_eq_some.mp hb)).le
  refine ⟨rig_aligns_pos (Std.ExtTreeMap.mem_toList_iff_getElem?_eq_some.mp h), ?_⟩
  exact List.single_le_sum hpos _ (List.mem_map.mpr ⟨a, h, rfl⟩)

theorem aligns_eq (h : DotsFit led t.answer_sketch) (ht : rig_total led t.answer_sketch < 2 ^ 127) :
    led.aligns t.answer_sketch = rig.aligns led t.answer_sketch := by
  apply Std.ExtTreeMap.ext_getElem?
  intro k
  rw [wrapped_aligns h k]
  cases ha : (rig.aligns led t.answer_sketch)[k]? with
  | none => rfl
  | some a =>
    obtain ⟨hpos, hle⟩ := rig_total_mem (Std.ExtTreeMap.mem_toList_iff_getElem?_eq_some.mpr ha)
    rw [Option.map_some, i128_of_range (by omega) (by omega)]

theorem total_eq {ans : List Int64} (h : rig_total led ans < 2 ^ 127) :
    i128_sum ((rig.aligns led ans).toList.map (·.2)) = rig_total led ans := by
  have hself : (rig.aligns led ans).toList.map (·.2) = ((rig.aligns led ans).toList.map (·.2)).map i128 := by
    rw [List.map_map]
    refine List.map_congr_left fun a ha => ?_
    obtain ⟨hpos, hle⟩ := rig_total_mem ha
    exact (i128_of_range (by omega) (by omega)).symm
  have hnn : 0 ≤ rig_total led ans := List.sum_nonneg fun x hx => by
    obtain ⟨a, ha, rfl⟩ := List.mem_map.mp hx
    exact (rig_total_mem ha).1.le
  rw [hself, i128_sum_eq]
  exact i128_of_range (by unfold rig_total at hnn; omega) h

theorem toNat_fee_cut {fee : UInt64} (h : fee.toNat * 2000 < 2 ^ 64) :
    (fee_data_cut fee).toNat = fee.toNat * 2000 / 10000 ∧ (fee_train_cut fee).toNat = fee.toNat * 2000 / 10000 := by
  have hmul : (fee * 2000).toNat = fee.toNat * 2000 := by
    rw [UInt64.toNat_mul]
    exact Nat.mod_eq_of_lt h
  unfold fee_data_cut fee_train_cut
  rw [UInt64.toNat_div, UInt64.toNat_div, show FEE_SHARE_DATA = 2000 from rfl, show FEE_SHARE_TRAIN = 2000 from rfl, hmul]
  exact ⟨rfl, rfl⟩

theorem toNat_server {fee : UInt64} (h : fee.toNat * 2000 < 2 ^ 64) :
    (fee - fee_data_cut fee - fee_train_cut fee).toNat =
      fee.toNat - fee.toNat * 2000 / 10000 - fee.toNat * 2000 / 10000 := by
  obtain ⟨hd, ht⟩ := toNat_fee_cut h
  have hle : (fee_data_cut fee).toNat ≤ fee.toNat := by omega
  have hone : (fee - fee_data_cut fee).toNat = fee.toNat - (fee_data_cut fee).toNat :=
    UInt64.toNat_sub_of_le _ _ (UInt64.le_iff_toNat_le.mpr hle)
  rw [UInt64.toNat_sub_of_le, hone, hd, ht]
  rw [UInt64.le_iff_toNat_le, hone]
  omega

theorem toNat_align_share {cut : UInt64} {total a : Int} (ha : 0 < a) (hle : a ≤ total)
    (hfit : (cut.toNat : Int) * a < 2 ^ 127) : ((align_share cut total a).toNat : Int) = cut.toNat * a / total := by
  have hnn : (0 : Int) ≤ cut.toNat * a := Int.mul_nonneg (Int.natCast_nonneg _) ha.le
  have htotal : 0 < total := ha.trans_le hle
  have hdiv : 0 ≤ (cut.toNat : Int) * a / total := Int.ediv_nonneg hnn htotal.le
  have hcut : (cut.toNat : Int) * a / total ≤ cut.toNat := by
    refine Int.ediv_le_of_le_mul htotal ?_
    exact Int.mul_le_mul_of_nonneg_left hle (Int.natCast_nonneg _)
  have hlt : cut.toNat < 2 ^ 64 := cut.toNat_lt
  unfold align_share
  rw [i128_of_range (by omega) hfit, Int.tdiv_eq_ediv_of_nonneg hnn, UInt64.ofInt, UInt64.toNat_ofNat']
  omega

theorem sum_shares_le (c : Int) {total : Int} (htotal : 0 < total) (xs : List (String × Int))
    (hsum : (xs.map (·.2)).sum = total) : (xs.map fun a => c * a.2 / total).sum ≤ c := by
  have hall (xs : List (String × Int)) : (xs.map fun a => c * a.2 / total).sum * total ≤ c * (xs.map (·.2)).sum := by
    induction xs with
    | nil => simp
    | cons a xs ih =>
      rw [List.map_cons, List.sum_cons, List.map_cons, List.sum_cons, add_mul, mul_add]
      exact add_le_add (Int.ediv_mul_le _ htotal.ne') ih
  have h := hall xs
  rw [hsum] at h
  exact le_of_mul_le_mul_right h htotal

/-- The parts of the rig's split. -/
theorem rig_split_parts (led : TokenLedger) (t : InferenceReceiptTx) :
    (∀ x ∈ (rig.receipt_split led t).amounts, 0 ≤ x) ∧ (rig.receipt_split led t).amounts.sum ≤ t.fee.toNat := by
  have hcut : 0 ≤ (t.fee.toNat : Int) * 2000 / 10000 := by omega
  have hserver : 0 ≤ (t.fee.toNat : Int) - t.fee.toNat * 2000 / 10000 - t.fee.toNat * 2000 / 10000 := by omega
  unfold rig.receipt_split
  simp only [rig.FEE_SHARE_DATA, rig.FEE_SHARE_TRAIN]
  split
  · rename_i hpaid
    have htotal : 0 < rig_total led t.answer_sketch := hpaid.2
    have hshares := sum_shares_le ((t.fee.toNat : Int) * 2000 / 10000) htotal (rig.aligns led t.answer_sketch).toList rfl
    constructor
    · simp only [Split.amounts, List.forall_mem_cons, List.map_map, List.forall_mem_map]
      refine ⟨hserver, le_refl 0, hcut, fun a ha => ?_⟩
      exact Int.ediv_nonneg (Int.mul_nonneg hcut (rig_total_mem ha).1.le) htotal.le
    · simp only [Split.amounts, List.sum_cons, List.map_map]
      have hsame : ((rig.aligns led t.answer_sketch).toList.map
          (Prod.snd ∘ fun a => (a.1, (t.fee.toNat : Int) * 2000 / 10000 * a.2 / rig_total led t.answer_sketch))).sum ≤
          (t.fee.toNat : Int) * 2000 / 10000 := hshares
      unfold rig_total at hsame
      omega
  · constructor
    · simp only [Split.amounts, List.forall_mem_cons, List.map_nil]
      exact ⟨hserver, hcut, hcut, nofun⟩
    · simp only [Split.amounts, List.sum_cons, List.map_nil, List.sum_nil]
      omega

/-- Where nothing wraps, the two splits are the same. -/
theorem receipt_split_eq (h : NoWrap led t) : (receipt_split led t).toInt = rig.receipt_split led t := by
  obtain ⟨hd, htr⟩ := toNat_fee_cut h.fee
  have hserver := toNat_server h.fee
  have haligns := aligns_eq h.dots h.total
  have htotal := total_eq h.total
  have hcut : ((t.fee.toNat * 2000 / 10000 : Nat) : Int) = (t.fee.toNat : Int) * 2000 / 10000 := by omega
  have hrest : ((t.fee.toNat - t.fee.toNat * 2000 / 10000 - t.fee.toNat * 2000 / 10000 : Nat) : Int) =
      (t.fee.toNat : Int) - t.fee.toNat * 2000 / 10000 - t.fee.toNat * 2000 / 10000 := by omega
  unfold receipt_split rig.receipt_split
  simp only [haligns, htotal, rig.FEE_SHARE_DATA, rig.FEE_SHARE_TRAIN]
  change Split.toInt (if (t.answer_sketch.any fun x => decide (x ≠ 0)) = true ∧ rig_total led t.answer_sketch > 0 then _ else _) =
    if (t.answer_sketch.any fun x => decide (x ≠ 0)) = true ∧ rig_total led t.answer_sketch > 0 then _ else _
  split
  · simp only [Split.toInt, hserver, htr, hcut, hrest, List.map_map, UInt64.toNat_zero, Nat.cast_zero, Split.mk.injEq,
      true_and, and_true]
    refine List.map_congr_left fun a ha => ?_
    obtain ⟨hpos, hle⟩ := rig_total_mem ha
    have hfit := h.products a.1 a.2 (Std.ExtTreeMap.mem_toList_iff_getElem?_eq_some.mp ha)
    rw [← hd] at hfit hcut
    simp only [Function.comp_apply, toNat_align_share hpos hle hfit, hcut]
    rfl
  · simp only [Split.toInt, hserver, hd, htr, hcut, hrest, List.map_nil]

/-! ## Where it wraps -/

/-- A share whose product wraps is not the rig's: the wrapped product is smaller by more than the total, or negative. -/
theorem align_share_fits {cut : UInt64} {total a : Int} (ha : 0 < a) (hle : a ≤ total) (htotal : total < 2 ^ 127)
    (hcut : cut.toNat < 2 ^ 51) (h : ((align_share cut total a).toNat : Int) = cut.toNat * a / total) :
    (cut.toNat : Int) * a < 2 ^ 127 := by
  by_contra hbig
  set x : Int := cut.toNat * a with hx
  have hpos : 0 < total := ha.trans_le hle
  have hxle : x ≤ cut.toNat * total := Int.mul_le_mul_of_nonneg_left hle (Int.natCast_nonneg _)
  have hq : x / total ≤ cut.toNat := Int.ediv_le_of_le_mul hpos hxle
  have hq1 : 1 ≤ x / total := (Int.le_ediv_iff_mul_le hpos).mpr (by omega)
  -- the factor is large, as the cut is small
  have hlarge : 2 ^ 76 ≤ a := by
    by_contra hsmall
    have hlt : x ≤ (2 ^ 51 - 1) * (2 ^ 76 - 1) := mul_le_mul (by omega) (by omega) ha.le (by norm_num)
    norm_num at hlt hbig
    omega
  obtain ⟨k, hk⟩ : ∃ k : Int, i128 x = x - 2 ^ 128 * k := by
    refine ⟨x.bdiv (2 ^ 128), ?_⟩
    have hdiv := Int.bmod_add_bdiv x (2 ^ 128)
    unfold i128
    exact eq_sub_of_add_eq hdiv
  have hlo : -2 ^ 127 ≤ i128 x := by
    have := Int.le_bmod (x := x) (m := 2 ^ 128) (by norm_num)
    unfold i128
    norm_num at this ⊢
    omega
  have hhi : i128 x < 2 ^ 127 := by
    have := Int.bmod_lt (x := x) (m := 2 ^ 128) (by norm_num)
    unfold i128
    norm_num at this ⊢
    omega
  have hless : i128 x + total ≤ x := by omega
  unfold align_share at h
  rw [← hx] at h
  generalize i128 x = w at h hlo hhi hless
  rcases Int.le_total 0 w with hw | hw
  · have hdiv : w / total + 1 ≤ x / total := by
      have hmul := Int.ediv_mul_le w hpos.ne'
      refine (Int.le_ediv_iff_mul_le hpos).mpr ?_
      rw [add_mul, one_mul]
      omega
    have hnn : 0 ≤ w / total := Int.ediv_nonneg hw hpos.le
    rw [Int.tdiv_eq_ediv_of_nonneg hw, UInt64.ofInt, UInt64.toNat_ofNat'] at h
    omega
  · obtain ⟨v, rfl⟩ : ∃ v, w = -v := ⟨-w, (neg_neg w).symm⟩
    have hv : v / total < 2 ^ 52 := (Int.ediv_lt_iff_lt_mul hpos).mpr (by omega)
    have hnn : 0 ≤ v / total := Int.ediv_nonneg (by omega) hpos.le
    rw [Int.neg_tdiv, Int.tdiv_eq_ediv_of_nonneg (by omega), UInt64.ofInt, UInt64.toNat_ofNat'] at h
    omega

theorem dot_zero {ans : List Int64} (h : ¬ (ans.any fun x => x ≠ 0) = true) (sk : List Int64) : rig.dot sk ans = 0 := by
  unfold rig.dot
  refine List.sum_eq_zero fun x hx => ?_
  obtain ⟨ab, hab, rfl⟩ := List.mem_map.mp hx
  have hzero : ab.2 = 0 := by
    by_contra hne
    exact h (List.any_eq_true.mpr ⟨ab.2, (List.of_mem_zip hab).2, by simpa using hne⟩)
  rw [hzero, Int64.toInt_zero, mul_zero]

theorem rig_aligns_zero {ans : List Int64} (h : ¬ (ans.any fun x => x ≠ 0) = true) : rig.aligns led ans = ∅ := by
  have hsame (m : Dict Int) (e : RegistryEntry) : rig.align_entry ans m e = m := by
    unfold rig.align_entry
    split
    · rw [dot_zero h, if_neg (by simp)]
    · rfl
  unfold rig.aligns
  simp only [hsame]
  exact List.foldl_fixed _

/-- As long as the alignments fit, the products of the slice with them must. -/
theorem products_fit (hfee : t.fee.toNat * 2000 < 2 ^ 64) (hdots : DotsFit led t.answer_sketch)
    (htotal : rig_total led t.answer_sketch < 2 ^ 127) (h : (receipt_split led t).toInt = rig.receipt_split led t)
    {k : String} {a : Int} (ha : (rig.aligns led t.answer_sketch)[k]? = some a) :
    ((t.fee.toNat * 2000 / 10000 : Nat) : Int) * a < 2 ^ 127 := by
  have hmem := Std.ExtTreeMap.mem_toList_iff_getElem?_eq_some.mpr ha
  obtain ⟨hpos, hle⟩ := rig_total_mem hmem
  obtain ⟨hd, -⟩ := toNat_fee_cut hfee
  have hpaid : (t.answer_sketch.any fun x => decide (x ≠ 0)) = true ∧ rig_total led t.answer_sketch > 0 := by
    refine ⟨?_, hpos.trans_le hle⟩
    by_contra hnone
    rw [rig_aligns_zero hnone] at ha
    simp at ha
  have howners : ((rig.aligns led t.answer_sketch).toList.map fun b =>
      (b.1, ((align_share (fee_data_cut t.fee) (rig_total led t.answer_sketch) b.2).toNat : Int))) =
      (rig.aligns led t.answer_sketch).toList.map fun b =>
        (b.1, (t.fee.toNat : Int) * 2000 / 10000 * b.2 / rig_total led t.answer_sketch) := by
    have h' := congrArg Split.owners h
    unfold receipt_split rig.receipt_split at h'
    simp only [aligns_eq hdots htotal, total_eq htotal] at h'
    have hpaid' : (t.answer_sketch.any fun x => decide (x ≠ 0)) = true ∧
        ((rig.aligns led t.answer_sketch).toList.map (·.2)).sum > 0 := hpaid
    rw [if_pos hpaid, if_pos hpaid'] at h'
    simp only [Split.toInt, List.map_map] at h'
    exact h'
  have hshare := (Prod.mk.inj (List.map_inj_left.mp howners (k, a) hmem)).2
  have hcut : ((t.fee.toNat * 2000 / 10000 : Nat) : Int) = (t.fee.toNat : Int) * 2000 / 10000 := by omega
  rw [← hcut, ← hd] at hshare
  rw [← hd]
  exact align_share_fits hpos hle htotal (by omega) hshare

theorem saturating_add_zero (x : UInt64) : saturating_add x 0 = x := by
  apply UInt64.toNat_inj.mp
  have hx : x.toNat < 2 ^ 64 := x.toNat_lt
  rw [toNat_saturating_add, UInt64.toNat_zero]
  omega

theorem credit_all_pools (led : TokenLedger) (pays : List (String × UInt64)) :
    (led.credit_all pays).fee_data_pool = led.fee_data_pool := by
  unfold TokenLedger.credit_all
  induction pays generalizing led with
  | nil => rfl
  | cons p pays ih =>
    refine (ih (led.credit p.1 p.2)).trans ?_
    unfold TokenLedger.credit
    split
    · rfl
    · rfl

theorem with_pool {x : UInt64} (h : led.fee_data_pool = x) : { led with fee_data_pool := x } = led := by
  subst h
  rfl

/-- What an applied receipt pays is the split. -/
theorem apply_receipt_pays {src : String} {led' : TokenLedger} (h : led.apply_receipt src t = (true, led')) :
    led' = (led.debit src t.fee).pay_split t.server_addr (receipt_split led t) := by
  have haligns (led₁ : TokenLedger) (h₁ : led₁.registry = led.registry) (ans : List Int64) :
      led₁.aligns ans = led.aligns ans := by
    unfold TokenLedger.aligns
    rw [h₁]
  have hreg (led₁ : TokenLedger) (addr : String) (x : UInt64) : (led₁.credit addr x).registry = led₁.registry :=
    (Moved.credit led₁ addr x).registry
  unfold TokenLedger.apply_receipt at h
  split at h
  · cases h
  obtain rfl := (Prod.mk.inj h).2
  unfold TokenLedger.pay_data_cut pay_split receipt_split
  simp only
  rw [haligns _ (by exact hreg _ _ _)]
  split
  · simp only [saturating_add_zero]
    exact (with_pool (credit_all_pools _ _)).symm
  · rfl

/-- The product of the fee with a share must not wrap. -/
theorem fee_fits (h : (receipt_split led t).toInt = rig.receipt_split led t) : t.fee.toNat * 2000 < 2 ^ 64 := by
  have htrain : ((receipt_split led t).toInt).train_pool = (rig.receipt_split led t).train_pool := by rw [h]
  have hcode : (receipt_split led t).train_pool = fee_train_cut t.fee := by
    unfold receipt_split
    simp only
    split <;> rfl
  have hrig : (rig.receipt_split led t).train_pool = (t.fee.toNat : Int) * 2000 / 10000 := by
    unfold rig.receipt_split
    simp only
    split <;> rfl
  have hmul : (fee_train_cut t.fee).toNat = t.fee.toNat * 2000 % 2 ^ 64 / 10000 := by
    unfold fee_train_cut
    rw [UInt64.toNat_div, UInt64.toNat_mul]
    rfl
  simp only [Split.toInt] at htrain
  rw [hcode, hrig, hmul] at htrain
  by_contra hbig
  have hwrap : 1 ≤ t.fee.toNat * 2000 / 2 ^ 64 := by omega
  have hsplit : t.fee.toNat * 2000 = 2 ^ 64 * (t.fee.toNat * 2000 / 2 ^ 64) + t.fee.toNat * 2000 % 2 ^ 64 :=
    (Nat.div_add_mod _ _).symm
  omega

/-- An applied receipt credits the split. Where nothing wraps the split is the rig's and within the fee. Where the
product of the fee wraps it is not the rig's, nor where the alignments fit and a product of the slice with one wraps. -/
theorem receipt_splits (led : TokenLedger) (t : InferenceReceiptTx) :
    (∀ src led', led.apply_receipt src t = (true, led') →
      led' = (led.debit src t.fee).pay_split t.server_addr (receipt_split led t)) ∧
      (NoWrap led t → SplitsExactly led t) ∧ (SplitsExactly led t → t.fee.toNat * 2000 < 2 ^ 64) ∧
      (DotsFit led t.answer_sketch → rig_total led t.answer_sketch < 2 ^ 127 → (SplitsExactly led t ↔ NoWrap led t)) := by
  have hexact (h : NoWrap led t) : SplitsExactly led t :=
    ⟨receipt_split_eq h, (rig_split_parts led t).1, (rig_split_parts led t).2⟩
  refine ⟨fun src led' h => apply_receipt_pays h, hexact, fun h => fee_fits h.same, fun hdots htotal => ⟨fun h => ?_, hexact⟩⟩
  exact ⟨fee_fits h.same, hdots, htotal, fun k a ha => products_fit (fee_fits h.same) hdots htotal h.same ha⟩

theorem receipt_splits_small : SplitsExactly TokenLedger.new
    { payer_pub := "", server_addr := "", fee := 10, nonce := 0, output_hash := "", head_root := "", answer_sketch := [1],
      sig := [] } := by
  refine (receipt_splits TokenLedger.new _).2.1 ⟨by decide, fun k e sk he => ?_, by decide, fun k a ha => ?_⟩
  · simp [TokenLedger.new] at he
  · have hnone : rig.aligns TokenLedger.new [1] = ∅ := rfl
    rw [hnone] at ha
    simp at ha

/-! ## A rich proposer -/

/-- A receipt without an answer. -/
theorem split_unsketched (led : TokenLedger) (h : t.answer_sketch = []) :
    receipt_split led t = ⟨t.fee - fee_data_cut t.fee - fee_train_cut t.fee, [], fee_data_cut t.fee, fee_train_cut t.fee⟩ ∧
      rig.receipt_split led t = ⟨t.fee.toNat - t.fee.toNat * rig.FEE_SHARE_DATA / 10000 -
        t.fee.toNat * rig.FEE_SHARE_TRAIN / 10000, [], t.fee.toNat * rig.FEE_SHARE_DATA / 10000,
        t.fee.toNat * rig.FEE_SHARE_TRAIN / 10000⟩ := by
  unfold receipt_split rig.receipt_split
  simp only [h, List.any_nil, Bool.false_eq_true, false_and, if_false]
  exact ⟨trivial, trivial⟩

open scoped Toy

namespace Toy

def payer : String := hex_encode (key 4).val

/-- A block without transactions on any parent. -/
def plain_draft (height : UInt64) (prev_hash : String) : Block :=
  let proof := vrf_prove (key 4) prev_hash height lottery.ATTEMPT_MAX
  draft_block height (expected_version_at height params) prev_hash payer (hex_encode proof) lottery.ATTEMPT_MAX
    (lottery.attempt_work proof lottery.ATTEMPT_MAX)

theorem plain_header (parent_height : UInt64) (prev_hash : String) (led : TokenLedger) :
    check_header (plain_draft (parent_height + 1) prev_hash) parent_height led params = .ok () := by
  simp only [check_header, bind_eq_ok, require_eq_ok, exists_unit]
  exact ⟨rfl, rfl, rfl, lottery_last _ (key 4) (hex_decode_encode (key 4).val) (hex_ne_genesis (key 4).val) rfl rfl rfl⟩

theorem plain_sets (height : UInt64) (prev_hash : String) : check_sets (plain_draft height prev_hash) = .ok () := by
  have hkeys {ν : Type} : (∅ : Dict ν).keys = [] := Std.ExtTreeMap.keys_eq_nil_iff.mpr rfl
  have hvals {ν : Type} : (∅ : Dict ν).values = [] := rfl
  have htxs : (plain_draft height prev_hash).txs = [] := rfl
  simp [check_sets, htxs, show (plain_draft height prev_hash).scores = ∅ from rfl,
    show (plain_draft height prev_hash).sketches = ∅ from rfl, hkeys, hvals]
  exact ⟨rfl, rfl, rfl⟩

/-- Only balances. -/
def Bare (led : TokenLedger) : Prop := led = { TokenLedger.new with balances := led.balances }

/-- What a proposer earns with a block. -/
def proposer_cut (height : UInt64) : UInt64 := emission height * SHARE_PROPOSER / 10000

theorem plain_transition {led : TokenLedger} (h : Bare led) (height : UInt64) (prev_hash : String) (jurors : StrSet) :
    token_transition led (plain_draft height prev_hash) none jurors = .ok (led.credit (address payer) (proposer_cut height)) := by
  obtain ⟨bal, rfl⟩ : ∃ bal, led = { TokenLedger.new with balances := bal } := ⟨_, h⟩
  have htxs : (plain_draft height prev_hash).txs = [] := rfl
  have hdata : (plain_draft height prev_hash).data_txs = [] := rfl
  have htransfers : (plain_draft height prev_hash).transfers = [] := rfl
  have hproposer : (plain_draft height prev_hash).header.proposer = payer := rfl
  have hheight : (plain_draft height prev_hash).header.height = height := rfl
  have hnonempty : payer ≠ "" := by decide
  have hgenesis : payer ≠ "genesis" := by decide
  have hpaid (led : TokenLedger) : led.paid_hashes ∅ = [] := rfl
  have hsweep : (({ TokenLedger.new with balances := bal }).resolve_expired_challenges height).resolve_expired_bonds height =
      { TokenLedger.new with balances := bal } := rfl
  simp only [token_transition, hheight, hsweep, check_provenance, htxs, account_txs, hdata, htransfers, List.map_nil,
    List.append_nil, List.forM_nil, List.foldlM_nil]
  have hreward : reward_block { TokenLedger.new with balances := bal } (plain_draft height prev_hash) none =
      ({ TokenLedger.new with balances := bal } : TokenLedger).credit (address payer) (proposer_cut height) := by
    unfold reward_block accrue TokenLedger.apply_reward
    simp only [htxs, hheight, hproposer, List.foldl_nil, List.map_nil, Option.toList_none]
    split
    · rename_i h0
      unfold proposer_cut TokenLedger.credit
      rw [h0.1]
      rfl
    · unfold TokenLedger.pay_data TokenLedger.pay_miners TokenLedger.pay_proposer
      simp only [hpaid, List.isEmpty_nil, if_true, if_pos (And.intro hnonempty hgenesis), not_true_eq_false, if_false]
      rfl
  rw [hreward]
  rfl

theorem bare_credit {led : TokenLedger} (h : Bare led) (addr : String) (amount : UInt64) : Bare (led.credit addr amount) := by
  unfold TokenLedger.credit
  split
  · unfold Bare at h ⊢
    rw [h]
  · exact h

theorem balance_credit {led : TokenLedger} {addr : String} {amount : UInt64}
    (h : (led.balance addr).toNat + amount.toNat < 2 ^ 64) :
    ((led.credit addr amount).balance addr).toNat = (led.balance addr).toNat + amount.toNat := by
  unfold TokenLedger.credit
  split
  · unfold TokenLedger.balance
    rw [SumMap.get_insert, if_pos rfl, Option.getD_some, toNat_saturating_add]
    unfold TokenLedger.balance at h
    omega
  · rename_i h0
    have hzero : amount.toNat = 0 := by
      have hle := UInt64.not_lt.mp h0
      rw [UInt64.le_iff_toNat_le] at hle
      simpa using hle
    omega

/-! ### What a proposer has after `n` blocks -/

def earned : Nat → Nat
  | 0 => 0
  | n + 1 => earned n + (proposer_cut (UInt64.ofNat n + 1)).toNat

theorem earned_zero : earned 0 = 0 := rfl

theorem earned_succ (n : Nat) : earned (n + 1) = earned n + (proposer_cut (UInt64.ofNat n + 1)).toNat := rfl

-- the numbers of blocks below are large
attribute [irreducible] earned

theorem earned_ge {a c : Nat} (k : Nat) (h : ∀ i < k, c ≤ (proposer_cut (UInt64.ofNat (a + i) + 1)).toNat) :
    earned a + k * c ≤ earned (a + k) := by
  induction k with
  | zero => rw [Nat.zero_mul, Nat.add_zero, Nat.add_zero]
  | succ k ih =>
    have hk := ih fun i hi => h i (by omega)
    have hlast := h k (by omega)
    rw [← Nat.add_assoc, earned_succ, Nat.succ_mul]
    omega

/-- The cut of each of the first four epochs. -/
theorem proposer_cut_epoch {n : Nat} (e : Nat) (he : e < 4) (hn : n / 1000000 = e) :
    (proposer_cut (UInt64.ofNat n + 1)).toNat = 5000000000 / 2 ^ e := by
  have hlt : n < 4000000 := by omega
  have hpos : ¬ UInt64.ofNat n + 1 < 1 := by
    rw [UInt64.lt_iff_toNat_lt, UInt64.toNat_add, UInt64.toNat_ofNat']
    simp only [UInt64.toNat_one]
    omega
  have hepoch : (UInt64.ofNat n + 1 - 1) / HALVING_BLOCKS = UInt64.ofNat e := by
    rw [UInt64.add_sub_cancel]
    apply UInt64.toNat_inj.mp
    have hblocks : HALVING_BLOCKS.toNat = 1000000 := by decide +kernel
    rw [UInt64.toNat_div, UInt64.toNat_ofNat', UInt64.toNat_ofNat', hblocks, Nat.mod_eq_of_lt (by omega),
      Nat.mod_eq_of_lt (by omega), hn]
  have hcuts : ∀ e : Fin 4, (max (BASE_REWARD >>> min (UInt64.ofNat e.val) 62) TAIL_REWARD * SHARE_PROPOSER / 10000).toNat =
      5000000000 / 2 ^ e.val := by decide +kernel
  unfold proposer_cut emission
  rw [if_neg hpos, hepoch]
  exact hcuts ⟨e, he⟩

theorem earned_epoch {a e : Nat} (he : e < 4) (ha : a = e * 1000000) (k : Nat) (hk : k ≤ 1000000) :
    earned a + k * (5000000000 / 2 ^ e) ≤ earned (a + k) := by
  refine earned_ge k fun i hi => ?_
  rw [proposer_cut_epoch e he (by omega)]

theorem earned_lower {k : Nat} (hk : k = 1000000) : 9223372036854776 ≤ earned (k + k + k + k) := by
  have h₀ := earned_epoch (a := 0) (e := 0) (by omega) rfl k hk.le
  have h₁ := earned_epoch (a := k) (e := 1) (by omega) (by omega) k hk.le
  have h₂ := earned_epoch (a := k + k) (e := 2) (by omega) (by omega) k hk.le
  have h₃ := earned_epoch (a := k + k + k) (e := 3) (by omega) (by omega) k hk.le
  rw [earned_zero, Nat.zero_add, Nat.zero_add] at h₀
  generalize earned (k + k + k + k) = e₄ at h₃ ⊢
  generalize earned (k + k + k) = e₃ at h₂ h₃
  generalize earned (k + k) = e₂ at h₁ h₂
  generalize earned k = e₁ at h₀ h₁
  subst hk
  norm_num at h₀ h₁ h₂ h₃
  omega

theorem earned_upper {n : Nat} (hn : n ≤ 4000000) : earned n ≤ n * 5000000000 := by
  induction n with
  | zero =>
    rw [earned_zero, Nat.zero_mul]
  | succ n ih =>
    have hcut := proposer_cut_epoch (n / 1000000) (by omega) rfl
    have hle : 5000000000 / 2 ^ (n / 1000000) ≤ 5000000000 := Nat.div_le_self _ _
    have hprev := ih (by omega)
    rw [earned_succ, hcut]
    omega

/-- Accepted blocks of one proposer. -/
theorem rich_chain {n : Nat} (hn : n ≤ 4000000) : ∃ chain led back, chain.length = n ∧ Bonded none params chain led back ∧
    Bare led ∧ (led.balance (address payer)).toNat = earned n := by
  induction n with
  | zero => exact ⟨[], genesis_ledger none, [], rfl, .genesis, rfl, by rw [earned_zero]; rfl⟩
  | succ n ih =>
    obtain ⟨chain, led, back, hlen, hchain, hbare, hbal⟩ := ih (by omega)
    have htoken := plain_transition hbare (UInt64.ofNat chain.length + 1) "" ∅
    obtain ⟨v, hv, haccepted⟩ : ∃ v, v.ledger = led.credit (address payer) (proposer_cut (UInt64.ofNat chain.length + 1)) ∧
        validate_inner (seal_full led [5] (ModelState.genesis spec) params none ∅
          (plain_draft (UInt64.ofNat chain.length + 1) "")) (some [5]) (UInt64.ofNat chain.length) led none ∅
          (ModelState.genesis spec) params = .ok v :=
      seal_full_accepted (plain_header _ _ _) (fun _ htx => absurd htx List.not_mem_nil) (plain_sets _ _) rfl rfl htoken
    refine ⟨_, v.ledger, _, ?_, .block hchain haccepted, ?_, ?_⟩
    · rw [List.length_append, hlen, List.length_singleton]
    · rw [hv]
      exact bare_credit hbare _ _
    · have hcap := earned_upper hn
      rw [earned_succ] at hcap
      rw [hv, balance_credit, hbal, hlen, earned_succ]
      rw [hbal, hlen]
      omega

def large_receipt : InferenceReceiptTx :=
  { payer_pub := payer, server_addr := "server", fee := 9223372036854776, nonce := 0, output_hash := "", head_root := "",
    answer_sketch := [], sig := [] }

/-- A corpus and an answer along it, with entries so large that their product wraps. -/
def steep_sketch : List Int64 := List.replicate 5 (Int64.ofNat (2 ^ 63 - 1))

def steep_ledger : TokenLedger :=
  { TokenLedger.new with
    registry := (∅ : Dict RegistryEntry).insert "corpus" {
      owner := "owner", data_hash := "", size := 0, media_type := "", stake := 0, da_root := none, weight := 0
      status := .active, sketch := some steep_sketch } }

def steep_receipt : InferenceReceiptTx := { large_receipt with fee := 5, answer_sketch := steep_sketch }

end Toy

/-- A product that wraps need not show: a single owner gets the whole slice whatever the number is. -/
theorem wrapped_dot_unnoticed : ¬ DotsFit Toy.steep_ledger Toy.steep_receipt.answer_sketch ∧
    SplitsExactly Toy.steep_ledger Toy.steep_receipt := by
  refine ⟨fun h => ?_, by decide +kernel, (rig_split_parts _ _).1, (rig_split_parts _ _).2⟩
  have hfit := (h "corpus" _ Toy.steep_sketch Std.ExtTreeMap.getElem?_insert_self rfl rfl).2
  have hdot : rig.dot Toy.steep_sketch Toy.steep_receipt.answer_sketch = 5 * (2 ^ 63 - 1) ^ 2 := by decide +kernel
  rw [hdot] at hfit
  norm_num at hfit

/-- After four million blocks their proposer can pay a fee of which the code gives the pools nothing. -/
theorem large_fee_unsplit : ∃ chain led back, Bonded none Toy.params chain led back ∧
    Toy.large_receipt.fee ≤ led.balance (address Toy.large_receipt.payer_pub) ∧
      (receipt_split led Toy.large_receipt).toInt = ⟨9223372036854776, [], 0, 0⟩ ∧
      rig.receipt_split led Toy.large_receipt = ⟨5534023222112866, [], 1844674407370955, 1844674407370955⟩ := by
  obtain ⟨k, hk⟩ : ∃ k, k = 1000000 := ⟨_, rfl⟩
  obtain ⟨chain, led, back, -, hchain, -, hbal⟩ := Toy.rich_chain (show k + k + k + k ≤ 4000000 by omega)
  have hfee : Toy.large_receipt.fee.toNat = 9223372036854776 := by decide +kernel
  obtain ⟨hcode, hrig⟩ := split_unsketched (t := Toy.large_receipt) led rfl
  refine ⟨chain, led, back, hchain, ?_, ?_, ?_⟩
  · rw [UInt64.le_iff_toNat_le, hfee]
    exact le_of_le_of_eq (Toy.earned_lower hk) hbal.symm
  · rw [hcode]
    decide +kernel
  · rw [hrig]
    decide +kernel

end Sestrian
