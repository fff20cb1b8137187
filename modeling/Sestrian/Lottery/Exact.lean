import Sestrian.Code.RigLottery
import Sestrian.Code.Bytes

/-!
# The lottery's arithmetic is exact

Bytes are digits: the long division, the comparison and the count of leading zeros are those of the integers.
-/

namespace Sestrian

open lottery

/-! ## Big-endian integers -/

theorem from_be_foldl (acc : Nat) (b : List UInt8) :
    b.foldl (fun acc x => acc * 256 + x.toNat) acc = acc * 256 ^ b.length + from_be_bytes b := by
  unfold from_be_bytes
  induction b generalizing acc with
  | nil => simp
  | cons x b ih =>
    rw [List.foldl_cons, List.foldl_cons, ih, ih (0 * 256 + x.toNat), List.length_cons, pow_succ]
    ring

theorem from_be_cons (x : UInt8) (b : List UInt8) :
    from_be_bytes (x :: b) = x.toNat * 256 ^ b.length + from_be_bytes b := by
  rw [from_be_bytes, List.foldl_cons, from_be_foldl, Nat.zero_mul, Nat.zero_add]

theorem from_be_lt (b : List UInt8) : from_be_bytes b < 256 ^ b.length := by
  induction b with
  | nil => exact Nat.one_pos
  | cons x b ih =>
    have hx : x.toNat + 1 ≤ 256 := x.toNat_lt
    rw [from_be_cons, List.length_cons]
    calc x.toNat * 256 ^ b.length + from_be_bytes b
        < x.toNat * 256 ^ b.length + 256 ^ b.length := Nat.add_lt_add_left ih _
      _ = (x.toNat + 1) * 256 ^ b.length := (Nat.succ_mul _ _).symm
      _ ≤ 256 * 256 ^ b.length := Nat.mul_le_mul_right _ hx
      _ = 256 ^ (b.length + 1) := (Nat.pow_succ').symm

/-- Slices of one length compare as integers. -/
theorem from_be_lt_iff {a b : List UInt8} (hlen : a.length = b.length) :
    a < b ↔ from_be_bytes a < from_be_bytes b := by
  induction a generalizing b with
  | nil =>
    obtain rfl := List.length_eq_zero_iff.mp hlen.symm
    exact ⟨fun h => absurd h (List.not_lt_nil _), fun h => absurd h (Nat.lt_irrefl _)⟩
  | cons x a ih =>
    obtain ⟨y, b, rfl⟩ := List.exists_cons_of_length_eq_add_one hlen.symm
    have hlen : a.length = b.length := Nat.succ.inj hlen
    have ha := from_be_lt a
    have hb := from_be_lt b
    rw [hlen] at ha
    rw [List.cons_lt_cons_iff, ih hlen, from_be_cons, from_be_cons, hlen, UInt8.lt_iff_toNat_lt]
    rcases Nat.lt_trichotomy x.toNat y.toNat with hlt | heq | hgt
    · have hstep : (x.toNat + 1) * 256 ^ b.length ≤ y.toNat * 256 ^ b.length := Nat.mul_le_mul_right _ hlt
      rw [Nat.succ_mul] at hstep
      exact ⟨fun _ => by omega, fun _ => .inl hlt⟩
    · obtain rfl := UInt8.toNat_inj.mp heq
      simp
    · have hstep : (y.toNat + 1) * 256 ^ b.length ≤ x.toNat * 256 ^ b.length := Nat.mul_le_mul_right _ hgt
      rw [Nat.succ_mul] at hstep
      refine ⟨?_, fun h => by omega⟩
      rintro (hlt | ⟨rfl, -⟩)
      · omega
      · omega

/-! ## Long division -/

theorem length_div_bytes (d n rem : Nat) : (div_bytes d n rem).length = n := by
  induction n generalizing rem with
  | zero => rfl
  | succ n ih => rw [div_bytes, List.length_cons, ih]

/-- One round: the shift fits `u128` and the digit fits a byte. -/
theorem division_round {rem d : Nat} (hrem : rem < d) (hd : d < 2 ^ 64) :
    rem <<< 8 < 2 ^ 128 ∧ rem <<< 8 / d < 2 ^ 8 ∧ rem <<< 8 % d < d := by
  have hpos : 0 < d := Nat.zero_lt_of_lt hrem
  rw [Nat.shiftLeft_eq, Nat.div_lt_iff_lt_mul hpos]
  exact ⟨by omega, by omega, Nat.mod_lt _ hpos⟩

theorem from_be_div_bytes {d : Nat} (hd : d < 2 ^ 64) (n : Nat) {rem : Nat} (hrem : rem < d) :
    from_be_bytes (div_bytes d n rem) = rem * 256 ^ n / d := by
  have hpos : 0 < d := Nat.zero_lt_of_lt hrem
  induction n generalizing rem with
  | zero =>
    rw [pow_zero, mul_one, Nat.div_eq_of_lt hrem]
    rfl
  | succ n ih =>
    obtain ⟨hfits, hbyte, -⟩ := division_round hrem hd
    have hshift : rem <<< 8 % 2 ^ 128 = rem * 256 := by
      rw [Nat.mod_eq_of_lt hfits, Nat.shiftLeft_eq]
    rw [Nat.shiftLeft_eq] at hbyte
    have hsplit : rem * 256 ^ (n + 1) = (rem * 256 / d * 256 ^ n) * d + rem * 256 % d * 256 ^ n := by
      calc rem * 256 ^ (n + 1) = rem * 256 * 256 ^ n := by ring
        _ = (d * (rem * 256 / d) + rem * 256 % d) * 256 ^ n := by rw [Nat.div_add_mod]
        _ = (rem * 256 / d * 256 ^ n) * d + rem * 256 % d * 256 ^ n := by ring
    simp only [div_bytes, hshift]
    rw [from_be_cons, length_div_bytes, ih (Nat.mod_lt _ hpos), UInt8.toNat_ofNat_of_lt' hbyte, hsplit,
      Nat.add_comm (_ * d), Nat.add_mul_div_right _ _ hpos, Nat.add_comm]

/-! ## Leading zeros -/

theorem size_of_byte {b : UInt8} (hb : b ≠ 0) : 7 - b.toNat.log2 + b.toNat.size = 8 := by
  have hall : ∀ b : Fin 256, b ≠ 0 → 7 - b.val.log2 + b.val.size = 8 := by decide +kernel
  exact hall ⟨b.toNat, b.toNat_lt⟩ fun h => hb (UInt8.toNat_inj.mp (congrArg Fin.val h))

theorem size_mul_add {x n r : Nat} (hx : 0 < x) (hr : r < 256 ^ n) : (x * 256 ^ n + r).size = x.size + 8 * n := by
  have hbase : 256 ^ n = 2 ^ (8 * n) := by rw [Nat.pow_mul]
  have hsize : 0 < x.size := Nat.size_pos.mpr hx
  have hupper : x + 1 ≤ 2 ^ x.size := Nat.lt_size_self x
  have hlower : 2 ^ (x.size - 1) ≤ x := Nat.lt_size.mp (by omega)
  apply Nat.le_antisymm
  · rw [Nat.size_le]
    calc x * 256 ^ n + r < x * 256 ^ n + 256 ^ n := Nat.add_lt_add_left hr _
      _ = (x + 1) * 256 ^ n := (Nat.succ_mul _ _).symm
      _ ≤ 2 ^ x.size * 256 ^ n := Nat.mul_le_mul_right _ hupper
      _ = 2 ^ (x.size + 8 * n) := by rw [hbase, Nat.pow_add]
  · have hlt : x.size - 1 + 8 * n < (x * 256 ^ n + r).size := by
      rw [Nat.lt_size]
      calc 2 ^ (x.size - 1 + 8 * n) = 2 ^ (x.size - 1) * 256 ^ n := by rw [hbase, Nat.pow_add]
        _ ≤ x * 256 ^ n := Nat.mul_le_mul_right _ hlower
        _ ≤ x * 256 ^ n + r := Nat.le_add_right _ _
    omega

theorem leading_zeros_eq (b : List UInt8) : leading_zeros b + (from_be_bytes b).size = 8 * b.length := by
  induction b with
  | nil => rfl
  | cons x b ih =>
    rw [leading_zeros, from_be_cons, List.length_cons]
    split
    · rename_i hx
      rw [hx, UInt8.toNat_zero, Nat.zero_mul, Nat.zero_add]
      omega
    · rename_i hx
      have hpos : 0 < x.toNat := Nat.pos_of_ne_zero fun h => hx (UInt8.toNat_inj.mp h)
      have hbyte := size_of_byte hx
      rw [size_mul_add hpos (from_be_lt b), byte_leading_zeros]
      omega

/-! ## Against the rig -/

theorem mul2pow256_div_eq {a d : Nat} (ha : a < d) (hd : d < 2 ^ 64) :
    from_be_bytes (mul2pow256_div a d) = a * 2 ^ 256 / d := by
  rw [mul2pow256_div, from_be_div_bytes hd 32 ha, show (256 : Nat) ^ 32 = 2 ^ 256 by norm_num]

theorem numerator_lt (stake : UInt64) {attempt : UInt64} (ha : attempt < ATTEMPT_MAX) :
    (TARGET_PROPOSERS * stake.toNat) <<< attempt.toNat < 2 ^ 128 := by
  have hattempt : attempt.toNat ≤ 15 := Nat.le_of_lt_succ (UInt64.lt_iff_toNat_lt.mp ha)
  have hstake := stake.toNat_lt
  rw [Nat.shiftLeft_eq]
  calc TARGET_PROPOSERS * stake.toNat * 2 ^ attempt.toNat
      ≤ TARGET_PROPOSERS * stake.toNat * 2 ^ 15 := Nat.mul_le_mul_left _ (Nat.pow_le_pow_right (by norm_num) hattempt)
    _ < 2 ^ 128 := by
      unfold TARGET_PROPOSERS
      omega

/-- The threshold of the rig is the one that the node compares with. -/
theorem below_threshold_iff (output : ByteArr 32) (stake : UInt64) {total_stake attempt : UInt64} (ht : 0 < total_stake)
    (ha : attempt < ATTEMPT_MAX) : below_threshold output stake total_stake attempt = true ↔
      from_be_bytes output.val < min (2 ^ 256) (2 ^ 256 * (TARGET_PROPOSERS * stake.toNat * 2 ^ attempt.toNat) / total_stake.toNat) := by
  have htotal : 0 < total_stake.toNat := UInt64.lt_iff_toNat_lt.mp ht
  have hout : from_be_bytes output.val < 2 ^ 256 := by
    have := from_be_lt output.val
    rwa [output.2, show (256 : Nat) ^ 32 = 2 ^ 256 by norm_num] at this
  unfold below_threshold
  split
  · rename_i hs
    simp [hs]
  · simp only [Nat.mod_eq_of_lt (numerator_lt stake ha)]
    rw [Nat.shiftLeft_eq]
    generalize TARGET_PROPOSERS * stake.toNat * 2 ^ attempt.toNat = num
    split
    · rename_i hcap
      have hlarge : 2 ^ 256 ≤ 2 ^ 256 * num / total_stake.toNat :=
        (Nat.le_div_iff_mul_le htotal).mpr (Nat.mul_le_mul_left _ hcap)
      simp only [Nat.min_eq_left hlarge, true_iff]
      exact hout
    · rename_i hcap
      have hlt : num < total_stake.toNat := Nat.not_le.mp hcap
      have hsmall : 2 ^ 256 * num / total_stake.toNat ≤ 2 ^ 256 :=
        (Nat.div_le_of_le_mul (by rw [Nat.mul_comm total_stake.toNat]; exact Nat.mul_le_mul_left _ hlt.le))
      rw [decide_eq_true_eq, Nat.min_eq_right hsmall, from_be_lt_iff (by rw [output.2, mul2pow256_div, length_div_bytes]),
        mul2pow256_div_eq hlt total_stake.toNat_lt, Nat.mul_comm num]

variable [Crypto]

theorem vrf_work_eq (proof : List UInt8) :
    (vrf_work proof).toNat = 257 - (from_be_bytes (vrf_output proof).val).size := by
  have hzeros := leading_zeros_eq (vrf_output proof).val
  rw [(vrf_output proof).2] at hzeros
  have hfits : leading_zeros (vrf_output proof).val + 1 < 2 ^ 64 := by omega
  rw [vrf_work, UInt64.toNat_ofNat_of_lt' hfits]
  omega

theorem rig_vrf_work (proof : List UInt8) : (vrf_work proof).toNat = rig.lottery.vrf_work proof := by
  rw [vrf_work_eq]
  unfold rig.lottery.vrf_work rig.lottery.vrf_output vrf_output
  have hsize : (from_be_bytes (sha256 proof).val).size ≤ 256 := by
    have := from_be_lt (sha256 proof).val
    rw [(sha256 proof).2, show (256 : Nat) ^ 32 = 2 ^ 256 by norm_num] at this
    exact Nat.size_le.mpr this
  dsimp only
  split
  · omega
  · rename_i hzero
    rw [Nat.eq_zero_of_not_pos hzero, Nat.size_zero]

/-- A shift by 63 already leaves nothing. -/
theorem rig_attempt_work (proof : List UInt8) (attempt : UInt64) :
    (attempt_work proof attempt).toNat = rig.lottery.attempt_work proof attempt.toNat := by
  have hwork : (vrf_work proof).toNat ≤ 257 := by
    rw [vrf_work_eq]
    exact Nat.sub_le _ _
  have hmin : (min attempt 63).toNat = min attempt.toNat 63 := by
    rw [show min attempt 63 = if attempt ≤ 63 then attempt else 63 from rfl]
    split
    · rename_i h
      exact (Nat.min_eq_left (UInt64.le_iff_toNat_le.mp h)).symm
    · rename_i h
      rw [UInt64.le_iff_toNat_le, Nat.not_le] at h
      exact (Nat.min_eq_right h.le).symm
  have hmod : min attempt.toNat 63 % 64 = min attempt.toNat 63 := Nat.mod_eq_of_lt (by omega)
  rw [attempt_work, rig.lottery.attempt_work, toNat_max, ← rig_vrf_work, UInt64.toNat_shiftRight, hmin, hmod, Nat.max_comm]
  congr 1
  rcases Nat.le_total attempt.toNat 63 with hle | hge
  · rw [Nat.min_eq_left hle]
  · rw [Nat.min_eq_right hge, Nat.shiftRight_eq_div_pow, Nat.shiftRight_eq_div_pow]
    have hsmall : 2 ^ 63 ≤ 2 ^ attempt.toNat := Nat.pow_le_pow_right (by norm_num) hge
    rw [Nat.div_eq_of_lt (by omega), Nat.div_eq_of_lt (by omega)]

omit [Crypto] in
theorem rig_threshold (stake attempt : Nat) {total_stake : Nat} (ht : 0 < total_stake) :
    rig.lottery.threshold stake total_stake attempt =
      min (2 ^ 256) (2 ^ 256 * (TARGET_PROPOSERS * stake * 2 ^ attempt) / total_stake) := by
  unfold rig.lottery.threshold rig.lottery.TWO256
  rw [if_neg (Nat.not_le.mpr ht), Nat.one_shiftLeft, Nat.shiftLeft_eq]
  split
  · rename_i hs
    rw [Nat.le_zero.mp hs]
    simp
  · rw [Nat.mul_assoc (2 ^ 256), Nat.mul_assoc (2 ^ 256)]
    rfl

theorem rig_eligible (pub : String) (proof : List UInt8) (prev_hash : String) (height attempt stake total_stake : UInt64) :
    eligible pub proof prev_hash height attempt stake total_stake =
      rig.lottery.eligible pub proof prev_hash height.toNat attempt.toNat stake.toNat total_stake.toNat := by
  have hseed : seed prev_hash height attempt = rig.lottery.seed prev_hash height.toNat attempt.toNat := rfl
  have hmax : attempt > ATTEMPT_MAX ↔ ¬(0 ≤ attempt.toNat ∧ attempt.toNat ≤ rig.lottery.ATTEMPT_MAX) := by
    rw [gt_iff_lt, UInt64.lt_iff_toNat_lt, not_and_or, Nat.not_le, Nat.not_le]
    exact ⟨.inr, fun h => h.resolve_left (Nat.not_lt_zero _)⟩
  have hfloor : attempt = ATTEMPT_MAX ↔ attempt.toNat = rig.lottery.ATTEMPT_MAX := UInt64.toNat_inj.symm
  have hzero : total_stake = 0 ↔ total_stake.toNat ≤ 0 := by
    rw [Nat.le_zero, ← UInt64.toNat_inj]
    rfl
  have hfirst : attempt = 0 ↔ attempt.toNat = 0 := UInt64.toNat_inj.symm
  unfold eligible rig.lottery.eligible
  simp only [hmax, hseed, hfloor, hzero, hfirst]
  split
  · rfl
  · rename_i hrange
    split
    · rfl
    · split
      · rfl
      · rename_i hattempt
        split
        · rfl
        · rename_i htotal
          have ht : 0 < total_stake := UInt64.lt_iff_toNat_lt.mpr (Nat.not_le.mp htotal)
          have ha : attempt < ATTEMPT_MAX := UInt64.lt_iff_toNat_lt.mpr (by
            rw [not_not] at hrange
            exact lt_of_le_of_ne hrange.2 hattempt)
          rw [Bool.eq_iff_iff, below_threshold_iff _ _ ht ha, decide_eq_true_eq, rig_threshold _ _ (Nat.not_le.mp htotal)]
          rfl

/-- What the node's lottery computes, byte by byte, is what the integers say. -/
structure ExactLottery : Prop where
  threshold : ∀ (output : ByteArr 32) (stake total_stake attempt : UInt64), 0 < total_stake → attempt < ATTEMPT_MAX →
    (below_threshold output stake total_stake attempt = true ↔ from_be_bytes output.val <
      min (2 ^ 256) (2 ^ 256 * (TARGET_PROPOSERS * stake.toNat * 2 ^ attempt.toNat) / total_stake.toNat))
  numerator : ∀ (stake attempt : UInt64), attempt < ATTEMPT_MAX →
    (TARGET_PROPOSERS * stake.toNat) <<< attempt.toNat < 2 ^ 128
  quotient : ∀ a d : Nat, a < d → d < 2 ^ 64 →
    (mul2pow256_div a d).length = 32 ∧ from_be_bytes (mul2pow256_div a d) = a * 2 ^ 256 / d
  -- one round of the division: the shift fits `u128`, the digit fits `u8`
  round : ∀ rem d : Nat, rem < d → d < 2 ^ 64 →
    rem <<< 8 < 2 ^ 128 ∧ rem <<< 8 / d < 2 ^ 8 ∧ rem <<< 8 % d < d
  work : ∀ proof : List UInt8, (vrf_work proof).toNat = 257 - (from_be_bytes (vrf_output proof).val).size
  rig_work : ∀ (proof : List UInt8) (attempt : UInt64), (vrf_work proof).toNat = rig.lottery.vrf_work proof ∧
    (attempt_work proof attempt).toNat = rig.lottery.attempt_work proof attempt.toNat
  rig_eligible : ∀ (pub : String) (proof : List UInt8) (prev_hash : String) (height attempt stake total_stake : UInt64),
    eligible pub proof prev_hash height attempt stake total_stake =
      rig.lottery.eligible pub proof prev_hash height.toNat attempt.toNat stake.toNat total_stake.toNat

theorem lottery_exact : ExactLottery where
  threshold := fun output stake _ _ ht ha => below_threshold_iff output stake ht ha
  numerator := fun stake _ ha => numerator_lt stake ha
  quotient := fun _ _ ha hd => ⟨length_div_bytes _ _ _, mul2pow256_div_eq ha hd⟩
  round := fun _ _ hrem hd => division_round hrem hd
  work := vrf_work_eq
  rig_work := fun proof attempt => ⟨rig_vrf_work proof, rig_attempt_work proof attempt⟩
  rig_eligible := rig_eligible

end Sestrian
