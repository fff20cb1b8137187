import Sestrian.Code.Node
import Sestrian.Code.Planner
import Sestrian.Lib.Select
import Sestrian.Lib.SumMap
import Sestrian.Node.Early
import Sestrian.Node.Serve
import Sestrian.Tree.Decoders

/-!
# The node admits what the trainer plans

The greedy claim keeps to its budget, the budget keeps the floor below the ceiling, and the
selection keeps at least the floor. So the payload passes the gate of the node whose page
table the trainer mirrors.
-/

namespace Sestrian.client

open Select

/-! ## The bytes of a payload -/

theorem words_word_bytes (xs : List UInt32) : words (word_bytes xs) = xs := by
  induction xs with
  | nil => rfl
  | cons x xs ih =>
    have hx : word_bytes (x :: xs) = UInt8.ofNat (x.toNat >>> 0) :: UInt8.ofNat (x.toNat >>> 8) ::
        UInt8.ofNat (x.toNat >>> 16) :: UInt8.ofNat (x.toNat >>> 24) :: word_bytes xs := rfl
    have hvalue : le_value [UInt8.ofNat (x.toNat >>> 0), UInt8.ofNat (x.toNat >>> 8), UInt8.ofNat (x.toNat >>> 16),
        UInt8.ofNat (x.toNat >>> 24)] = x.toNat := by
      have := x.toNat_lt
      simp only [le_value, List.foldr_cons, List.foldr_nil, UInt8.toNat_ofNat', Nat.shiftRight_eq_div_pow]
      omega
    rw [hx, words, hvalue, ih, UInt32.ofNat_toNat]

theorem length_word_bytes (xs : List UInt32) : (word_bytes xs).length = 4 * xs.length := by
  induction xs with
  | nil => rfl
  | cons x xs ih =>
    have hx : (word_bytes (x :: xs)).length = 4 + (word_bytes xs).length := by
      simp [word_bytes, le_bytes]
    rw [hx, ih, List.length_cons]
    omega

/-- The cast to `int32` keeps what fits. -/
theorem cast_word {v : Int64} (h : v.toInt.natAbs ≤ 2147483647) : v.toInt32.toUInt32.toInt32.toInt64 = v := by
  apply Int64.toInt_inj.mp
  rw [Int32.toInt32_toUInt32, Int32.toInt_toInt64, Int64.toInt_toInt32]
  exact Int.bmod_eq_of_le (by omega) (by omega)

theorem last_writes_perm {cs : List (UInt32 × Int64)} (h : (cs.map Prod.fst).Nodup) :
    (Payload.last_writes cs).toList.Perm cs := by
  induction cs using List.reverseRecOn with
  | nil => simp [Payload.last_writes]
  | append_singleton cs c ih =>
    rw [List.map_append, List.nodup_append] at h
    obtain ⟨hcs, -, hdisj⟩ := h
    have hfresh : c.1 ∉ Payload.last_writes cs := by
      intro hc
      obtain ⟨d, hd, hdc⟩ := Payload.mem_last_writes hc
      exact hdisj d.1 (List.mem_map_of_mem hd) c.1 (by simp) hdc
    have herase : (Payload.last_writes cs).erase c.1 = Payload.last_writes cs := by
      refine Std.ExtTreeMap.ext_getElem? fun i => ?_
      rw [SumMap.get_erase]
      split
      · next hi => exact (Std.ExtTreeMap.getElem?_eq_none (hi ▸ hfresh)).symm
      · rfl
    rw [Chunks.last_writes_snoc]
    refine (SumMap.toList_insert_perm _ c.1 c.2).trans ?_
    rw [herase]
    exact ((ih hcs).cons c).trans (List.perm_append_singleton c cs).symm

/-- The node reads the components that were written. -/
theorem coords_sparse {n : Nat} {idx : List UInt32} (f : UInt32 → Int64) (hnodup : idx.Nodup)
    (hlt : ∀ i ∈ idx, i.toNat < n) (hfit : ∀ i ∈ idx, (f i).toInt.natAbs ≤ 2147483647) :
    ∃ coords, (payload_json ⟨n, word_bytes idx, word_bytes ((idx.map f).map fun v => v.toInt32.toUInt32)⟩).coords =
      some coords ∧ coords.Perm ((idx.map fun i => (i, f i)).filter fun c => c.2 ≠ 0) := by
  set vals : List UInt32 := (idx.map f).map fun v => v.toInt32.toUInt32
  have hentries : Payload.entries (word_bytes idx) (word_bytes vals) = idx.map fun i => (i, f i) := by
    unfold Payload.entries vals
    rw [words_word_bytes, words_word_bytes, List.map_map, List.map_map]
    have hpair := @List.zip_map' _ _ _ id ((fun w => w.toInt32.toInt64) ∘ (fun v => v.toInt32.toUInt32) ∘ f) idx
    rw [List.map_id] at hpair
    refine hpair.trans (List.map_congr_left fun i hi => ?_)
    simp only [id, Function.comp_apply, cast_word (hfit i hi)]
  have hlen : vals.length = idx.length := by simp [vals]
  have hcoords := @Decoders.coords_eq (payload_json ⟨n, word_bytes idx, word_bytes vals⟩) (word_bytes idx)
    (word_bytes vals) (unb64_b64 _) (unb64_b64 _) (by rw [length_word_bytes, length_word_bytes, hlen])
    (by rw [words_word_bytes]; exact hlt)
  rw [hentries] at hcoords
  have hkeys : ((idx.map fun i => (i, f i)).map Prod.fst).Nodup := by
    rw [List.map_map, show Prod.fst ∘ (fun i => (i, f i)) = id from rfl, List.map_id]
    exact hnodup
  exact ⟨_, hcoords, (last_writes_perm hkeys).filter _⟩

/-! ## The selection -/

/-- What NumPy promises of `argpartition`: the indices, those of the smaller elements first. -/
def Partitions (argpartition : List Int64 → Nat → List Nat) : Prop :=
  ∀ xs kth, kth < xs.length →
    (argpartition xs kth).Perm (List.range xs.length) ∧ SplitAt (xs.getD · 0) kth (argpartition xs kth)

theorem abs_toInt {v : Int64} (h : v ≠ Int64.minValue) : v.abs.toInt = v.toInt.natAbs := by
  have hmin : v.toBitVec ≠ BitVec.intMin 64 := fun hv => h (Int64.toBitVec_inj.mp hv)
  rw [← Int64.toInt_toBitVec, Int64.toBitVec_abs, BitVec.toInt_abs_eq_natAbs_of_ne_intMin hmin, Int64.toInt_toBitVec]

theorem range_getD (q : List Int64) : (List.range q.length).map (q.getD · 0) = q := by
  apply List.ext_getElem
  · simp
  · intro i hi _
    have hi : i < q.length := by simpa using hi
    simp [hi]

/-- The components above a threshold. -/
def above (t : Nat) (x : Int64) : Bool := t < x.toInt.natAbs

theorem above_zero (x : Int64) : above 0 x = decide (x ≠ 0) := by
  have hx : x = 0 ↔ x.toInt = 0 := by rw [← Int64.toInt_inj, Int64.toInt_zero]
  simp only [above, ne_eq, hx, decide_eq_decide]
  omega

section Kept

variable {argpartition : List Int64 → Nat → List Nat} {q : List Int64} {k : Nat}

theorem kept_all (hk : q.length ≤ k) : kept argpartition q k = nonzero q := if_pos hk

theorem kept_top (hk : ¬ q.length ≤ k) : kept argpartition q k =
    ((argpartition (q.map Int64.abs) (q.length - k)).drop (q.length - k)).insertionSort (· ≤ ·) := if_neg hk

theorem kept_subperm (hpart : Partitions argpartition) (hpos : 0 < k) :
    (kept argpartition q k).Subperm (List.range q.length) := by
  by_cases hk : q.length ≤ k
  · rw [kept_all hk]
    exact List.filter_sublist.subperm
  · rw [kept_top hk]
    have hp := (hpart (q.map Int64.abs) (q.length - k) (by rw [List.length_map]; omega)).1
    rw [List.length_map] at hp
    exact ((List.perm_insertionSort _ _).subperm.trans (List.drop_sublist ..).subperm).trans hp.subperm

theorem length_kept (hpart : Partitions argpartition) (hpos : 0 < k) : (kept argpartition q k).length ≤ k := by
  by_cases hk : q.length ≤ k
  · rw [kept_all hk]
    exact (List.length_filter_le ..).trans (by simpa using hk)
  · rw [kept_top hk]
    have hp := (hpart (q.map Int64.abs) (q.length - k) (by rw [List.length_map]; omega)).1.length_eq
    rw [List.length_insertionSort, List.length_drop, hp, List.length_range, List.length_map]
    omega

/-- Zeros and ties never displace a larger component. -/
theorem count_kept (hpart : Partitions argpartition) (hpos : 0 < k) (hlow : Int64.minValue ∉ q) (t : Nat) :
    min k (q.countP (above t)) ≤ (kept argpartition q k).countP fun i => above t (q.getD i 0) := by
  have hall : q.countP (above t) = (List.range q.length).countP fun i => above t (q.getD i 0) := by
    conv_lhs => rw [← range_getD q]
    rw [List.countP_map]
    rfl
  by_cases hk : q.length ≤ k
  · rw [kept_all hk, nonzero, List.countP_filter, hall]
    refine (min_le_right ..).trans (le_of_eq (List.countP_congr fun i _ => ?_))
    have : above t (q.getD i 0) = true → q.getD i 0 ≠ 0 := by
      intro h h0
      rw [h0] at h
      simp [above] at h
    simp only [Bool.and_eq_true, decide_eq_true_eq]
    exact ⟨fun h => ⟨h, this h⟩, fun h => h.1⟩
  · rw [kept_top hk]
    obtain ⟨hp, hsplit⟩ := hpart (q.map Int64.abs) (q.length - k) (by rw [List.length_map]; omega)
    rw [List.length_map] at hp
    have hlen := hp.length_eq
    have hkey {i : Nat} (hi : i ∈ argpartition (q.map Int64.abs) (q.length - k)) :
        ((q.map Int64.abs).getD i 0).toInt = (q.getD i 0).toInt.natAbs := by
      have hi : i < q.length := List.mem_range.mp (hp.mem_iff.mp hi)
      have hne : q[i] ≠ Int64.minValue := fun h => hlow (h ▸ List.getElem_mem hi)
      simp [List.getD_eq_getElem?_getD, hi, abs_toInt hne]
    have hup : Upward (fun i => (q.map Int64.abs).getD i 0) (argpartition (q.map Int64.abs) (q.length - k))
        fun i => above t (q.getD i 0) := by
      intro a ha b hb hab hPa
      have hab := Int64.le_iff_toInt_le.mp hab
      rw [hkey ha, hkey hb] at hab
      simp only [above, decide_eq_true_eq] at hPa ⊢
      omega
    have hcount := count_top hsplit hup
    rw [List.length_range] at hlen
    rw [(List.perm_insertionSort _ _).countP_eq, hall, ← hp.countP_eq]
    rw [hlen] at hcount
    omega

theorem kept_lt (hpart : Partitions argpartition) (hpos : 0 < k) {i : Nat} (hi : i ∈ kept argpartition q k) :
    i < q.length := List.mem_range.mp ((kept_subperm hpart hpos).subset hi)

theorem kept_nodup (hpart : Partitions argpartition) (hpos : 0 < k) : (kept argpartition q k).Nodup := by
  obtain ⟨l, hperm, hsub⟩ := kept_subperm (q := q) hpart hpos
  exact hperm.nodup_iff.mp (hsub.nodup List.nodup_range)

end Kept

/-! ## The payload -/

/-- The largest magnitude of a message, `2^31 - 1`. -/
def I32_MAX : Nat := 2147483647

theorem over_max {v : Int64} (h : v ≠ Int64.minValue) : 2147483647 < v.abs ↔ above I32_MAX v := by
  rw [Int64.lt_iff_toInt_lt, abs_toInt h, show (2147483647 : Int64).toInt = 2147483647 from rfl]
  unfold above I32_MAX
  rw [decide_eq_true_eq]
  omega

section Payloads

variable {argpartition : List Int64 → Nat → List Nat} {q : List Int64}

theorem keep_count_pos (keep_frac : Nat → Nat) (n min_keep max_keep : Nat) :
    0 < keep_count keep_frac n min_keep max_keep := by
  unfold keep_count
  dsimp only
  split <;> omega

theorem keep_count_between (keep_frac : Nat → Nat) (n : Nat) {min_keep max_keep : Nat} (hle : min_keep ≤ max_keep)
    (hpos : 0 < max_keep) :
    min_keep ≤ keep_count keep_frac n min_keep max_keep ∧ keep_count keep_frac n min_keep max_keep ≤ max_keep := by
  unfold keep_count
  dsimp only
  rw [if_neg (by omega)]
  omega

/-- The components that go into the payload, under their indices. -/
def sent (argpartition : List Int64 → Nat → List Nat) (q : List Int64) (k : Nat) : List (UInt32 × Int64) :=
  (kept argpartition q k).map fun i => (UInt32.ofNat i, q.getD i 0)

/-- `compress` fails exactly on a component past `i32`, and else the node reads the nonzero
components among those kept. -/
theorem compress_spec (keep_frac : Nat → Nat) (min_keep max_keep : Nat) (hpart : Partitions argpartition)
    (hlow : Int64.minValue ∉ q) (hdim : q.length ≤ 2 ^ 32) :
    let k := keep_count keep_frac q.length min_keep max_keep
    (compress argpartition keep_frac q min_keep max_keep = none ↔ ∃ x ∈ q, above I32_MAX x) ∧
    ∀ payload, compress argpartition keep_frac q min_keep max_keep = some payload → payload.n = q.length ∧
      ∃ coords, (payload_json payload).coords = some coords ∧
        coords.Perm ((sent argpartition q k).filter fun c => c.2 ≠ 0) := by
  intro k
  have hk : 0 < k := keep_count_pos ..
  have hback {i : Nat} (hi : i ∈ kept argpartition q k) : (UInt32.ofNat i).toNat = i := by
    have := kept_lt hpart hk hi
    exact UInt32.toNat_ofNat_of_lt' (show i < 2 ^ 32 by omega)
  have hget {i : Nat} (hi : i ∈ kept argpartition q k) : q.getD i 0 ∈ q := by
    have := kept_lt hpart hk hi
    simp [List.getD_eq_getElem?_getD, this]
  have hvals : ((kept argpartition q k).map UInt32.ofNat).map (fun i => q.getD i.toNat 0) =
      (kept argpartition q k).map fun i => q.getD i 0 := by
    rw [List.map_map]
    exact List.map_congr_left fun i hi => by rw [Function.comp_apply, hback hi]
  have hany : (((kept argpartition q k).map fun i => q.getD i 0).any fun v => 2147483647 < v.abs) = true ↔
      ∃ x ∈ q, above I32_MAX x := by
    rw [List.any_eq_true]
    constructor
    · rintro ⟨v, hv, hbig⟩
      obtain ⟨i, hi, rfl⟩ := List.mem_map.mp hv
      exact ⟨_, hget hi, (over_max fun h => hlow (h ▸ hget hi)).mp (of_decide_eq_true hbig)⟩
    · rintro ⟨x, hx, hbig⟩
      have hcount : 0 < q.countP (above I32_MAX) := List.countP_pos_iff.mpr ⟨x, hx, hbig⟩
      have hkept := count_kept hpart hk hlow I32_MAX
      obtain ⟨i, hi, hbig⟩ := List.countP_pos_iff.mp
        (show 0 < (kept argpartition q k).countP fun i => above I32_MAX (q.getD i 0) by omega)
      exact ⟨_, List.mem_map_of_mem hi, decide_eq_true ((over_max fun h => hlow (h ▸ hget hi)).mpr hbig)⟩
  have hcompress : compress argpartition keep_frac q min_keep max_keep =
      if ((kept argpartition q k).map fun i => q.getD i 0).any (fun v => 2147483647 < v.abs) then none
      else some ⟨q.length, word_bytes ((kept argpartition q k).map UInt32.ofNat),
        word_bytes (((kept argpartition q k).map fun i => q.getD i 0).map fun v => v.toInt32.toUInt32)⟩ := by
    rw [← hvals]
    rfl
  rw [hcompress]
  by_cases hbig : ∃ x ∈ q, above I32_MAX x
  · rw [if_pos (hany.mpr hbig)]
    exact ⟨by simp [hbig], by simp⟩
  · rw [if_neg (hany.not.mpr hbig)]
    refine ⟨by simp [hbig], fun payload hp => ?_⟩
    obtain rfl := Option.some.inj hp
    have hnodup : ((kept argpartition q k).map UInt32.ofNat).Nodup := by
      refine List.Nodup.map_on (fun i hi j hj h => ?_) (kept_nodup hpart hk)
      rw [← hback hi, ← hback hj, h]
    have hlt : ∀ i ∈ (kept argpartition q k).map UInt32.ofNat, i.toNat < q.length := by
      intro i hi
      obtain ⟨j, hj, rfl⟩ := List.mem_map.mp hi
      rw [hback hj]
      exact kept_lt hpart hk hj
    have hfit : ∀ i ∈ (kept argpartition q k).map UInt32.ofNat, (q.getD i.toNat 0).toInt.natAbs ≤ 2147483647 := by
      intro i hi
      obtain ⟨j, hj, rfl⟩ := List.mem_map.mp hi
      have hsmall : ¬ above I32_MAX (q.getD j 0) := fun h => hbig ⟨_, hget hj, h⟩
      rw [hback hj]
      unfold above I32_MAX at hsmall
      rw [decide_eq_true_eq] at hsmall
      omega
    obtain ⟨coords, hcoords, hperm⟩ := coords_sparse (n := q.length) (fun i => q.getD i.toNat 0) hnodup hlt hfit
    have hsent : ((kept argpartition q k).map UInt32.ofNat).map (fun i => (i, q.getD i.toNat 0)) =
        sent argpartition q k := by
      rw [List.map_map]
      exact List.map_congr_left fun i hi => by rw [Function.comp_apply, hback hi]
    rw [hvals] at hcoords
    rw [hsent] at hperm
    exact ⟨rfl, coords, hcoords, hperm⟩

/-- Their number lies between what the vector offers and the count. -/
theorem length_sent (hpart : Partitions argpartition) (hlow : Int64.minValue ∉ q) {k : Nat} (hk : 0 < k) :
    min k (q.countP (· ≠ 0)) ≤ ((sent argpartition q k).filter fun c => c.2 ≠ 0).length ∧
      ((sent argpartition q k).filter fun c => c.2 ≠ 0).length ≤ k := by
  have hcount := count_kept hpart hk hlow 0
  have hzero : above 0 = fun x => decide (x ≠ 0) := funext above_zero
  rw [hzero] at hcount
  constructor
  · rw [← List.countP_eq_length_filter, sent, List.countP_map]
    exact hcount
  · refine (List.length_filter_le ..).trans ?_
    rw [sent, List.length_map]
    exact length_kept hpart hk

end Payloads

/-! ## The claim -/

section Claims

variable {layout : ChainLayout} {chain_delta : List Int64}

/-- The claim is a part of the ranking that keeps to the budget. -/
theorem claim_pages (layout : ChainLayout) (chain_delta : List Int64) (budget : Nat) (l : List UInt32)
    (a : List UInt32 × Nat) (ha : a.2 ≤ budget) :
    ∃ picked, picked.Sublist l ∧ (l.foldl (claim_page layout chain_delta budget) a).1 = a.1 ++ picked ∧
      (l.foldl (claim_page layout chain_delta budget) a).2 = a.2 + (picked.map (plen layout)).sum ∧
      (l.foldl (claim_page layout chain_delta budget) a).2 ≤ budget := by
  induction l generalizing a with
  | nil => exact ⟨[], by simp [ha]⟩
  | cons pg l ih =>
    rw [List.foldl_cons]
    by_cases hfit : a.2 + plen layout pg ≤ budget ∧ 0 < mass layout chain_delta pg
    · have hstep : claim_page layout chain_delta budget a pg = (a.1 ++ [pg], a.2 + plen layout pg) := if_pos hfit
      obtain ⟨picked, hsub, hclaim, hused, hle⟩ :=
        ih (claim_page layout chain_delta budget a pg) (by rw [hstep]; exact hfit.1)
      rw [hstep] at hclaim hused hle ⊢
      exact ⟨pg :: picked, hsub.cons_cons pg, by simpa using hclaim, by simp [hused, Nat.add_assoc], hle⟩
    · have hstep : claim_page layout chain_delta budget a pg = a := if_neg hfit
      obtain ⟨picked, hsub, hrest⟩ := ih (claim_page layout chain_delta budget a pg) (by rw [hstep]; exact ha)
      rw [hstep] at hrest ⊢
      exact ⟨picked, hsub.cons pg, hrest⟩

theorem greedy_spec (layout : ChainLayout) (chain_delta : List Int64) (active : List UInt32) (max_nnz quota_4dp : Nat) :
    (greedy layout chain_delta active max_nnz quota_4dp).1.Subperm active ∧
      (greedy layout chain_delta active max_nnz quota_4dp).2 =
        ((greedy layout chain_delta active max_nnz quota_4dp).1.map (plen layout)).sum ∧
      (greedy layout chain_delta active max_nnz quota_4dp).2 ≤ max_nnz * 1000000 / quota_4dp := by
  obtain ⟨picked, hsub, hclaim, hused, hle⟩ := claim_pages layout chain_delta
    (max_nnz * 1000000 / quota_4dp) (ranked layout chain_delta active) ([], 0) (Nat.zero_le _)
  have hclaim : (greedy layout chain_delta active max_nnz quota_4dp).1 = picked := hclaim
  have hused : (greedy layout chain_delta active max_nnz quota_4dp).2 = (picked.map (plen layout)).sum := by
    rw [← Nat.zero_add (List.sum _)]
    exact hused
  rw [hclaim]
  exact ⟨hsub.subperm.trans (List.perm_insertionSort _ _).subperm, hused, hle⟩

theorem plan_greedy (layout : ChainLayout) (chain_delta : List Int64) (active : List UInt32) (min_nnz : Nat)
    {max_nnz quota_4dp : Nat} (hmax : 0 < max_nnz) (hquota : 0 < quota_4dp) (hgreedy : (greedy layout chain_delta active max_nnz quota_4dp).1 ≠ []) :
    plan layout chain_delta active min_nnz max_nnz quota_4dp =
      ((greedy layout chain_delta active max_nnz quota_4dp).1.insertionSort (· ≤ ·),
        (greedy layout chain_delta active max_nnz quota_4dp).2 * quota_4dp / 1000000) := by
  unfold plan
  rw [if_pos ⟨by omega, by omega⟩]
  dsimp only
  rw [if_neg hgreedy]

/-- What the claim needs, as the node and the trainer count it. -/
theorem required_claim {model : ModelState} (hspans : layout.page_spans = model.spans) {claim : List UInt32}
    {picked : List UInt32} (hperm : claim.Perm picked) (max_nnz : UInt64) (hquota : 0 < model.quota_4dp.toInt)
    (hbudget : (picked.map (plen layout)).sum ≤ max_nnz.toNat * 1000000 / model.quota_4dp.toInt.toNat) :
    (model.required_nnz claim).toNat = (picked.map (plen layout)).sum * model.quota_4dp.toInt.toNat / 1000000 ∧
      (model.required_nnz claim).toNat ≤ max_nnz.toNat := by
  have hparams : model.claimed_params claim = (picked.map (plen layout)).sum := by
    have hplen (p : UInt32) : plen layout p = (model.page_span p.toNat).2 - (model.page_span p.toNat).1 := by
      rw [plen, ChainLayout.page_span, hspans, ModelState.page_span]
    rw [ModelState.claimed_params, (hperm.map _).sum_eq]
    exact congrArg List.sum (List.map_congr_left fun p _ => (hplen p).symm)
  obtain ⟨quota, hq⟩ : ∃ quota : Nat, model.quota_4dp.toInt = quota := ⟨model.quota_4dp.toInt.toNat, by omega⟩
  rw [hq, Int.toNat_natCast] at hbudget ⊢
  have hle : (picked.map (plen layout)).sum * quota / 1000000 ≤ max_nnz.toNat := by
    refine Nat.div_le_of_le_mul ?_
    rw [Nat.mul_comm 1000000]
    exact (Nat.mul_le_mul_right quota hbudget).trans (Nat.div_mul_le_self ..)
  have hsmall := max_nnz.toNat_lt
  have hrequired : (model.required_nnz claim).toNat = (picked.map (plen layout)).sum * quota / 1000000 := by
    rw [ModelState.required_nnz, hparams, hq]
    norm_cast
    rw [UInt64.ofInt, UInt64.toNat_ofNat']
    omega
  exact ⟨hrequired, hrequired ▸ hle⟩

theorem mem_zero_outside {full : List Int64} {claim : List UInt32} {i : Nat}
    (h : (layout.zero_outside full claim).getD i 0 ≠ 0) :
    claim.any fun p => (layout.page_span p).1 ≤ i && i < (layout.page_span p).2 := by
  unfold ChainLayout.zero_outside at h
  rw [List.getD_eq_getElem?_getD, List.getElem?_map, List.getElem?_zipIdx] at h
  cases hi : full[i]? with
  | none => simp [hi] at h
  | some x =>
    rw [hi, Option.map_some, Option.map_some, Option.getD_some, Nat.zero_add] at h
    by_contra hout
    exact h (if_neg hout)

theorem length_zero_outside (full : List Int64) (claim : List UInt32) :
    (layout.zero_outside full claim).length = full.length := by
  rw [ChainLayout.zero_outside, List.length_map, List.length_zipIdx]

end Claims

/-! ## The gate -/

/-- The node admits canonical active claims with nothing outside them, the quota met and the
envelope kept. -/
theorem fits_model_of {s : Node} {model : ModelState} (hmodel : s.tree.model[s.tree.head]? = some model)
    {claim : List UInt32} (hne : claim ≠ []) (hsorted : claim.Pairwise (· ≤ ·)) (hnodup : claim.Nodup)
    (hactive : ∀ p ∈ claim, model.is_active p.toNat) {payload : Payload} (hn : payload.n = model.dim)
    {coords : List (UInt32 × Int64)} (hinside : ∀ c ∈ coords, c.2 ≠ 0 ∧ in_claims model claim c.1.toNat)
    (hquota : (model.required_nnz claim).toNat ≤ coords.length)
    (henvelope : coords.length ≤ s.tree.params.delta_max_nnz.toNat) {tx : BackpropTx} (htx : tx.pages = claim) :
    s.fits_model tx payload coords := by
  have hcanonical : tx.canonical_pages = claim := by
    rw [BackpropTx.canonical_pages, htx, List.Pairwise.insertionSort_eq hsorted]
    exact List.dedup_eq_self.mpr hnodup
  have hmoved : coords.filter (fun c => c.2 ≠ 0) = coords :=
    List.filter_eq_self.mpr fun c hc => decide_eq_true (hinside c hc).1
  unfold Node.fits_model
  rw [hmodel]
  simp only [hcanonical, hmoved, htx, hn, Bool.and_eq_true, Bool.not_eq_true', List.isEmpty_eq_false_iff,
    beq_self_eq_true, List.all_eq_true, decide_eq_true_eq]
  exact ⟨⟨⟨⟨⟨⟨hne, trivial⟩, hactive⟩, trivial⟩, fun c hc => (hinside c hc).2⟩, hquota⟩, henvelope⟩

/-- What is kept lies in the claim, where the page tables agree. -/
theorem sent_inside {argpartition : List Int64 → Nat → List Nat} (hpart : Partitions argpartition)
    {layout : ChainLayout} {model : ModelState} (hspans : layout.page_spans = model.spans) {full : List Int64}
    (hdim : full.length ≤ 2 ^ 32) {claim : List UInt32} {k : Nat} (hk : 0 < k) {c : UInt32 × Int64}
    (hc : c ∈ (sent argpartition (layout.zero_outside full claim) k).filter fun c => c.2 ≠ 0) :
    c.2 ≠ 0 ∧ in_claims model claim c.1.toNat := by
  obtain ⟨hc, hne⟩ := List.mem_filter.mp hc
  obtain ⟨i, hi, rfl⟩ := List.mem_map.mp hc
  have hne : (layout.zero_outside full claim).getD i 0 ≠ 0 := of_decide_eq_true hne
  have hlt := kept_lt hpart hk hi
  rw [length_zero_outside] at hlt
  have hpage (p : UInt32) : model.page_span p.toNat = layout.page_span p := by
    rw [ModelState.page_span, ← hspans, ChainLayout.page_span]
  refine ⟨hne, ?_⟩
  simp only [in_claims, UInt32.toNat_ofNat_of_lt' (show i < 2 ^ 32 by omega), hpage]
  exact mem_zero_outside hne

/-- A trainer whose page table is the node's sends nothing when a component is past `i32`, and
else a delta that the node's gate lets through. -/
theorem planned_claims_admissible {argpartition : List Int64 → Nat → List Nat} (hpart : Partitions argpartition)
    (keep_frac : Nat → Nat) {layout : ChainLayout} {s : Node} {model : ModelState}
    (hmodel : s.tree.model[s.tree.head]? = some model) (hspans : layout.page_spans = model.spans)
    (hn : layout.n = model.dim) (hdim : model.dim ≤ 2 ^ 32) {active : List UInt32} (hnodup : active.Nodup)
    (hactive : ∀ p ∈ active, model.is_active p.toNat) (chain_delta full : List Int64)
    (hfull : full.length = layout.n) (min_nnz : Nat) {max_nnz quota_4dp : Nat}
    (hmax : max_nnz = s.tree.params.delta_max_nnz.toNat) (hmaxpos : 0 < max_nnz)
    (hquota : (quota_4dp : Int) = model.quota_4dp.toInt) (hquotapos : 0 < quota_4dp)
    (hgreedy : (greedy layout chain_delta active max_nnz quota_4dp).1 ≠ []) {claim : List UInt32} {q : List Int64}
    (hclaim : claim = (plan layout chain_delta active min_nnz max_nnz quota_4dp).1)
    (hq : q = to_compress layout chain_delta full active min_nnz max_nnz quota_4dp) (hlow : Int64.minValue ∉ q)
    (hwork : (model.required_nnz claim).toNat ≤ q.countP (· ≠ 0)) :
    (delta_message layout chain_delta argpartition keep_frac full active min_nnz max_nnz quota_4dp = none ↔
      ∃ x ∈ q, I32_MAX < x.toInt.natAbs) ∧
    ∀ pages payload,
      delta_message layout chain_delta argpartition keep_frac full active min_nnz max_nnz quota_4dp =
        some (pages, payload) →
      pages = claim ∧ ∃ coords, payload.coords = some coords ∧
        (∀ c ∈ coords, c.2 ≠ 0 ∧ in_claims model claim c.1.toNat) ∧
        (model.required_nnz claim).toNat ≤ coords.length ∧ coords.length ≤ max_nnz ∧
        ∀ tx : BackpropTx, tx.pages = pages → s.fits_model tx payload coords := by
  obtain ⟨hsub, hused, hbudget⟩ := greedy_spec layout chain_delta active max_nnz quota_4dp
  have hplan := plan_greedy layout chain_delta active min_nnz hmaxpos hquotapos hgreedy
  set picked := (greedy layout chain_delta active max_nnz quota_4dp).1
  set used := (greedy layout chain_delta active max_nnz quota_4dp).2
  have hperm : claim.Perm picked := by
    rw [hclaim, hplan]
    exact List.perm_insertionSort _ _
  have hsorted : claim.Pairwise (· ≤ ·) := by
    rw [hclaim, hplan]
    exact List.pairwise_insertionSort _ _
  have hdistinct : claim.Nodup := by
    obtain ⟨l, hl, hsublist⟩ := hsub
    exact (hperm.trans hl.symm).nodup_iff.mpr (hsublist.nodup hnodup)
  have hne : claim ≠ [] := fun h => hgreedy (List.nil_perm.mp (h ▸ hperm))
  obtain ⟨hfloor, hceiling⟩ := required_claim hspans hperm s.tree.params.delta_max_nnz (by omega)
    (by rw [← hused, ← hmax, ← hquota]; exact hbudget)
  rw [← hused, ← hquota, Int.toNat_natCast] at hfloor
  rw [← hmax, hfloor] at hceiling
  obtain ⟨hmin, hcap⟩ := keep_count_between keep_frac q.length hceiling hmaxpos
  have hmessage : delta_message layout chain_delta argpartition keep_frac full active min_nnz max_nnz quota_4dp =
      (compress argpartition keep_frac q (used * quota_4dp / 1000000) max_nnz).map fun payload =>
        (claim, payload_json payload) := by
    unfold delta_message
    rw [← hq, hclaim, hplan]
    dsimp only
    rw [List.Pairwise.insertionSort_eq (List.pairwise_insertionSort _ _)]
  have hlen : q.length = model.dim := by rw [hq, to_compress, length_zero_outside, hfull, hn]
  obtain ⟨hfails, hsends⟩ := compress_spec keep_frac (used * quota_4dp / 1000000) max_nnz hpart hlow (hlen ▸ hdim)
  rw [hmessage]
  constructor
  · rw [Option.map_eq_none_iff, hfails]
    simp only [above, decide_eq_true_eq]
  · intro pages payload hp
    obtain ⟨sparse, hcompress, hpair⟩ := Option.map_eq_some_iff.mp hp
    obtain ⟨rfl, rfl⟩ := Prod.mk.inj hpair
    obtain ⟨hdimension, coords, hcoords, hsent⟩ := hsends sparse hcompress
    obtain ⟨hatleast, hatmost⟩ := length_sent (k := keep_count keep_frac q.length (used * quota_4dp / 1000000) max_nnz)
      hpart hlow (keep_count_pos ..)
    rw [← hsent.length_eq] at hatleast hatmost
    have hinside : ∀ c ∈ coords, c.2 ≠ 0 ∧ in_claims model claim c.1.toNat := by
      intro c hc
      have hc := hsent.mem_iff.mp hc
      rw [hq, to_compress, ← hclaim] at hc
      exact sent_inside hpart hspans (by omega) (keep_count_pos ..) hc
    refine ⟨rfl, coords, hcoords, hinside, by omega, by omega, fun tx htx => ?_⟩
    exact fits_model_of hmodel hne hsorted hdistinct (fun p hp => hactive p (hsub.subset (hperm.mem_iff.mp hp)))
      (hdimension.trans hlen) hinside (by omega) (by omega) htx

/-! ## Concrete rounds -/

/-- A partition that sorts. -/
def argsort (xs : List Int64) (_kth : Nat) : List Nat :=
  (List.range xs.length).insertionSort fun i j => xs.getD i 0 ≤ xs.getD j 0

theorem argsort_partitions : Partitions argsort := by
  intro xs kth _
  refine ⟨List.perm_insertionSort _ _, fun a ha b hb => ?_⟩
  have : Std.Total fun i j : Nat => xs.getD i 0 ≤ xs.getD j 0 := ⟨fun i j => Int64.le_total _ _⟩
  have : IsTrans Nat fun i j : Nat => xs.getD i 0 ≤ xs.getD j 0 := ⟨fun i j k => Int64.le_trans⟩
  have hsorted := List.pairwise_insertionSort (fun i j : Nat => xs.getD i 0 ≤ xs.getD j 0) (List.range xs.length)
  rw [← List.take_append_drop kth (List.insertionSort _ _), List.pairwise_append] at hsorted
  exact hsorted.2.2 a ha b hb

namespace Toy

open Sestrian.Toy

/-- Two pages of two parameters each. -/
def layout : ChainLayout where
  n := 4
  backbone_params := 2
  experts := [(0, 0)]
  page_spans := [(0, 2), (2, 4)]
  to_chain := [0, 1, 2, 3]
  to_torch := [0, 1, 2, 3]

/-- A quota of one coordinate in two. -/
def model : ModelState where
  pages := [{ start := 0, stop := 2, kind := .backbone, layer := -1, expert := -1, status := .active },
    { start := 2, stop := 4, kind := .expert, layer := 0, expert := 0, status := .active }]
  quota_4dp := 500000
  pinned_streak := 0
  slack_streak := 0
  pending_growth := []
  window_id := 0
  win_accepted := 0
  win_zero_scored := 0
  win_score_sum := 0
  rev := 0
  win_scorers := []
  events_total := 0

def node : Node :=
  { node₀ with tree := { node₀.tree with model := node₀.tree.model.insert node₀.tree.head model } }

/-- The round on these components, with both pages in its gradient. -/
def round (full : List Int64) : Option (List UInt32 × Payload) :=
  delta_message layout [1, 1, 1, 1] argsort (· / 50) full [0, 1] 0 1000000 500000

end Toy

theorem planned_claims_admissible_halves : ∃ payload coords, Toy.round [5, 0, -7, 9] = some ([0, 1], payload) ∧
    payload.coords = some coords ∧ Toy.node.fits_model { Sestrian.Toy.unit_tx with pages := [0, 1] } payload coords := by
  have hmodel : Toy.node.tree.model[Toy.node.tree.head]? = some Toy.model := Std.ExtTreeMap.getElem?_insert_self
  have hactive : ∀ p ∈ [(0 : UInt32), 1], Toy.model.is_active p.toNat := by
    simp [ModelState.is_active, Toy.model]
  have hmax : 1000000 = Toy.node.tree.params.delta_max_nnz.toNat := by
    rw [show Toy.node.tree.params.delta_max_nnz = 1000000 from rfl]
    decide
  obtain ⟨hnone, hsome⟩ := @planned_claims_admissible argsort argsort_partitions (· / 50) Toy.layout Toy.node Toy.model
    hmodel (by decide) (by decide) (by decide) [0, 1] (by decide) hactive [1, 1, 1, 1] [5, 0, -7, 9] (by decide) 0
    1000000 500000 hmax (by decide) (by decide) (by decide) (by decide) [0, 1] [5, 0, -7, 9] (by decide) (by decide)
    (by decide) (by decide)
  cases h : Toy.round [5, 0, -7, 9] with
  | none => exact absurd (hnone.mp h) (by decide)
  | some message =>
    obtain ⟨pages, payload⟩ := message
    obtain ⟨rfl, coords, hcoords, -, -, -, hfits⟩ := hsome pages payload h
    exact ⟨payload, coords, rfl, hcoords, hfits _ rfl⟩

/-- A component past `i32` stops the round. -/
theorem planned_claim_not_sent : (greedy Toy.layout [1, 1, 1, 1] [0, 1] 1000000 500000).1 = [0, 1] ∧
    (Toy.model.required_nnz [0, 1]).toNat = 2 ∧
    to_compress Toy.layout [1, 1, 1, 1] [2147483648, 1, 1, 1] [0, 1] 0 1000000 500000 = [2147483648, 1, 1, 1] ∧
    Toy.round [2147483648, 1, 1, 1] = none := by
  decide

/-- Of the least integer and zero, the selection keeps zero: too little is left for the quota. -/
theorem least_component_lost :
    Toy.round [Int64.minValue, Int64.minValue, 0, 1] = some ([0, 1], ⟨4, "AgAAAAMAAAA=", "AAAAAAEAAAA="⟩) ∧
    (Payload.mk 4 "AgAAAAMAAAA=" "AAAAAAEAAAA=").coords = some [(3, 1)] ∧
    (Toy.model.required_nnz [0, 1]).toNat = 2 :=
  ⟨by decide +kernel, by decide +kernel, by decide⟩

/-! A vector with more than `2^32` components does not fit the indices of a payload. -/

section Far

variable (d : Nat)

/-- A backbone of `d` parameters and an expert page of one. -/
def far_layout : ChainLayout where
  n := d + 1
  backbone_params := d
  experts := [(0, 0)]
  page_spans := [(0, d), (d, d + 1)]
  to_chain := List.range (d + 1)
  to_torch := List.range (d + 1)

/-- One component, past all others. -/
def far_vector : List Int64 := List.replicate d 0 ++ [1]

theorem far_getD (i : Nat) : (far_vector d).getD i 0 = if i = d then 1 else 0 := by
  unfold far_vector
  rw [List.getD_eq_getElem?_getD, List.getElem?_append]
  rcases Nat.lt_trichotomy i d with h | rfl | h
  · simp [h, h.ne]
  · simp
  · rw [List.length_replicate, if_neg (Nat.not_lt.mpr h.le), if_neg h.ne', List.getElem?_eq_none (by simp; omega)]
    rfl

theorem far_mass : mass (far_layout d) (far_vector d) 1 = 1 := by
  have hspan : (far_layout d).page_span 1 = (d, d + 1) := rfl
  have hslice : slice (far_vector d) d (d + 1) = [1] := by
    simp [slice, far_vector]
  rw [mass, hspan, hslice]
  rfl

theorem far_greedy : greedy (far_layout d) (far_vector d) [1] 1 1000000 = ([1], 1) := by
  have hplen : plen (far_layout d) 1 = 1 := by
    change d + 1 - d = 1
    omega
  have hstep : claim_page (far_layout d) (far_vector d) (1 * 1000000 / 1000000) ([], 0) 1 = ([1], 1) := by
    unfold claim_page
    rw [hplen, far_mass]
    rfl
  exact hstep

theorem far_zero_outside : (far_layout d).zero_outside (far_vector d) [1] = far_vector d := by
  apply List.ext_getElem?
  intro i
  have hspan : (far_layout d).page_span 1 = (d, d + 1) := rfl
  have hi := far_getD d i
  rw [List.getD_eq_getElem?_getD] at hi
  rw [ChainLayout.zero_outside, List.getElem?_map, List.getElem?_zipIdx]
  cases hx : (far_vector d)[i]? with
  | none => rfl
  | some x =>
    rw [hx, Option.getD_some] at hi
    simp only [Option.map_some, List.any_cons, List.any_nil, Bool.or_false, hspan, Nat.zero_add, hi, Option.some.injEq]
    split <;> split <;> simp_all

theorem far_plan : plan (far_layout d) (far_vector d) [1] 0 1 1000000 = ([1], 1) := by
  unfold plan
  rw [far_greedy]
  rfl

/-- Only the far component is kept. -/
theorem far_kept {argpartition : List Int64 → Nat → List Nat} (hpart : Partitions argpartition) :
    kept argpartition (far_vector d) 1 = [d] := by
  have hlow : Int64.minValue ∉ far_vector d := by
    simp [far_vector]
    decide
  have hcount := count_kept hpart Nat.one_pos hlow 0
  have hlen := length_kept (q := far_vector d) hpart Nat.one_pos
  have hone : 0 < (far_vector d).countP (above 0) := List.countP_pos_iff.mpr ⟨1, by simp [far_vector], by decide⟩
  obtain ⟨i, hi, habove⟩ := List.countP_pos_iff.mp 
    (show 0 < (kept argpartition (far_vector d) 1).countP fun i => above 0 ((far_vector d).getD i 0) by omega)
  have hid : i = d := by
    by_contra hne
    rw [far_getD, if_neg hne] at habove
    exact absurd habove (by decide)
  have hsingle : (kept argpartition (far_vector d) 1).length = 1 := by
    have := List.length_pos_of_mem hi
    omega
  obtain ⟨j, hj⟩ := List.length_eq_one_iff.mp hsingle
  rw [hj] at hi ⊢
  rw [← List.mem_singleton.mp hi, hid]

theorem far_message (hd : 0 < d) (hword : UInt32.ofNat d = 0) : ∃ payload,
    delta_message (far_layout d) (far_vector d) argsort (fun _ => 0) (far_vector d) [1] 0 1 1000000 =
      some ([1], payload) ∧ payload.coords = some [] := by
  have hzero : (far_vector d).getD 0 0 = 0 := by
    rw [far_getD, if_neg (by omega)]
  have hkeep : keep_count (fun _ => 0) (far_vector d).length 1 1 = 1 := rfl
  have hmessage : compress argsort (fun _ => 0) (far_vector d) 1 1 =
      some ⟨(far_vector d).length, word_bytes [0], word_bytes [0]⟩ := by
    unfold compress
    rw [hkeep, far_kept d argsort_partitions]
    simp only [List.map_cons, List.map_nil, hword]
    rw [show (0 : UInt32).toNat = 0 from rfl, hzero]
    rfl
  refine ⟨payload_json ⟨(far_vector d).length, word_bytes [0], word_bytes [0]⟩, ?_, ?_⟩
  · unfold delta_message
    rw [to_compress, far_plan]
    dsimp only
    rw [far_zero_outside, hmessage]
    rfl
  · have hpos : 0 < (far_vector d).length := by simp [far_vector]
    obtain ⟨coords, hcoords, hperm⟩ := @coords_sparse (far_vector d).length [0] (fun _ => 0) (by decide)
      (by simpa using hpos) (by simp)
    rw [← List.perm_nil.mp hperm]
    exact hcoords


end Far

/-- The index of a component at `2^32` becomes zero, and so does its value. -/
theorem far_component_lost : ∃ payload,
    delta_message (far_layout (2 ^ 32)) (far_vector (2 ^ 32)) argsort (fun _ => 0) (far_vector (2 ^ 32)) [1] 0 1
      1000000 = some ([1], payload) ∧ payload.coords = some [] :=
  far_message (2 ^ 32) (by norm_num) (by decide)

end Sestrian.client
