import Sestrian.Da.Matrix
import Sestrian.Code.Toy

/-!
# Recovery from shards

A shard is a combination of the data rows, and the inverse of the chosen rows combines the shards
back into them.
-/

namespace Sestrian

namespace da

/-! ## Combinations -/

theorem coef_combine_from {l : Nat} (cs : List (UInt8 × List UInt8)) (hcs : ∀ c ∈ cs, c.2.length = l)
    (acc : List UInt8) (hacc : acc.length = l) (b : Nat) :
    (cs.foldl (fun acc c => if c.1 = 0 then acc else add_scaled c.1 acc c.2) acc).length = l ∧
      coef (cs.foldl (fun acc c => if c.1 = 0 then acc else add_scaled c.1 acc c.2) acc) b =
        coef acc b + (cs.map fun c => (⟨c.1⟩ : GF) * coef c.2 b).sum := by
  induction cs generalizing acc with
  | nil => exact ⟨hacc, (add_zero _).symm⟩
  | cons c cs ih =>
    have hcs' : ∀ c ∈ cs, c.2.length = l := fun c hc => hcs c (List.mem_cons_of_mem _ hc)
    rw [List.foldl_cons, List.map_cons, List.sum_cons]
    by_cases hz : c.1 = 0
    · have hzero : (⟨c.1⟩ : GF) = 0 := congrArg GF.mk hz
      rw [if_pos hz, hzero, zero_mul, zero_add]
      exact ih hcs' acc hacc
    · rw [if_neg hz]
      obtain ⟨hlen, hsum⟩ := ih hcs' (add_scaled c.1 acc c.2) ((length_add_scaled ..).trans hacc)
      refine ⟨hlen, ?_⟩
      rw [hsum, coef_add_scaled _ (hacc.trans (hcs c (List.mem_cons_self ..)).symm), add_assoc]

variable {k l : Nat}

theorem length_of_mem {rows : List (List UInt8)} (h : Shape k l rows) : ∀ row ∈ rows, row.length = l := by
  intro row hrow
  obtain ⟨r, hr, rfl⟩ := List.getElem_of_mem hrow
  have hlen := h.row r (h.rows ▸ hr)
  rwa [List.getD_eq_getElem _ _ hr] at hlen

theorem length_headD {rows : List (List UInt8)} (h : Shape k l rows) (hk : 0 < k) : (rows.headD []).length = l := by
  have hlen := h.row 0 hk
  cases rows with
  | nil => exact hlen
  | cons row rows => exact hlen

theorem sum_zip (coeffs : List UInt8) (byte_rows : List (List UInt8)) (h : coeffs.length = byte_rows.length) (b : Nat) :
    ((coeffs.zip byte_rows).map fun c => (⟨c.1⟩ : GF) * coef c.2 b).sum =
      ∑ j ∈ Finset.range byte_rows.length, coef coeffs j * matrix byte_rows j b := by
  induction coeffs generalizing byte_rows with
  | nil =>
    rw [← h]
    rfl
  | cons x coeffs ih =>
    cases byte_rows with
    | nil => exact absurd h (by simp)
    | cons row byte_rows =>
      rw [List.zip_cons_cons, List.map_cons, List.sum_cons, List.length_cons, Finset.sum_range_succ',
        ih byte_rows (Nat.succ.inj h), add_comm]
      rfl

theorem combine_rows_spec {coeffs : List UInt8} {byte_rows : List (List UInt8)} (hk : 0 < k) (hcoeffs : coeffs.length = k)
    (h : Shape k l byte_rows) (b : Nat) :
    (combine_rows coeffs byte_rows).length = l ∧
      coef (combine_rows coeffs byte_rows) b = ∑ j ∈ Finset.range k, coef coeffs j * matrix byte_rows j b := by
  have hzip : ∀ c ∈ coeffs.zip byte_rows, c.2.length = l := by
    intro c hc
    exact length_of_mem h _ (List.of_mem_zip hc).2
  obtain ⟨hlen, hsum⟩ := coef_combine_from (coeffs.zip byte_rows) hzip
    (List.replicate (byte_rows.headD []).length 0) (by rw [List.length_replicate, length_headD h hk]) b
  have hzero : coef (List.replicate (byte_rows.headD []).length 0) b = 0 := by
    refine congrArg GF.mk ?_
    rw [List.getD_eq_getElem?_getD, List.getElem?_replicate]
    split <;> rfl
  refine ⟨hlen, hsum.trans ?_⟩
  rw [hzero, zero_add, sum_zip _ _ (hcoeffs.trans h.rows.symm), h.rows]

/-- Rows of one length are equal when their entries are. -/
theorem row_ext {x y : List UInt8} (hx : x.length = l) (hy : y.length = l) (h : ∀ b < l, coef x b = coef y b) : x = y := by
  refine List.ext_getElem (hx.trans hy.symm) fun b hbx hby => ?_
  have hbyte := congrArg GF.byte (h b (hx ▸ hbx))
  change x.getD b 0 = y.getD b 0 at hbyte
  rwa [List.getD_eq_getElem _ _ hbx, List.getD_eq_getElem _ _ hby] at hbyte

/-! ## The data rows -/

/-- The body with its padding. -/
def padded (body : List UInt8) (k : Nat) : List UInt8 := body ++ List.replicate ((k - body.length % k) % k) 0

theorem length_padded (body : List UInt8) (hk : 0 < k) : (padded body k).length = k * ((padded body k).length / k) := by
  refine (Nat.mul_div_cancel' (Nat.dvd_of_mod_eq_zero ?_)).symm
  unfold padded
  have hlt := Nat.mod_lt body.length hk
  rw [List.length_append, List.length_replicate, Nat.add_mod, Nat.mod_mod]
  rcases Nat.eq_zero_or_pos (body.length % k) with hz | hpos
  · rw [hz, Nat.sub_zero, Nat.mod_self, Nat.zero_add, Nat.zero_mod]
  · have hpad : (k - body.length % k) % k = k - body.length % k := Nat.mod_eq_of_lt (by omega)
    have hsum : body.length % k + (k - body.length % k) = k := by omega
    rw [hpad, hsum, Nat.mod_self]

theorem rows_eq (body : List UInt8) (k : Nat) :
    rows body k = (List.range k).map fun r =>
      slice (padded body k) (r * ((padded body k).length / k)) ((r + 1) * ((padded body k).length / k)) := rfl

theorem flatten_slices (data : List UInt8) (l n : Nat) :
    ((List.range n).map fun r => slice data (r * l) ((r + 1) * l)).flatten = data.take (n * l) := by
  induction n with
  | zero => simp
  | succ n ih =>
    have hstop : (n + 1) * l - n * l = l := by rw [Nat.succ_mul, Nat.add_sub_cancel_left]
    rw [List.range_succ, List.map_append, List.flatten_append, ih, List.map_singleton, List.flatten_singleton, slice,
      hstop, Nat.succ_mul, List.take_add]

theorem flatten_rows (body : List UInt8) (hk : 0 < k) : (rows body k).flatten = padded body k := by
  rw [rows_eq, flatten_slices, ← length_padded body hk, List.take_length]

theorem shape_rows (body : List UInt8) (hk : 0 < k) : Shape k ((padded body k).length / k) (rows body k) where
  rows := by rw [rows_eq, List.length_map, List.length_range]
  row := by
    intro r hr
    have hend := Nat.mul_le_mul_right ((padded body k).length / k) (Nat.succ_le_of_lt hr)
    rw [← length_padded body hk] at hend
    rw [rows_eq, List.getD_eq_getElem?_getD, List.getElem?_map, List.getElem?_range hr, Option.map_some, Option.getD_some,
      slice, List.length_take, List.length_drop]
    have hstop : (r + 1) * ((padded body k).length / k) - r * ((padded body k).length / k) = (padded body k).length / k := by
      rw [Nat.succ_mul, Nat.add_sub_cancel_left]
    rw [hstop]
    rw [Nat.succ_mul] at hend
    exact Nat.min_eq_left (Nat.le_sub_of_add_le' hend)

theorem take_padded (body : List UInt8) (k : Nat) : (padded body k).take body.length = body := List.take_left ..

/-! ## The points of evaluation -/

/-- The point of row `i`. -/
def point (i : Nat) : GF := ⟨UInt8.ofNat (i + 1)⟩

theorem point_byte {i : Nat} (h : i < 255) : (point i).byte.toNat = i + 1 := by
  change (UInt8.ofNat (i + 1)).toNat = i + 1
  rw [UInt8.toNat_ofNat', Nat.mod_eq_of_lt (by omega)]

theorem point_inj {i j : Nat} (hi : i < 255) (hj : j < 255) (h : point i = point j) : i = j := by
  have hbyte := congrArg (fun x => x.byte.toNat) h
  rw [point_byte hi, point_byte hj] at hbyte
  omega

@[simp] theorem length_vandermonde_row (k i : Nat) : (vandermonde_row k i).length = k := by
  unfold vandermonde_row
  rw [List.length_map, List.length_range]

/-- A row of the matrix is the powers of its point. -/
theorem coef_vandermonde_row {i c : Nat} (hi : i < 255) (hc : c < k) : coef (vandermonde_row k i) c = point i ^ c := by
  have hne : UInt8.ofNat (i + 1) ≠ 0 := by
    intro he
    have hbyte := point_byte hi
    rw [point, he] at hbyte
    exact absurd hbyte.symm (Nat.succ_ne_zero i)
  refine GF.eq_of_byte ?_
  change (vandermonde_row k i).getD c 0 = _
  unfold vandermonde_row
  rw [List.getD_eq_getElem?_getD, List.getElem?_map, List.getElem?_range hc, Option.map_some, Option.getD_some]
  exact (GF.byte_pow _ hne c).symm

/-- Any rows with different points are independent. -/
theorem independent_rows {idx : List Nat} (hlen : idx.length = k) (hnd : idx.Nodup) (hlt : ∀ i ∈ idx, i < 255) :
    Independent k (idx.map (vandermonde_row k)) := by
  have hplace (r : Nat) (hr : r < k) : ∃ h : r < idx.length, (idx.map (vandermonde_row k)).getD r [] = vandermonde_row k idx[r] := by
    have hr' : r < idx.length := hlen.symm ▸ hr
    refine ⟨hr', ?_⟩
    rw [List.getD_eq_getElem _ _ (by rw [List.length_map]; exact hr'), List.getElem_map]
  intro z hz c hc
  refine Elim.eq_zero_of_powers (m := matrix (idx.map (vandermonde_row k))) (x := fun r => point (idx.getD r 0)) ?_ ?_ hz hc
  · intro i hi j hj he
    obtain ⟨hi', -⟩ := hplace i hi
    obtain ⟨hj', -⟩ := hplace j hj
    rw [List.getD_eq_getElem _ _ hi', List.getD_eq_getElem _ _ hj'] at he
    have hsame := point_inj (hlt _ (List.getElem_mem hi')) (hlt _ (List.getElem_mem hj')) he
    exact (List.Nodup.getElem_inj_iff hnd).mp hsame
  · intro r hr c hc
    obtain ⟨hr', hrow⟩ := hplace r hr
    unfold matrix
    rw [hrow, coef_vandermonde_row (hlt _ (List.getElem_mem hr')) hc, List.getD_eq_getElem _ _ hr']

/-! ## Reconstruction -/

/-- The inverse of the rows that made the shards, applied to the shards, gives the data back. -/
theorem combine_inverse {body : List UInt8} (hk : 0 < k) {chosen : List (Nat × List UInt8)} (hlen : chosen.length = k)
    (hnd : (chosen.map (·.1)).Nodup) (hlt : ∀ c ∈ chosen, c.1 < 255)
    (hshard : ∀ c ∈ chosen, c.2 = combine_rows (vandermonde_row k c.1) (rows body k)) :
    ∃ inv, mat_inv (chosen.map fun c => vandermonde_row k c.1) = some inv ∧
      inv.map (fun row => combine_rows row (chosen.map (·.2))) = rows body k := by
  have hdata := shape_rows body hk
  generalize (padded body k).length / k = l at hdata
  have hmap : (chosen.map fun c => vandermonde_row k c.1) = (chosen.map (·.1)).map (vandermonde_row k) := by
    rw [List.map_map]
    rfl
  have hget (r : Nat) (hr : r < k) : ∃ h : r < chosen.length, chosen[r] ∈ chosen := by
    have hr' : r < chosen.length := hlen.symm ▸ hr
    exact ⟨hr', List.getElem_mem hr'⟩
  have hm : Shape k k (chosen.map fun c => vandermonde_row k c.1) := by
    refine ⟨by rw [List.length_map, hlen], fun r hr => ?_⟩
    obtain ⟨hr', -⟩ := hget r hr
    rw [List.getD_eq_getElem _ _ (by rw [List.length_map]; exact hr'), List.getElem_map, length_vandermonde_row]
  have hind : Independent k (chosen.map fun c => vandermonde_row k c.1) := by
    rw [hmap]
    refine independent_rows (by rw [List.length_map, hlen]) hnd fun i hi => ?_
    obtain ⟨c, hc, rfl⟩ := List.mem_map.mp hi
    exact hlt c hc
  obtain ⟨inv, hinv, hshape, hone⟩ := mat_inv_some hm hind
  have hentry (j : Nat) (hj : j < k) (b : Nat) : ((chosen.map (·.2)).getD j []).length = l ∧
      matrix (chosen.map (·.2)) j b =
        ∑ c ∈ Finset.range k, matrix (chosen.map fun c => vandermonde_row k c.1) j c * matrix (rows body k) c b := by
    obtain ⟨hj', hmem⟩ := hget j hj
    have hspec := combine_rows_spec hk (length_vandermonde_row k chosen[j].1) hdata b
    unfold matrix
    rw [List.getD_eq_getElem _ _ (by rw [List.length_map]; exact hj'), List.getElem_map, hshard _ hmem,
      List.getD_eq_getElem _ _ (by rw [List.length_map]; exact hj'), List.getElem_map]
    exact hspec
  have hcols : Shape k l (chosen.map (·.2)) :=
    ⟨by rw [List.length_map, hlen], fun j hj => (hentry j hj 0).1⟩
  refine ⟨inv, hinv, List.ext_getElem (by rw [List.length_map, hshape.rows, hdata.rows]) fun r hr hr' => ?_⟩
  have hrk : r < k := hdata.rows ▸ hr'
  have hri : r < inv.length := hshape.rows.symm ▸ hrk
  have hrow := hshape.row r hrk
  rw [List.getD_eq_getElem _ _ hri] at hrow
  have hlast := hdata.row r hrk
  rw [List.getD_eq_getElem _ _ hr'] at hlast
  rw [List.getElem_map]
  refine row_ext (combine_rows_spec hk hrow hcols 0).1 hlast fun b _ => ?_
  have hinvrow : coef inv[r] = matrix inv r := by
    unfold matrix
    rw [List.getD_eq_getElem _ _ hri]
  have hdatarow : coef (rows body k)[r] = matrix (rows body k) r := by
    unfold matrix
    rw [List.getD_eq_getElem _ _ hr']
  calc coef (combine_rows inv[r] (chosen.map (·.2))) b
      = ∑ j ∈ Finset.range k, matrix inv r j * matrix (chosen.map (·.2)) j b := by
        rw [(combine_rows_spec hk hrow hcols b).2, hinvrow]
    _ = ∑ j ∈ Finset.range k, ∑ c ∈ Finset.range k,
          matrix inv r j * matrix (chosen.map fun c => vandermonde_row k c.1) j c * matrix (rows body k) c b := by
        refine Finset.sum_congr rfl fun j hj => ?_
        rw [(hentry j (Finset.mem_range.mp hj) b).2, Finset.mul_sum]
        exact Finset.sum_congr rfl fun c _ => (mul_assoc ..).symm
    _ = ∑ c ∈ Finset.range k, (if r = c then 1 else 0) * matrix (rows body k) c b := by
        rw [Finset.sum_comm]
        refine Finset.sum_congr rfl fun c hc => ?_
        rw [← Finset.sum_mul, hone r hrk c (Finset.mem_range.mp hc)]
    _ = coef (rows body k)[r] b := by
        simp only [ite_mul, one_mul, zero_mul]
        rw [Finset.sum_ite_eq, if_pos (Finset.mem_range.mpr hrk), hdatarow]

/-- Every shard is one of those that `encode` makes. -/
def Encoded (body : List UInt8) (k n : Nat) (shards : Shards) : Prop :=
  ∀ (i : UInt32) (shard : List UInt8), shards[i]? = some shard → (encode body k n)[i.toNat]? = some shard

/-- Every shard is one that `disperse_streaming` hands out. -/
def Streamed [Crypto] (body : List UInt8) (k n : Nat) (shards : Shards) : Prop :=
  ∀ (i : UInt32) (shard : List UInt8), shards[i]? = some shard →
    (i.toNat, shard) ∈ (disperse_streaming body k n (fun out i shard => out ++ [(i, shard)]) []).1

theorem of_encoded {body : List UInt8} {n : Nat} {shards : Shards} (h : Encoded body k n shards) {i : UInt32}
    {shard : List UInt8} (hi : shards[i]? = some shard) :
    i.toNat < n ∧ shard = combine_rows (vandermonde_row k i.toNat) (rows body k) := by
  have hshard := h i shard hi
  unfold encode at hshard
  rw [List.getElem?_map, Option.map_eq_some_iff] at hshard
  obtain ⟨j, hj, rfl⟩ := hshard
  obtain ⟨hlt, hval⟩ := List.getElem?_eq_some_iff.mp hj
  rw [List.getElem_range] at hval
  rw [List.length_range] at hlt
  exact ⟨hlt, by rw [hval]⟩

theorem streamed_fold [Crypto] (k : Nat) (byte_rows : List (List UInt8)) (is : List Nat) (out : List (Nat × List UInt8))
    (leaves : List Hash) :
    (is.foldl (fun (acc : List (Nat × List UInt8) × List Hash) i =>
        (acc.1 ++ [(i, combine_rows (vandermonde_row k i) byte_rows)],
          acc.2 ++ [merkle.leaf_hash (combine_rows (vandermonde_row k i) byte_rows)])) (out, leaves)).1 =
      out ++ is.map fun i => (i, combine_rows (vandermonde_row k i) byte_rows) := by
  induction is generalizing out leaves with
  | nil => exact (List.append_nil out).symm
  | cons i is ih => rw [List.foldl_cons, ih, List.map_cons, List.append_assoc, List.singleton_append]

/-- Streaming hands out the shards of `encode`. -/
theorem encoded_of_streamed [Crypto] {body : List UInt8} {n : Nat} {shards : Shards} (h : Streamed body k n shards) :
    Encoded body k n shards := by
  intro i shard hi
  have hmem := h i shard hi
  unfold disperse_streaming at hmem
  dsimp only at hmem
  rw [streamed_fold, List.nil_append] at hmem
  obtain ⟨j, hj, he⟩ := List.mem_map.mp hmem
  obtain ⟨rfl, rfl⟩ := Prod.mk.inj he
  unfold encode
  rw [List.getElem?_map, List.getElem?_range (List.mem_range.mp hj), Option.map_some]

theorem length_chosen {shards : Shards} (hsize : k ≤ shards.size) : (shards.toList.take k).length = k := by
  rw [List.length_take, Std.ExtTreeMap.length_toList, Nat.min_eq_left hsize]

theorem nodup_chosen (shards : Shards) (k : Nat) : ((shards.toList.take k).map fun s => s.1.toNat).Nodup := by
  have hkeys : (shards.toList.take k).Pairwise fun a b => ¬compare a.1 b.1 = .eq :=
    Std.ExtTreeMap.distinct_keys_toList.sublist (List.take_sublist ..)
  rw [List.Nodup, List.pairwise_map]
  exact hkeys.imp fun hne he => hne (Std.LawfulEqCmp.compare_eq_iff_eq.mpr (UInt32.toNat_inj.mp he))

/-- Any `k` shards give the body back. -/
theorem reconstruct_encoded [Crypto] {body : List UInt8} {k n : Nat} (hk : 0 < k) (hn : n ≤ 255) {shards : Shards}
    (hshards : Encoded body k n shards ∨ Streamed body k n shards) (hsize : k ≤ shards.size) :
    reconstruct shards k body.length = some body := by
  have hencoded : Encoded body k n shards := hshards.elim id encoded_of_streamed
  have hlen := length_chosen hsize
  have hnd := nodup_chosen shards k
  have hfrom : ∀ s ∈ shards.toList.take k,
      s.1.toNat < n ∧ s.2 = combine_rows (vandermonde_row k s.1.toNat) (rows body k) := by
    intro s hs
    exact of_encoded hencoded (Std.ExtTreeMap.mem_toList_iff_getElem?_eq_some.mp (List.mem_of_mem_take hs))
  unfold reconstruct
  rw [if_neg (by omega)]
  dsimp only
  generalize shards.toList.take k = chosen at hlen hfrom hnd
  have hlen' : (chosen.map fun s => (s.1.toNat, s.2)).length = k := by rw [List.length_map, hlen]
  have hnd' : ((chosen.map fun s => (s.1.toNat, s.2)).map (·.1)).Nodup := by
    rw [List.map_map]
    exact hnd
  have hplaced : ∀ c ∈ chosen.map fun s => (s.1.toNat, s.2),
      c.1 < n ∧ c.2 = combine_rows (vandermonde_row k c.1) (rows body k) := by
    intro c hc
    obtain ⟨s, hs, rfl⟩ := List.mem_map.mp hc
    exact hfrom s hs
  obtain ⟨inv, hinv, hrows⟩ := combine_inverse hk hlen' hnd' (fun c hc => lt_of_lt_of_le (hplaced c hc).1 hn)
    fun c hc => (hplaced c hc).2
  rw [List.map_map] at hinv
  rw [List.map_map] at hrows
  have hsmall : (chosen.any fun s => decide (s.1.toNat + 1 ≥ 256)) = false := by
    rw [List.any_eq_false]
    intro s hs
    have hlt := (hfrom s hs).1
    rw [decide_eq_true_eq]
    omega
  rw [hsmall, if_neg Bool.false_ne_true]
  change ((mat_inv (chosen.map fun s => vandermonde_row k s.1.toNat)).bind fun inv =>
    some ((inv.flatMap fun row => combine_rows row (chosen.map (·.2))).take body.length)) = some body
  have hinv' : mat_inv (chosen.map fun s => vandermonde_row k s.1.toNat) = some inv := hinv
  have hrows' : inv.map (fun row => combine_rows row (chosen.map (·.2))) = rows body k := hrows
  rw [hinv', Option.bind_some, List.flatMap_def, hrows', flatten_rows body hk, take_padded]

end da

namespace Toy

/-- The last two of three shards of `[1, 2, 3]`. -/
def two_shards : da.Shards := ((∅ : da.Shards).insert 1 [7, 2]).insert 2 [4, 2]

theorem two_shards_encoded : da.Encoded [1, 2, 3] 2 3 two_shards := by
  have hencode : da.encode [1, 2, 3] 2 3 = [[2, 2], [7, 2], [4, 2]] := by decide +kernel
  intro i shard h
  rw [hencode]
  unfold two_shards at h
  rw [Std.ExtTreeMap.getElem?_insert, Std.ExtTreeMap.getElem?_insert] at h
  split at h
  · rename_i hi
    rw [← Std.LawfulEqCmp.compare_eq_iff_eq.mp hi, ← h]
    rfl
  · split at h
    · rename_i hi
      rw [← Std.LawfulEqCmp.compare_eq_iff_eq.mp hi, ← h]
      rfl
    · rw [Std.ExtTreeMap.getElem?_empty] at h
      cases h

end Toy

open Toy in
theorem reconstruct_encoded_last_two : da.reconstruct Toy.two_shards 2 3 = some [1, 2, 3] :=
  da.reconstruct_encoded (by decide) (by decide) (.inl Toy.two_shards_encoded) (by decide +kernel)

end Sestrian
