import Sestrian.Code.DaRun
import Sestrian.Da.Recover
import Sestrian.Lib.Check

/-!
# What peers can make of reconstruction

Every table lookup, matrix entry and row of `reconstruct` is in range, with two exceptions: the
largest of no indices, and a row of the matrix past the 255 points that the tables have.
-/

open Panic

namespace Sestrian

namespace da

/-! ## The tables -/

theorem gf_log_lt (x : UInt8) : gf_log x < 255 := by
  by_cases h : x = 0
  · rw [h]
    decide
  · have hmod := gf_log_exp (gf_log x)
    rw [gf_exp_log h] at hmod
    omega

theorem log_at_ok {i : Nat} (h : i < 256) : log_at i = .ok (gf_log (UInt8.ofNat i)) := by
  unfold log_at
  rw [if_pos h]
  rfl

theorem exp_at_ok {i : Nat} (h : i < 512) : exp_at i = .ok (gf_exp i) := by
  unfold exp_at
  rw [if_pos h]
  rfl

theorem run_gf_mul_eq (a b : UInt8) : run_gf_mul a b = .ok (gf_mul a b) := by
  have ha := gf_log_lt a
  have hb := gf_log_lt b
  unfold run_gf_mul gf_mul
  rw [exp_at_ok (by omega)]
  split
  · rfl
  · rfl

theorem ok_bind {α β : Type} (a : α) (f : α → MayPanic β) : ((.ok a : MayPanic α) >>= f) = f a := rfl

theorem unwrap_some {α : Type} (a : α) : (unwrap (some a) : MayPanic α) = .ok a := rfl

theorem run_vandermonde_ok {n : Nat} (k : Nat) (h : n < 256) :
    run_vandermonde n k = .ok ((List.range n).map (vandermonde_row k)) := by
  refine Check.mapM_ok fun i hi => Check.mapM_ok fun j _ => ?_
  have hin := List.mem_range.mp hi
  have hmod : gf_log (UInt8.ofNat (i + 1)) * j % 255 < 512 := by omega
  rw [log_at_ok (by omega)]
  exact exp_at_ok hmod

theorem mapM_panic {α β : Type} {f : α → MayPanic β} {g : α → β} {xs ys : List α} {x : α}
    (h : ∀ x ∈ xs, f x = .ok (g x)) (hx : f x = .error .panic) : (xs ++ x :: ys).mapM f = .error .panic := by
  rw [List.mapM_append, Check.mapM_ok h, List.mapM_cons, hx]
  rfl

theorem run_vandermonde_panic {n k : Nat} (h : 256 ≤ n) (hk : 0 < k) : run_vandermonde n k = .error .panic := by
  -- The rows before the last point of the table come out, and the next one panics.
  have hsplit : List.range n = List.range 255 ++ 255 :: List.range' 256 (n - 256) := by
    have hn : n = 255 + ((n - 256) + 1) := by omega
    conv_lhs => rw [hn, List.range_eq_range', ← List.range'_append_1]
    rw [List.range_eq_range']
    rfl
  have hrow : (List.range k).mapM (fun j => do
      let l ← log_at (255 + 1)
      exp_at (l * j % 255)) = .error .panic := by
    obtain ⟨m, rfl⟩ := Nat.exists_eq_succ_of_ne_zero (by omega : k ≠ 0)
    rw [List.range_succ_eq_map, List.mapM_cons]
    rfl
  unfold run_vandermonde
  rw [hsplit]
  refine mapM_panic (g := vandermonde_row k) (fun i hi => Check.mapM_ok fun j _ => ?_) hrow
  have hlt := List.mem_range.mp hi
  have hmod : gf_log (UInt8.ofNat (i + 1)) * j % 255 < 512 := by omega
  rw [log_at_ok (by omega)]
  exact exp_at_ok hmod

/-! ## The matrix -/

variable {k width col : Nat} {a : List (List UInt8)}

theorem row_some (ha : Shape k width a) {r : Nat} (hr : r < k) : a[r]? = some (a.getD r []) := by
  have hlen : r < a.length := ha.rows.symm ▸ hr
  rw [List.getElem?_eq_getElem hlen, List.getD_eq_getElem _ _ hlen]

theorem entry_ok (ha : Shape k width a) {r c : Nat} (hr : r < k) (hc : c < width) :
    entry a r c = .ok ((a.getD r []).getD c 0) := by
  have hlen : c < (a.getD r []).length := (ha.row r hr).symm ▸ hc
  unfold entry
  rw [row_some ha hr]
  change unwrap (a.getD r [])[c]? = _
  rw [List.getElem?_eq_getElem hlen, List.getD_eq_getElem _ _ hlen]
  rfl

theorem find_pivot_eq (ha : Shape k width a) (hcol : col < width) {rs : List Nat} (hrs : ∀ r ∈ rs, r < k) :
    find_pivot a col rs = or_none (rs.find? fun r => (a.getD r []).getD col 0 ≠ 0) := by
  induction rs with
  | nil => rfl
  | cons r rs ih =>
    obtain ⟨hr, hrs⟩ := List.forall_mem_cons.mp hrs
    unfold find_pivot
    rw [entry_ok ha hr hcol]
    by_cases hz : (a.getD r []).getD col 0 = 0
    · rw [List.find?_cons_of_neg (by simpa using hz), ← ih hrs]
      exact if_neg (not_not.mpr hz)
    · rw [List.find?_cons_of_pos (by simpa using hz)]
      exact if_pos hz

theorem run_swap_ok (ha : Shape k width a) {i j : Nat} (hi : i < k) (hj : j < k) :
    run_swap a i j = .ok (swap_rows a i j) := by
  unfold run_swap
  rw [row_some ha hi, row_some ha hj]
  rfl

theorem run_add_scaled_ok (f : UInt8) (row pivot_row : List UInt8) :
    run_add_scaled f row pivot_row = .ok (add_scaled f row pivot_row) := by
  induction row generalizing pivot_row with
  | nil => cases pivot_row <;> rfl
  | cons x row ih =>
    cases pivot_row with
    | nil => rfl
    | cons y pivot_row =>
      unfold run_add_scaled
      rw [run_gf_mul_eq, ih]
      rfl

theorem clear_column_eq (ha : Shape k width a) (pivot_row : List UInt8) :
    clear_column a col pivot_row = (List.range k).map fun r =>
      if r = col then pivot_row
      else if (a.getD r []).getD col 0 ≠ 0 then add_scaled ((a.getD r []).getD col 0) (a.getD r []) pivot_row
      else a.getD r [] := by
  refine List.ext_getElem ?_ fun r hr hr' => ?_
  · unfold clear_column
    rw [List.length_map, List.length_map, List.length_zipIdx, List.length_range, ha.rows]
  · rw [List.length_map, List.length_range] at hr'
    rw [← List.getD_eq_getElem _ [] hr, getD_clear_column ha pivot_row hr', List.getElem_map, List.getElem_range]

theorem run_eliminate_eq (ha : Shape k width a) (hcol : col < k) (hwidth : col < width) :
    run_eliminate k a col = or_none (eliminate k a col) := by
  unfold run_eliminate eliminate
  rw [find_pivot_eq ha hwidth fun r hr => by have := List.mem_range'_1.mp hr; omega]
  cases hfind : (List.range' col (k - col)).find? fun r => (a.getD r []).getD col 0 ≠ 0 with
  | none => rfl
  | some piv =>
    have hmem := List.mem_range'_1.mp (List.mem_of_find?_eq_some hfind)
    have hs := shape_swap_rows ha hcol (by omega : piv < k)
    change (run_swap a col piv >>= _) = Except.ok (clear_column (swap_rows a col piv) col
      (((swap_rows a col piv).getD col []).map fun v => gf_mul v (gf_inv (((swap_rows a col piv).getD col []).getD col 0))))
    rw [run_swap_ok ha hcol (by omega)]
    generalize swap_rows a col piv = b at hs ⊢
    have hscaled : (b.getD col []).mapM (fun v => run_gf_mul v (gf_inv ((b.getD col []).getD col 0))) =
        .ok ((b.getD col []).map fun v => gf_mul v (gf_inv ((b.getD col []).getD col 0))) :=
      Check.mapM_ok fun v _ => run_gf_mul_eq v _
    change (entry b col col >>= fun v => exp_at (255 - gf_log v) >>= fun inv => unwrap b[col]? >>= fun row =>
      row.mapM (fun v => run_gf_mul v inv) >>= fun p => (List.range k).mapM (run_clear_row b col p)) = _
    rw [entry_ok hs hcol hwidth, ok_bind, exp_at_ok (by omega), ok_bind, row_some hs hcol, unwrap_some, ok_bind]
    change ((b.getD col []).mapM (fun v => run_gf_mul v (gf_inv ((b.getD col []).getD col 0))) >>= _) = _
    rw [hscaled, ok_bind, clear_column_eq hs]
    refine Check.mapM_ok fun r hr => ?_
    have hr := List.mem_range.mp hr
    unfold run_clear_row
    by_cases hrc : r = col
    · rw [if_pos hrc, if_pos hrc]
      rfl
    · rw [if_neg hrc, if_neg hrc, entry_ok hs hr hwidth, row_some hs hr]
      change (if _ ≠ 0 then run_add_scaled _ _ _ else _) = _
      rw [run_add_scaled_ok]
      exact (apply_ite Except.ok _ _ _).symm

theorem shape_eliminate {a' : List (List UInt8)} (ha : Shape k width a) (hcol : col < k) (h : eliminate k a col = some a') :
    Shape k width a' := (eliminate_some ha hcol h).1

theorem run_fold_eq (hwidth : k ≤ width) {cols : List Nat} (hcols : ∀ c ∈ cols, c < k) (ha : Shape k width a) :
    cols.foldlM (run_eliminate k) a = or_none (cols.foldlM (eliminate k) a) ∧
      ∀ a', cols.foldlM (eliminate k) a = some a' → Shape k width a' := by
  induction cols generalizing a with
  | nil =>
    refine ⟨rfl, fun a' h => ?_⟩
    obtain rfl : a = a' := Option.some.inj h
    exact ha
  | cons c cols ih =>
    obtain ⟨hc, hcols⟩ := List.forall_mem_cons.mp hcols
    rw [List.foldlM_cons, List.foldlM_cons, run_eliminate_eq ha hc (lt_of_lt_of_le hc hwidth)]
    cases he : eliminate k a c with
    | none => exact ⟨rfl, fun a' h => absurd h (by simp)⟩
    | some a' => exact ih hcols (shape_eliminate ha hc he)

theorem run_mat_inv_eq {m : List (List UInt8)} (hm : Shape k k m) : run_mat_inv m = or_none (mat_inv m) := by
  obtain ⟨hrun, hshape⟩ := run_fold_eq (Nat.le_mul_of_pos_left k (by decide : 0 < 2))
    (fun c hc => List.mem_range.mp hc) (shape_augment hm)
  unfold run_mat_inv mat_inv
  rw [hm.rows, hrun]
  cases hfold : (List.range k).foldlM (eliminate k) (augment m) with
  | none => rfl
  | some a =>
    refine Check.mapM_ok fun row hrow => ?_
    have hlen := length_of_mem (hshape a hfold) row hrow
    rw [if_pos (by omega)]
    rfl

theorem run_combine_rows_ok (coeffs : List UInt8) {byte_rows : List (List UInt8)} (h : byte_rows ≠ []) :
    run_combine_rows coeffs byte_rows = .ok (combine_rows coeffs byte_rows) := by
  obtain ⟨first, rest, rfl⟩ := List.exists_cons_of_ne_nil h
  have hfold (cs : List (UInt8 × List UInt8)) (acc : List UInt8) :
      cs.foldlM (fun acc c => if c.1 = 0 then pure acc else run_add_scaled c.1 acc c.2) acc =
        (.ok (cs.foldl (fun acc c => if c.1 = 0 then acc else add_scaled c.1 acc c.2) acc) : MayPanic (List UInt8)) := by
    induction cs generalizing acc with
    | nil => rfl
    | cons c cs ih =>
      rw [List.foldlM_cons, List.foldl_cons]
      by_cases hz : c.1 = 0
      · rw [if_pos hz, if_pos hz]
        exact ih acc
      · rw [if_neg hz, if_neg hz, run_add_scaled_ok]
        exact ih _
  exact hfold _ _

/-! ## Reconstruction -/

/-- The indices that are used are points of the tables, and the output fits in memory. Where shards are missing
nothing is looked up. -/
def Sane (shards : Shards) (k : Nat) : Prop :=
  shards.size < k ∨
    0 < k ∧ (∀ s ∈ shards.toList.take k, s.1.toNat < 255) ∧
      k * ((shards.toList.headD (0, [])).2).length < 2 ^ 63

section Chosen

variable {shards : Shards} {k : Nat}

/-- The rows of the chosen shards can be inverted. -/
theorem invert_chosen (hsize : k ≤ shards.size) (hsmall : ∀ s ∈ shards.toList.take k, s.1.toNat < 255) :
    Shape k k ((shards.toList.take k).map fun s => vandermonde_row k s.1.toNat) ∧
      ∃ inv, mat_inv ((shards.toList.take k).map fun s => vandermonde_row k s.1.toNat) = some inv ∧ Shape k k inv := by
  have hlen := length_chosen hsize
  have hnd := nodup_chosen shards k
  generalize shards.toList.take k = chosen at hsmall hlen hnd
  have hmap : (chosen.map fun s => vandermonde_row k s.1.toNat) =
      (chosen.map fun s => s.1.toNat).map (vandermonde_row k) := by
    rw [List.map_map]
    rfl
  have hind : Independent k (chosen.map fun s => vandermonde_row k s.1.toNat) := by
    rw [hmap]
    refine independent_rows (by rw [List.length_map, hlen]) hnd fun i hi => ?_
    obtain ⟨s, hs, rfl⟩ := List.mem_map.mp hi
    exact hsmall s hs
  have hm : Shape k k (chosen.map fun s => vandermonde_row k s.1.toNat) := by
    refine ⟨by rw [List.length_map, hlen], fun r hr => ?_⟩
    have hr' : r < chosen.length := hlen.symm ▸ hr
    rw [List.getD_eq_getElem _ _ (by rw [List.length_map]; exact hr'), List.getElem_map, length_vandermonde_row]
  obtain ⟨inv, hinv, hshape, -⟩ := mat_inv_some hm hind
  exact ⟨hm, inv, hinv, hshape⟩

/-- With indices in range only the size of the output is left to check. -/
theorem run_reconstruct_small (hk : 0 < k) (hsize : k ≤ shards.size)
    (hsmall : ∀ s ∈ shards.toList.take k, s.1.toNat < 255) (orig_len : Nat) :
    run_reconstruct shards k orig_len =
      (with_capacity (k * ((shards.toList.headD (0, [])).2).length) >>= fun _ =>
        or_none (reconstruct shards k orig_len)) := by
  obtain ⟨hm, inv, hinv, hshape⟩ := invert_chosen hsize hsmall
  have hlen := length_chosen hsize
  have hhead : (shards.toList.headD (0, [])) = (shards.toList.take k).headD (0, []) := by
    cases shards.toList with
    | nil => rw [List.take_nil]
    | cons s rest =>
      obtain ⟨k, rfl⟩ := Nat.exists_eq_succ_of_ne_zero (by omega : k ≠ 0)
      rfl
  have hcols : ((shards.toList.take k).map (·.1)).mapM (fun i => (unwrap shards[i]? : MayPanic (List UInt8))) =
      .ok ((shards.toList.take k).map (·.2)) := by
    rw [List.mapM_map]
    refine Check.mapM_ok fun s hs => ?_
    have hget := Std.ExtTreeMap.mem_toList_iff_getElem?_eq_some.mp (List.mem_of_mem_take hs)
    change unwrap shards[s.1]? = _
    rw [hget]
    rfl
  have hany : ((shards.toList.take k).any fun s => decide (s.1.toNat + 1 ≥ 256)) = false := by
    rw [List.any_eq_false]
    intro s hs
    have hlt := hsmall s hs
    rw [decide_eq_true_eq]
    omega
  unfold run_reconstruct reconstruct
  rw [if_neg (by omega), if_neg (by omega)]
  dsimp only
  rw [hany, if_neg Bool.false_ne_true, hcols, hhead]
  generalize shards.toList.take k = chosen at hsmall hlen hm hinv
  obtain ⟨first, rest, rfl⟩ := List.exists_cons_of_length_pos (by omega : 0 < chosen.length)
  obtain ⟨top, htop⟩ : ∃ top, (((first :: rest).map (·.1)).map UInt32.toNat).max? = some top := by
    cases hmax : (((first :: rest).map (·.1)).map UInt32.toNat).max? with
    | none => simp at hmax
    | some top => exact ⟨top, rfl⟩
  obtain ⟨hmem, hle⟩ := List.max?_eq_some_iff.mp htop
  have htop255 : top < 255 := by
    obtain ⟨i, hi, rfl⟩ := List.mem_map.mp hmem
    obtain ⟨s, hs, rfl⟩ := List.mem_map.mp hi
    exact hsmall s hs
  have hsub : ((first :: rest).map (·.1)).mapM (fun i =>
      (unwrap ((List.range (top + 1)).map (vandermonde_row k))[i.toNat]? : MayPanic (List UInt8))) =
      .ok ((first :: rest).map fun s => vandermonde_row k s.1.toNat) := by
    rw [List.mapM_map]
    refine Check.mapM_ok fun s hs => ?_
    have hlt : s.1.toNat < top + 1 :=
      Nat.lt_succ_of_le (hle _ (List.mem_map.mpr ⟨_, List.mem_map.mpr ⟨s, hs, rfl⟩, rfl⟩))
    change unwrap ((List.range (top + 1)).map (vandermonde_row k))[s.1.toNat]? = _
    rw [List.getElem?_map, List.getElem?_range hlt]
    rfl
  have hout : (List.range k).mapM (fun r => (do
      let row ← unwrap inv[r]?
      run_combine_rows row ((first :: rest).map (·.2)) : MayPanic (List UInt8))) =
      .ok ((List.range k).map fun r => combine_rows (inv.getD r []) ((first :: rest).map (·.2))) := by
    refine Check.mapM_ok fun r hr => ?_
    rw [row_some hshape (List.mem_range.mp hr)]
    exact run_combine_rows_ok _ (List.cons_ne_nil _ _)
  have hrows : (List.range k).map (fun r => combine_rows (inv.getD r []) ((first :: rest).map (·.2))) =
      inv.map fun row => combine_rows row ((first :: rest).map (·.2)) := by
    refine List.ext_getElem (by rw [List.length_map, List.length_map, List.length_range, hshape.rows]) fun r hr hr' => ?_
    rw [List.length_map] at hr'
    rw [List.getElem_map, List.getElem_map, List.getElem_range, List.getD_eq_getElem _ _ hr']
  rw [htop, unwrap_some, ok_bind, run_vandermonde_ok k (by omega), ok_bind, hsub, ok_bind, run_mat_inv_eq hm, hinv]
  change (with_capacity (k * first.2.length) >>= fun _ => _) = with_capacity (k * first.2.length) >>= fun _ => _
  rw [hout, hrows]
  rfl

theorem run_reconstruct_panic_iff (shards : Shards) (k orig_len : Nat) :
    run_reconstruct shards k orig_len = .error .panic ↔ ¬Sane shards k := by
  unfold Sane
  by_cases hsize : shards.size < k
  · unfold run_reconstruct
    rw [if_pos hsize]
    exact ⟨fun h => absurd h (by simp), fun h => absurd (.inl hsize) h⟩
  rcases Nat.eq_zero_or_pos k with rfl | hk
  · refine ⟨fun _ => by omega, fun _ => ?_⟩
    unfold run_reconstruct
    rw [if_neg hsize, List.take_zero]
    rfl
  by_cases hsmall : ∀ s ∈ shards.toList.take k, s.1.toNat < 255
  · rw [run_reconstruct_small hk (Nat.le_of_not_lt hsize) hsmall]
    unfold with_capacity
    split
    · rename_i hcap
      refine ⟨fun h => absurd h ?_, fun h => absurd (.inr ⟨hk, hsmall, hcap⟩) h⟩
      change or_none (reconstruct shards k orig_len) ≠ .error .panic
      unfold or_none
      split
      · simp
      · simp
    · rename_i hcap
      refine ⟨fun _ h => ?_, fun _ => rfl⟩
      exact h.elim hsize fun h => hcap h.2.2
  · refine ⟨fun _ h => h.elim hsize fun h => hsmall h.2.1, fun _ => ?_⟩
    push Not at hsmall
    obtain ⟨s, hs, hbig⟩ := hsmall
    unfold run_reconstruct
    rw [if_neg hsize]
    dsimp only
    cases hmax : (((shards.toList.take k).map (·.1)).map UInt32.toNat).max? with
    | none => rfl
    | some top =>
      have hle := (List.max?_eq_some_iff.mp hmax).2 s.1.toNat
        (List.mem_map.mpr ⟨_, List.mem_map.mpr ⟨s, hs, rfl⟩, rfl⟩)
      rw [unwrap_some, ok_bind, run_vandermonde_panic (by omega) hk]
      rfl

end Chosen

end da

theorem run_reconstruct_bytes_panic_iff (s : Store) (key : String) :
    s.run_reconstruct_bytes key = .error .panic ↔
      ∃ m, (s.dir key).info = some m ∧ ¬da.Sane (s.dir key).shards m.k := by
  unfold Store.run_reconstruct_bytes
  cases (s.dir key).info with
  | none => exact ⟨fun h => absurd h (by simp [or_none, bind, Except.bind]), fun ⟨m, h, _⟩ => absurd h (by simp)⟩
  | some m =>
    change da.run_reconstruct (s.dir key).shards m.k m.orig_len = _ ↔ _
    rw [da.run_reconstruct_panic_iff]
    exact ⟨fun h => ⟨m, rfl, h⟩, fun ⟨m', hm, h⟩ => Option.some.inj hm ▸ h⟩

/-- Reconstruction panics exactly where enough shards are there and the indices or the threshold are none that
`encode` makes. -/
theorem reconstruct_safe_iff (shards : da.Shards) (k orig_len : Nat) (s : Store) (key : String) :
    (da.run_reconstruct shards k orig_len ≠ .error .panic ↔ da.Sane shards k) ∧
      (s.run_reconstruct_bytes key ≠ .error .panic ↔
        ∀ m, (s.dir key).info = some m → da.Sane (s.dir key).shards m.k) := by
  refine ⟨?_, ?_⟩
  · rw [Ne, da.run_reconstruct_panic_iff, not_not]
  · rw [Ne, run_reconstruct_bytes_panic_iff]
    exact ⟨fun h m hm => not_not.mp fun hn => h ⟨m, hm, hn⟩, fun h ⟨m, hm, hn⟩ => hn (h m hm)⟩

/-- One shard of a peer, with an index past the last point or with a threshold of zero, and the node is down. -/
theorem put_shard_panics :
    (Store.empty.put_shard "t" 255 [7] 1 3 1).run_reconstruct_bytes "t" = .error .panic ∧
      (Store.empty.put_shard "t" 0 [7] 0 3 1).run_reconstruct_bytes "t" = .error .panic := by
  have hput (i : UInt32) (k : Nat) : (Store.empty.put_shard "t" i [7] k 3 1).dir "t" =
      { info := some { root := "", orig_len := 1, k, n := 3 }, shards := (∅ : da.Shards).insert i [7] } := by
    unfold Store.put_shard Store.dir Store.empty
    simp
  refine ⟨(run_reconstruct_bytes_panic_iff _ _).mpr ⟨_, congrArg DaDir.info (hput 255 1), ?_⟩,
    (run_reconstruct_bytes_panic_iff _ _).mpr ⟨_, congrArg DaDir.info (hput 0 0), ?_⟩⟩
  · rw [hput]
    rintro (hsize | ⟨-, hsmall, -⟩)
    · exact absurd hsize (by decide)
    · exact absurd (hsmall (255, [7]) (by decide)) (by decide)
  · rw [hput]
    rintro (hsize | ⟨hk, -⟩)
    · exact absurd hsize (Nat.not_lt_zero _)
    · exact absurd hk (Nat.lt_irrefl 0)

end Sestrian
