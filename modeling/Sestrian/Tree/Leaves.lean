import Sestrian.Tree.Spec

/-!
# Page leaves after a block

`state_root_with` hashes the pages that the aggregate touches and appends the grown pages.
From right leaves it makes right leaves, as long as the weights it changes can be addressed
in `u32`.
-/

namespace Sestrian

open Aggregate Pages

variable [Crypto]

def span_leaf (w : List Int64) (s : Nat × Nat) : Hash := merkle.leaf_hash (int64_bytes (slice w s.1 s.2))

theorem leaves_for_eq (w : List Int64) (m : ModelState) : leaves_for w m = m.spans.map (span_leaf w) := by
  simp [leaves_for, spans_eq, span, page_leaf, span_leaf, Function.comp_def]

theorem page_state_root_eq (w : List Int64) (m : ModelState) :
    page_state_root w m = hex_encode (merkle.root_from_hashes (leaves_for w m)).val := by
  rw [page_state_root, merkle.root, List.map_map]
  rfl

/-! ## Touched and untouched spans -/

omit [Crypto] in
theorem getElem?_slice {α : Type} (l : List α) (start stop j : Nat) :
    (slice l start stop)[j]? = if j < stop - start then l[start + j]? else none := by
  simp [slice, List.getElem?_take, List.getElem?_drop]

omit [Crypto] in
theorem slice_append_left {α : Type} (l l' : List α) (start stop : Nat) (h : stop ≤ l.length) :
    slice (l ++ l') start stop = slice l start stop := by
  apply List.ext_getElem?
  intro j
  rw [getElem?_slice, getElem?_slice]
  split
  · rw [List.getElem?_append_left (by omega)]
  · rfl

omit [Crypto] in
/-- The substituted values are the weights after the redo. -/
theorem slice_apply_redo (w : List Int64) (agg : Coords) (start stop : Nat) (hstop : stop ≤ w.length)
    (hdim : w.length < 2 ^ 32) :
    slice (apply_redo w agg.toList) start stop = (slice w start stop).mapIdx fun j x =>
      match agg[UInt32.ofNat (start + j)]? with
      | some m => x + m
      | none => x := by
  apply List.ext_getElem?
  intro j
  rw [List.getElem?_mapIdx, getElem?_slice, getElem?_slice, getElem?_apply_redo _ _ (distinct_toList _),
    value_at_toList]
  split
  · next hj =>
    have hlt : start + j < 2 ^ 32 := by omega
    rw [show at_coord agg (start + j) = agg[UInt32.ofNat (start + j)]?.getD 0 from if_pos hlt]
    cases agg[UInt32.ofNat (start + j)]? <;> simp
  · rfl

omit [Crypto] in
/-- A span without a touched coordinate keeps its weights. -/
theorem slice_untouched (w : List Int64) (agg : Coords) (start stop : Nat) (hstop : stop ≤ w.length)
    (hdim : w.length < 2 ^ 32) (h : coord_range agg start stop = []) :
    slice (apply_redo w agg.toList) start stop = slice w start stop := by
  apply List.ext_getElem?
  intro j
  rw [getElem?_slice, getElem?_slice, getElem?_apply_redo _ _ (distinct_toList _), value_at_toList]
  split
  · next hj =>
    have hlt : start + j < 2 ^ 32 := by omega
    have hnone : agg[UInt32.ofNat (start + j)]? = none := by
      by_contra hsome
      obtain ⟨m, hm⟩ := Option.ne_none_iff_exists'.mp hsome
      have hmem := Std.ExtTreeMap.mem_toList_iff_getElem?_eq_some.mpr hm
      have hin : (UInt32.ofNat (start + j), m) ∈ coord_range agg start stop := by
        refine List.mem_filter.mpr ⟨hmem, ?_⟩
        simp only [decide_eq_true_eq, UInt32.le_iff_toNat_le, UInt32.lt_iff_toNat_lt, toNat_ofNat hlt,
          toNat_ofNat (show start < 2 ^ 32 by omega), toNat_ofNat (show stop < 2 ^ 32 by omega)]
        omega
      simp [h] at hin
    rw [show at_coord agg (start + j) = agg[UInt32.ofNat (start + j)]?.getD 0 from if_pos hlt, hnone]
    simp
  · rfl

omit [Crypto] in
theorem coord_range_empty (start stop : Nat) : coord_range ∅ start stop = [] := rfl

/-! ## The loop over the pages -/

omit [Crypto] in
theorem foldl_set_zipIdx {α β : Type} (touched : α → Bool) (f : α → β) (spans : List α) (pre ls : List β)
    (hlen : ls.length = spans.length) :
    (spans.zipIdx pre.length).foldl
        (fun (leaves : List β) (page : α × Nat) => if touched page.1 then leaves.set page.2 (f page.1) else leaves)
        (pre ++ ls) =
      pre ++ List.zipWith (fun s l => if touched s then f s else l) spans ls := by
  induction spans generalizing pre ls with
  | nil =>
    obtain rfl := List.length_eq_zero_iff.mp hlen
    rfl
  | cons s spans ih =>
    obtain ⟨l, ls, rfl⟩ := List.exists_cons_of_length_eq_add_one hlen
    have ih := ih (pre ++ [if touched s then f s else l]) ls (by simpa using hlen)
    simp only [List.zipIdx_cons, List.foldl_cons, List.zipWith_cons_cons]
    rw [show (if touched s then (pre ++ l :: ls).set pre.length (f s) else pre ++ l :: ls) =
      pre ++ [if touched s then f s else l] ++ ls by split <;> simp]
    simpa using ih

/-- Grown pages come right after the weights, each in its own span. -/
theorem grown_leaves (w : List Int64) (ips : List (List Int64)) :
    (spans_from w.length ips).map (span_leaf (w ++ ips.flatten)) =
      ips.map fun ip => merkle.leaf_hash (int64_bytes ip) := by
  induction ips generalizing w with
  | nil => rfl
  | cons ip ips ih =>
    have ih := ih (w ++ ip)
    rw [List.length_append, List.append_assoc] at ih
    simp only [spans_from, List.map_cons, List.flatten_cons, ih, span_leaf]
    congr 3
    simp [slice]

theorem state_root_with_congr {t t' : BlockTree} (hcanon : t'.canon = t.canon)
    (hleaves : t'.page_leaves = t.page_leaves) : t'.state_root_with = t.state_root_with := by
  funext spans agg ips
  simp only [BlockTree.state_root_with, hcanon, hleaves]

/-- From right leaves, the leaves of the weights after the block. -/
theorem state_root_with_leaves (t : BlockTree) (m : ModelState) (agg : Coords) (ips : List (List Int64))
    (hm : Describes m t.canon.length) (hleaves : t.page_leaves = leaves_for t.canon m)
    (hdim : agg ≠ ∅ → t.canon.length < 2 ^ 32) :
    (t.state_root_with m.spans agg ips).2 =
      (m.spans ++ spans_from t.canon.length ips).map
        (span_leaf (apply_redo t.canon agg.toList ++ ips.flatten)) := by
  have hstop : ∀ s ∈ m.spans, s.2 ≤ t.canon.length := fun s hs => hm.tiled.stop_le hs
  have hlen : (apply_redo t.canon agg.toList).length = t.canon.length := by
    exact Patch.length_modifyAll _ _
  have hzip := foldl_set_zipIdx (fun s => decide (coord_range agg s.1 s.2 ≠ []))
    (fun s => leaf_with_subs t.canon s.1 s.2 agg) m.spans [] (leaves_for t.canon m) (by simp [leaves_for_eq])
  simp only [List.nil_append, List.length_nil, decide_eq_true_eq] at hzip
  simp only [BlockTree.state_root_with, hleaves, hzip, List.map_append]
  congr 1
  · rw [leaves_for_eq, List.zipWith_map_right, List.zipWith_self]
    refine List.map_congr_left fun s hs => ?_
    have hs' := hstop s hs
    simp only [span_leaf, slice_append_left _ _ _ _ (hlen.symm ▸ hs')]
    by_cases hagg : agg = ∅
    · subst hagg
      rw [if_neg (not_not.mpr (coord_range_empty _ _)), show (∅ : Coords).toList = [] from rfl]
      rfl
    split
    · have hslice := slice_apply_redo t.canon agg s.1 s.2 hs' (hdim hagg)
      exact congrArg (fun l => merkle.leaf_hash (int64_bytes l)) hslice.symm
    · next hno => rw [slice_untouched _ _ _ _ hs' (hdim hagg) (not_not.mp hno)]
  · rw [← hlen, grown_leaves]

end Sestrian
