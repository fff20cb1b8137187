import Sestrian.Code.Produce
import Sestrian.Code.Toy
import Sestrian.Tree.Spec

/-!
# Aggregation in chunks

A producer reads the claimants' payloads in chunks of a page and keeps the means that are not zero. Added to the parent
weights, they make the transition that the validator computes from sparse or from dense bodies.
-/

namespace Sestrian

open Aggregate

namespace Chunks

/-! ## What a payload holds -/

theorem at_coord_insert (m : Coords) (i : UInt32) (v : Int64) (j : Nat) :
    at_coord (m.insert i v) j = if i.toNat = j then v else at_coord m j := by
  unfold at_coord
  by_cases hj : j < 2 ^ 32
  · rw [if_pos hj, if_pos hj]
    by_cases hi : i.toNat = j
    · have hij : i = UInt32.ofNat j := by rw [← hi, UInt32.ofNat_toNat]
      rw [if_pos hi, hij, Std.ExtTreeMap.getElem?_insert_self, Option.getD_some]
    · have hij : i ≠ UInt32.ofNat j := fun h => hi (by rw [h, toNat_ofNat hj])
      rw [if_neg hi]
      simp [hij]
  · have hi : i.toNat ≠ j := fun h => hj (h ▸ i.toNat_lt)
    rw [if_neg hj, if_neg hj, if_neg hi]

theorem last_writes_snoc (es : List (UInt32 × Int64)) (c : UInt32 × Int64) :
    Payload.last_writes (es ++ [c]) = (Payload.last_writes es).insert c.1 c.2 := by
  unfold Payload.last_writes
  rw [List.foldl_append]
  rfl

/-- The values of `[lo, hi)`, the last write of each place. -/
theorem writes_in_range (es : List (UInt32 × Int64)) (lo hi : Nat) :
    (es.filter fun c => lo ≤ c.1.toNat ∧ c.1.toNat < hi).foldl (fun out c => out.set (c.1.toNat - lo) c.2)
        (List.replicate (hi - lo) 0) =
      (List.range (hi - lo)).map fun j => at_coord (Payload.last_writes es) (lo + j) := by
  induction es using List.reverseRecOn with
  | nil =>
    have hzero (j : Nat) : at_coord (Payload.last_writes []) (lo + j) = 0 := by
      unfold at_coord Payload.last_writes
      split <;> rfl
    simp [hzero, List.map_const']
  | append_singleton es c ih =>
    rw [List.filter_append, List.foldl_append, ih, last_writes_snoc]
    apply List.ext_getElem?
    intro j
    by_cases hc : lo ≤ c.1.toNat ∧ c.1.toNat < hi
    · have hone : [c].filter (fun c => decide (lo ≤ c.1.toNat ∧ c.1.toNat < hi)) = [c] := by simp [hc]
      rw [hone, List.foldl_cons, List.foldl_nil, List.getElem?_set]
      by_cases hj : j < hi - lo
      · simp only [List.getElem?_map, List.getElem?_range hj, Option.map_some, at_coord_insert, List.length_map,
          List.length_range]
        by_cases hcj : c.1.toNat = lo + j
        · simp [hcj, hj]
        · have hplace : c.1.toNat - lo ≠ j := by omega
          simp [hplace, hcj]
      · have hplace : c.1.toNat - lo ≠ j := by omega
        have hnone : (List.range (hi - lo))[j]? = none := by simp; omega
        simp [hplace, hnone]
    · have hnone : [c].filter (fun c => decide (lo ≤ c.1.toNat ∧ c.1.toNat < hi)) = [] := by simp [hc]
      rw [hnone, List.foldl_nil]
      by_cases hj : j < hi - lo
      · have hcj : c.1.toNat ≠ lo + j := by omega
        simp only [List.getElem?_map, List.getElem?_range hj, Option.map_some, at_coord_insert, if_neg hcj]
      · have hnone : (List.range (hi - lo))[j]? = none := by simp; omega
        simp [hnone]

/-- Entries that are zero say nothing. -/
theorem value_at_nonzero (m : Coords) (j : Nat) : value_at (m.toList.filter fun c => c.2 ≠ 0) j = at_coord m j := by
  have hd := distinct_toList m
  rw [← value_at_toList]
  unfold value_at
  generalize m.toList = l at hd
  induction l with
  | nil => rfl
  | cons c l ih =>
    obtain ⟨hc, hd⟩ := List.pairwise_cons.mp hd
    have ih := ih hd
    by_cases hz : c.2 = 0
    · rw [List.filter_cons_of_neg (by simpa using hz), ih]
      by_cases hj : place c = j
      · have hnone : Patch.hit place l j = none := Patch.hit_eq_none.mpr fun a ha => hj ▸ (hc a ha).symm
        have hsome : Patch.hit place (c :: l) j = some c := by simp [Patch.hit, hj]
        rw [hnone, hsome, Option.map_some, hz]
        rfl
      · have hskip : Patch.hit place (c :: l) j = Patch.hit place l j := by simp [Patch.hit, hj]
        rw [hskip]
    · rw [List.filter_cons_of_pos (by simpa using hz)]
      by_cases hj : place c = j
      · simp [Patch.hit, hj]
      · simp only [Patch.hit, List.find?_cons, hj, decide_false] at ih ⊢
        exact ih

/-- A range of a payload is that range of its coordinates. -/
theorem dense_range_eq {p : Payload} {cs : List (UInt32 × Int64)} (h : p.coords = some cs) (lo hi : Nat) :
    p.dense_range lo hi = (List.range (hi - lo)).map fun j => value_at cs (lo + j) := by
  simp only [Payload.coords, Option.bind_eq_bind, Option.bind_eq_some_iff] at h
  obtain ⟨idx, hidx, val, hval, h⟩ := h
  split at h
  · cases h
  · split at h
    · obtain rfl := Option.some.inj h
      unfold Payload.dense_range
      rw [hidx, hval]
      simp only [value_at_nonzero]
      exact writes_in_range _ lo hi
    · cases h

/-! ## One page in chunks -/

/-- These are the coordinates of the payloads, one list for each. -/
def Decode (ps : List Payload) (css : List (List (UInt32 × Int64))) : Prop :=
  List.Forall₂ (fun p cs => p.coords = some cs) ps css

theorem Decode.columns {ps : List Payload} {css : List (List (UInt32 × Int64))} (h : Decode ps css) {lo hi j : Nat}
    (hj : j < hi - lo) : column (ps.map (·.dense_range lo hi)) j = css.map (value_at · (lo + j)) := by
  unfold Decode at h
  unfold column
  induction h with
  | nil => rfl
  | @cons p cs ps css hp _ ih =>
    rw [List.map_cons, List.map_cons, ih, List.map_cons, dense_range_eq hp]
    simp [List.getD_eq_getElem?_getD, hj]

theorem Decode.mean {ps : List Payload} {css : List (List (UInt32 × Int64))} (h : Decode ps css) (hne : ps ≠ [])
    (lo hi : Nat) : trimmed_mean (ps.map (·.dense_range lo hi)) =
      (List.range (hi - lo)).map fun j => trimmed_mean_scalar (css.map (value_at · (lo + j))) := by
  have hlen : ((ps.map (·.dense_range lo hi)).headD []).length = hi - lo := by
    cases h with
    | nil => exact absurd rfl hne
    | cons hp _ =>
      rw [List.map_cons, List.headD_cons, dense_range_eq hp, List.length_map, List.length_range]
  unfold trimmed_mean
  rw [hlen]
  refine List.map_congr_left fun j hj => ?_
  rw [h.columns (List.mem_range.mp hj)]

/-- Where the chunks end does not matter. -/
theorem chunked_aggregate_range_eq {ps : List Payload} {css : List (List (UInt32 × Int64))} (h : Decode ps css)
    (hne : ps ≠ []) {hi step : Nat} (hstep : 1 ≤ step) {fuel c : Nat} (hfuel : hi - c ≤ fuel) :
    chunked_aggregate_range ps hi step fuel c =
      (List.range (hi - c)).map fun j => trimmed_mean_scalar (css.map (value_at · (c + j))) := by
  induction fuel generalizing c with
  | zero =>
    rw [Nat.le_zero.mp hfuel]
    rfl
  | succ fuel ih =>
    unfold chunked_aggregate_range
    split
    · rename_i hc
      dsimp only
      have hsplit : hi - c = (min (c + step) hi - c) + (hi - min (c + step) hi) := by omega
      rw [h.mean hne, ih (by omega), hsplit, List.range_add, List.map_append, List.map_map]
      congr 1
      refine List.map_congr_left fun j _ => ?_
      have hplace : c + (min (c + step) hi - c + j) = min (c + step) hi + j := by omega
      rw [Function.comp_apply, hplace]
    · rename_i hc
      have hnone : hi - c = 0 := by omega
      rw [hnone]
      rfl

def add_nonzero (start : Nat) (agg : Coords) (v : Int64 × Nat) : Coords :=
  if v.1 ≠ 0 then agg.insert (UInt32.ofNat (start + v.2)) v.1 else agg

/-- The means that are not zero, on an aggregate that has nothing there yet. -/
theorem at_coord_add_nonzero (start : Nat) (m : List Int64) (hsmall : start + m.length ≤ 2 ^ 32) (agg : Coords)
    (hagg : ∀ j, start ≤ j → at_coord agg j = 0) (j : Nat) :
    at_coord (m.zipIdx.foldl (add_nonzero start) agg) j =
      if start ≤ j ∧ j < start + m.length then m.getD (j - start) 0 else at_coord agg j := by
  induction m using List.reverseRecOn with
  | nil => simp
  | append_singleton m v ih =>
    rw [List.length_append, List.length_singleton] at hsmall
    have ih := ih (by omega)
    have hlast : (UInt32.ofNat (start + m.length)).toNat = start + m.length := toNat_ofNat (by omega)
    rw [List.zipIdx_append, List.foldl_append]
    simp only [List.zipIdx_cons, List.zipIdx_nil, List.foldl_cons, List.foldl_nil, Nat.zero_add]
    have hstep : at_coord (add_nonzero start (m.zipIdx.foldl (add_nonzero start) agg) (v, m.length)) j =
        if start + m.length = j then v else at_coord (m.zipIdx.foldl (add_nonzero start) agg) j := by
      generalize m.zipIdx.foldl (add_nonzero start) agg = agg' at ih
      unfold add_nonzero
      split
      · rw [at_coord_insert, hlast]
      · rename_i hv
        have hzero : v = 0 := not_not.mp hv
        by_cases hj : start + m.length = j
        · rw [if_pos hj, ih, if_neg (by omega), hagg j (by omega), hzero]
        · rw [if_neg hj]
    rw [hstep, ih, List.length_append, List.length_singleton]
    by_cases hj : start + m.length = j
    · have hin : start ≤ j ∧ j < start + (m.length + 1) := by omega
      have hplace : j - start = m.length := by omega
      rw [if_pos hj, if_pos hin, hplace, List.getD_eq_getElem?_getD, List.getElem?_concat_length, Option.getD_some]
    · rw [if_neg hj]
      by_cases hin : start ≤ j ∧ j < start + m.length
      · have hin' : start ≤ j ∧ j < start + (m.length + 1) := by omega
        have hplace : j - start < m.length := by omega
        rw [if_pos hin, if_pos hin', List.getD_eq_getElem?_getD, List.getD_eq_getElem?_getD,
          List.getElem?_append_left hplace]
      · have hout : ¬ (start ≤ j ∧ j < start + (m.length + 1)) := by omega
        rw [if_neg hin, if_neg hout]

/-! ## The page table -/

/-- One page: the claimants' payloads aggregated in chunks of `chunk_size`, and the means that are not zero. -/
def chunk_page (chunk_size : Nat) (txs : List BackpropTx) (payloads : List Payload) (agg : Coords)
    (page : (Nat × Nat) × Nat) : Coords :=
  let claimants := ((txs.zip payloads).filter fun tp => tp.1.canonical_pages.contains (UInt32.ofNat page.2)).map (·.2)
  if claimants.isEmpty then agg
  else (chunked_aggregate_range claimants page.1.2 (max chunk_size 1) (page.1.2 - page.1.1) page.1.1).zipIdx.foldl
    (add_nonzero page.1.1) agg

def chunk_aggregate (chunk_size : Nat) (txs : List BackpropTx) (payloads : List Payload) (spans : List (Nat × Nat)) :
    Coords :=
  spans.zipIdx.foldl (chunk_page chunk_size txs payloads) ∅

theorem decode_claimed {txs : List BackpropTx} {payloads : List Payload} {css : List (List (UInt32 × Int64))}
    (h : Decode payloads css) (P : BackpropTx → Bool) :
    Decode (((txs.zip payloads).filter fun tp => P tp.1).map (·.2)) (((txs.zip css).filter fun tc => P tc.1).map (·.2)) := by
  unfold Decode at h ⊢
  induction h generalizing txs with
  | nil => simp
  | @cons p cs ps css hp _ ih =>
    cases txs with
    | nil => simp
    | cons tx txs =>
      rw [List.zip_cons_cons, List.zip_cons_cons, List.filter_cons, List.filter_cons]
      split
      · rw [List.map_cons, List.map_cons]
        exact .cons hp ih
      · exact ih

/-- A page in chunks adds what the sparse columns of the page add. -/
theorem at_coord_chunk_page (chunk_size : Nat) (block : Block) {payloads : List Payload}
    {css : List (List (UInt32 × Int64))} (h : Decode payloads css) {start stop : Nat} (k : Nat)
    (hle : start ≤ stop) (hsmall : stop ≤ 2 ^ 32) (agg : Coords) (hagg : ∀ j, start ≤ j → at_coord agg j = 0) (j : Nat) :
    at_coord (chunk_page chunk_size block.txs payloads agg ((start, stop), k)) j =
      if start ≤ j ∧ j < stop then trimmed_mean_scalar ((claimants_of block css k).map (value_at · j))
      else at_coord agg j := by
  have hd := @decode_claimed block.txs payloads css h fun tx => tx.canonical_pages.contains (UInt32.ofNat k)
  unfold chunk_page
  dsimp only
  generalize hps : ((block.txs.zip payloads).filter fun tp => tp.1.canonical_pages.contains (UInt32.ofNat k)).map (·.2) = ps at hd
  change Decode ps (claimants_of block css k) at hd
  by_cases hne : ps = []
  · have hnone : claimants_of block css k = [] := by
      rw [hne] at hd
      exact List.forall₂_nil_left_iff.mp hd
    have hzero : trimmed_mean_scalar [] = 0 := trimmed_mean_zeros 0
    rw [hne, List.isEmpty_nil, if_pos rfl, hnone, List.map_nil, hzero]
    split
    · rename_i hj
      exact hagg j hj.1
    · rfl
  · have hempty : ps.isEmpty = false := List.isEmpty_eq_false_iff.mpr hne
    have hm := chunked_aggregate_range_eq hd hne (le_max_right chunk_size 1) (le_refl (stop - start))
    rw [hempty, if_neg (by decide), hm, at_coord_add_nonzero start _ (by simp; omega) agg hagg, List.length_map,
      List.length_range]
    have hstop : start + (stop - start) = stop := by omega
    rw [hstop]
    by_cases hj : start ≤ j ∧ j < stop
    · have hplace : j - start < stop - start := by omega
      have hsame : start + (j - start) = j := by omega
      rw [if_pos hj, if_pos hj]
      simp [List.getD_eq_getElem?_getD, hplace, hsame]
    · rw [if_neg hj, if_neg hj]

theorem chunk_pages_agree (chunk_size : Nat) (block : Block) {payloads : List Payload}
    {css : List (List (UInt32 × Int64))} (h : Decode payloads css) (hd : ∀ cs ∈ css, Patch.Distinct place cs)
    {spans : List (Nat × Nat)} {a n : Nat} (k : Nat) (ht : Tiled a spans n) (hn : n ≤ 2 ^ 32) {agg agg' : Coords}
    (hsame : ∀ j, at_coord agg j = at_coord agg' j) (hz : ∀ j, a ≤ j → at_coord agg' j = 0) (j : Nat) :
    at_coord ((spans.zipIdx k).foldl (chunk_page chunk_size block.txs payloads) agg) j =
      at_coord ((spans.zipIdx k).foldl (aggregate_page block css) agg') j := by
  induction spans generalizing a k agg agg' with
  | nil => exact hsame j
  | cons s rest ih =>
    obtain ⟨rfl, hle, ht⟩ := ht
    have hd' : ∀ cs ∈ claimants_of block css k, Patch.Distinct place cs := by
      intro cs hcs
      obtain ⟨⟨tx, cs'⟩, hm, rfl⟩ := List.mem_map.mp hcs
      exact hd cs' (List.of_mem_zip (List.mem_filter.mp hm).1).2
    have hchunk := at_coord_chunk_page chunk_size block h k hle (ht.le.trans hn) agg fun j hj => by rw [hsame, hz j hj]
    have hsparse := at_coord_page (claimants_of block css k) s.1 s.2 hd' agg' hz
    refine ih (k + 1) ht (fun j => ?_) (fun j hj => ?_)
    · rw [hchunk j, aggregate_page, hsparse j, hsame j]
    · have hout : ¬ (s.1 ≤ j ∧ j < s.2) := by omega
      rw [aggregate_page, hsparse j, if_neg hout]
      exact hz j (hle.trans hj)

/-- A payload that carries the body. -/
def Carries (p : Payload) (body : List Int64) : Prop := p.n = body.length ∧ p.coords = some (dense_coords body)

/-- The dense transition, the parent plus the sparse aggregate, and the parent plus the chunked aggregate of the payloads
are the same weights. -/
theorem three_aggregators_agree (w : List Int64) (block : Block) (spans : List (Nat × Nat)) (bodies : List (List Int64))
    (ht : Tiled 0 spans w.length) (hdim : w.length < 2 ^ 32) (hlen : block.txs.length = bodies.length)
    (hbodies : ∀ b ∈ bodies, b.length = w.length) :
    apply_redo w (page_aggregate block spans (bodies.map dense_coords)).toList =
        paged_transition w bodies (block.txs.map (·.canonical_pages)) spans ∧
      ∀ (chunk_size : Nat) (payloads : List Payload), List.Forall₂ Carries payloads bodies →
        apply_redo w (chunk_aggregate chunk_size block.txs payloads spans).toList =
          paged_transition w bodies (block.txs.map (·.canonical_pages)) spans := by
  have hrep : List.Forall₂ Represents (bodies.map dense_coords) bodies := by
    rw [List.forall₂_map_left_iff]
    refine List.forall₂_same.mpr fun b hb => ?_
    refine represents_dense { vals := b, addressable := fun i hi => ?_ }
    by_contra hbig
    rw [List.getD_eq_getElem?_getD, List.getElem?_eq_none (by have := hbodies b hb; omega)] at hi
    exact hi rfl
  have hsparse := apply_redo_aggregate w block spans (bodies.map dense_coords) bodies ht hrep
    (by rw [hlen, List.length_map]) fun b hb => (hbodies b hb).ge
  refine ⟨hsparse, fun chunk_size payloads hcarries => ?_⟩
  have hdecode : Decode payloads (bodies.map dense_coords) := by
    unfold Decode
    rw [List.forall₂_map_right_iff]
    exact hcarries.imp fun _ _ h => h.2
  have hdistinct : ∀ cs ∈ bodies.map dense_coords, Patch.Distinct place cs := by
    intro cs hcs
    obtain ⟨i, hi, rfl⟩ := List.getElem_of_mem hcs
    exact (hrep.get hi (hrep.length_eq ▸ hi)).distinct
  rw [← hsparse]
  apply List.ext_getElem?
  intro j
  rw [getElem?_apply_redo _ _ (distinct_toList _), getElem?_apply_redo _ _ (distinct_toList _), value_at_toList,
    value_at_toList]
  have hzero : ∀ j, 0 ≤ j → at_coord ∅ j = 0 := fun j _ => by simp [at_coord]
  unfold chunk_aggregate page_aggregate
  rw [chunk_pages_agree chunk_size block hdecode hdistinct 0 ht hdim.le (fun _ => rfl) hzero]

/-- The producer's aggregate, with its own chunk size. -/
theorem node_aggregate_eq [Crypto] (s : Node) (model : ModelState) (chosen : List BackpropTx) :
    s.aggregate model chosen = chunk_aggregate AGG_CHUNK chosen (chosen.map s.payload_of) model.spans := by
  have hclaimants (k : Nat) : (chosen.filter fun t => UInt32.ofNat k ∈ t.canonical_pages).map s.payload_of =
      ((chosen.zip (chosen.map s.payload_of)).filter fun tp => tp.1.canonical_pages.contains (UInt32.ofNat k)).map (·.2) := by
    induction chosen with
    | nil => rfl
    | cons t ts ih =>
      rw [List.map_cons, List.zip_cons_cons, List.filter_cons, List.filter_cons]
      simp only [List.contains_eq_mem]
      split
      · rw [List.map_cons, ih, List.map_cons]
        simp only [List.contains_eq_mem]
      · rw [ih]
        simp only [List.contains_eq_mem]
  have hchunk : max AGG_CHUNK 1 = AGG_CHUNK := by decide
  unfold Node.aggregate chunk_aggregate ModelState.spans
  rw [List.zipIdx_map, List.foldl_map]
  congr 1
  funext agg page
  unfold Node.aggregate_claimed chunk_page
  simp only [hclaimants, hchunk, Prod.map_fst, Prod.map_snd, id]
  rfl

end Chunks

open scoped Toy

namespace Toy

def unit_tx : BackpropTx :=
  { miner := "", base_height := 0, delta_hash := "", da_pointer := "", bond := 0, pages := [0], data_refs := [], sig := [] }

/-- The base64 of coordinate 0 with value 1. -/
def unit_payload : Payload := { n := 1, idx := "AAAAAA==", val := "AQAAAA==" }

def claim (pages : List UInt32) : BackpropTx := { unit_tx with pages }

/-- Three deltas, of which two claim the second page. -/
def claims_block : Block :=
  { header := genesis_header [5] params, txs := [claim [0], claim [0, 1], claim [1]], bodies := ∅, sparse := ∅
    transfers := [], data_txs := [], scores := ∅, sketches := ∅, witness_leaves := [] }

def claims_bodies : List (List Int64) := [[1, 0, 0], [-2, 0, 3], [0, 4, 5]]

/-- The base64 of the coordinates of these bodies. -/
def claims_payloads : List Payload :=
  [{ unit_payload with n := 3 }, { n := 3, idx := "AAAAAAIAAAA=", val := "/v///wMAAAA=" },
    { n := 3, idx := "AQAAAAIAAAA=", val := "BAAAAAUAAAA=" }]

theorem claims_carried : List.Forall₂ Chunks.Carries claims_payloads claims_bodies := by
  have hcoords : claims_payloads.map Payload.coords = claims_bodies.map fun b => some (dense_coords b) := by decide +kernel
  simp only [claims_payloads, claims_bodies, List.map_cons, List.map_nil, List.cons.injEq] at hcoords
  obtain ⟨hfirst, hsecond, hthird, -⟩ := hcoords
  exact .cons ⟨rfl, hfirst⟩ (.cons ⟨rfl, hsecond⟩ (.cons ⟨rfl, hthird⟩ .nil))

end Toy

theorem three_aggregators_agree_claims :
    let claims := Toy.claims_block.txs.map (·.canonical_pages)
    let spans := [(0, 1), (1, 3)]
    apply_redo [5, 6, 7] (page_aggregate Toy.claims_block spans (Toy.claims_bodies.map dense_coords)).toList =
        paged_transition [5, 6, 7] Toy.claims_bodies claims spans ∧
      apply_redo [5, 6, 7] (Chunks.chunk_aggregate 1 Toy.claims_block.txs Toy.claims_payloads spans).toList =
        paged_transition [5, 6, 7] Toy.claims_bodies claims spans := by
  intro claims spans
  have htiled : Tiled 0 spans ([5, 6, 7] : List Int64).length := ⟨rfl, by decide, rfl, by decide, rfl⟩
  have h := Chunks.three_aggregators_agree [5, 6, 7] Toy.claims_block spans Toy.claims_bodies htiled (by norm_num) rfl
    (by decide)
  exact ⟨h.1, h.2 1 Toy.claims_payloads Toy.claims_carried⟩

end Sestrian
