import Sestrian.Lib.Patch
import Sestrian.Lib.SumMap
import Sestrian.Code.BlockTree

/-!
# The sparse aggregate is the dense transition

`page_aggregate` works on sparse coordinates and `paged_transition` on whole vectors. Both
add, at each coordinate, the trimmed mean of one column.
-/

open Patch

namespace Sestrian.Aggregate

/-! ## Sparse coordinates -/

/-- The place a sparse entry stands for. -/
def place {ν : Type} (c : UInt32 × ν) : Nat := c.1.toNat

/-- The value of a sparse vector at one place. -/
def value_at (coords : List (UInt32 × Int64)) (j : Nat) : Int64 := ((hit place coords j).map (·.2)).getD 0

/-- The sparse entries and the dense vector hold the same values. -/
structure Represents (coords : List (UInt32 × Int64)) (body : List Int64) : Prop where
  distinct : Distinct place coords
  values : ∀ j, body.getD j 0 = value_at coords j

theorem value_at_cons (c : UInt32 × Int64) (coords : List (UInt32 × Int64)) (j : Nat) :
    value_at (c :: coords) j = if place c = j then c.2 else value_at coords j := by
  by_cases h : place c = j <;> simp [value_at, hit, h]

theorem value_at_eq_zero {coords : List (UInt32 × Int64)} {j : Nat} (h : ∀ c ∈ coords, place c ≠ j) :
    value_at coords j = 0 := by
  simp [value_at, hit_eq_none.mpr h]

theorem value_at_large (coords : List (UInt32 × Int64)) (j : Nat) (hj : 2 ^ 32 ≤ j) : value_at coords j = 0 :=
  value_at_eq_zero fun c _ hc => absurd c.1.toNat_lt (by simp only [place] at hc; omega)

/-- What a coordinate map holds at a place. -/
def at_coord (agg : Coords) (j : Nat) : Int64 := if j < 2 ^ 32 then agg[UInt32.ofNat j]?.getD 0 else 0

theorem distinct_toList {ν : Type} (m : Std.ExtTreeMap UInt32 ν compare) : Distinct place m.toList := by
  apply (Std.ExtTreeMap.distinct_keys_toList (t := m)).imp
  intro a b hab hp
  exact hab (by simp [UInt32.toNat_inj.mp hp])

theorem hit_toList {ν : Type} (m : Std.ExtTreeMap UInt32 ν compare) (i : UInt32) :
    hit place m.toList i.toNat = m[i]?.map fun v => (i, v) := by
  cases h : m[i]? with
  | none =>
    refine hit_eq_none.mpr fun c hc hp => ?_
    rw [Std.ExtTreeMap.mem_toList_iff_getElem?_eq_some, UInt32.toNat_inj.mp hp, h] at hc
    exact absurd hc (by simp)
  | some v =>
    exact hit_of_mem (distinct_toList m) (c := (i, v)) (Std.ExtTreeMap.mem_toList_iff_getElem?_eq_some.mpr h)

theorem toNat_ofNat {j : Nat} (hj : j < 2 ^ 32) : (UInt32.ofNat j).toNat = j := UInt32.toNat_ofNat_of_lt' hj

theorem value_at_toList (agg : Coords) (j : Nat) : value_at agg.toList j = at_coord agg j := by
  unfold at_coord
  split
  · next hj =>
    have := hit_toList agg (UInt32.ofNat j)
    rw [toNat_ofNat hj] at this
    cases h : agg[UInt32.ofNat j]? <;> simp [value_at, this, h]
  · next hj => exact value_at_large _ _ (by omega)

/-- A redo adds the aggregate, place by place. -/
theorem getElem?_apply_redo (w : List Int64) (coords : List (UInt32 × Int64)) (hd : Distinct place coords)
    (j : Nat) : (apply_redo w coords)[j]? = w[j]?.map (· + value_at coords j) := by
  have := getElem?_modifyAll (f := fun c x => x + c.2) hd w j
  refine Eq.trans this ?_
  cases h : hit place coords j <;> simp [value_at, h]

/-! ## One page, sparse -/

theorem get_touch_all (start stop k slot : Nat) (coords : List (UInt32 × Int64)) (hd : Distinct place coords)
    (m : Std.ExtTreeMap UInt32 (List Int64) compare) (i : UInt32) :
    (coords.foldl (touch start stop k slot) m)[i]? =
      if start ≤ i.toNat ∧ i.toNat < stop ∧ value_at coords i.toNat ≠ 0 then
        some ((m[i]?.getD (List.replicate k 0)).set slot (value_at coords i.toNat))
      else m[i]? := by
  induction coords generalizing m with
  | nil => simp [value_at, hit]
  | cons c coords ih =>
    obtain ⟨hc, hd⟩ := List.pairwise_cons.mp hd
    rw [List.foldl_cons, ih hd, value_at_cons]
    by_cases hi : place c = i.toNat
    · have hz : value_at coords i.toNat = 0 := value_at_eq_zero fun a ha => hi ▸ (hc a ha).symm
      have hci : c.1 = i := UInt32.toNat_inj.mp hi
      simp only [hz, hi, touch, hci, if_true, ne_eq, not_true, and_false, if_false]
      split <;> simp
    · have hci : c.1 ≠ i := fun h => hi (h ▸ rfl)
      have ht : (touch start stop k slot m c)[i]? = m[i]? := by
        unfold touch
        split <;> simp [hci]
      simp [ht, hi]

theorem set_replicate (l : List Int64) (n : Nat) (x : Int64) (hn : l.length < n) :
    (l ++ List.replicate (n - l.length) 0).set l.length x =
      l ++ [x] ++ List.replicate (n - (l.length + 1)) 0 := by
  obtain ⟨d, rfl⟩ : ∃ d, n = l.length + (d + 1) := ⟨n - l.length - 1, by omega⟩
  have h₁ : l.length + (d + 1) - l.length = d + 1 := by omega
  have h₂ : l.length + (d + 1) - (l.length + 1) = d := by omega
  rw [h₁, h₂, List.set_append_right _ _ le_rfl]
  simp [List.replicate_succ]

/-- The columns after the first claimants: their values, then zeros. -/
def ColumnsOf (pre : List (List (UInt32 × Int64))) (start stop n : Nat)
    (m : Std.ExtTreeMap UInt32 (List Int64) compare) : Prop :=
  ∀ i : UInt32, m[i]? =
    if start ≤ i.toNat ∧ i.toNat < stop ∧ ∃ cs ∈ pre, value_at cs i.toNat ≠ 0 then
      some (pre.map (value_at · i.toNat) ++ List.replicate (n - pre.length) 0)
    else none

theorem columns_step {pre : List (List (UInt32 × Int64))} {start stop n : Nat}
    {m : Std.ExtTreeMap UInt32 (List Int64) compare} (hm : ColumnsOf pre start stop n m)
    (cs : List (UInt32 × Int64)) (hd : Distinct place cs) (hn : pre.length < n) :
    ColumnsOf (pre ++ [cs]) start stop n (cs.foldl (touch start stop n pre.length) m) := by
  intro i
  rw [get_touch_all _ _ _ _ _ hd, hm i]
  have hzeros : (∀ x ∈ pre, value_at x i.toNat = 0) →
      pre.map (value_at · i.toNat) = List.replicate pre.length 0 := fun h =>
    List.eq_replicate_iff.mpr ⟨by simp, by simpa using h⟩
  have hset := set_replicate (pre.map (value_at · i.toNat)) n (value_at cs i.toNat) (by simpa using hn)
  simp only [List.length_map] at hset
  by_cases hs : start ≤ i.toNat ∧ i.toNat < stop
  · obtain ⟨h₁, h₂⟩ := hs
    by_cases hv : value_at cs i.toNat = 0
    · -- the claimant leaves its zero in place
      by_cases hp : ∃ x ∈ pre, value_at x i.toNat ≠ 0
      · have : List.replicate (n - pre.length) (0 : Int64) = 0 :: List.replicate (n - (pre.length + 1)) 0 := by
          rw [← List.replicate_succ]
          congr 1
          omega
        simp [h₁, h₂, hv, hp, List.mem_append, or_and_right, exists_or, this]
      · have hp' : ¬ ∃ x ∈ pre ++ [cs], value_at x i.toNat ≠ 0 := by simpa [hv] using hp
        simp only [hv, hp, hp', ne_eq, not_true, and_false, if_false]
    · have hex : ∃ x ∈ pre ++ [cs], value_at x i.toNat ≠ 0 := ⟨cs, by simp, hv⟩
      by_cases hp : ∃ x ∈ pre, value_at x i.toNat ≠ 0
      · simp only [h₁, h₂, hv, hp, hex, ne_eq, not_false_eq_true, and_self, if_true, Option.getD_some, hset]
        simp
      · have hz := hzeros (by simpa using hp)
        have hrep : List.replicate n (0 : Int64) =
            List.replicate pre.length 0 ++ List.replicate (n - pre.length) 0 := by
          rw [← List.replicate_add]
          congr 1
          omega
        simp only [h₁, h₂, hv, hp, hex, ne_eq, not_false_eq_true, and_self, if_true, if_false, and_false,
          Option.getD_none, hrep, ← hz, hset]
        simp
  · have hs' : ∀ q : Prop, ¬ (start ≤ i.toNat ∧ i.toNat < stop ∧ q) := fun q h => hs ⟨h.1, h.2.1⟩
    simp [hs']

theorem columns_all (start stop n : Nat) (l pre : List (List (UInt32 × Int64)))
    (m : Std.ExtTreeMap UInt32 (List Int64) compare) (hm : ColumnsOf pre start stop n m)
    (hd : ∀ cs ∈ l, Distinct place cs) (hn : pre.length + l.length = n) :
    ColumnsOf (pre ++ l) start stop n
      ((l.zipIdx pre.length).foldl (fun m cs => cs.1.foldl (touch start stop n cs.2) m) m) := by
  induction l generalizing pre m with
  | nil => simpa using hm
  | cons cs l ih =>
    simp only [List.length_cons] at hn
    have := ih (pre ++ [cs]) _ (columns_step hm cs (hd cs (by simp)) (by omega))
      (fun x hx => hd x (by simp [hx])) (by simp; omega)
    simpa using this

/-- A touched coordinate has the values of all claimants as its column. -/
theorem get_touched_columns (claimants : List (List (UInt32 × Int64))) (start stop : Nat)
    (hd : ∀ cs ∈ claimants, Distinct place cs) (i : UInt32) :
    (touched_columns claimants start stop)[i]? =
      if start ≤ i.toNat ∧ i.toNat < stop ∧ ∃ cs ∈ claimants, value_at cs i.toNat ≠ 0 then
        some (claimants.map (value_at · i.toNat))
      else none := by
  have := columns_all start stop claimants.length claimants [] ∅ (fun i => by simp) hd (by simp) i
  simpa [touched_columns] using this

theorem get_add_means (agg : Coords) (cols : List (UInt32 × List Int64)) (hd : Distinct place cols) (i : UInt32) :
    (cols.foldl add_mean agg)[i]? = match hit place cols i.toNat with
      | some c => if trimmed_mean_scalar c.2 ≠ 0 then some (trimmed_mean_scalar c.2) else agg[i]?
      | none => agg[i]? := by
  induction cols generalizing agg with
  | nil => rfl
  | cons c cols ih =>
    obtain ⟨hc, hd⟩ := List.pairwise_cons.mp hd
    rw [List.foldl_cons, ih _ hd]
    by_cases hi : place c = i.toNat
    · have hn : hit place cols i.toNat = none := hit_eq_none.mpr fun a ha => hi ▸ (hc a ha).symm
      have hs : hit place (c :: cols) i.toNat = some c := by simp [hit, hi]
      have hci : c.1 = i := UInt32.toNat_inj.mp hi
      simp only [hn, hs, add_mean, hci]
      split <;> simp
    · have hs : hit place (c :: cols) i.toNat = hit place cols i.toNat := by simp [hit, hi]
      have hci : c.1 ≠ i := fun h => hi (h ▸ rfl)
      have ha : (add_mean agg c)[i]? = agg[i]? := by
        unfold add_mean
        split <;> simp [hci]
      simp only [hs, ha]

theorem trimmed_mean_zeros (n : Nat) : trimmed_mean_scalar (List.replicate n 0) = 0 := by
  have hsort : (List.replicate n (0 : Int64)).insertionSort (· ≤ ·) = List.replicate n 0 :=
    List.eq_replicate_iff.mpr ⟨by simp, fun b hb => by
      simpa using (List.eq_of_mem_replicate ((List.mem_insertionSort _).mp hb))⟩
  have hslice (a b : Nat) : ∃ k, slice (List.replicate n (0 : Int64)) a b = List.replicate k 0 :=
    ⟨min (b - a) (n - a), by simp [slice]⟩
  have hsum (k : Nat) : (List.replicate k (0 : Int64)).foldl (· + ·) 0 = 0 := by
    induction k with
    | zero => rfl
    | succ k ih => simpa [List.replicate_succ] using ih
  unfold trimmed_mean_scalar
  obtain ⟨k, hk⟩ := hslice (trim_bounds (List.replicate n (0 : Int64)).length).1
    (trim_bounds (List.replicate n (0 : Int64)).length).2
  simp only [hsort, hk, hsum]
  simp

theorem mean_of_zeros {α : Type} (l : List α) (f : α → Int64) (h : ∀ x ∈ l, f x = 0) :
    trimmed_mean_scalar (l.map f) = 0 := by
  have : l.map f = List.replicate l.length 0 := List.eq_replicate_iff.mpr ⟨by simp, by simpa using h⟩
  rw [this, trimmed_mean_zeros]

/-- One page adds the mean of each of its columns to an aggregate that has nothing there yet. -/
theorem at_coord_page (claimants : List (List (UInt32 × Int64))) (start stop : Nat)
    (hd : ∀ cs ∈ claimants, Distinct place cs) (agg : Coords)
    (hagg : ∀ j, start ≤ j → at_coord agg j = 0) (j : Nat) :
    at_coord ((touched_columns claimants start stop).toList.foldl add_mean agg) j =
      if start ≤ j ∧ j < stop then trimmed_mean_scalar (claimants.map (value_at · j)) else at_coord agg j := by
  by_cases hj : j < 2 ^ 32
  · have hval (m : Coords) : at_coord m j = m[UInt32.ofNat j]?.getD 0 := if_pos hj
    rw [hval, hval, get_add_means _ _ (distinct_toList _), hit_toList, get_touched_columns _ _ _ hd, toNat_ofNat hj]
    by_cases hs : start ≤ j ∧ j < stop
    · have h0 := hval agg ▸ hagg j hs.1
      by_cases hv : ∃ cs ∈ claimants, value_at cs j ≠ 0
      · simp only [hs, hv, and_self, if_true, Option.map_some]
        split
        · simp
        · next hm => simpa [h0] using (not_not.mp hm).symm
      · rw [mean_of_zeros claimants (value_at · j) (by simpa using hv)]
        simp [hv, h0, hs]
    · have hs' : ¬ (start ≤ j ∧ j < stop ∧ ∃ cs ∈ claimants, value_at cs j ≠ 0) := fun h => hs ⟨h.1, h.2.1⟩
      simp [hs', hs]
  · have hz := mean_of_zeros claimants (value_at · j) fun cs _ => value_at_large cs j (by omega)
    have hval (m : Coords) : at_coord m j = 0 := if_neg hj
    simp [hval, hz]

/-! ## One page, dense -/

/-- The bodies whose claims include the page. -/
def claimed (bodies : List (List Int64)) (claims : List (List UInt32)) (page_id : Nat) : List (List Int64) :=
  ((bodies.zip claims).filter fun bc => bc.2.contains (UInt32.ofNat page_id)).map (·.1)

theorem contributors_eq (bodies : List (List Int64)) (claims : List (List UInt32)) (page_id start stop : Nat) :
    contributors bodies claims page_id start stop = (claimed bodies claims page_id).map (slice · start stop) := by
  simp [contributors, claimed, Function.comp_def]

theorem getD_slice {α : Type} (l : List α) (start stop j : Nat) (d : α) (h₁ : start ≤ j) (h₂ : j < stop) :
    (slice l start stop).getD (j - start) d = l.getD j d := by
  have hj : start + (j - start) = j := by omega
  have hlt : j - start < stop - start := by omega
  simp [slice, List.getD_eq_getElem?_getD, hlt, hj]

theorem length_slice {α : Type} (l : List α) (start stop : Nat) (h : stop ≤ l.length) :
    (slice l start stop).length = stop - start := by
  simp [slice]
  omega

theorem mem_claimed {bodies : List (List Int64)} {claims : List (List UInt32)} {page_id : Nat} {b : List Int64}
    (h : b ∈ claimed bodies claims page_id) : b ∈ bodies := by
  obtain ⟨⟨b', c⟩, hbc, rfl⟩ := List.mem_map.mp h
  exact (List.of_mem_zip (List.mem_filter.mp hbc).1).1

/-- One dense page adds the mean of each column of its span. -/
theorem getElem?_page_step (bodies : List (List Int64)) (claims : List (List UInt32)) (w : List Int64)
    (start stop page_id : Nat) (hb : ∀ b ∈ bodies, stop ≤ b.length) (j : Nat) :
    (page_step bodies claims w ((start, stop), page_id))[j]? = w[j]?.map (· +
      if start ≤ j ∧ j < stop then
        trimmed_mean_scalar ((claimed bodies claims page_id).map (·.getD j 0))
      else 0) := by
  unfold page_step
  rw [contributors_eq]
  cases hc : claimed bodies claims page_id with
  | nil =>
    have : trimmed_mean_scalar [] = 0 := trimmed_mean_zeros 0
    simp [this]
  | cons b rest =>
    have hlen : b.length ≥ stop := hb b (mem_claimed (hc ▸ List.mem_cons_self))
    simp only [List.map_cons, List.isEmpty_cons, Bool.false_eq_true, if_false, add_at, List.getElem?_mapIdx]
    congr 1
    funext x
    by_cases h₁ : start ≤ j
    · have hin : j - start < stop - start ↔ j < stop := by omega
      simp only [h₁, if_true, true_and, trimmed_mean, List.headD_cons, length_slice b _ _ hlen]
      by_cases h₂ : j < stop
      · have : (b :: rest).map (·.getD j 0) = column ((b :: rest).map (slice · start stop)) (j - start) := by
          simp only [column, List.map_map, Function.comp_def, getD_slice _ _ _ _ _ h₁ h₂]
        simp only [List.map_cons] at this
        simp [List.getD_eq_getElem?_getD, hin, h₂, ← this]
      · simp [List.getD_eq_getElem?_getD, hin, h₂]
    · simp [h₁]

/-! ## The whole page table -/

/-- The spans cover `[a, b)` one after the other. -/
def Tiled : Nat → List (Nat × Nat) → Nat → Prop
  | a, [], b => a = b
  | a, s :: rest, b => s.1 = a ∧ a ≤ s.2 ∧ Tiled s.2 rest b

theorem Tiled.le {a b : Nat} {spans : List (Nat × Nat)} (h : Tiled a spans b) : a ≤ b := by
  induction spans generalizing a with
  | nil => exact Nat.le_of_eq h
  | cons s rest ih => exact h.2.1.trans (ih h.2.2)

theorem Tiled.stop_le {a b : Nat} {spans : List (Nat × Nat)} (h : Tiled a spans b) {s : Nat × Nat}
    (hs : s ∈ spans) : s.2 ≤ b := by
  induction spans generalizing a with
  | nil => simp at hs
  | cons s' rest ih =>
    rcases List.mem_cons.mp hs with rfl | hs
    · exact h.2.2.le
    · exact ih h.2.2 hs

theorem Tiled.start_le {a b : Nat} {spans : List (Nat × Nat)} (h : Tiled a spans b) {s : Nat × Nat}
    (hs : s ∈ spans) : a ≤ s.1 := by
  induction spans generalizing a with
  | nil => simp at hs
  | cons s' rest ih =>
    rcases List.mem_cons.mp hs with rfl | hs
    · exact h.1.ge
    · exact h.2.1.trans (ih h.2.2 hs)

theorem claimed_values (txs : List BackpropTx) (tx_coords : List (List (UInt32 × Int64)))
    (bodies : List (List Int64)) (hr : List.Forall₂ Represents tx_coords bodies)
    (hlen : txs.length = tx_coords.length) (page_id j : Nat) :
    (((txs.zip tx_coords).filter fun tc => tc.1.canonical_pages.contains (UInt32.ofNat page_id)).map
      (·.2)).map (value_at · j) =
      (claimed bodies (txs.map (·.canonical_pages)) page_id).map (·.getD j 0) := by
  induction hr generalizing txs with
  | nil => simp [claimed]
  | @cons cs b _ _ hcb _ ih =>
    obtain ⟨tx, txs, rfl⟩ := List.exists_cons_of_length_eq_add_one hlen
    have ih := ih txs (by simpa using hlen)
    simp only [claimed, List.map_cons, List.zip_cons_cons, List.filter_cons] at ih ⊢
    split
    · simp only [List.map_cons, ih, ← hcb.values j]
    · exact ih

/-- The pages read so far have added the same to both sides, and nothing past their end. -/
def Agree (w : List Int64) (a : Nat) (dense : List Int64) (agg : Coords) : Prop :=
  (∀ j, dense[j]? = w[j]?.map (· + at_coord agg j)) ∧ ∀ j, a ≤ j → at_coord agg j = 0

theorem agree_pages (w : List Int64) (block : Block) (tx_coords : List (List (UInt32 × Int64)))
    (bodies : List (List Int64)) (hr : List.Forall₂ Represents tx_coords bodies)
    (hlen : block.txs.length = tx_coords.length) (spans : List (Nat × Nat)) (a n k : Nat)
    (ht : Tiled a spans n) (hb : ∀ b ∈ bodies, n ≤ b.length) (dense : List Int64) (agg : Coords)
    (h : Agree w a dense agg) :
    Agree w n ((spans.zipIdx k).foldl (page_step bodies (block.txs.map (·.canonical_pages))) dense)
      ((spans.zipIdx k).foldl (aggregate_page block tx_coords) agg) := by
  induction spans generalizing a k dense agg with
  | nil => exact (show a = n from ht) ▸ h
  | cons s rest ih =>
    obtain ⟨rfl, hle, ht⟩ := ht
    obtain ⟨hw, hz⟩ := h
    have hd : ∀ cs ∈ claimants_of block tx_coords k, Distinct place cs := by
      intro cs hcs
      obtain ⟨⟨tx, cs'⟩, hm, rfl⟩ := List.mem_map.mp hcs
      have hmem : cs' ∈ tx_coords := (List.of_mem_zip (List.mem_filter.mp hm).1).2
      obtain ⟨i, hi, rfl⟩ := List.getElem_of_mem hmem
      exact (hr.get hi (hr.length_eq ▸ hi)).distinct
    have hpage := at_coord_page (claimants_of block tx_coords k) s.1 s.2 hd agg hz
    refine ih s.2 (k + 1) ht _ _ ⟨fun j => ?_, fun j hj => ?_⟩
    · have hmean := claimed_values block.txs tx_coords bodies hr hlen k j
      rw [getElem?_page_step _ _ _ _ _ _ (fun b hb' => ht.le.trans (hb b hb')), hw j, aggregate_page, hpage j,
        ← hmean, Option.map_map]
      congr 1
      funext x
      by_cases hj : s.1 ≤ j ∧ j < s.2
      · simp [hj, hz j hj.1, claimants_of]
      · simp [hj]
    · have hout : ¬ (s.1 ≤ j ∧ j < s.2) := by omega
      rw [aggregate_page, hpage j, if_neg hout]
      exact hz j (hle.trans hj)

/-- Adding the sparse aggregate to the weights is the dense transition. -/
theorem apply_redo_aggregate (w : List Int64) (block : Block) (spans : List (Nat × Nat))
    (tx_coords : List (List (UInt32 × Int64))) (bodies : List (List Int64)) (ht : Tiled 0 spans w.length)
    (hr : List.Forall₂ Represents tx_coords bodies) (hlen : block.txs.length = tx_coords.length)
    (hb : ∀ b ∈ bodies, w.length ≤ b.length) :
    apply_redo w (page_aggregate block spans tx_coords).toList =
      paged_transition w bodies (block.txs.map (·.canonical_pages)) spans := by
  have h := agree_pages w block tx_coords bodies hr hlen spans 0 w.length 0 ht hb w ∅
    ⟨fun j => by simp [at_coord], fun j _ => by simp [at_coord]⟩
  apply List.ext_getElem?
  intro j
  rw [getElem?_apply_redo _ _ (distinct_toList _), value_at_toList]
  exact (h.1 j).symm

/-- A block without deltas changes no coordinate. -/
theorem page_aggregate_nil {block : Block} (h : block.txs = []) (spans : List (Nat × Nat)) :
    page_aggregate block spans [] = ∅ := by
  have hstep (agg : Coords) (page : (Nat × Nat) × Nat) : aggregate_page block [] agg page = agg := by
    have : (touched_columns [] page.1.1 page.1.2).toList = [] := Std.ExtTreeMap.toList_eq_nil_iff.mpr rfl
    simp [aggregate_page, claimants_of, h, this]
  unfold page_aggregate
  induction spans.zipIdx with
  | nil => rfl
  | cons page rest ih => rw [List.foldl_cons, hstep, ih]

end Sestrian.Aggregate
