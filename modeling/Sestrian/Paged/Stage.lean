import Sestrian.Paged.Layout
import Sestrian.Tree.Growth

/-!
# One block on a paged node

`W` is the weight vector a full node has. The paged node stands at `compact W`.
-/

open Check Patch

namespace Sestrian

open Aggregate Pages BlockTree

variable [Crypto]

omit [Crypto] in
theorem get_insert_all {ι : Type} (κ : ι → UInt32) (v : ι → Int64) (k : UInt32) (x : Option Int64) (l : List ι)
    (m : Coords) (hx : ∀ c ∈ l, κ c = k → some (v c) = x) (hm : (∃ c ∈ l, κ c = k) ∨ m[k]? = x) :
    (l.foldl (fun m c => m.insert (κ c) (v c)) m)[k]? = x := by
  induction l generalizing m with
  | nil => simpa using hm
  | cons c l ih =>
    rw [List.foldl_cons]
    apply ih
    · intro c' hc'
      exact hx c' (List.mem_cons_of_mem _ hc')
    · rw [Std.ExtTreeMap.getElem?_insert]
      by_cases hk : κ c = k
      · right
        simp [hk, hx c List.mem_cons_self hk]
      · rcases hm with ⟨c', hc', he⟩ | hm
        · rcases List.mem_cons.mp hc' with rfl | hc'
          · exact absurd he hk
          · exact .inl ⟨c', hc', he⟩
        · right
          simp [hk, hm]

omit [Crypto] in
theorem mem_toList_iff {agg : Coords} {c : UInt32 × Int64} : c ∈ agg.toList ↔ agg[c.1]? = some c.2 := by
  exact Std.ExtTreeMap.mem_toList_iff_getElem?_eq_some

omit [Crypto] in
theorem mem_coord_range {agg : Coords} {start stop : Nat} (hstart : start < 2 ^ 32) (hstop : stop < 2 ^ 32)
    {c : UInt32 × Int64} :
    c ∈ coord_range agg start stop ↔ agg[c.1]? = some c.2 ∧ start ≤ c.1.toNat ∧ c.1.toNat < stop := by
  simp only [coord_range, List.mem_filter, mem_toList_iff, decide_eq_true_eq, UInt32.le_iff_toNat_le,
    UInt32.lt_iff_toNat_lt, toNat_ofNat hstart, toNat_ofNat hstop]

omit [Crypto] in
/-- The compact keys name the same coordinates. -/
theorem get_compact_subs (agg : Coords) {start stop : Nat} (base : Nat) (hstart : start < 2 ^ 32) (hstop : stop < 2 ^ 32)
    {j : Nat} (hj : j < stop - start) :
    (compact_subs agg start stop base)[UInt32.ofNat (base + j)]? = agg[UInt32.ofNat (start + j)]? := by
  have hat : (UInt32.ofNat (start + j)).toNat = start + j := toNat_ofNat (by omega)
  apply get_insert_all
  · intro c hc hk
    have hc' := ((mem_coord_range hstart hstop).mp hc).1
    have : c.1 = UInt32.ofNat (start + j) := by
      rw [UInt32.ofNat_add] at hk ⊢
      have := UInt32.add_right_inj _ |>.mp hk
      rw [← this, UInt32.add_comm, UInt32.sub_add_cancel]
    rw [← this, hc']
  · cases hx : agg[UInt32.ofNat (start + j)]? with
    | none => exact .inr rfl
    | some v =>
      left
      refine ⟨(UInt32.ofNat (start + j), v), (mem_coord_range hstart hstop).mpr ⟨hx, ?_⟩, ?_⟩
      · simp only [hat]
        omega
      · simp only [UInt32.ofNat_add]
        rw [UInt32.add_comm (UInt32.ofNat start), UInt32.add_sub_cancel]

omit [Crypto] in
theorem compact_subs_empty (start stop base : Nat) : compact_subs ∅ start stop base = ∅ := rfl

omit [Crypto] in
theorem apply_redo_empty (w : List Int64) : apply_redo w (∅ : Coords).toList = w := rfl

/-- The node's own leaf of a held page is the leaf a full node has. -/
theorem held_leaf {W : List Int64} {bs : List (Option Nat)} {ss : List (Nat × Nat)} (hb : Based 0 bs ss)
    (ht : Tiled 0 ss W.length) (agg : Coords) (hdim : agg ≠ ∅ → W.length < 2 ^ 32) {pid base : Nat} {s : Nat × Nat}
    (hbase : bs[pid]? = some (some base)) (hs : ss[pid]? = some s) :
    leaf_with_subs (compact W bs ss) base (base + (s.2 - s.1)) (compact_subs agg s.1 s.2 base) =
      span_leaf (apply_redo W agg.toList) s := by
  have hstop := ht.stop_le (List.mem_of_getElem? hs)
  unfold leaf_with_subs span_leaf
  rw [slice_compact hb (fun s hs => ht.stop_le hs) hbase hs]
  congr 2
  by_cases hagg : agg = ∅
  · subst hagg
    rw [compact_subs_empty, apply_redo_empty]
    apply List.ext_getElem?
    intro j
    simp [List.getElem?_mapIdx]
  · have hdim := hdim hagg
    rw [slice_apply_redo W agg s.1 s.2 hstop hdim]
    apply List.ext_getElem?
    intro j
    rw [List.getElem?_mapIdx, List.getElem?_mapIdx, getElem?_slice]
    by_cases hj : j < s.2 - s.1
    · have hsub := get_compact_subs agg base (by omega) (by omega) hj
      cases hx : agg[UInt32.ofNat (s.1 + j)]? <;> simp only [hsub, hx]
    · simp [hj]

omit [Crypto] in
/-- A fold that replaces the entry of each index. -/
theorem foldlM_replace {α β ε : Type} (step : List β → α × Nat → Except ε (List β)) (f f' : α → β) (l : List α)
    (pre : List β)
    (h : ∀ (leaves : List β) (a : α) (i : Nat), (a, i) ∈ l.zipIdx pre.length → leaves[i]? = some (f a) →
      step leaves (a, i) = .ok (leaves.set i (f' a))) :
    (l.zipIdx pre.length).foldlM step (pre ++ l.map f) = .ok (pre ++ l.map f') := by
  induction l generalizing pre with
  | nil => rfl
  | cons a l ih =>
    rw [List.zipIdx_cons, List.foldlM_cons, h _ a pre.length (by simp) (by simp)]
    have hset : (pre ++ (a :: l).map f).set pre.length (f' a) = (pre ++ [f' a]) ++ l.map f := by simp
    have hlen : pre.length + 1 = (pre ++ [f' a]).length := by simp
    rw [hset, hlen]
    refine (ih (pre ++ [f' a]) ?_).trans (by simp)
    intro leaves a' i hi
    apply h
    rw [List.zipIdx_cons, hlen]
    exact List.mem_cons_of_mem _ hi

/-- What the node takes on trust: the witness of a page it does not hold. -/
def WitnessRight (t : BlockTree) (spans : List (Nat × Nat)) (agg : Coords) (witness_leaves : List Hash)
    (w : List Int64) : Prop :=
  ∀ (pid : Nat) (s : Nat × Nat), t.page_base[pid]? = some none → spans[pid]? = some s → coord_range agg s.1 s.2 ≠ [] →
    witness_leaves[pid]? = some (span_leaf w s)

/-- The leaves of the pages after the block. -/
theorem paged_leaves_eq {t : BlockTree} {W : List Int64} {ss : List (Nat × Nat)} (hb : Based 0 t.page_base ss)
    (ht : Tiled 0 ss W.length) (hcanon : t.canon = compact W t.page_base ss)
    (hleaves : t.page_leaves = ss.map (span_leaf W)) (agg : Coords) (hdim : agg ≠ ∅ → W.length < 2 ^ 32)
    {witness_leaves : List Hash} (hwit : WitnessRight t ss agg witness_leaves (apply_redo W agg.toList)) :
    ss.zipIdx.foldlM (t.paged_leaf agg witness_leaves) t.page_leaves =
      .ok (ss.map (span_leaf (apply_redo W agg.toList))) := by
  rw [hleaves]
  refine foldlM_replace _ _ _ ss [] ?_
  intro leaves s pid hmem hold
  have hs : ss[pid]? = some s := List.mem_zipIdx_iff_getElem?.mp hmem
  have hpid : pid < t.page_base.length := by
    rw [hb.length_eq]
    exact (List.getElem?_eq_some_iff.mp hs).1
  unfold paged_leaf
  cases hbase : t.page_base[pid]? with
  | none => exact absurd (List.getElem?_eq_none_iff.mp hbase) (by omega)
  | some base =>
    cases base with
    | some base =>
      have := held_leaf hb ht agg hdim hbase hs
      rw [← hcanon] at this
      simp only [ok_or]
      exact congrArg (fun x => Except.ok (leaves.set pid x)) this
    | none =>
      simp only [ok_or]
      change (if coord_range agg s.1 s.2 ≠ [] then _ else _) = _
      split
      · next htouched =>
        rw [hwit pid s hbase hs htouched]
        rfl
      · next hun =>
        have hsame : span_leaf (apply_redo W agg.toList) s = span_leaf W s := by
          by_cases hagg : agg = ∅
          · subst hagg
            rfl
          · unfold span_leaf
            rw [slice_untouched W agg s.1 s.2 (ht.stop_le (List.mem_of_getElem? hs)) (hdim hagg) (not_not.mp hun)]
        obtain ⟨hlt, hget⟩ := List.getElem?_eq_some_iff.mp hold
        rw [hsame, ← hget, List.set_getElem_self]
        rfl

/-! ## The commit -/

omit [Crypto] in
theorem page_of_eq {ss : List (Nat × Nat)} {n : Nat} (ht : Tiled 0 ss n) {pid i : Nat} {s : Nat × Nat}
    (hs : ss[pid]? = some s) (hi : s.1 ≤ i ∧ i < s.2) : page_of i ss = pid := by
  unfold page_of
  cases hf : ss.findIdx? fun s => s.1 ≤ i ∧ i < s.2 with
  | none =>
    have := List.findIdx?_eq_none_iff.mp hf s (List.mem_of_getElem? hs)
    simp only [decide_eq_false_iff_not] at this
    exact absurd hi this
  | some k =>
    obtain ⟨hlt, hk, -⟩ := List.findIdx?_eq_some_iff_getElem.mp hf
    simp only [decide_eq_true_eq] at hk
    exact tiled_unique ht (List.getElem?_eq_getElem hlt) hs hk hi

/-- The coordinate lies in a held page. -/
def HeldCoord (bs : List (Option Nat)) (ss : List (Nat × Nat)) (i : Nat) : Prop :=
  ∃ pid base s, HeldAt bs ss pid base s (i - s.1) ∧ s.1 ≤ i

/-- Where the coordinate lies in the compact vector. -/
def held_place (bs : List (Option Nat)) (ss : List (Nat × Nat)) (c : UInt32 × Int64) : Nat :=
  (bs.getD (page_of c.1.toNat ss) none).getD 0 + (c.1.toNat - (ss.getD (page_of c.1.toNat ss) (0, 0)).1)

omit [Crypto] in
theorem held_place_eq {bs : List (Option Nat)} {ss : List (Nat × Nat)} {n : Nat} (ht : Tiled 0 ss n)
    {c : UInt32 × Int64} {pid base : Nat} {s : Nat × Nat} (hh : HeldAt bs ss pid base s (c.1.toNat - s.1))
    (hle : s.1 ≤ c.1.toNat) : held_place bs ss c = base + (c.1.toNat - s.1) := by
  have hin := hh.inside
  have hpid := page_of_eq ht hh.span ⟨hle, by omega⟩
  unfold held_place
  rw [hpid, List.getD_eq_getElem?_getD, List.getD_eq_getElem?_getD, hh.base, hh.span]
  rfl

omit [Crypto] in
theorem Aggregate.Tiled.ordered {a b : Nat} {spans : List (Nat × Nat)} (h : Tiled a spans b) {s : Nat × Nat}
    (hs : s ∈ spans) : s.1 ≤ s.2 := by
  induction spans generalizing a with
  | nil => simp at hs
  | cons s' rest ih =>
    obtain ⟨h₁, h₂, h₃⟩ := h
    rcases List.mem_cons.mp hs with rfl | hs
    · omega
    · exact ih h₃ hs

omit [Crypto] in
theorem mem_held_coords {t : BlockTree} {ss : List (Nat × Nat)} {n : Nat} (ht : Tiled 0 ss n) (hn : n < 2 ^ 32)
    (agg : Coords) (c : UInt32 × Int64) :
    c ∈ (ss.zipIdx.flatMap fun page =>
      if (t.page_base.getD page.2 none).isSome then coord_range agg page.1.1 page.1.2 else []) ↔
      agg[c.1]? = some c.2 ∧ HeldCoord t.page_base ss c.1.toNat := by
  have hlt : ∀ s ∈ ss, s.1 < 2 ^ 32 ∧ s.2 < 2 ^ 32 := by
    intro s hs
    have := ht.stop_le hs
    have := ht.ordered hs
    omega
  simp only [List.mem_flatMap]
  constructor
  · rintro ⟨⟨s, pid⟩, hmem, hc⟩
    have hs : ss[pid]? = some s := List.mem_zipIdx_iff_getElem?.mp hmem
    obtain ⟨h₁, h₂⟩ := hlt s (List.mem_of_getElem? hs)
    split at hc
    · next hheld =>
      obtain ⟨hget, hle, hstop⟩ := (mem_coord_range h₁ h₂).mp hc
      obtain ⟨base, hbase⟩ := Option.isSome_iff_exists.mp hheld
      refine ⟨hget, pid, base, s, ⟨?_, hs, by omega⟩, hle⟩
      rw [List.getD_eq_getElem?_getD] at hbase
      cases hb : t.page_base[pid]? with
      | none => simp [hb] at hbase
      | some b => simpa [hb] using hbase
    · simp at hc
  · rintro ⟨hget, pid, base, s, hh, hle⟩
    have hin := hh.inside
    obtain ⟨h₁, h₂⟩ := hlt s (List.mem_of_getElem? hh.span)
    refine ⟨(s, pid), List.mem_zipIdx_iff_getElem?.mpr hh.span, ?_⟩
    rw [if_pos (by simp [List.getD_eq_getElem?_getD, hh.base])]
    exact (mem_coord_range h₁ h₂).mpr ⟨hget, hle, by omega⟩

omit [Crypto] in
/-- The held part of the aggregate. -/
theorem get_held_aggregate {t : BlockTree} {ss : List (Nat × Nat)} {n : Nat} (ht : Tiled 0 ss n) (hn : n < 2 ^ 32)
    (agg : Coords) (c : UInt32 × Int64) :
    (t.held_aggregate ss agg)[c.1]? = some c.2 ↔ agg[c.1]? = some c.2 ∧ HeldCoord t.page_base ss c.1.toNat := by
  by_cases hh : HeldCoord t.page_base ss c.1.toNat
  · have hget : (t.held_aggregate ss agg)[c.1]? = agg[c.1]? := by
      apply get_insert_all
      · intro c' hc' hk
        rw [← hk, ((mem_held_coords ht hn agg c').mp hc').1]
      · cases hx : agg[c.1]? with
        | none => exact .inr rfl
        | some v => exact .inl ⟨(c.1, v), (mem_held_coords ht hn agg _).mpr ⟨hx, hh⟩, rfl⟩
    simp [hget, hh]
  · have hget : (t.held_aggregate ss agg)[c.1]? = none := by
      apply get_insert_all
      · intro c' hc' hk
        exact absurd (hk ▸ ((mem_held_coords ht hn agg c').mp hc').2) hh
      · exact .inr rfl
    simp [hget, hh]

omit [Crypto] in
theorem commit_all {t : BlockTree} {ss : List (Nat × Nat)} {n : Nat} (ht : Tiled 0 ss n) (l : List (UInt32 × Int64))
    (undo : List (UInt32 × Int64)) (w : List Int64) (hd : Distinct (held_place t.page_base ss) l)
    (hl : ∀ c ∈ l, HeldCoord t.page_base ss c.1.toNat ∧ held_place t.page_base ss c < w.length) :
    l.foldlM (t.commit_held ss) (undo, w) =
      .ok (undo ++ l.map fun c => (c.1, w.getD (held_place t.page_base ss c) 0),
        modifyAll (held_place t.page_base ss) (fun c x => x + c.2) w l) := by
  induction l generalizing undo w with
  | nil => simp [modifyAll, pure, Except.pure]
  | cons c l ih =>
    obtain ⟨hhead, htail⟩ := List.pairwise_cons.mp hd
    obtain ⟨⟨pid, base, s, hh, hle⟩, hlt⟩ := hl c List.mem_cons_self
    have hin := hh.inside
    have hpid := page_of_eq ht hh.span ⟨hle, by omega⟩
    have hplace := held_place_eq ht hh hle
    have hspan : (ss.getD pid (0, 0)).1 = s.1 := by rw [List.getD_eq_getElem?_getD, hh.span]; rfl
    have hstep : t.commit_held ss (undo, w) c =
        .ok (undo ++ [(c.1, w.getD (held_place t.page_base ss c) 0)],
          w.modify (held_place t.page_base ss c) (· + c.2)) := by
      unfold commit_held
      have hget : w[held_place t.page_base ss c]? = some w[held_place t.page_base ss c] := List.getElem?_eq_getElem hlt
      simp only [hpid, hh.base, Option.bind_some, id_eq, ok_or, hspan, bind, Except.bind, ← hplace, hget]
      rw [List.getD_eq_getElem?_getD, hget, List.modify_eq_set, hget]
      rfl
    rw [List.foldlM_cons, hstep]
    refine (ih _ _ htail ?_).trans ?_
    · intro c' hc'
      rw [List.length_modify]
      exact hl c' (List.mem_cons_of_mem _ hc')
    · have hold : ∀ c' ∈ l, (w.modify (held_place t.page_base ss c) (· + c.2)).getD (held_place t.page_base ss c') 0 =
          w.getD (held_place t.page_base ss c') 0 := by
        intro c' hc'
        simp [List.getD_eq_getElem?_getD, hhead c' hc']
      rw [List.append_assoc]
      simp only [List.map_cons, List.singleton_append, modifyAll, List.foldl_cons]
      rw [List.map_congr_left fun c' hc' => by rw [hold c' hc']]

omit [Crypto] in
theorem length_compact {w w' : List Int64} (hlen : w'.length = w.length) (bs : List (Option Nat))
    (ss : List (Nat × Nat)) : (compact w' bs ss).length = (compact w bs ss).length := by
  induction bs generalizing ss with
  | nil => cases ss <;> rfl
  | cons b bs ih =>
    cases ss with
    | nil => cases b <;> rfl
    | cons s ss => cases b <;> simp [compact, slice, hlen, ih ss]

section Commit

variable {t : BlockTree} {W : List Int64} {ss : List (Nat × Nat)} (hb : Based 0 t.page_base ss)
  (ht : Tiled 0 ss W.length) (hdim : W.length < 2 ^ 32) (agg : Coords)

include ht in
omit [Crypto] in
theorem HeldAt.lt_compact (hb : Based 0 t.page_base ss) {pid base j : Nat} {s : Nat × Nat}
    (hh : HeldAt t.page_base ss pid base s j) : base + j < (compact W t.page_base ss).length := by
  have hget := compact_get (w := W) hb (fun s hs => ht.stop_le hs) hh
  have hstop := ht.stop_le (List.mem_of_getElem? hh.span)
  have hin := hh.inside
  rw [Nat.sub_zero, List.getElem?_eq_getElem (show s.1 + j < W.length by omega)] at hget
  exact (List.getElem?_eq_some_iff.mp hget).1

include ht hdim in
omit [Crypto] in
theorem mem_held_aggregate {c : UInt32 × Int64} (hc : c ∈ (t.held_aggregate ss agg).toList) :
    agg[c.1]? = some c.2 ∧ HeldCoord t.page_base ss c.1.toNat :=
  (get_held_aggregate ht hdim agg c).mp (mem_toList_iff.mp hc)

include hb ht hdim in
omit [Crypto] in
theorem distinct_held : Distinct (held_place t.page_base ss) (t.held_aggregate ss agg).toList := by
  refine (distinct_toList (t.held_aggregate ss agg)).imp_of_mem ?_
  intro c c' hc hc' hne he
  obtain ⟨-, pid, base, s, hh, hle⟩ := mem_held_aggregate ht hdim agg hc
  obtain ⟨-, pid', base', s', hh', hle'⟩ := mem_held_aggregate ht hdim agg hc'
  rw [held_place_eq ht hh hle, held_place_eq ht hh' hle'] at he
  obtain ⟨-, rfl, hj⟩ := HeldAt.unique hb hh hh' he
  exact hne (show c.1.toNat = c'.1.toNat by omega)

include hb ht hdim in
omit [Crypto] in
/-- The compact vector after the commit is the compact part of the full vector. -/
theorem compact_commit :
    modifyAll (held_place t.page_base ss) (fun c x => x + c.2) (compact W t.page_base ss)
      (t.held_aggregate ss agg).toList = compact (apply_redo W agg.toList) t.page_base ss := by
  have hlen := length_compact (length_apply_redo W agg.toList) t.page_base ss
  have ht' : ∀ s ∈ ss, s.2 ≤ (apply_redo W agg.toList).length := by
    intro s hs
    rw [length_apply_redo]
    exact ht.stop_le hs
  apply List.ext_getElem?
  intro k
  by_cases hk : k < (compact W t.page_base ss).length
  · obtain ⟨pid, base, s, j, hh, he⟩ := compact_place hb (fun s hs => ht.stop_le hs) hk
    rw [Nat.zero_add] at he
    subst he
    have hin := hh.inside
    have hstop := ht.stop_le (List.mem_of_getElem? hh.span)
    have hat : (UInt32.ofNat (s.1 + j)).toNat = s.1 + j := toNat_ofNat (by omega)
    have hnew := compact_get hb ht' hh
    have hold := compact_get (w := W) hb (fun s hs => ht.stop_le hs) hh
    rw [Nat.sub_zero] at hnew hold
    rw [hnew, getElem?_apply_redo _ _ (distinct_toList agg), ← hold, value_at_toList,
      getElem?_modifyAll (distinct_held hb ht hdim agg), at_coord, if_pos (by omega)]
    split
    · next c hc =>
      obtain ⟨hmem, hplace⟩ := hit_mem hc
      obtain ⟨hget, pid', base', s', hh', hle'⟩ := mem_held_aggregate ht hdim agg hmem
      rw [held_place_eq ht hh' hle'] at hplace
      obtain ⟨-, rfl, hj⟩ := HeldAt.unique hb hh' hh hplace
      have : UInt32.ofNat (s'.1 + j) = c.1 := UInt32.toNat_inj.mp (by omega)
      rw [this, hget]
      rfl
    · next hnone =>
      have : agg[UInt32.ofNat (s.1 + j)]? = none := by
        cases hx : agg[UInt32.ofNat (s.1 + j)]? with
        | none => rfl
        | some v =>
          have hj : (UInt32.ofNat (s.1 + j)).toNat - s.1 = j := by omega
          have hh' : HeldAt t.page_base ss pid base s ((UInt32.ofNat (s.1 + j)).toNat - s.1) := by
            rw [hj]
            exact hh
          refine absurd ?_ (hit_eq_none.mp hnone (UInt32.ofNat (s.1 + j), v)
            (mem_toList_iff.mpr ((get_held_aggregate ht hdim agg _).mpr ⟨hx, pid, base, s, hh', by simp only; omega⟩)))
          rw [held_place_eq ht hh' (by simp only; omega)]
          simp only
          omega
      rw [this]
      simp
  · rw [List.getElem?_eq_none (by rw [length_modifyAll]; omega), List.getElem?_eq_none (by omega)]

end Commit

/-- The undo record of the commit: the old value of each held coordinate. -/
def held_undo (t : BlockTree) (spans : List (Nat × Nat)) (agg : Coords) : List (UInt32 × Int64) :=
  (t.held_aggregate spans agg).toList.map fun c => (c.1, t.canon.getD (held_place t.page_base spans c) 0)

omit [Crypto] in
theorem held_aggregate_empty (t : BlockTree) (spans : List (Nat × Nat)) : t.held_aggregate spans ∅ = ∅ := by
  unfold held_aggregate
  have : (spans.zipIdx.flatMap fun page => if (t.page_base.getD page.2 none).isSome then
      coord_range ∅ page.1.1 page.1.2 else []) = [] := by
    rw [List.flatMap_eq_nil_iff]
    intro page _
    rw [coord_range_empty, ite_self]
  rw [this]
  rfl

/-- The paged node stands where a full node with the weights `W` stands. -/
structure StandsAt (t : BlockTree) (W : List Int64) (m : ModelState) : Prop where
  describes : Describes m W.length
  based : Based 0 t.page_base m.spans
  canon : t.canon = compact W t.page_base m.spans
  leaves : t.page_leaves = leaves_for W m

theorem commit_eq {t : BlockTree} {W : List Int64} {m : ModelState} (h : StandsAt t W m) (agg : Coords)
    (hdim : agg ≠ ∅ → W.length < 2 ^ 32) :
    (t.held_aggregate m.spans agg).toList.foldlM (t.commit_held m.spans) ([], t.canon) =
      .ok (held_undo t m.spans agg, compact (apply_redo W agg.toList) t.page_base m.spans) := by
  by_cases hagg : agg = ∅
  · subst hagg
    rw [held_undo, held_aggregate_empty, apply_redo_empty, ← h.canon]
    rfl
  · have hdim := hdim hagg
    have ht := h.describes.tiled
    rw [commit_all ht, List.nil_append, ← compact_commit h.based ht hdim agg, ← h.canon]
    · rfl
    · exact distinct_held h.based ht hdim agg
    · intro c hc
      obtain ⟨-, pid, base, s, hh, hle⟩ := mem_held_aggregate ht hdim agg hc
      refine ⟨⟨pid, base, s, hh, hle⟩, ?_⟩
      rw [held_place_eq ht hh hle, h.canon]
      exact hh.lt_compact ht h.based

/-- The coordinates of the bodies, as the block has them. -/
def AggregateOf (block : Block) (spans : List (Nat × Nat)) (agg : Coords) : Prop :=
  ∃ bodies, block.txs.mapM (body_coords block) = .ok bodies ∧ agg = page_aggregate block spans (bodies.map (·.2))

omit [Crypto] in
theorem AggregateOf.dim {block : Block} {spans : List (Nat × Nat)} {agg : Coords} (h : AggregateOf block spans agg)
    {n : Nat} (hdim : block.txs ≠ [] → n < 2 ^ 32) : agg ≠ ∅ → n < 2 ^ 32 := by
  intro hne
  apply hdim
  intro htxs
  obtain ⟨bodies, hbodies, rfl⟩ := h
  rw [htxs] at hbodies
  obtain rfl : bodies = [] := by simpa [pure, Except.pure] using hbodies.symm
  exact hne (page_aggregate_nil htxs spans)

/-- What the node has after a block, in terms of the full weights before it. -/
def paged_staged (t : BlockTree) (W : List Int64) (m : ModelState) (v : Validated) (agg : Coords) :
    Validated × Coords × List Hash × List (UInt32 × Int64) × List Int64 :=
  (v, t.held_aggregate m.spans agg, leaves_for (apply_redo W agg.toList) m ++
    (init_pages t.params v.activations).map (fun ip => merkle.leaf_hash (int64_bytes ip)),
    held_undo t m.spans agg, compact (apply_redo W agg.toList) t.page_base m.spans)

/-- When the node takes a block, and what it then has. -/
theorem stage_paged_iff {t : BlockTree} {W : List Int64} {p : Parent} {block : Block} (h : StandsAt t W p.model)
    (hdim : block.txs ≠ [] → W.length < 2 ^ 32)
    (hwit : ∀ agg, AggregateOf block p.model.spans agg →
      WitnessRight t p.model.spans agg block.witness_leaves (apply_redo W agg.toList))
    (r : Validated × Coords × List Hash × List (UInt32 × Int64) × List Int64) :
    t.stage_paged block p = .ok r ↔ ∃ v agg,
      block.witness_leaves.length = p.model.pages.length ∧
      validate_inner block none p.height p.ledger t.data_contributor p.jurors p.model t.params = .ok v ∧
      AggregateOf block p.model.spans agg ∧
      hex_encode (merkle.root_from_hashes (paged_staged t W p.model v agg).2.2.1).val = block.header.state_root ∧
      r = paged_staged t W p.model v agg := by
  have hleaves : ∀ agg, AggregateOf block p.model.spans agg →
      p.model.spans.zipIdx.foldlM (t.paged_leaf agg block.witness_leaves) t.page_leaves =
        .ok (leaves_for (apply_redo W agg.toList) p.model) := by
    intro agg hagg
    rw [leaves_for_eq]
    refine paged_leaves_eq h.based h.describes.tiled h.canon ?_ agg (hagg.dim hdim) (hwit agg hagg)
    rw [h.leaves, leaves_for_eq]
  unfold stage_paged
  simp only [bind_eq_ok, require_eq_ok, exists_unit, pure_eq_ok]
  constructor
  · rintro ⟨hlen, v, hv, bodies, hbodies, leaves, hl, hroot, ⟨undo, canon⟩, hcommit, rfl⟩
    have hagg : AggregateOf block p.model.spans (page_aggregate block p.model.spans (bodies.map (·.2))) :=
      ⟨bodies, hbodies, rfl⟩
    rw [hleaves _ hagg] at hl
    rw [commit_eq h _ (hagg.dim hdim)] at hcommit
    cases hl
    cases hcommit
    exact ⟨v, _, hlen, hv, hagg, hroot, rfl⟩
  · rintro ⟨v, agg, hlen, hv, hagg, hroot, rfl⟩
    obtain ⟨bodies, hbodies, rfl⟩ := hagg
    refine ⟨hlen, v, hv, bodies, hbodies, _, hleaves _ ⟨bodies, hbodies, rfl⟩, hroot, _,
      commit_eq h _ (AggregateOf.dim ⟨bodies, hbodies, rfl⟩ hdim), rfl⟩

end Sestrian
