import Sestrian.Paged.Simulate

/-!
# A paged node that holds every page

Its bases are the starts of the pages, so its canon is the whole vector and its records are
those of a full node. Over any run its weights and leaves stay right.
-/

open Check Walk

namespace Sestrian

open Aggregate Pages BlockTree

section Any

variable [Crypto]

/-- Only empty pages are not held. -/
def Covers (bs : List (Option Nat)) (ss : List (Nat × Nat)) : Prop :=
  ∀ (pid : Nat) (s : Nat × Nat), bs[pid]? = some none → ss[pid]? = some s → s.1 = s.2

variable {bs : List (Option Nat)} {ss : List (Nat × Nat)} {k : Nat}

omit [Crypto] in
theorem Covers.tail {b : Option Nat} {s : Nat × Nat} (h : Covers (b :: bs) (s :: ss)) : Covers bs ss :=
  fun pid s' hb hs => h (pid + 1) s' hb hs

omit [Crypto] in
theorem slice_append_slice {α : Type} (w : List α) {a b c : Nat} (hab : a ≤ b) (hbc : b ≤ c) :
    slice w a b ++ slice w b c = slice w a c := by
  apply List.ext_getElem?
  intro j
  have hlen : (slice w a b).length = min (b - a) (w.length - a) := by simp [slice]
  by_cases hj : j < (slice w a b).length
  · rw [List.getElem?_append_left hj, getElem?_slice, getElem?_slice, if_pos (by omega), if_pos (by omega)]
  · rw [List.getElem?_append_right (by omega), getElem?_slice, getElem?_slice]
    by_cases hin : b ≤ w.length
    · rw [show b + (j - (slice w a b).length) = a + j by omega]
      exact if_congr (by omega) rfl rfl
    · rw [List.getElem?_eq_none (by omega), List.getElem?_eq_none (by omega), ite_self, ite_self]

omit [Crypto] in
/-- The compact vector is the vector. -/
theorem Covers.compact_eq {a : Nat} (h : Covers bs ss) (hb : Based a bs ss) (ht : Tiled a ss k) (w : List Int64) :
    compact w bs ss = slice w a k := by
  induction bs generalizing a ss with
  | nil =>
    cases ss with
    | nil =>
      obtain rfl : a = k := ht
      simp [compact, slice]
    | cons s ss => exact hb.elim
  | cons b bs ih =>
    cases ss with
    | nil => cases b <;> exact hb.elim
    | cons s ss =>
      obtain ⟨hs, hle, hrest⟩ := ht
      cases b with
      | none =>
        have hempty := h 0 s rfl rfl
        rw [compact, ih h.tail (show Based s.2 bs ss by rw [← hempty, hs]; exact hb) hrest, ← hempty, hs]
      | some b =>
        have hb' : Based s.2 bs ss := by
          have := hb.2
          rwa [hs, Nat.add_sub_cancel' hle] at this
        rw [compact, ih h.tail hb' hrest, hs, slice_append_slice w hle hrest.le]

omit [Crypto] in
theorem Covers.base_eq {a : Nat} (h : Covers bs ss) (hb : Based a bs ss) (ht : Tiled a ss k) {pid base : Nat}
    {s : Nat × Nat} (hbase : bs[pid]? = some (some base)) (hs : ss[pid]? = some s) : base = s.1 := by
  induction bs generalizing a ss pid with
  | nil => simp at hbase
  | cons b bs ih =>
    cases ss with
    | nil => simp at hs
    | cons s' ss =>
      obtain ⟨hs', hle, hrest⟩ := ht
      cases b with
      | none =>
        cases pid with
        | zero => simp at hbase
        | succ pid =>
          have hempty := h 0 s' rfl rfl
          exact ih h.tail (show Based s'.2 bs ss by rw [← hempty, hs']; exact hb) hrest hbase hs
      | some b =>
        cases pid with
        | zero =>
          simp only [List.getElem?_cons_zero, Option.some.injEq] at hbase hs
          rw [← hbase, ← hs, hb.1, hs']
        | succ pid =>
          have hb' : Based s'.2 bs ss := by
            have := hb.2
            rwa [hs', Nat.add_sub_cancel' hle] at this
          exact ih h.tail hb' hrest hbase hs

omit [Crypto] in
/-- No coordinate lies in a page that is not held. -/
theorem Covers.untouched (h : Covers bs ss) {pid : Nat} {s : Nat × Nat} (hb : bs[pid]? = some none)
    (hs : ss[pid]? = some s) (agg : Coords) : coord_range agg s.1 s.2 = [] := by
  unfold coord_range
  rw [h pid s hb hs]
  refine List.filter_eq_nil_iff.mpr fun c _ hc => ?_
  simp only [decide_eq_true_eq] at hc
  exact absurd hc.2 (UInt32.not_lt.mpr hc.1)

/-- The full node in the same chain state. -/
def BlockTree.unheld (t : BlockTree) : BlockTree := { t with held := none, page_base := [] }

theorem rewind_unheld (t : BlockTree) (target : String) :
    t.rewind_to target = ((t.unheld.rewind_to target).1,
      { (t.unheld.rewind_to target).2 with held := t.held, page_base := t.page_base }) := by
  unfold rewind_to
  rw [show t.unheld.fork_walk target = t.fork_walk target from rfl]
  cases t.fork_walk target with
  | error e => rfl
  | ok ud =>
    simp only [show t.unheld.undo = t.undo from rfl, show t.unheld.redo = t.redo from rfl,
      show t.unheld.model = t.model from rfl]
    split
    · rfl
    · cases t.model[target]? <;> rfl

/-! ## The invariant -/

/-- `W` has the weights at each known block. -/
structure Whole (ss : List (Nat × Nat)) (k : Nat) (t : BlockTree) (W : String → List Int64) : Prop where
  shape : t.unheld.Shape
  paged : t.held.isSome
  based : Based 0 t.page_base ss
  covers : Covers t.page_base ss
  tiled : Tiled 0 ss k
  narrow : k < 2 ^ 32
  length : ∀ h ∈ t.blocks, (W h).length = k
  model : ∀ h ∈ t.blocks, ∃ m rest n, t.model[h]? = some m ∧ m.spans = ss ++ rest ∧ Describes m n
  canon : t.canon = W t.head
  records : t.unheld.Records W
  tails : ∀ (h : String) u tail, t.undo[h]? = some (u, tail) → tail = []
  inside : ∀ (h : String) u tail, t.undo[h]? = some (u, tail) → ∀ c ∈ u, c.1.toNat < k
  inside_redo : ∀ (h : String) r, t.redo[h]? = some r → ∀ c ∈ r, c.1.toNat < k
  leaves : ∀ (pid : Nat) s, ss[pid]? = some s → t.page_leaves[pid]? = some (span_leaf t.canon s)
  leaf_count : ∀ m, t.model[t.head]? = some m → t.page_leaves.length = m.pages.length

variable {t : BlockTree} {W : String → List Int64}

theorem Whole.compact_eq (h : Whole ss k t W) {w : List Int64} (hw : w.length = k) :
    compact w t.page_base ss = w := by
  rw [h.covers.compact_eq h.based h.tiled, ← hw]
  simp [slice]

theorem Whole.canon_length (h : Whole ss k t W) : t.canon.length = k := by
  rw [h.canon]
  exact h.length _ h.shape.head_known

theorem Whole.standsAt (h : Whole ss k t W) {m : ModelState} (hm : t.model[t.head]? = some m) (hs : m.spans = ss) :
    StandsAt t t.canon m := by
  obtain ⟨m', rest, n, hm', -, hd⟩ := h.model _ h.shape.head_known
  obtain rfl := Option.some.inj (hm.symm.trans hm')
  refine ⟨⟨?_, hd.pages_ne⟩, hs ▸ h.based, ?_, ?_⟩
  · rw [hs, h.canon_length]
    exact h.tiled
  · rw [hs, h.compact_eq h.canon_length]
  · rw [leaves_for_eq]
    apply List.ext_getElem?
    intro pid
    rw [List.getElem?_map]
    cases hx : m.spans[pid]? with
    | some s => exact h.leaves pid s (hs ▸ hx)
    | none =>
      have hlen := h.leaf_count m hm
      rw [spans_eq, List.getElem?_map, Option.map_eq_none_iff, List.getElem?_eq_none_iff] at hx
      exact List.getElem?_eq_none (by omega)

/-- Every coordinate of the model is held, at its own place. -/
theorem Whole.held_place_eq (h : Whole ss k t W) {agg : Coords} {c : UInt32 × Int64}
    (hc : c ∈ (t.held_aggregate ss agg).toList) : held_place t.page_base ss c = c.1.toNat ∧ c.1.toNat < k := by
  have hlen := h.canon_length
  obtain ⟨-, pid, base, s, hh, hle⟩ :=
    mem_held_aggregate (W := t.canon) (hlen ▸ h.tiled) (hlen ▸ h.narrow) agg hc
  have hin := hh.inside
  have hstop := h.tiled.stop_le (List.mem_of_getElem? hh.span)
  rw [Sestrian.held_place_eq h.tiled hh hle, h.covers.base_eq h.based h.tiled hh.base hh.span]
  omega

/-- The records of the paged commit move forth and back. -/
theorem Whole.moves (h : Whole ss k t W) (agg : Coords) :
    Moves t.canon (apply_redo t.canon agg.toList) (held_undo t ss agg) (t.held_aggregate ss agg).toList [] := by
  have hundo : held_undo t ss agg = undo_of t.canon (t.held_aggregate ss agg) := by
    refine List.map_congr_left fun c hc => ?_
    rw [(h.held_place_eq hc).1]
  have hredo : apply_redo t.canon (t.held_aggregate ss agg).toList = apply_redo t.canon agg.toList := by
    have hlen := h.canon_length
    have hc := compact_commit (W := t.canon) h.based (hlen ▸ h.tiled) (hlen ▸ h.narrow) agg
    rw [h.compact_eq hlen, h.compact_eq ((length_apply_redo _ _).trans hlen)] at hc
    rw [← hc]
    exact List.foldl_ext _ _ _ fun w c hc => by rw [(h.held_place_eq hc).1]
  have := moves_of_agg t.canon (t.held_aggregate ss agg) []
  rwa [hredo, List.append_nil, ← hundo] at this

/-! ## One block -/

omit [Crypto] in
theorem foldlM_each {α σ ε : Type} (f : σ → α → Except ε σ) (l : List α) {s s' : σ} (h : l.foldlM f s = .ok s') :
    ∀ x ∈ l, ∃ a b, f a x = .ok b := by
  induction l generalizing s with
  | nil => simp
  | cons y l ih =>
    rw [List.foldlM_cons, bind_eq_ok] at h
    obtain ⟨b, hb, hrest⟩ := h
    intro x hx
    rcases List.mem_cons.mp hx with rfl | hx
    · exact ⟨s, b, hb⟩
    · exact ih hrest x hx

/-- The node has a base for every page of a model it takes a block on. -/
theorem stage_paged_based {p : Parent} {b : Block} {r : Validated × Coords × List Hash × List (UInt32 × Int64) × List Int64}
    (h : t.stage_paged b p = .ok r) : p.model.spans.length ≤ t.page_base.length := by
  simp only [stage_paged, bind_eq_ok] at h
  obtain ⟨-, -, v, -, bodies, -, leaves, hl, -⟩ := h
  by_contra hlt
  have hmem : (p.model.spans[t.page_base.length], t.page_base.length) ∈ p.model.spans.zipIdx :=
    List.mem_zipIdx_iff_getElem?.mpr (List.getElem?_eq_getElem (by omega))
  obtain ⟨a, l', hstep⟩ := foldlM_each _ _ hl _ hmem
  simp only [paged_leaf, bind_eq_ok, ok_or_eq_ok] at hstep
  obtain ⟨base, hbase, -⟩ := hstep
  simp at hbase

theorem Whole.take (h : Whole ss k t W) {b : Block} {p : Parent}
    {r : Validated × Coords × List Hash × List (UInt32 × Int64) × List Int64}
    (hp : t.parent_entries t.head = .ok p) (hr : t.stage_paged b p = .ok r) :
    p.model.spans = ss ∧ StandsAt t t.canon p.model ∧ ∃ v agg,
      validate_inner b none p.height p.ledger t.data_contributor p.jurors p.model t.params = .ok v ∧
      AggregateOf b ss agg ∧
      hex_encode (merkle.root_from_hashes (paged_staged t t.canon p.model v agg).2.2.1).val = b.header.state_root ∧
      r = paged_staged t t.canon p.model v agg := by
  obtain ⟨m, rest, n, hm, hspans, -⟩ := h.model _ h.shape.head_known
  obtain rfl := Option.some.inj ((parent_entries_spec hp).1.symm.trans hm)
  have hlen := stage_paged_based hr
  rw [hspans, h.based.length_eq, List.length_append] at hlen
  obtain rfl : rest = [] := List.length_eq_zero_iff.mp (by omega)
  rw [List.append_nil] at hspans
  have hstands := h.standsAt hm hspans
  have hlen := h.canon_length
  have hwit : ∀ agg, AggregateOf b p.model.spans agg →
      WitnessRight t p.model.spans agg b.witness_leaves (apply_redo t.canon agg.toList) := by
    intro agg _ pid s hbase hs htouched
    exact absurd (h.covers.untouched hbase (hspans ▸ hs) agg) htouched
  obtain ⟨v, agg, -, hv, hagg, hroot, rfl⟩ :=
    (stage_paged_iff hstands (fun _ => hlen ▸ h.narrow) hwit _).mp hr
  exact ⟨hspans, hstands, v, agg, hv, hspans ▸ hagg, hroot, rfl⟩

/-- The weights after a block on the head. -/
def weights_with (W : String → List Int64) (t : BlockTree) (b : Block) (agg : Coords) : String → List Int64 :=
  Function.update W b.hash (apply_redo t.canon agg.toList)

section After

variable {b : Block} {p : Parent} {v : Validated} {agg : Coords}
  {r : Validated × Coords × List Hash × List (UInt32 × Int64) × List Int64}

theorem weights_with_old (hnew : b.hash ∉ t.blocks) {x : String} (hx : x ∈ t.blocks) : weights_with W t b agg x = W x :=
  Function.update_of_ne (fun he : x = b.hash => hnew (he ▸ hx)) _ _

theorem weights_with_new : weights_with W t b agg b.hash = apply_redo t.canon agg.toList := Function.update_self ..

theorem paged_after_parent (hnew : b.hash ∉ t.blocks) {x : String} (hx : x ∈ t.blocks) :
    (t.paged_after b p r).unheld.parent x = t.unheld.parent x := by
  have hne : b.hash ≠ x := fun he => hnew (he ▸ hx)
  simp [BlockTree.parent, unheld, paged_after, hne]

theorem paged_after_parent_new (hprev : b.header.prev_hash = t.head) :
    (t.paged_after b p r).unheld.parent b.hash = some t.head := by
  simp [BlockTree.parent, unheld, paged_after, hprev]

theorem Whole.shape_after (h : Whole ss k t W) (hnew : b.hash ∉ t.blocks) (hprev : b.header.prev_hash = t.head) :
    (t.paged_after b p r).unheld.Shape := by
  have hg : t.genesis_hash ≠ b.hash := fun he => hnew (he ▸ h.shape.genesis_known)
  have hline {x : String} (hx : x ∈ t.blocks) : ∃ l, Path (t.paged_after b p r).unheld.parent t.genesis_hash x l := by
    obtain ⟨l, hl⟩ := h.shape.line x hx
    exact ⟨l, hl.mono fun y hy _ => paged_after_parent hnew (h.shape.line_known hl y hy)⟩
  refine ⟨rfl, (mem_insert_iff _ _ _ _).mpr (.inr h.shape.genesis_known), (mem_insert_iff _ _ _ _).mpr (.inl rfl),
    fun x hx => ?_⟩
  rcases (mem_insert_iff _ _ _ _).mp hx with rfl | hx
  · obtain ⟨l, hl⟩ := hline h.shape.head_known
    exact ⟨_, .step hg.symm (paged_after_parent_new hprev) hl⟩
  · exact hline hx

theorem undo_after (x : String) : (t.paged_after b p (paged_staged t t.canon p.model v agg)).undo[x]? =
    if b.hash = x then some (held_undo t p.model.spans agg, []) else t.undo[x]? := SumMap.get_insert _ _ _ _

theorem redo_after (x : String) : (t.paged_after b p (paged_staged t t.canon p.model v agg)).redo[x]? =
    if b.hash = x then some (t.held_aggregate p.model.spans agg).toList else t.redo[x]? := SumMap.get_insert _ _ _ _

theorem model_after (x : String) : (t.paged_after b p (paged_staged t t.canon p.model v agg)).model[x]? =
    if b.hash = x then some v.model else t.model[x]? := SumMap.get_insert _ _ _ _

theorem Whole.canon_after (h : Whole ss k t W) (hspans : p.model.spans = ss) :
    (t.paged_after b p (paged_staged t t.canon p.model v agg)).canon = apply_redo t.canon agg.toList := by
  have hcompact : (t.paged_after b p (paged_staged t t.canon p.model v agg)).canon =
      compact (apply_redo t.canon agg.toList) t.page_base p.model.spans := rfl
  rw [hcompact, hspans, h.compact_eq ((length_apply_redo _ _).trans h.canon_length)]

theorem Whole.records_after (h : Whole ss k t W) (hnew : b.hash ∉ t.blocks) (hprev : b.header.prev_hash = t.head)
    (hspans : p.model.spans = ss) :
    (t.paged_after b p (paged_staged t t.canon p.model v agg)).unheld.Records (weights_with W t b agg) := by
  have hg : b.hash ≠ t.genesis_hash := fun he => hnew (he ▸ h.shape.genesis_known)
  refine ⟨fun x u tail hu => ?_, fun x hx => ?_⟩
  · change (t.paged_after b p (paged_staged t t.canon p.model v agg)).undo[x]? = _ at hu
    change ∃ r q, (t.paged_after b p (paged_staged t t.canon p.model v agg)).redo[x]? = some r ∧ _
    rw [undo_after] at hu
    rw [redo_after]
    split at hu
    · next hbx =>
      subst hbx
      obtain ⟨rfl, rfl⟩ := Prod.mk.inj (Option.some.inj hu)
      refine ⟨_, t.head, if_pos rfl, hg, paged_after_parent_new hprev, ?_⟩
      rw [weights_with_old hnew (show t.head ∈ t.blocks from h.shape.head_known), weights_with_new, hspans, ← h.canon]
      exact h.moves agg
    · next hbx =>
      rw [if_neg hbx]
      obtain ⟨r, q, hr, hxg, hq, hm⟩ := h.records.moves x u tail hu
      have hxk := parent_some hq
      have hqk := h.shape.parent_known hq hxg
      exact ⟨r, q, hr, hxg, (paged_after_parent hnew hxk).trans hq,
        by rwa [weights_with_old hnew hxk, weights_with_old hnew hqk]⟩
  · rcases (mem_insert_iff _ _ _ _).mp hx with rfl | hx
    · exact (mem_insert_iff _ _ _ _).mpr (.inl rfl)
    · exact (mem_insert_iff _ _ _ _).mpr (.inr (h.records.redo_undo x hx))

theorem Whole.after (h : Whole ss k t W) (hnew : b.hash ∉ t.blocks) (hprev : b.header.prev_hash = t.head)
    (hspans : p.model.spans = ss)
    (hv : validate_inner b none p.height p.ledger t.data_contributor p.jurors p.model t.params = .ok v)
    (hd : Describes p.model t.canon.length) :
    Whole ss k (t.paged_after b p (paged_staged t t.canon p.model v agg)) (weights_with W t b agg) := by
  have hcanon : (t.paged_after b p (paged_staged t t.canon p.model v agg)).canon = apply_redo t.canon agg.toList :=
    h.canon_after hspans
  set t' := t.paged_after b p (paged_staged t t.canon p.model v agg) with ht'
  have hleaves : t'.page_leaves = leaves_for (apply_redo t.canon agg.toList) p.model ++
      (init_pages t.params v.activations).map (fun ip => merkle.leaf_hash (int64_bytes ip)) := rfl
  obtain ⟨hmodel, hact⟩ := validate_inner_fold hv
  have hpost : v.model.spans = ss ++ spans_from (table_end p.model.pages) (init_pages t.params v.activations) := by
    rw [hmodel, hact, spans_fold_block, hspans]
  constructor
  case shape => exact h.shape_after hnew hprev
  case paged => exact h.paged
  case based => exact h.based
  case covers => exact h.covers
  case tiled => exact h.tiled
  case narrow => exact h.narrow
  case length =>
    intro x hx
    rcases (mem_insert_iff _ _ _ _).mp hx with rfl | hx
    · rw [weights_with_new, length_apply_redo, h.canon_length]
    · rw [weights_with_old hnew hx]
      exact h.length x hx
  case model =>
    intro x hx
    rw [model_after]
    rcases (mem_insert_iff _ _ _ _).mp hx with rfl | hx
    · exact ⟨v.model, _, _, if_pos rfl, hpost, hmodel ▸ hd.fold b t.params⟩
    · rw [if_neg fun he : b.hash = x => hnew (he ▸ hx)]
      exact h.model x hx
  case canon => exact hcanon.trans weights_with_new.symm
  case records => exact h.records_after hnew hprev hspans
  case tails =>
    intro x u tail hu
    rw [undo_after] at hu
    split at hu
    · exact (Prod.mk.inj (Option.some.inj hu)).2.symm
    · exact h.tails x u tail hu
  case inside =>
    intro x u tail hu
    rw [undo_after] at hu
    split at hu
    · obtain ⟨rfl, -⟩ := Prod.mk.inj (Option.some.inj hu)
      intro c hc
      obtain ⟨c', hc', rfl⟩ := List.mem_map.mp hc
      exact (h.held_place_eq (c := c') (hspans ▸ hc')).2
    · exact h.inside x u tail hu
  case inside_redo =>
    intro x r hr
    rw [redo_after] at hr
    split at hr
    · obtain rfl := Option.some.inj hr
      intro c hc
      exact (h.held_place_eq (hspans ▸ hc)).2
    · exact h.inside_redo x r hr
  case leaves =>
    intro pid s hs
    rw [hleaves, hcanon, leaves_for_eq, hspans, List.getElem?_append_left, List.getElem?_map, hs]
    · rfl
    · rw [List.length_map]
      exact (List.getElem?_eq_some_iff.mp hs).1
  case leaf_count =>
    intro m hm
    rw [model_after, if_pos (show b.hash = t'.head from rfl)] at hm
    obtain rfl := Option.some.inj hm
    have := congrArg List.length hpost
    rw [spans_eq, List.length_map, List.length_append, length_spans_from, ← hspans, spans_eq, List.length_map] at this
    rw [this, hleaves, List.length_append, leaves_for, List.length_map, List.length_map]

end After

/-! ## The other operations -/

theorem Whole.prune (h : Whole ss k t W) : Whole ss k t.prune_deep W := by
  obtain ⟨doomed, pin, hp⟩ := t.prune_deep_cases
  have hundo (x : String) : t.prune_deep.undo[x]? = if x ∈ doomed then none else t.undo[x]? := by
    rw [hp]
    exact get_erase_all _ _ _
  have hredo (x : String) : t.prune_deep.redo[x]? = if x ∈ doomed then none else t.redo[x]? := by
    rw [hp]
    exact get_erase_all _ _ _
  have hkept {ν : Type} {o : Option ν} {x : String} {a : ν} (ho : (if x ∈ doomed then none else o) = some a) :
      x ∉ doomed ∧ o = some a := by
    split at ho
    · cases ho
    · exact ⟨‹_›, ho⟩
  have hframe : t.prune_deep.unheld = { t.unheld with
      undo := t.prune_deep.undo, redo := t.prune_deep.redo, genesis_pin := t.prune_deep.genesis_pin } := by
    rw [hp]
    rfl
  have hrecords : t.prune_deep.unheld.Records W := by
    refine ⟨fun x u tail hu => ?_, fun x hx => ?_⟩
    · rw [show t.prune_deep.unheld.undo = t.prune_deep.undo from rfl, hundo] at hu
      obtain ⟨hd, hu⟩ := hkept hu
      obtain ⟨r, q, hr, hne, hq, hm⟩ := h.records.moves x u tail hu
      refine ⟨r, q, ?_, ?_, ?_, hm⟩
      · rw [show t.prune_deep.unheld.redo = t.prune_deep.redo from rfl, hredo, if_neg hd]
        exact hr
      · rw [hframe]
        exact hne
      · rw [hframe]
        exact hq
    · rw [Std.ExtTreeMap.mem_iff_isSome_getElem?, Option.isSome_iff_exists] at hx ⊢
      obtain ⟨r, hr⟩ := hx
      rw [show t.prune_deep.unheld.redo = t.prune_deep.redo from rfl, hredo] at hr
      obtain ⟨hd, hr⟩ := hkept hr
      rw [show t.prune_deep.unheld.undo = t.prune_deep.undo from rfl, hundo, if_neg hd]
      exact Option.isSome_iff_exists.mp (Std.ExtTreeMap.mem_iff_isSome_getElem?.mp
        (h.records.redo_undo x (Std.ExtTreeMap.mem_iff_isSome_getElem?.mpr (Option.isSome_iff_exists.mpr ⟨r, hr⟩))))
  have htails : ∀ (x : String) u tail, t.prune_deep.undo[x]? = some (u, tail) → t.undo[x]? = some (u, tail) :=
    fun x u tail hu => (hkept ((hundo x).symm.trans hu)).2
  have hredos : ∀ (x : String) r, t.prune_deep.redo[x]? = some r → t.redo[x]? = some r :=
    fun x r hr => (hkept ((hredo x).symm.trans hr)).2
  have hshape : t.prune_deep.unheld.Shape := by
    rw [hframe]
    exact { h.shape with }
  rw [hp] at hrecords htails hredos hshape ⊢
  exact { h with
    shape := hshape
    records := hrecords
    tails := fun x u tail hu => h.tails x u tail (htails x u tail hu)
    inside := fun x u tail hu => h.inside x u tail (htails x u tail hu)
    inside_redo := fun x r hr => h.inside_redo x r (hredos x r hr) }

/-- Canon and the leaves moved to another block. -/
def BlockTree.rewound (t : BlockTree) (W : String → List Int64) (target : String) (m : ModelState) (up down : List String) :
    BlockTree :=
  { t with canon := W target, page_leaves := t.rewound_leaves (W target) up down m }

theorem Whole.rewind_cases (h : Whole ss k t W) (target : String) :
    (∃ e, t.rewind_to target = (.error e, t)) ∨
    ∃ up down m, t.fork_walk target = .ok (up, down) ∧ t.model[target]? = some m ∧ target ∈ t.blocks ∧
      (∀ x ∈ up ++ down, x ∈ t.undo) ∧
      t.rewind_to target = (.ok { up, down, saved_leaves := t.page_leaves }, t.rewound W target m up down) := by
  have hmodel : ∀ x ∈ t.unheld.blocks, x ∈ t.unheld.model := by
    intro x hx
    obtain ⟨m, -, -, hm, -⟩ := h.model x hx
    exact Std.ExtTreeMap.mem_iff_isSome_getElem?.mpr (by simp [show t.unheld.model[x]? = some m from hm])
  rw [rewind_unheld]
  rcases rewind_to_cases h.shape h.records h.canon hmodel target with ⟨e, he⟩ | ⟨up, down, m, hf, hm, hu, hr⟩
  · rw [he]
    exact .inl ⟨e, rfl⟩
  · rw [hr]
    exact .inr ⟨up, down, m, hf, hm, (fork_walk_spec h.shape hf).1, hu, rfl⟩

/-- A walk changes only what its records write. -/
theorem Whole.unwritten (h : Whole ss k t W) {a c : String} (walked lc : List String)
    (ha : Path t.unheld.parent t.genesis_hash a (walked ++ lc)) (hc : Path t.unheld.parent t.genesis_hash c lc)
    (hu : ∀ x ∈ walked, x ∈ t.undo) {j : Nat} (hj : t.Unwritten walked j) : (W a)[j]? = (W c)[j]? := by
  induction walked generalizing a with
  | nil =>
    have : a = c := by
      cases ha <;> cases hc <;> simp_all
    rw [this]
  | cons x walked ih =>
    have hlc : lc ≠ [] := by rintro rfl; cases hc
    obtain ⟨q, rfl, hq, hrest⟩ := ha.uncons (by simp [hlc])
    have hx := hu x List.mem_cons_self
    obtain ⟨⟨u, tail⟩, hget⟩ := Option.isSome_iff_exists.mp (Std.ExtTreeMap.mem_iff_isSome_getElem?.mp hx)
    obtain ⟨r, q', hr, -, hq', hm⟩ := h.records.moves x u tail hget
    obtain rfl := Option.some.inj (hq.symm.trans hq')
    have hforth := hm.forth
    rw [h.tails x u tail hget, List.append_nil] at hforth
    have hr' : t.redo[x]? = some r := hr
    rw [← hforth, getElem?_apply_redo_untouched _ _ _ (by simpa [hr'] using hj x List.mem_cons_self)]
    exact ih hrest (fun y hy => hu y (List.mem_cons_of_mem _ hy)) fun y hy => hj y (List.mem_cons_of_mem _ hy)

/-- The leaves of the genesis pages are right after a rewind. -/
theorem Whole.rewound_leaf (h : Whole ss k t W) {target : String} {up down : List String} {m : ModelState}
    (hf : t.fork_walk target = .ok (up, down)) (hm : t.model[target]? = some m) (hu : ∀ x ∈ up ++ down, x ∈ t.undo)
    {pid : Nat} {s : Nat × Nat} (hs : ss[pid]? = some s) :
    (t.rewound_leaves (W target) up down m)[pid]? = some (span_leaf (W target) s) := by
  obtain ⟨hk, c, lc, hcl, hup, hdown, -⟩ := fork_walk_spec h.shape hf
  obtain ⟨m', rest, n, hm', hspans, hd⟩ := h.model target hk
  obtain rfl := Option.some.inj (hm.symm.trans hm')
  have hspan : m.spans[pid]? = some s := by
    rw [hspans, List.getElem?_append_left (List.getElem?_eq_some_iff.mp hs).1, hs]
  obtain ⟨page, hpage, rfl⟩ : ∃ page, m.pages[pid]? = some page ∧ span page = s := by
    rw [spans_eq, List.getElem?_map, Option.map_eq_some_iff] at hspan
    exact hspan
  refine refresh_leaves_get hpage fun _ hun => ?_
  rw [h.leaves pid _ hs]
  refine congrArg some (congrArg (fun x => merkle.leaf_hash (int64_bytes x)) ?_)
  apply List.ext_getElem?
  intro i
  simp only [getElem?_slice, span, h.canon]
  split
  · next hi =>
    have hun' := unwritten_of_untouched hd hpage hun (j := page.start + i) ⟨by omega, by omega⟩
    rw [h.unwritten (a := t.head) up lc hup hcl (fun x hx => hu x (List.mem_append_left _ hx))
        fun x hx => hun' x (List.mem_append_left _ hx),
      h.unwritten down lc hdown hcl (fun x hx => hu x (List.mem_append_right _ hx))
        fun x hx => hun' x (List.mem_append_right _ hx)]
  · rfl

theorem Whole.with_state_at (h : Whole ss k t W) {R : Type} (target : String) (f : List Int64 → R) :
    (t.with_state_at target f).2 = t := by
  unfold BlockTree.with_state_at
  rcases h.rewind_cases target with ⟨e, he⟩ | ⟨up, down, m, hf, -, -, hu, hr⟩
  · rw [he]
  · rw [hr]
    exact roll_forward_rewound (t := t.unheld) h.shape h.records h.canon hf hu (t.rewound W target m up down)
      (fun _ _ => rfl) (fun _ _ => rfl) rfl

theorem Whole.marked (h : Whole ss k t W) (depth : Option UInt64) (verified convicted : StrSet) :
    Whole ss k { t with prune_depth := depth, hash_verified := verified, convicted := convicted } W :=
  { h with shape := { h.shape with }, records := ⟨h.records.moves, h.records.redo_undo⟩ }

theorem Whole.move (h : Whole ss k t W) {target : String} {up down : List String} {m : ModelState}
    (hf : t.fork_walk target = .ok (up, down)) (hm : t.model[target]? = some m) (hk : target ∈ t.blocks)
    (hu : ∀ x ∈ up ++ down, x ∈ t.undo) : Whole ss k { t.rewound W target m up down with head := target } W :=
  { h with
    shape := ⟨rfl, h.shape.genesis_known, hk, h.shape.line⟩
    canon := rfl
    records := ⟨h.records.moves, h.records.redo_undo⟩
    leaves := fun pid s hs => h.rewound_leaf hf hm hu hs
    leaf_count := by
      intro m' hm'
      obtain rfl := Option.some.inj (hm.symm.trans hm')
      exact length_refresh_leaves _ _ _ _ }

theorem Whole.convict (h : Whole ss k t W) (b : String) : Whole ss k (t.convict b).2 W := by
  have h' := h.marked t.prune_depth t.hash_verified (t.convicted.insert b)
  unfold BlockTree.convict
  simp only
  split
  · exact h'
  split
  · exact h'
  split
  · exact h'
  rcases h'.rewind_cases ({ t with convicted := t.convicted.insert b }).best_head with
    ⟨e, he⟩ | ⟨up, down, m, hf, hm, hk, hu, hr⟩
  · rw [he]
    exact h'
  · rw [hr]
    exact h'.move hf hm hk hu

/-- What an accepted block on the head comes from. -/
theorem paged_add_block_cases (hheld : t.held.isSome) (b : Block) :
    (∃ e, t.add_block b = (.error e, t)) ∨ (b.hash ∈ t.blocks ∧ t.add_block b = (.ok false, t)) ∨
    ∃ p r, b.hash ∉ t.blocks ∧ b.header.prev_hash = t.head ∧ t.parent_entries t.head = .ok p ∧
      (b.hash ∉ t.convicted ∧ b.header.prev_hash ∉ t.convicted) ∧
      t.stage_paged b p = .ok r ∧ t.add_block b = (.ok true, (t.paged_after b p r).prune_deep) := by
  unfold add_block
  simp only
  split
  · next hk => exact .inr (.inl ⟨Std.ExtTreeMap.contains_iff_mem.mp hk, rfl⟩)
  next hk =>
  split
  · exact .inl ⟨_, rfl⟩
  next hconv =>
  split
  · next hprev =>
    cases hp : t.parent_entries t.head with
    | error e =>
      refine .inl ⟨e, ?_⟩
      simp [connect_extend_paged, hp, bind, Except.bind]
    | ok p =>
      cases hr : t.stage_paged b p with
      | error e =>
        refine .inl ⟨e, ?_⟩
        simp [connect_extend_paged, hp, hr, bind, Except.bind]
      | ok r =>
        refine .inr (.inr ⟨p, r, fun hmem => hk (Std.ExtTreeMap.contains_iff_mem.mpr hmem), hprev, rfl,
          not_or.mp hconv, hr, connect_extend_paged_ok hp hr⟩)
  · exact .inl ⟨_, rfl⟩

theorem Whole.add_block (h : Whole ss k t W) (b : Block) :
    ∃ W', Whole ss k (t.add_block b).2 W' ∧ ∀ x ∈ t.blocks, W' x = W x ∧ x ∈ (t.add_block b).2.blocks := by
  rcases paged_add_block_cases h.paged b with ⟨e, he⟩ | ⟨-, he⟩ | ⟨p, r, hnew, hprev, hp, -, hr, he⟩
  · rw [he]
    exact ⟨W, h, fun _ hx => ⟨rfl, hx⟩⟩
  · rw [he]
    exact ⟨W, h, fun _ hx => ⟨rfl, hx⟩⟩
  · obtain ⟨hspans, hstands, v, agg, hv, -, -, rfl⟩ := h.take hp hr
    rw [he]
    refine ⟨_, (h.after hnew hprev hspans hv hstands.describes).prune, fun x hx => ⟨Function.update_of_ne ?_ _ _, ?_⟩⟩
    · rintro rfl
      exact hnew hx
    · rw [(prune_deep_frame _).1]
      exact (mem_insert_iff _ _ _ _).mpr (.inr hx)

theorem Whole.step (h : Whole ss k t W) (op : Op) : ∃ W', Whole ss k (t.step op) W' := by
  cases op with
  | add_block b =>
    obtain ⟨W', h', -⟩ := h.add_block b
    exact ⟨W', h'⟩
  | with_state_at target =>
    refine ⟨W, ?_⟩
    rw [BlockTree.step, h.with_state_at]
    exact h
  | convict b => exact ⟨W, h.convict b⟩
  | set_prune_depth depth => exact ⟨W, h.marked depth t.hash_verified t.convicted⟩
  | mark_verified txid => exact ⟨W, h.marked t.prune_depth (t.hash_verified.insert txid) t.convicted⟩

theorem Whole.run (h : Whole ss k t W) (ops : List Op) : ∃ W', Whole ss k (t.run ops) W' := by
  induction ops generalizing t W with
  | nil => exact ⟨W, h⟩
  | cons op ops ih =>
    obtain ⟨W', h'⟩ := h.step op
    exact ih h'

/-! ## Genesis -/

theorem whole_new (w : List Int64) (held : List Nat) (dc : Option String) (params : GenesisParams)
    (hw : w.length = (ModelState.genesis params.spec).dim) (hdim : w.length < 2 ^ 32)
    (hcov : ∀ pid page, (ModelState.genesis params.spec).pages[pid]? = some page → page.start < page.stop →
      pid ∈ 0 :: held) :
    Whole (ModelState.genesis params.spec).spans w.length (BlockTree.new_paged w held dc params) fun _ => w := by
  have hd := describes_genesis params.spec
  obtain ⟨bases, heq, hbased, -, hun⟩ := new_paged_eq w held dc params hw
  have hcovers : Covers bases (ModelState.genesis params.spec).spans := by
    intro pid s hb hs
    rw [spans_eq, List.getElem?_map, Option.map_eq_some_iff] at hs
    obtain ⟨page, hpage, rfl⟩ := hs
    have hno := (hun pid (List.getElem?_eq_some_iff.mp hpage).1).mp hb
    have hle := hd.tiled.ordered (List.mem_map_of_mem (List.mem_of_getElem? hpage))
    by_contra hne
    exact hno (hcov pid page hpage (by simp only [span] at hle hne; omega))
  have hmem {ν : Type} {g h : String} {v : ν} (hh : h ∈ (∅ : Dict ν).insert g v) : h = g :=
    ((mem_insert_iff _ _ _ _).mp hh).resolve_right Std.ExtTreeMap.not_mem_empty
  have htiled : Tiled 0 (ModelState.genesis params.spec).spans w.length := hw ▸ hd.tiled
  have hcanon : compact w bases (ModelState.genesis params.spec).spans = w := by
    rw [hcovers.compact_eq hbased htiled]
    simp [slice]
  have hmodel : (BlockTree.new w dc params).model[(BlockTree.new w dc params).head]? =
      some (ModelState.genesis params.spec) := Std.ExtTreeMap.getElem?_insert_self
  rw [heq]
  constructor
  case shape =>
    refine ⟨rfl, (mem_insert_iff _ _ _ _).mpr (.inl rfl), (mem_insert_iff _ _ _ _).mpr (.inl rfl), fun h hh => ?_⟩
    obtain rfl := hmem hh
    exact ⟨_, .root⟩
  case paged => rfl
  case based => exact hbased
  case covers => exact hcovers
  case tiled => exact htiled
  case narrow => exact hdim
  case length => exact fun _ _ => rfl
  case model =>
    intro h hh
    obtain rfl := hmem hh
    exact ⟨_, [], _, hmodel, (List.append_nil _).symm, hd⟩
  case canon => exact hcanon
  case records =>
    refine ⟨fun h u tail hu => ?_, fun h hh => ?_⟩
    · exact absurd hu (by simp [unheld, BlockTree.new])
    · exact absurd hh (by simp [unheld, BlockTree.new])
  case tails => exact fun h u tail hu => absurd hu (by simp [BlockTree.new])
  case inside => exact fun h u tail hu => absurd hu (by simp [BlockTree.new])
  case inside_redo => exact fun h r hr => absurd hr (by simp [BlockTree.new])
  case leaves =>
    intro pid s hs
    change (leaves_for w (ModelState.genesis params.spec))[pid]? = some (span_leaf (compact w bases _) s)
    rw [hcanon, leaves_for_eq, List.getElem?_map, hs]
    rfl
  case leaf_count =>
    intro m hm
    obtain rfl := Option.some.inj (hm.symm.trans hmodel)
    exact List.length_map _

end Any

end Sestrian
