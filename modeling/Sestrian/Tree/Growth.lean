import Sestrian.Tree.Incremental
import Sestrian.Tree.Unpruned

/-!
# Growth along a walk

A line of blocks appends pages and writes to the coordinates of its redo records. A rewind
keeps the cached leaf of every page that no walked block touched. That is right for pages the
two ends share. For a page that both branches grew after they parted it is right only when
both gave it the same first weights.
-/

open Walk Check

namespace Sestrian

open Aggregate Pages BlockTree

/-! ## Spans of grown pages -/

theorem spans_from_append (a : Nat) (ps qs : List (List Int64)) :
    spans_from a (ps ++ qs) = spans_from a ps ++ spans_from (a + ps.flatten.length) qs := by
  induction ps generalizing a with
  | nil => simp [spans_from]
  | cons p ps ih => simp [spans_from, ih, Nat.add_assoc]

/-- Pages of one length make spans that do not depend on what is in them. -/
theorem spans_from_prefix {k : Nat} (a : Nat) (ps qs : List (List Int64)) (hp : ∀ p ∈ ps, p.length = k)
    (hq : ∀ q ∈ qs, q.length = k) (i : Nat) (s s' : Nat × Nat) (hs : (spans_from a ps)[i]? = some s)
    (hs' : (spans_from a qs)[i]? = some s') : s = s' := by
  induction ps generalizing a qs i with
  | nil => simp [spans_from] at hs
  | cons p ps ih =>
    cases qs with
    | nil => simp [spans_from] at hs'
    | cons q qs =>
      have hpq : p.length = q.length := (hp p (by simp)).trans (hq q (by simp)).symm
      cases i with
      | zero => simp_all [spans_from]
      | succ i =>
        simp only [spans_from, List.getElem?_cons_succ, hpq] at hs hs'
        exact ih _ qs (fun p hp' => hp p (by simp [hp'])) (fun q hq' => hq q (by simp [hq'])) i hs hs'

/-- A coordinate lies in one span. -/
theorem tiled_unique {a n : Nat} {spans : List (Nat × Nat)} (h : Tiled a spans n) {i k j : Nat} {s s' : Nat × Nat}
    (hi : spans[i]? = some s) (hk : spans[k]? = some s') (hs : s.1 ≤ j ∧ j < s.2) (hs' : s'.1 ≤ j ∧ j < s'.2) :
    i = k := by
  induction spans generalizing a i k with
  | nil => simp at hi
  | cons x rest ih =>
    obtain ⟨rfl, hle, h⟩ := h
    have hlow {m : Nat} {y : Nat × Nat} (hm : rest[m]? = some y) : x.2 ≤ y.1 := h.start_le (List.mem_of_getElem? hm)
    cases i with
    | zero =>
      cases k with
      | zero => rfl
      | succ k =>
        have := hlow (by simpa using hk)
        simp at hi
        subst hi
        omega
    | succ i =>
      cases k with
      | zero =>
        have := hlow (by simpa using hi)
        simp at hk
        subst hk
        omega
      | succ k => exact congrArg (· + 1) (ih h (by simpa using hi) (by simpa using hk))

/-! ## A line of blocks -/

/-- A redo leaves alone the places it does not name. -/
theorem getElem?_apply_redo_untouched (w : List Int64) (redo : List (UInt32 × Int64)) (j : Nat)
    (h : ∀ c ∈ redo, c.1.toNat ≠ j) : (apply_redo w redo)[j]? = w[j]? := by
  unfold apply_redo
  induction redo generalizing w with
  | nil => rfl
  | cons c redo ih =>
    rw [List.foldl_cons, ih _ fun c hc => h c (List.mem_cons_of_mem _ hc)]
    simp [h c List.mem_cons_self]

theorem length_apply_redo (w : List Int64) (redo : List (UInt32 × Int64)) :
    (apply_redo w redo).length = w.length := by
  unfold apply_redo
  induction redo generalizing w with
  | nil => rfl
  | cons c redo ih => rw [List.foldl_cons, ih, List.length_modify]

/-- The growth tails of a walk, in the order of the chain. -/
def BlockTree.appended (t : BlockTree) (walked : List String) : List Int64 :=
  walked.reverse.flatMap fun h => (t.undo[h]?.getD ([], [])).2

/-- No walked block wrote to this coordinate. -/
def BlockTree.Unwritten (t : BlockTree) (walked : List String) (j : Nat) : Prop :=
  ∀ h ∈ walked, ∀ c ∈ t.redo[h]?.getD [], c.1.toNat ≠ j

variable [Crypto]

variable {genesis_w : List Int64} {params : GenesisParams} {n : Logged} {S : String → List Int64 × ModelState}

/-- What a line of blocks does from its lower end `c` to its upper end `a`. -/
structure Grows (t : BlockTree) (k : Nat) (c a : List Int64 × ModelState) (walked : List String)
    (pages : List (List Int64)) : Prop where
  uniform : ∀ p ∈ pages, p.length = k
  flat : pages.flatten = t.appended walked
  spans : a.2.spans = c.2.spans ++ spans_from c.1.length pages
  length : a.1.length = c.1.length + pages.flatten.length
  values : ∀ j, t.Unwritten walked j → a.1[j]? = (c.1 ++ t.appended walked)[j]?

/-- One block appends the pages it activates and changes the coordinates of its redo. -/
theorem Coherent.grows_step (hc : Coherent genesis_w params n S) {h p : String} (hh : h ∈ n.tree.undo)
    (hp : n.tree.parent h = some p) :
    ∃ pages, Grows n.tree params.spec.expert_page_len (S p) (S h) [h] pages := by
  obtain ⟨⟨u, tail⟩, hu⟩ := Option.isSome_iff_exists.mp (Std.ExtTreeMap.mem_iff_isSome_getElem?.mp hh)
  obtain ⟨r, p', hr, hne, hp', hm⟩ := hc.records.moves h u tail hu
  obtain rfl := Option.some.inj (hp.symm.trans hp')
  have hknown := parent_some hp
  obtain ⟨b, hb⟩ := Option.isSome_iff_exists.mp
    (Std.ExtTreeMap.mem_iff_isSome_getElem?.mp (hc.known h hknown hne))
  obtain ⟨-, -, hhd, hS⟩ := hc.logged h b hb
  obtain rfl : b.header.prev_hash = p := by simpa [BlockTree.parent, hhd] using hp
  have hd := hc.describes _ (hc.shape.parent_known hp hne)
  set pages := init_pages params (fold_block b (S b.header.prev_hash).2 params).2 with hpages
  have hforth := hm.forth
  rw [hS] at hforth
  have htail : tail = pages.flatten := by
    refine (List.append_inj hforth ?_).2
    rw [length_apply_redo, length_paged_transition]
  have happ : n.tree.appended [h] = tail := by simp [appended, hu]
  refine ⟨pages, ⟨fun q hq => ?_, by rw [happ, htail], ?_, ?_, fun j hj => ?_⟩⟩
  · obtain ⟨a, -, rfl⟩ := List.mem_map.mp hq
    exact length_page_init _ _ _
  · rw [hS, ← tiled_table_end hd.tiled hd.pages_ne]
    exact spans_fold_block b _ params
  · rw [← hm.forth, List.length_append, length_apply_redo, htail]
  · rw [happ, ← hm.forth]
    have hun := getElem?_apply_redo_untouched (S b.header.prev_hash).1 r j fun c hcr =>
      hj h List.mem_cons_self c (by simpa [hr] using hcr)
    simp only [List.getElem?_append, length_apply_redo, hun]

omit [Crypto] in
theorem Grows.trans {t : BlockTree} {k : Nat} {c b a : List Int64 × ModelState} {h : String}
    {walked : List String} {ps qs : List (List Int64)} (h₁ : Grows t k c b walked ps) (h₂ : Grows t k b a [h] qs) :
    Grows t k c a (h :: walked) (ps ++ qs) := by
  have happ : t.appended (h :: walked) = t.appended walked ++ t.appended [h] := by
    simp [appended]
  refine ⟨fun p hp => (List.mem_append.mp hp).elim (h₁.uniform p) (h₂.uniform p), ?_, ?_, ?_, fun j hj => ?_⟩
  · rw [List.flatten_append, h₁.flat, h₂.flat, happ]
  · rw [h₂.spans, h₁.spans, spans_from_append, List.append_assoc, h₁.length]
  · rw [h₂.length, h₁.length, List.flatten_append, List.length_append, Nat.add_assoc]
  · have hj₁ := h₁.values j fun x hx => hj x (List.mem_cons_of_mem _ hx)
    have hj₂ := h₂.values j fun x hx => hj x (by simp at hx; simp [hx])
    have hlen : b.1.length = (c.1 ++ t.appended walked).length := by
      rw [h₁.length, h₁.flat, List.length_append]
    rw [hj₂, happ, ← List.append_assoc, List.getElem?_append, List.getElem?_append, hlen, hj₁]

/-- Along a line with all its records. -/
theorem Coherent.grows_line (hc : Coherent genesis_w params n S) {a c : String} (walked lc : List String)
    (ha : Path n.tree.parent n.tree.genesis_hash a (walked ++ lc))
    (hcl : Path n.tree.parent n.tree.genesis_hash c lc) (hu : ∀ h ∈ walked, h ∈ n.tree.undo) :
    ∃ pages, Grows n.tree params.spec.expert_page_len (S c) (S a) walked pages := by
  induction walked generalizing a with
  | nil =>
    obtain rfl : a = c := by
      cases ha <;> cases hcl <;> simp_all
    exact ⟨[], by simp, by simp [appended], by simp [spans_from], by simp, fun j _ => by simp [appended]⟩
  | cons x walked ih =>
    have hlc : lc ≠ [] := by rintro rfl; cases hcl
    obtain ⟨b, rfl, hp, hb⟩ := ha.uncons (by simp [hlc])
    obtain ⟨ps, hps⟩ := ih hb fun h hh => hu h (List.mem_cons_of_mem _ hh)
    obtain ⟨qs, hqs⟩ := hc.grows_step (hu x List.mem_cons_self) hp
    exact ⟨ps ++ qs, hps.trans hqs⟩

/-! ## The rewound cache -/

/-- A page that both ends grew after they parted, and that no walked block touched, got the
same first weights on both sides. -/
def SameGrowth (t : BlockTree) (target : String) : Prop :=
  ∀ up down m, t.fork_walk target = .ok (up, down) → t.model[target]? = some m →
    ∀ pid page, m.pages[pid]? = some page → pid < t.page_leaves.length → pid ∉ t.touched_pages m (up ++ down) →
      let shared := m.dim - (t.appended down).length
      shared ≤ page.start →
        slice (t.appended up) (page.start - shared) (page.stop - shared) =
          slice (t.appended down) (page.start - shared) (page.stop - shared)

omit [Crypto] in
/-- A coordinate of a page that the walk did not touch was not written. -/
theorem unwritten_of_untouched {t : BlockTree} {m : ModelState} {k pid j : Nat} {page : Page}
    {walked : List String} (hm : Describes m k) (hpage : m.pages[pid]? = some page)
    (hpid : pid ∉ t.touched_pages m walked) (hj : page.start ≤ j ∧ j < page.stop) : t.Unwritten walked j := by
  rintro h hh c hc rfl
  refine hpid (List.mem_flatMap.mpr ⟨h, hh, List.mem_filterMap.mpr ⟨c, hc, ?_⟩⟩)
  unfold coord_page
  cases hf : m.pages.findIdx? fun p => p.start ≤ c.1.toNat ∧ c.1.toNat < p.stop with
  | none =>
    have := List.findIdx?_eq_none_iff.mp hf page (List.mem_of_getElem? hpage)
    simp at this
    omega
  | some i =>
    obtain ⟨hi, hin, -⟩ := List.findIdx?_eq_some_iff_getElem.mp hf
    have hspan {i : Nat} {p : Page} (hp : m.pages[i]? = some p) : m.spans[i]? = some (span p) := by
      simp [spans_eq, hp]
    rw [tiled_unique hm.tiled (hspan (List.getElem?_eq_getElem hi)) (hspan hpage) (by simpa [span] using hin) hj]

omit [Crypto] in
/-- Two lines from one block number their common pages alike. -/
theorem Grows.same_span {t : BlockTree} {k : Nat} {c a a' : List Int64 × ModelState} {up down : List String}
    {ps qs : List (List Int64)} (h : Grows t k c a up ps) (h' : Grows t k c a' down qs) {i : Nat} {s s' : Nat × Nat}
    (hs : a.2.spans[i]? = some s) (hs' : a'.2.spans[i]? = some s') : s = s' := by
  rw [h.spans, List.getElem?_append] at hs
  rw [h'.spans, List.getElem?_append] at hs'
  split at hs <;> split at hs'
  · exact Option.some.inj (hs.symm.trans hs')
  · contradiction
  · contradiction
  · exact spans_from_prefix _ ps qs h.uniform h'.uniform _ s s' hs hs'

omit [Crypto] in
/-- A page is either below the fork or was grown above it. -/
theorem Grows.page_side {t : BlockTree} {k : Nat} {c a : List Int64 × ModelState} {walked : List String}
    {ps : List (List Int64)} (h : Grows t k c a walked ps) (hd : Describes c.2 c.1.length) {i : Nat} {s : Nat × Nat}
    (hs : a.2.spans[i]? = some s) : s.2 ≤ c.1.length ∨ c.1.length ≤ s.1 := by
  rw [h.spans, List.getElem?_append] at hs
  split at hs
  · exact .inl (hd.tiled.stop_le (List.mem_of_getElem? hs))
  · exact .inr ((tiled_spans_from c.1.length ps).start_le (List.mem_of_getElem? hs))

theorem length_refresh_leaves (canon : List Int64) (saved : List Hash) (m : ModelState) (touched : List Nat) :
    (refresh_leaves canon saved m touched).length = m.pages.length := by
  simp [refresh_leaves]
  omega

/-- A leaf is right when it is hashed again, or was right before. -/
theorem refresh_leaves_get {canon : List Int64} {saved : List Hash} {m : ModelState} {touched : List Nat} {pid : Nat}
    {page : Page} (hpage : m.pages[pid]? = some page)
    (h : pid < saved.length → pid ∉ touched → saved[pid]? = some (page_leaf canon page)) :
    (refresh_leaves canon saved m touched)[pid]? = some (page_leaf canon page) := by
  obtain ⟨hpid, hget⟩ := List.getElem?_eq_some_iff.mp hpage
  unfold refresh_leaves
  set leaves := saved.take m.pages.length ++ List.replicate (m.pages.length - saved.length) zero_hash with hl
  have hlen : leaves.length = m.pages.length := by
    simp [hl]
    omega
  rw [List.getElem?_eq_getElem (by simpa [hlen] using hpid)]
  simp only [List.getElem_mapIdx, List.getElem_zip, hget]
  split
  · rfl
  · next hkeep =>
    simp only [not_or, Nat.not_le] at hkeep
    have hsaved : leaves[pid] = saved[pid] := by
      simp only [hl]
      rw [List.getElem_append_left (by simp; omega), List.getElem_take]
    rw [hsaved, ← List.getElem?_eq_getElem hkeep.2.1]
    exact h hkeep.2.1 hkeep.1

/-- The cache is right when every leaf it keeps is. -/
theorem refresh_leaves_eq (canon : List Int64) (saved : List Hash) (m : ModelState) (touched : List Nat)
    (h : ∀ pid page, m.pages[pid]? = some page → pid < saved.length → pid ∉ touched →
      saved[pid]? = some (page_leaf canon page)) :
    refresh_leaves canon saved m touched = leaves_for canon m := by
  apply List.ext_getElem?
  intro pid
  rw [leaves_for, List.getElem?_map]
  cases hpage : m.pages[pid]? with
  | some page => exact refresh_leaves_get hpage (h pid page hpage)
  | none =>
    refine List.getElem?_eq_none ?_
    rw [length_refresh_leaves]
    exact List.getElem?_eq_none_iff.mp hpage

/-- A rewind leaves the leaves of the target when the branches grew alike. -/
theorem Coherent.rewound_right (hc : Coherent genesis_w params n S)
    (hleaves : n.tree.page_leaves = leaves_for n.tree.canon (S n.tree.head).2) {target : String}
    {up down : List String} (hf : n.tree.fork_walk target = .ok (up, down))
    (hu : ∀ h ∈ up ++ down, h ∈ n.tree.undo) (hsame : SameGrowth n.tree target) :
    n.tree.rewound_leaves (S target).1 up down (S target).2 = leaves_for (S target).1 (S target).2 := by
  obtain ⟨hk, c, lc, hcl, hup, hdown, -⟩ := fork_walk_spec hc.shape hf
  obtain ⟨ps, hps⟩ := hc.grows_line up lc hup hcl fun h hh => hu h (List.mem_append_left _ hh)
  obtain ⟨qs, hqs⟩ := hc.grows_line down lc hdown hcl fun h hh => hu h (List.mem_append_right _ hh)
  have hdt := hc.describes target hk
  have hdc := hc.describes c (hc.shape.line_known hcl c hcl.start_mem)
  have hshared : (S target).2.dim - (n.tree.appended down).length = (S c).1.length := by
    rw [show (S target).2.dim = _ from tiled_table_end hdt.tiled hdt.pages_ne, hqs.length, hqs.flat]
    omega
  refine refresh_leaves_eq _ _ _ _ fun pid page hpage hlt hpid => ?_
  have hgrown := hsame up down (S target).2 hf (hc.model target hk) pid page hpage hlt hpid
  simp only [hshared] at hgrown
  have hspan : (S target).2.spans[pid]? = some (span page) := by simp [spans_eq, hpage]
  -- the head has a page of this id, at the same place
  rw [hleaves, leaves_for_eq, List.length_map] at hlt
  have hspan' : (S n.tree.head).2.spans[pid]? = some (span page) := by
    rw [List.getElem?_eq_getElem hlt, hps.same_span hqs (List.getElem?_eq_getElem hlt) hspan]
  rw [hleaves, leaves_for_eq, List.getElem?_map, hspan', Option.map_some]
  refine congrArg some (congrArg (fun x => merkle.leaf_hash (int64_bytes x)) ?_)
  apply List.ext_getElem?
  intro i
  simp only [getElem?_slice, span, hc.canon]
  split
  · next hi =>
    have hun := unwritten_of_untouched hdt hpage hpid (j := page.start + i) ⟨by omega, by omega⟩
    rw [hps.values _ fun h hh => hun h (List.mem_append_left _ hh),
      hqs.values _ fun h hh => hun h (List.mem_append_right _ hh)]
    rcases hqs.page_side hdc hspan with hlow | hhigh
    · simp only [span] at hlow
      rw [List.getElem?_append_left (by omega), List.getElem?_append_left (by omega)]
    · have := congrArg (·[i]?) (hgrown hhigh)
      simp only [span] at hhigh
      simp only [getElem?_slice, show i < page.stop - (S c).1.length - (page.start - (S c).1.length) by omega,
        if_true] at this
      rw [List.getElem?_append_right (by omega), List.getElem?_append_right (by omega),
        show page.start + i - (S c).1.length = page.start - (S c).1.length + i by omega, this]
  · rfl

/-- A walk back to genesis meets no grown page. -/
theorem Coherent.sameGrowth_genesis (hc : Coherent genesis_w params n S) :
    SameGrowth n.tree n.tree.genesis_hash := by
  intro up down m hf hm pid page hpage _ _ shared _
  obtain ⟨hk, c, lc, hcl, -, hdown, -⟩ := fork_walk_spec hc.shape hf
  have hnil : down = [] := by
    have hlen := congrArg List.length (hdown.unique .root)
    have hpos := List.length_pos_of_mem hcl.start_mem
    rw [List.length_append, List.length_singleton] at hlen
    exact List.length_eq_zero_iff.mp (by omega)
  obtain rfl := Option.some.inj (hm.symm.trans (hc.model _ hk))
  have hd := hc.describes _ hk
  have hshared : shared = (S n.tree.genesis_hash).1.length := by
    rw [← tiled_table_end hd.tiled hd.pages_ne]
    simp [shared, hnil, appended, ModelState.dim, table_end]
  have hstop : page.stop ≤ shared := by
    rw [hshared]
    exact hd.tiled.stop_le (List.mem_map_of_mem (f := span) (List.mem_of_getElem? hpage))
  simp [slice, Nat.sub_eq_zero_of_le hstop]

/-! ## The staged cache -/

/-- Right leaves at the parent give right leaves after the block. -/
theorem staged_leaves {t : BlockTree} {b : Block} {p : Parent} {staged : Staged}
    (h : t.validate_at_base b p = .ok staged) (hm : Describes p.model t.canon.length)
    (hleaves : t.page_leaves = leaves_for t.canon p.model) (hdim : b.txs ≠ [] → t.canon.length < 2 ^ 32) :
    staged.new_leaves =
      leaves_for (apply_redo t.canon staged.agg.toList ++ staged.init_pages.flatten) staged.post_model := by
  simp only [validate_at_base, bind_eq_ok, require_eq_ok, pure_eq_ok] at h
  obtain ⟨tx_coords, hcoords, v, hv, -, -, rfl⟩ := h
  obtain ⟨hmodel, hact⟩ := validate_inner_fold hv
  have hspans : v.model.spans = p.model.spans ++ spans_from t.canon.length (init_pages t.params v.activations) := by
    rw [hmodel, spans_fold_block, tiled_table_end hm.tiled hm.pages_ne, ← hact]
  have hagg : page_aggregate b p.model.spans tx_coords ≠ ∅ → t.canon.length < 2 ^ 32 := by
    intro hne
    refine hdim fun htxs => hne ?_
    have : tx_coords = [] := by
      rw [htxs, List.mapM_nil] at hcoords
      exact (Except.ok.inj hcoords).symm
    rw [this]
    exact page_aggregate_nil htxs _
  rw [leaves_for_eq, hspans]
  exact state_root_with_leaves t p.model _ _ hm hleaves hagg

end Sestrian
