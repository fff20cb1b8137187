import Sestrian.Capacity.Table
import Sestrian.Code.Offsets

/-!
# The page table in `u64`

The offsets of the source are the unbounded ones modulo `2^64`. So its spans tile the weights as long as
the model is shorter than that, and the first page that is not ends before it starts.
-/

namespace Sestrian.capacity

open client Aggregate

def fold_at_u64 (params : GenesisParams) (s : ModelState) (height : Nat) (i : FoldInput) : ModelState × List Activation :=
  fold_u64 s params (UInt64.ofNat height) i.n_txs i.zero_scored i.prev_hash i.score_sum i.proposer

/-- The state after these blocks, the first of which has height 1. -/
def folds_u64 (params : GenesisParams) (ins : List FoldInput) : ModelState :=
  (ins.zipIdx 1).foldl (fun s ih => (fold_at_u64 params s ih.2 ih.1).1) (ModelState.genesis_u64 params.spec)

section

variable {params : GenesisParams} {spec : ModelSpec} {s : ModelState} {g : Nat}

/-! ## Offsets modulo `2^64` -/

def wrap_page (p : Page) : Page := { p with start := p.start % 2 ^ 64, stop := p.stop % 2 ^ 64 }

def wrap (s : ModelState) : ModelState := { s with pages := s.pages.map wrap_page }

def wrap_span (sp : Nat × Nat) : Nat × Nat := (sp.1 % 2 ^ 64, sp.2 % 2 ^ 64)

theorem spans_wrap (s : ModelState) : (wrap s).spans = s.spans.map wrap_span := by
  unfold ModelState.spans wrap
  rw [List.map_map, List.map_map]
  rfl

theorem genesis_experts_wrap (ks : List (Nat × Nat)) (off : Nat) :
    genesis_experts_u64 spec (UInt64.ofNat off) ks = (genesis_experts spec off ks).map wrap_page := by
  induction ks generalizing off with
  | nil => rfl
  | cons k ks ih =>
    rw [genesis_experts_u64, genesis_experts, List.map_cons, ← UInt64.ofNat_add, ih]
    simp only [wrap_page, UInt64.toNat_ofNat']

theorem genesis_wrap (spec : ModelSpec) : ModelState.genesis_u64 spec = wrap (ModelState.genesis spec) := by
  have hexperts (ks : List (Nat × Nat)) : genesis_experts_u64 spec spec.backbone_params ks =
      (genesis_experts spec spec.backbone_params.toNat ks).map wrap_page := by
    rw [← genesis_experts_wrap, UInt64.ofNat_toNat]
  have hbackbone : wrap_page (backbone_page spec) = backbone_page spec := by
    unfold wrap_page backbone_page
    simp only [Nat.zero_mod, Nat.mod_eq_of_lt spec.backbone_params.toNat_lt]
  have hpages : (ModelState.genesis_u64 spec).pages = (ModelState.genesis spec).pages.map wrap_page := by
    refine Eq.trans ?_ (congrArg₂ List.cons hbackbone.symm (hexperts _))
    rfl
  exact congrArg (fun pages => ({ ModelState.genesis spec with pages } : ModelState)) hpages

theorem activate_wrap (pages : List Page) (pg : PendingGrowth) : activate_u64 spec (pages.map wrap_page) pg =
    ((activate spec pages pg).1.map wrap_page, (activate spec pages pg).2) := by
  have hlast : ((pages.map wrap_page).getLast?.map (·.stop)).getD 0 = (pages.getLast?.map (·.stop)).getD 0 % 2 ^ 64 := by
    rw [List.getLast?_map]
    cases pages.getLast? <;> rfl
  have hexperts : ((pages.map wrap_page).filter fun p => p.kind = .expert ∧ p.layer = pg.layer).map (·.expert) =
      (pages.filter fun p => p.kind = .expert ∧ p.layer = pg.layer).map (·.expert) := by
    rw [List.filter_map, List.map_map]
    rfl
  have hstop (x : Nat) : (UInt64.ofNat (x % 2 ^ 64) + UInt64.ofNat spec.expert_page_len).toNat =
      (x + spec.expert_page_len) % 2 ^ 64 := by
    simp only [UInt64.toNat_add, UInt64.toNat_ofNat']
    omega
  have hstart (x : Nat) : (UInt64.ofNat (x % 2 ^ 64)).toNat = x % 2 ^ 64 := by
    rw [UInt64.toNat_ofNat', Nat.mod_mod]
  simp only [activate_u64, activate, hlast, hexperts, hstop, hstart, List.map_append, List.length_map]
  rfl

theorem activate_all_wrap (gs : List PendingGrowth) (pages : List Page) :
    activate_all_u64 spec (pages.map wrap_page) gs =
      ((activate_all spec pages gs).1.map wrap_page, (activate_all spec pages gs).2) := by
  induction gs generalizing pages with
  | nil => rfl
  | cons pg gs ih => simp only [activate_all_u64, activate_all, activate_wrap, ih]

theorem set_status_wrap (pages : List Page) (i : Nat) (st : PageStatus) :
    set_status (pages.map wrap_page) i st = (set_status pages i st).map wrap_page := by
  apply List.ext_getElem?
  intro j
  simp only [set_status, List.getElem?_map, List.getElem?_modify]
  split <;> cases pages[j]? <;> rfl

theorem grown_with_wrap (pages : List Page) (st : PageStatus) :
    grown_with params (pages.map wrap_page) st = grown_with params pages st := by
  have hstatus (i : Nat) : (pages.map wrap_page)[i]?.map (·.status) = pages[i]?.map (·.status) := by
    rw [List.getElem?_map, Option.map_map]
    rfl
  simp only [grown_with, List.length_map, hstatus]

theorem recover_wrap (prev_hash : String) (d : Decision) (s : ModelState) :
    recover params prev_hash d (wrap s) = wrap (recover params prev_hash d s) := by
  have hgrown : grown_with params (wrap s).pages .frozen = grown_with params s.pages .frozen := grown_with_wrap s.pages .frozen
  have hpending : (wrap s).pending_growth = s.pending_growth := rfl
  unfold recover
  rw [hgrown, hpending]
  split
  · exact congrArg (fun pages => ({ s with
      quota_4dp := d.quota_4dp, slack_streak := d.slack_streak, pages, pinned_streak := 0 } : ModelState))
      (set_status_wrap s.pages _ _)
  · by_cases h : d.schedule ∧ s.pending_growth = []
    · rw [if_pos h, if_pos h]
      rfl
    · rw [if_neg h, if_neg h]
      rfl

theorem decline_wrap (d : Decision) (active_grown : List Nat) (s : ModelState) :
    decline d active_grown (wrap s) = wrap (decline d active_grown s) := by
  unfold decline
  split
  · exact congrArg (fun pages => ({ s with pages, slack_streak := 0 } : ModelState)) (set_status_wrap s.pages _ _)
  · rfl

theorem apply_decision_wrap (prev_hash : String) (d : Decision) (s : ModelState) :
    apply_decision params prev_hash d (wrap s) = wrap (apply_decision params prev_hash d s) := by
  have hgrown : grown_with params (wrap s).pages .active = grown_with params s.pages .active := grown_with_wrap s.pages .active
  rw [apply_decision_eq, apply_decision_eq, recover_wrap, decline_wrap, hgrown]

def activated_u64 (params : GenesisParams) (s : ModelState) : ModelState :=
  { activated params s with pages := (activate_all_u64 params.spec s.pages (due s)).1 }

theorem fold_window_u64_eq (prev_hash : String) (s : ModelState) : fold_window_u64 params prev_hash s =
    ({ apply_decision params prev_hash (window_decide params (activated_u64 params s)) (activated_u64 params s) with
        win_accepted := 0, win_zero_scored := 0, win_score_sum := 0, win_scorers := [] },
      (activate_all_u64 params.spec s.pages (due s)).2) := rfl

theorem fold_window_wrap (prev_hash : String) (s : ModelState) : fold_window_u64 params prev_hash (wrap s) =
    (wrap (fold_window params prev_hash s).1, (fold_window params prev_hash s).2) := by
  have hall := @activate_all_wrap params.spec (due s) s.pages
  have hactivated : activated_u64 params (wrap s) = wrap (activated params s) :=
    congrArg (fun pages => ({ activated params s with pages } : ModelState)) (congrArg Prod.fst hall)
  have hdecide : window_decide params (wrap (activated params s)) = window_decide params (activated params s) := rfl
  have hacts : (activate_all_u64 params.spec (wrap s).pages (due (wrap s))).2 = (activate_all params.spec s.pages (due s)).2 :=
    (congrArg Prod.snd hall).trans rfl
  rw [fold_window_u64_eq, fold_window_eq, hactivated, hdecide, apply_decision_wrap, hacts]
  rfl

/-- One block. -/
theorem fold_at_wrap (s : ModelState) (height : Nat) (i : FoldInput) :
    fold_at_u64 params (wrap s) height i = (wrap (fold_at params s height i).1, (fold_at params s height i).2) := by
  unfold fold_at_u64 fold_u64 fold_at fold
  simp only
  split
  · exact fold_window_wrap i.prev_hash (fold_counters s params (UInt64.ofNat height) i.n_txs i.zero_scored i.score_sum i.proposer)
  · rfl

/-- A run. -/
theorem folds_wrap (ins : List FoldInput) : folds_u64 params ins = wrap (folds params ins) := by
  induction ins using List.reverseRecOn with
  | nil => exact genesis_wrap params.spec
  | append_singleton ins i ih =>
    have hsnoc : folds_u64 params (ins ++ [i]) = (fold_at_u64 params (folds_u64 params ins) (ins.length + 1) i).1 := by
      unfold folds_u64
      rw [List.zipIdx_append, List.foldl_append, Nat.add_comm]
      rfl
    rw [hsnoc, ih, fold_at_wrap, folds_snoc]

/-! ## Where the table ends -/

theorem tiled_fits {a n n' : Nat} {spans : List (Nat × Nat)} (h : Tiled a spans n) (ha : a < 2 ^ 64)
    (hlen : ∀ sp ∈ spans, sp.2 < sp.1 + 2 ^ 64) (hwrap : Tiled a (spans.map wrap_span) n') : n < 2 ^ 64 := by
  induction spans generalizing a with
  | nil => exact lt_of_eq_of_lt (Eq.symm h) ha
  | cons sp spans ih =>
    obtain ⟨hstart, -, hrest⟩ := h
    obtain ⟨-, hle, hrest'⟩ := hwrap
    obtain ⟨hsp, hlen⟩ := List.forall_mem_cons.mp hlen
    have hle : a ≤ sp.2 % 2 ^ 64 := hle
    -- a page that passes the end starts less than its remainder below it
    have hstop : sp.2 < 2 ^ 64 := by omega
    refine ih hrest hstop hlen ?_
    have hsame : (wrap_span sp).2 = sp.2 := Nat.mod_eq_of_lt hstop
    rwa [hsame] at hrest'

theorem genesis_experts_stop {off : Nat} {ks : List (Nat × Nat)} {p : Page} (hp : p ∈ genesis_experts spec off ks) :
    p.stop = p.start + spec.expert_page_len := by
  induction ks generalizing off with
  | nil => cases hp
  | cons k ks ih =>
    rw [genesis_experts, List.mem_cons] at hp
    rcases hp with rfl | hp
    · rfl
    · exact ih hp

/-- No page is as long as the range. -/
theorem grown_span (h : Grown spec g s) {sp : Nat × Nat} (hsp : sp ∈ s.spans) : sp.1 ≤ sp.2 ∧ sp.2 < sp.1 + 2 ^ 64 := by
  have hspans : s.spans = (s.pages.map shape).map (·.1) := by
    rw [List.map_map]
    rfl
  rw [hspans, h.pages, List.map_map, List.mem_map] at hsp
  obtain ⟨p, hp, rfl⟩ := hsp
  rcases List.mem_cons.mp hp with rfl | hp
  · have := spec.backbone_params.toNat_lt
    change 0 ≤ spec.backbone_params.toNat ∧ spec.backbone_params.toNat < 0 + 2 ^ 64
    omega
  · have hlen : spec.expert_page_len < 2 ^ 64 := UInt64.toNat_lt _
    have hstop := genesis_experts_stop hp
    change p.start ≤ p.stop ∧ p.stop < p.start + 2 ^ 64
    omega

/-- The table of the run ends below `2^64`. -/
def SpansFit (params : GenesisParams) (ins : List FoldInput) : Prop :=
  params.spec.backbone_params.toNat +
    (params.spec.n_layers.toNat * params.spec.n_experts_initial.toNat + growths params ins) * params.spec.expert_page_len < 2 ^ 64

theorem SpansFit.mono {pre ins : List FoldInput} (h : SpansFit params ins) (hpre : pre <+: ins) : SpansFit params pre := by
  refine lt_of_le_of_lt (Nat.add_le_add_left (Nat.mul_le_mul_right _ (Nat.add_le_add_left ?_ _)) _) h
  exact growths_mono hpre

theorem folds_end (ins : List FoldInput) : Tiled 0 (folds params ins).spans (params.spec.backbone_params.toNat +
    (params.spec.n_layers.toNat * params.spec.n_experts_initial.toNat + growths params ins) * params.spec.expert_page_len) := by
  rw [← length_grown_keys]
  exact grown_tiled (grown_folds ins)

/-- As long as the table fits, nothing wraps. -/
theorem folds_same {ins : List FoldInput} (h : SpansFit params ins) : folds_u64 params ins = folds params ins := by
  have hpage (p : Page) (hp : p ∈ (folds params ins).pages) : wrap_page p = p := by
    have hmem : (p.start, p.stop) ∈ (folds params ins).spans := List.mem_map_of_mem hp
    have hstop : p.stop < 2 ^ 64 := lt_of_le_of_lt ((folds_end ins).stop_le hmem) h
    have hstart : p.start ≤ p.stop := (grown_span (grown_folds ins) hmem).1
    unfold wrap_page
    rw [Nat.mod_eq_of_lt hstop, Nat.mod_eq_of_lt (lt_of_le_of_lt hstart hstop)]
  have hpages : (folds params ins).pages.map wrap_page = (folds params ins).pages :=
    List.map_congr_left hpage |>.trans (List.map_id _)
  rw [folds_wrap, wrap, hpages]

theorem spans_fit (ins : List FoldInput) {n : Nat} (h : Tiled 0 (folds_u64 params ins).spans n) : SpansFit params ins := by
  rw [folds_wrap, spans_wrap] at h
  exact tiled_fits (folds_end ins) (by norm_num) (fun _ hsp => (grown_span (grown_folds ins) hsp).2) h

/-! ## Whole runs -/

/-- Along a run the page table keeps its invariants, the pages there are stay as they are, new ones take the next ids,
and the quota is in its band after the first window, if and only if no growth is scheduled while the sum of the band's
bounds overflows and the table ends below `2^64`. -/
theorem page_table_iff (params : GenesisParams) (hw : 1 ≤ params.retarget_window)
    (hq : params.quota_min_4dp ≤ params.quota_max_4dp)
    (hfit : (ModelState.genesis_u64 params.spec).pages.length < 2 ^ 64) (ins : List FoldInput) :
    ((∀ pre, pre <+: ins → TableKept params (folds_u64 params pre) ∧
        (params.retarget_window.toNat ≤ pre.length → InBand params (folds_u64 params pre).quota_4dp)) ∧
      (∀ pre post, pre <+: post → post <+: ins →
        (folds_u64 params pre).pages.map shape <+: (folds_u64 params post).pages.map shape) ∧
      ∀ pre i, pre ++ [i] <+: ins →
        Appends (folds_u64 params pre) (fold_at_u64 params (folds_u64 params pre) (pre.length + 1) i)) ↔
    MidsFit params ins ∧ SpansFit params ins := by
  have hfit' : (ModelState.genesis params.spec).pages.length < 2 ^ 64 := by
    rw [genesis_wrap, wrap, List.length_map] at hfit
    exact hfit
  have hquota (pre : List FoldInput) : (folds_u64 params pre).quota_4dp = (folds params pre).quota_4dp := by
    rw [folds_wrap]
    rfl
  rw [← folds_inBand_iff hw hq]
  constructor
  · rintro ⟨hkept, -⟩
    obtain ⟨n, htiled⟩ := (hkept ins List.prefix_rfl).1.tiled
    exact ⟨fun pre hpre hle => hquota pre ▸ (hkept pre hpre).2 hle, spans_fit ins htiled⟩
  · rintro ⟨hband, hspans⟩
    have hsame (pre : List FoldInput) (hpre : pre <+: ins) : folds_u64 params pre = folds params pre :=
      folds_same (hspans.mono hpre)
    refine ⟨fun pre hpre => ?_, fun pre post h hpost => ?_, fun pre i hpre => ?_⟩
    · rw [hsame pre hpre]
      exact ⟨folds_kept hfit' pre, hband pre hpre⟩
    · rw [hsame pre (h.trans hpost), hsame post hpost]
      exact folds_pages h
    · have hstep : fold_at_u64 params (folds_u64 params pre) (pre.length + 1) i =
          fold_at params (folds params pre) (pre.length + 1) i := by
        rw [folds_wrap, fold_at_wrap, ← folds_snoc, ← folds_wrap, hsame _ hpre, folds_snoc]
      rw [hstep, hsame pre ((List.prefix_append _ _).trans hpre)]
      exact fold_appends _ _ i

end

/-! ## A band at the top of the range, and a model as long as the range -/

namespace TopBand

def params : GenesisParams :=
  { spec := OneColumn.spec, retarget_window := 1, quota_min_4dp := Int64.maxValue, quota_max_4dp := Int64.maxValue }

def busy : FoldInput := { n_txs := 8, zero_scored := 0, prev_hash := "a", score_sum := 0, proposer := "p" }

def long_spec : ModelSpec := { OneColumn.spec with n_experts_initial := 2, backbone_params := 2 ^ 64 - 1 }

end TopBand

/-- A run with growth. -/
theorem page_table_grown : TableKept OneColumn.params (folds_u64 OneColumn.params (List.replicate 80 OneColumn.busy)) := by
  have hmids : MidsFit OneColumn.params (List.replicate 80 OneColumn.busy) := fun _ _ _ _ _ => by
    unfold MidFits
    decide
  have hspans : SpansFit OneColumn.params (List.replicate 80 OneColumn.busy) := by
    unfold SpansFit
    decide +kernel
  exact (((page_table_iff OneColumn.params (by decide) (by decide) (by decide) _).mpr ⟨hmids, hspans⟩).1 _ List.prefix_rfl).1

/-- Three busy windows schedule growth, and the quota is then below zero. -/
theorem quota_out_of_band : 1 ≤ TopBand.params.retarget_window ∧ 1 ≤ TopBand.params.target_deltas ∧
    TopBand.params.quota_min_4dp ≤ TopBand.params.quota_max_4dp ∧
    (folds_u64 TopBand.params (List.replicate 3 TopBand.busy)).quota_4dp = -1 ∧
    ¬ InBand TopBand.params (folds_u64 TopBand.params (List.replicate 3 TopBand.busy)).quota_4dp := by
  have hquota : (folds_u64 TopBand.params (List.replicate 3 TopBand.busy)).quota_4dp = -1 := by decide +kernel
  rw [hquota]
  exact ⟨by decide, by decide, by decide, rfl, fun h => absurd h.1 (by decide)⟩

/-- The first of two experts starts at the last offset and ends at 3, where the second starts. -/
theorem spans_overlap : (ModelState.genesis_u64 TopBand.long_spec).spans = [(0, 2 ^ 64 - 1), (2 ^ 64 - 1, 3), (3, 7)] ∧
    ¬ ∃ n, Tiled 0 (ModelState.genesis_u64 TopBand.long_spec).spans n := by
  have hspans : (ModelState.genesis_u64 TopBand.long_spec).spans = [(0, 2 ^ 64 - 1), (2 ^ 64 - 1, 3), (3, 7)] := by
    decide +kernel
  rw [hspans]
  refine ⟨rfl, ?_⟩
  rintro ⟨n, -, -, -, hle, -⟩
  exact absurd hle (by decide)

end Sestrian.capacity
