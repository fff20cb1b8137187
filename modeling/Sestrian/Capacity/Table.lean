import Sestrian.Capacity.Headroom
import Sestrian.Capacity.Rotation
import Sestrian.Tree.Pages

/-!
# The page table and the quota along a run

The table keeps its pages and only grows. The quota stays in its band as long as the middle of
the band can be computed.
-/

namespace Sestrian.capacity

open client Aggregate

section

variable {params : GenesisParams} {spec : ModelSpec} {s : ModelState} {g : Nat}

/-! ## The table -/

def key (p : Page) : Int × Int := (p.layer, p.expert)

theorem table_keys (ks : List (Nat × Nat)) :
    (table spec ks).map key = (-1, -1) :: ks.map fun k => ((k.1 : Int), (k.2 : Int)) := by
  have hexperts (off : Nat) : (genesis_experts spec off ks).map key = ks.map fun k => ((k.1 : Int), (k.2 : Int)) := by
    induction ks generalizing off with
    | nil => rfl
    | cons k ks ih =>
      rw [genesis_experts, List.map_cons, ih]
      rfl
  rw [table, List.map_cons, hexperts]
  rfl

theorem grown_unique (h : Grown spec g s) : (s.pages.map key).Nodup := by
  have hkeys : s.pages.map key = (s.pages.map shape).map fun sh => (sh.2.2.1, sh.2.2.2) := by
    rw [List.map_map]
    rfl
  have htable : ((table spec (grown_keys spec g)).map shape).map (fun sh => (sh.2.2.1, sh.2.2.2)) =
      (table spec (grown_keys spec g)).map key := by
    rw [List.map_map]
    rfl
  rw [hkeys, h.pages, htable, table_keys, List.nodup_cons]
  constructor
  · intro hmem
    obtain ⟨k, -, hk⟩ := List.mem_map.mp hmem
    have hlayer := congrArg Prod.fst hk
    simp only at hlayer
    omega
  · refine (grown_keys_nodup spec g).map fun a b hab => ?_
    simp only [Prod.mk.injEq] at hab
    exact Prod.ext (by omega) (by omega)

theorem genesis_experts_layer {off : Nat} {ks : List (Nat × Nat)} {p : Page} (hp : p ∈ genesis_experts spec off ks) :
    ∃ l : Nat, p.layer = l := by
  induction ks generalizing off with
  | nil => cases hp
  | cons k ks ih =>
    rw [genesis_experts, List.mem_cons] at hp
    rcases hp with rfl | hp
    · exact ⟨k.1, rfl⟩
    · exact ih hp

theorem table_layer {ks : List (Nat × Nat)} {p : Page} (hp : p ∈ table spec ks) (hk : p.kind = .expert) :
    ∃ l : Nat, p.layer = l := by
  rcases List.mem_cons.mp hp with rfl | hp
  · cases hk
  · exact genesis_experts_layer hp

theorem grown_consecutive (h : Grown spec g s) (l : Int) :
    (s.pages.filter fun p => p.kind = .expert ∧ p.layer = l).map (·.expert) =
      (List.range (expert_count s.pages l)).map fun e : Nat => (e : Int) := by
  have hcount : expert_count s.pages l = expert_count (table spec (grown_keys spec g)) l := expert_count_shape h.pages l
  rw [filter_shape h.pages l, hcount, expert_count]
  by_cases hl : ∃ n : Nat, l = n
  · obtain ⟨n, rfl⟩ := hl
    have htable := table_experts spec n (grown_keys spec g)
    have hlen := congrArg List.length htable
    rw [List.length_map, List.length_map] at hlen
    rw [htable, hlen, in_layer_grown, List.map_map, List.length_map, List.length_range]
    rfl
  · have hnone : ((table spec (grown_keys spec g)).filter fun p => p.kind = .expert ∧ p.layer = l) = [] := by
      rw [List.filter_eq_nil_iff]
      intro p hp
      simp only [decide_eq_true_eq, not_and]
      rintro hk rfl
      exact hl (table_layer hp hk)
    rw [hnone]
    rfl

theorem grown_tiled (h : Grown spec g s) :
    Tiled 0 s.spans (spec.backbone_params.toNat + (grown_keys spec g).length * spec.expert_page_len) := by
  have hspans : s.spans = (s.pages.map shape).map (·.1) := by
    rw [List.map_map]
    rfl
  have htable : ((table spec (grown_keys spec g)).map shape).map (·.1) =
      (0, spec.backbone_params.toNat) ::
        (genesis_experts spec spec.backbone_params.toNat (grown_keys spec g)).map Pages.span := by
    rw [List.map_map]
    rfl
  rw [hspans, h.pages, htable]
  exact ⟨rfl, Nat.zero_le _, Pages.tiled_genesis_experts _ _ _⟩

theorem grown_pending (h : Grown spec g s) : s.pending_growth.length ≤ 1 := by
  rcases h.pending with ⟨hnone, -⟩ | ⟨w, trigger, hone, -⟩
  · rw [hnone]
    exact Nat.zero_le 1
  · rw [hone]
    exact Nat.le_refl 1

/-! ## The statuses of the genesis pages -/

def ActiveBelow (n : Nat) (sts : List PageStatus) : Prop := ∀ i < n, sts[i]? = some .active

theorem ActiveBelow.set_active {n : Nat} {sts : List PageStatus} (h : ActiveBelow n sts) (i : Nat) :
    ActiveBelow n (sts.set i .active) := by
  intro j hj
  have hlen : j < sts.length := (List.getElem?_eq_some_iff.mp (h j hj)).1
  rw [List.getElem?_set]
  by_cases hij : i = j
  · rw [if_pos hij, if_pos (hij ▸ hlen)]
  · rw [if_neg hij]
    exact h j hj

theorem ActiveBelow.set_past {n : Nat} {sts : List PageStatus} (h : ActiveBelow n sts) {i : Nat} (hi : n ≤ i)
    (st : PageStatus) : ActiveBelow n (sts.set i st) := by
  intro j hj
  rw [List.getElem?_set_ne (by omega)]
  exact h j hj

theorem ActiveBelow.append {n : Nat} {sts : List PageStatus} (h : ActiveBelow n sts) (more : List PageStatus) :
    ActiveBelow n (sts ++ more) := by
  intro j hj
  rw [List.getElem?_append_left (List.getElem?_eq_some_iff.mp (h j hj)).1]
  exact h j hj

/-- What is frozen is a grown page. -/
theorem grown_with_last {pages : List Page} {st : PageStatus} (h : grown_with params pages st ≠ []) :
    ModelState.genesis_page_count params.spec ≤ (grown_with params pages st).getLastD 0 := by
  rw [List.getLastD_eq_getLast?, List.getLast?_eq_some_getLast h, Option.getD_some]
  have hmem := List.getLast_mem h
  exact (of_decide_eq_true (List.mem_filter.mp hmem).2).1

theorem apply_decision_active (prev_hash : String) (d : Decision)
    (h : ActiveBelow (ModelState.genesis_page_count params.spec) (statuses s.pages)) :
    ActiveBelow (ModelState.genesis_page_count params.spec) (statuses (apply_decision params prev_hash d s).pages) := by
  have hrecover : ActiveBelow (ModelState.genesis_page_count params.spec) (statuses (recover params prev_hash d s).pages) := by
    unfold recover
    split
    · rw [statuses_set_status]
      exact h.set_active _
    · split
      · exact h
      · exact h
  rw [apply_decision_eq]
  unfold decline
  split
  · rename_i hfreeze
    rw [statuses_set_status]
    exact hrecover.set_past (grown_with_last hfreeze.2) _
  · exact hrecover

theorem fold_active (height : Nat) (i : FoldInput)
    (h : ActiveBelow (ModelState.genesis_page_count params.spec) (statuses s.pages)) :
    ActiveBelow (ModelState.genesis_page_count params.spec) (statuses (fold_at params s height i).1.pages) := by
  by_cases hc : Closes params height
  · rw [fold_closes hc, fold_window_eq]
    refine apply_decision_active i.prev_hash _ ?_
    rw [activated, (activate_statuses params.spec _ _).1]
    exact h.append _
  · rw [fold_open hc]
    exact h

theorem length_genesis (spec : ModelSpec) :
    (ModelState.genesis spec).pages.length = 1 + spec.n_layers.toNat * spec.n_experts_initial.toNat := by
  have := congrArg List.length (genesis_statuses spec)
  rwa [statuses, List.length_map, List.length_replicate] at this

theorem genesis_page_count_eq (hfit : (ModelState.genesis spec).pages.length < 2 ^ 64) :
    ModelState.genesis_page_count spec = (ModelState.genesis spec).pages.length := by
  rw [length_genesis] at hfit ⊢
  have hmul : spec.n_layers.toNat * spec.n_experts_initial.toNat < 2 ^ 64 := by omega
  rw [ModelState.genesis_page_count, UInt64.toNat_add, UInt64.toNat_mul, Nat.mod_eq_of_lt hmul]
  exact Nat.mod_eq_of_lt hfit

theorem active_genesis (spec : ModelSpec) :
    ActiveBelow (ModelState.genesis spec).pages.length (statuses (ModelState.genesis spec).pages) := by
  intro i hi
  rw [genesis_statuses, List.getElem?_replicate, if_pos (length_genesis spec ▸ hi)]

/-! ## The scorers of a window -/

def ScorersKept (params : GenesisParams) (s : ModelState) : Prop :=
  s.win_scorers.length ≤ params.growth_quorum ∧ s.win_scorers.Nodup

theorem fold_counters_scorers (h : ScorersKept params s) (height n_txs zero_scored score_sum : UInt64) (proposer : String) :
    ScorersKept params (fold_counters s params height n_txs zero_scored score_sum proposer) := by
  have hcases (c : Bool) (hc : c = true → proposer ∉ s.win_scorers ∧ s.win_scorers.length < params.growth_quorum) :
      (if c then s.win_scorers ++ [proposer] else s.win_scorers).length ≤ params.growth_quorum ∧
        (if c then s.win_scorers ++ [proposer] else s.win_scorers).Nodup := by
    cases c with
    | false => exact h
    | true =>
      obtain ⟨hnew, hroom⟩ := hc rfl
      simp only [if_true, List.length_append, List.length_singleton]
      exact ⟨hroom, h.2.append (List.nodup_singleton _) (by simpa using hnew)⟩
  unfold ScorersKept fold_counters
  refine hcases _ fun hcounts => ?_
  simp only [Bool.and_eq_true, decide_eq_true_eq, Bool.not_eq_true', List.contains_eq_mem, decide_eq_false_iff_not] at hcounts
  exact ⟨hcounts.1.2, hcounts.2⟩

theorem fold_scorers (h : ScorersKept params s) (height : Nat) (i : FoldInput) :
    ScorersKept params (fold_at params s height i).1 := by
  by_cases hc : Closes params height
  · rw [fold_closes hc, fold_window_eq]
    exact ⟨Nat.zero_le _, List.nodup_nil⟩
  · rw [fold_open hc]
    exact fold_counters_scorers h ..

/-! ## The quota -/

def InBand (params : GenesisParams) (q : Int64) : Prop := params.quota_min_4dp ≤ q ∧ q ≤ params.quota_max_4dp

/-- The middle of the band is computed without overflow. -/
def MidFits (params : GenesisParams) : Prop :=
  -2 ^ 63 ≤ params.quota_min_4dp.toInt + params.quota_max_4dp.toInt ∧
    params.quota_min_4dp.toInt + params.quota_max_4dp.toInt < 2 ^ 63

def mid_band (params : GenesisParams) : Int64 :=
  Int64.ofInt ((params.quota_min_4dp + params.quota_max_4dp).toInt / 2)

theorem mid_band_toInt (params : GenesisParams) :
    (mid_band params).toInt = (params.quota_min_4dp.toInt + params.quota_max_4dp.toInt).bmod (2 ^ 64) / 2 := by
  have hlow := (params.quota_min_4dp + params.quota_max_4dp).le_toInt
  have hhigh := (params.quota_min_4dp + params.quota_max_4dp).toInt_lt
  rw [mid_band, Int64.toInt_ofInt_of_le (by omega) (by omega), Int64.toInt_add]

/-- Past the `i64` range the sum changes sign, and its half leaves the band. -/
theorem mid_inBand_iff (hq : params.quota_min_4dp ≤ params.quota_max_4dp) :
    InBand params (mid_band params) ↔ MidFits params := by
  have hmin := params.quota_min_4dp.le_toInt
  have hmax := params.quota_max_4dp.toInt_lt
  rw [InBand, MidFits, Int64.le_iff_toInt_le, Int64.le_iff_toInt_le, mid_band_toInt, Int.bmod_def]
  rw [Int64.le_iff_toInt_le] at hq
  generalize params.quota_min_4dp.toInt = lo at *
  generalize params.quota_max_4dp.toInt = hi at *
  omega

theorem decide_inBand (hq : params.quota_min_4dp ≤ params.quota_max_4dp) (s : ModelState) :
    InBand params (window_decide params s).quota_4dp := by
  have hmin := params.quota_min_4dp.le_toInt
  have hmax := params.quota_max_4dp.toInt_lt
  have hclamp (q : Int) : InBand params
      (Int64.ofInt (max params.quota_min_4dp.toInt (min params.quota_max_4dp.toInt q))) := by
    rw [Int64.le_iff_toInt_le] at hq
    rw [InBand, Int64.le_iff_toInt_le, Int64.le_iff_toInt_le, Int64.toInt_ofInt_of_le (by omega) (by omega)]
    omega
  unfold window_decide retarget_decide
  exact hclamp _

/-- The closing window schedules growth: the decision asks for it, nothing is pending, and no thaw comes first. -/
def Schedules (params : GenesisParams) (s : ModelState) : Prop :=
  ¬((window_decide params s).thaw_ok = true ∧ grown_with params s.pages .frozen ≠ []) ∧
    (window_decide params s).schedule = true ∧ s.pending_growth = []

instance (params : GenesisParams) (s : ModelState) : Decidable (Schedules params s) := by
  unfold Schedules
  infer_instance

/-- The state in which the block of this height and these contents takes its decision. -/
def at_decision (params : GenesisParams) (s : ModelState) (height : Nat) (i : FoldInput) : ModelState :=
  activated params (fold_counters s params (UInt64.ofNat height) i.n_txs i.zero_scored i.score_sum i.proposer)

theorem decision_quota (prev_hash : String) (s : ModelState) :
    (apply_decision params prev_hash (window_decide params s) s).quota_4dp =
      if Schedules params s then mid_band params else (window_decide params s).quota_4dp := by
  have hdecline (d : Decision) (ids : List Nat) (s : ModelState) : (decline d ids s).quota_4dp = s.quota_4dp := by
    unfold decline
    split <;> rfl
  rw [apply_decision_eq, hdecline]
  unfold recover
  split
  · rename_i hthaw
    rw [if_neg (show ¬ Schedules params s from fun h => h.1 hthaw)]
  · rename_i hthaw
    split
    · rename_i hsched
      rw [if_pos (show Schedules params s from ⟨hthaw, hsched⟩)]
      rfl
    · rename_i hsched
      rw [if_neg (show ¬ Schedules params s from fun h => hsched h.2)]

theorem fold_quota_open {height : Nat} {i : FoldInput} (hc : ¬ Closes params height) :
    (fold_at params s height i).1.quota_4dp = s.quota_4dp := by
  rw [fold_open hc]
  rfl

theorem fold_quota_closes (hq : params.quota_min_4dp ≤ params.quota_max_4dp) {height : Nat} {i : FoldInput}
    (hc : Closes params height) : InBand params (fold_at params s height i).1.quota_4dp ↔
      (Schedules params (at_decision params s height i) → MidFits params) := by
  have hquota : (fold_at params s height i).1.quota_4dp = (apply_decision params i.prev_hash
      (window_decide params (at_decision params s height i)) (at_decision params s height i)).quota_4dp := by
    rw [fold_closes hc, fold_window_eq]
    rfl
  rw [hquota, decision_quota]
  split
  · rename_i hsched
    rw [mid_inBand_iff hq]
    exact ⟨fun h _ => h, fun h => h hsched⟩
  · rename_i hsched
    exact ⟨fun _ h => absurd h hsched, fun _ => decide_inBand hq _⟩

/-- The first window closes at the height that is its length. -/
theorem closes_first (hw : 1 ≤ params.retarget_window) : Closes params params.retarget_window.toNat := by
  unfold Closes
  rw [UInt64.ofNat_toNat]
  exact ⟨by have := UInt64.le_iff_toNat_le.mp hw; exact UInt64.lt_iff_toNat_lt.mpr this, UInt64.mod_self⟩

/-! ## Whole runs -/

/-- What holds of the page table of every state of a run. -/
structure TableKept (params : GenesisParams) (s : ModelState) : Prop where
  tiled : ∃ n, Tiled 0 s.spans n
  genesis_active : ActiveBelow (ModelState.genesis params.spec).pages.length (statuses s.pages)
  unique : (s.pages.map key).Nodup
  consecutive : ∀ l : Int, (s.pages.filter fun p => p.kind = .expert ∧ p.layer = l).map (·.expert) =
    (List.range (expert_count s.pages l)).map fun e : Nat => (e : Int)
  one_pending : s.pending_growth.length ≤ 1
  scorers : ScorersKept params s

/-- A block leaves the pages there are as they are, and the pages it adds take the next ids. -/
structure Appends (s : ModelState) (r : ModelState × List Activation) : Prop where
  pages : s.pages.map shape <+: r.1.pages.map shape
  ids : r.2.map (·.page_id) = List.range' s.pages.length (r.1.pages.length - s.pages.length)

theorem activate_all_appends (pages : List Page) (gs : List PendingGrowth) :
    pages <+: (activate_all spec pages gs).1 ∧
    (activate_all spec pages gs).2.map (·.page_id) = List.range' pages.length gs.length := by
  induction gs generalizing pages with
  | nil => exact ⟨List.prefix_rfl, rfl⟩
  | cons g gs ih =>
    obtain ⟨hpages, hids⟩ := ih (activate spec pages g).1
    have hone : pages <+: (activate spec pages g).1 := List.prefix_append _ _
    have hlen : (activate spec pages g).1.length = pages.length + 1 := List.length_append
    simp only [activate_all, List.map_cons, hids, hlen, List.length_cons, List.range'_succ]
    exact ⟨hone.trans hpages, rfl⟩

theorem fold_appends (s : ModelState) (height : Nat) (i : FoldInput) : Appends s (fold_at params s height i) := by
  obtain ⟨hpages, hacts⟩ := @fold_pages params s height i
  obtain ⟨hpre, hids⟩ := @activate_all_appends params.spec s.pages (if Closes params height then due s else [])
  have hlen := congrArg List.length hpages
  have hadded := congrArg List.length (activate_statuses params.spec s.pages (if Closes params height then due s else [])).1
  simp only [statuses, List.length_map, List.length_append, List.length_replicate] at hlen hadded
  refine ⟨?_, ?_⟩
  · rw [hpages]
    exact hpre.map _
  · rw [hacts, hids, hlen, hadded, Nat.add_sub_cancel_left]

theorem folds_pages {pre post : List FoldInput} (h : pre <+: post) :
    (folds params pre).pages.map shape <+: (folds params post).pages.map shape := by
  obtain ⟨more, rfl⟩ := h
  induction more using List.reverseRecOn with
  | nil => rw [List.append_nil]
  | append_singleton more i ih =>
    rw [← List.append_assoc, folds_snoc]
    exact ih.trans (fold_appends _ _ i).pages

theorem folds_kept (hfit : (ModelState.genesis params.spec).pages.length < 2 ^ 64) (ins : List FoldInput) :
    TableKept params (folds params ins) := by
  have hactive : ActiveBelow (ModelState.genesis_page_count params.spec) (statuses (folds params ins).pages) :=
    folds_induction (P := fun _ s => ActiveBelow _ (statuses s.pages))
      (genesis_page_count_eq hfit ▸ active_genesis params.spec) (fun _ _ i h => fold_active _ i h) ins
  have hscorers : ScorersKept params (folds params ins) :=
    folds_induction (P := fun _ s => ScorersKept params s) ⟨Nat.zero_le _, List.nodup_nil⟩
      (fun _ _ i h => fold_scorers h _ i) ins
  obtain ⟨g, hg⟩ := (folds_folded ins).grown
  exact ⟨⟨_, grown_tiled hg⟩, genesis_page_count_eq hfit ▸ hactive, grown_unique hg, grown_consecutive hg, grown_pending hg, hscorers⟩

theorem closes_le {height : Nat} (h : Closes params height) : params.retarget_window.toNat ≤ height := by
  obtain ⟨hpos, hmod⟩ := h
  have hpos : 0 < (UInt64.ofNat height).toNat := UInt64.lt_iff_toNat_lt.mp hpos
  have hmod := congrArg UInt64.toNat hmod
  rw [UInt64.toNat_mod] at hmod
  have hle := Nat.le_of_dvd hpos (Nat.dvd_of_mod_eq_zero hmod)
  exact hle.trans (by rw [UInt64.toNat_ofNat']; exact Nat.mod_le _ _)

/-- No block of the run schedules growth that needs the middle of a band whose sum overflows. -/
def MidsFit (params : GenesisParams) (ins : List FoldInput) : Prop :=
  ∀ pre i, pre ++ [i] <+: ins → Closes params (pre.length + 1) →
    Schedules params (at_decision params (folds params pre) (pre.length + 1) i) → MidFits params

theorem folds_inBand_iff (hw : 1 ≤ params.retarget_window) (hq : params.quota_min_4dp ≤ params.quota_max_4dp)
    (ins : List FoldInput) :
    (∀ pre, pre <+: ins → params.retarget_window.toNat ≤ pre.length → InBand params (folds params pre).quota_4dp) ↔
      MidsFit params ins := by
  constructor
  · intro hband pre i hpre hc
    have hafter := hband (pre ++ [i]) hpre (by rw [List.length_append]; exact closes_le hc)
    rw [folds_snoc] at hafter
    exact (fold_quota_closes hq hc).mp hafter
  · intro hfits pre
    induction pre using List.reverseRecOn with
    | nil =>
      intro _ hle
      exact absurd (hle.trans_lt (UInt64.le_iff_toNat_le.mp hw)) (Nat.lt_irrefl _)
    | append_singleton pre i ih =>
      intro hpre hle
      rw [folds_snoc]
      by_cases hc : Closes params (pre.length + 1)
      · exact (fold_quota_closes hq hc).mpr (hfits pre i hpre hc)
      · rw [fold_quota_open hc]
        refine ih ((List.prefix_append _ _).trans hpre) ?_
        rw [List.length_append, List.length_singleton] at hle
        by_contra hlt
        have hfirst : pre.length + 1 = params.retarget_window.toNat := by omega
        exact hc (hfirst ▸ closes_first hw)

end

end Sestrian.capacity
