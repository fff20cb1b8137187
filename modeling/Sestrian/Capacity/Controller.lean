import Sestrian.Code.Capacity
import Sestrian.Capacity.Headroom
import Sestrian.Capacity.Table

/-!
# The fold refines the standalone controller

The page table counted: how many pages there are, and how many of them are active. A block that
closes a window moves these counters as the controller does, and no other block moves them.
-/

namespace Sestrian.capacity

section

variable {params : GenesisParams} {s : ModelState} {n : Nat} {sts : List PageStatus}

/-! ## Counting active pages -/

def active_count (pages : List Page) : Nat := (statuses pages).count .active

theorem active_count_le (pages : List Page) : active_count pages ≤ pages.length := by
  have hle := List.count_le_length (a := PageStatus.active) (l := statuses pages)
  rwa [statuses, List.length_map] at hle

theorem ActiveBelow.count (h : ActiveBelow n sts) : n + (sts.drop n).count .active = sts.count .active := by
  have htake : sts.take n = List.replicate n .active := by
    refine List.ext_getElem? fun i => ?_
    rw [List.getElem?_take, List.getElem?_replicate]
    split
    · next hi => exact h i hi
    · rfl
  calc n + (sts.drop n).count .active
      = (sts.take n).count .active + (sts.drop n).count .active := by rw [htake, List.count_replicate_self]
    _ = sts.count .active := by rw [← List.count_append, List.take_append_drop]

theorem mem_grown_with {pages : List Page} {st : PageStatus} {i : Nat} : i ∈ grown_with params pages st ↔
    ModelState.genesis_page_count params.spec ≤ i ∧ (statuses pages)[i]? = some st := by
  rw [grown_with_eq, List.mem_filter, List.mem_range, decide_eq_true_eq]
  constructor
  · exact fun h => h.2
  · exact fun h => ⟨(List.getElem?_eq_some_iff.mp h.2).1, h⟩

/-- There is a page to thaw when not all are active. -/
theorem frozen_grown_iff {pages : List Page}
    (h : ActiveBelow (ModelState.genesis_page_count params.spec) (statuses pages)) :
    grown_with params pages .frozen ≠ [] ↔ active_count pages < pages.length := by
  have hlen : (statuses pages).length = pages.length := List.length_map _
  rw [(active_count_le pages).lt_iff_ne, active_count, ← hlen, ne_eq, ne_eq, List.count_eq_length,
    List.eq_nil_iff_forall_not_mem]
  refine not_congr ⟨fun hnone st hst => ?_, fun hall i hi => ?_⟩
  · obtain ⟨i, hi⟩ := List.mem_iff_getElem?.mp hst
    rcases Nat.lt_or_ge i (ModelState.genesis_page_count params.spec) with hlow | hge
    · exact Option.some.inj ((h i hlow).symm.trans hi)
    · cases st with
      | active => rfl
      | frozen => exact absurd (mem_grown_with.mpr ⟨hge, hi⟩) (hnone i)
  · obtain ⟨-, hst⟩ := mem_grown_with.mp hi
    exact absurd (hall _ (List.mem_of_getElem? hst)) nofun

/-- There is a page to freeze when more than the genesis pages are active. -/
theorem active_grown_iff {pages : List Page}
    (h : ActiveBelow (ModelState.genesis_page_count params.spec) (statuses pages)) :
    grown_with params pages .active ≠ [] ↔ ModelState.genesis_page_count params.spec < active_count pages := by
  have hcount := h.count
  have hmore : ModelState.genesis_page_count params.spec < active_count pages ↔
      .active ∈ (statuses pages).drop (ModelState.genesis_page_count params.spec) := by
    rw [← List.count_pos_iff, active_count]
    omega
  rw [hmore, ne_eq, List.eq_nil_iff_forall_not_mem, not_forall_not, List.mem_iff_getElem?]
  constructor
  · rintro ⟨i, hi⟩
    obtain ⟨hge, hst⟩ := mem_grown_with.mp hi
    refine ⟨i - ModelState.genesis_page_count params.spec, ?_⟩
    rw [List.getElem?_drop, Nat.add_sub_cancel' hge]
    exact hst
  · rintro ⟨i, hi⟩
    rw [List.getElem?_drop] at hi
    exact ⟨_, mem_grown_with.mpr ⟨Nat.le_add_right _ _, hi⟩⟩

theorem headD_mem {l : List Nat} (h : l ≠ []) : l.headD 0 ∈ l := by
  cases l with
  | nil => exact absurd rfl h
  | cons x l => exact List.mem_cons_self

theorem getLastD_mem {l : List Nat} (h : l ≠ []) : l.getLastD 0 ∈ l := by
  rw [List.getLastD_eq_getLast?, List.getLast?_eq_some_getLast h, Option.getD_some]
  exact List.getLast_mem h

theorem length_set_status (pages : List Page) (i : Nat) (st : PageStatus) :
    (set_status pages i st).length = pages.length := List.length_modify ..

theorem count_set_active {i : Nat} (h : sts[i]? = some .frozen) :
    (sts.set i .active).count .active = sts.count .active + 1 := by
  obtain ⟨hlt, hget⟩ := List.getElem?_eq_some_iff.mp h
  rw [List.count_set hlt, hget]
  rfl

theorem count_set_frozen {i : Nat} (h : sts[i]? = some .active) :
    (sts.set i .frozen).count .active = sts.count .active - 1 := by
  obtain ⟨hlt, hget⟩ := List.getElem?_eq_some_iff.mp h
  rw [List.count_set hlt, hget]
  rfl

/-! ## What a state stands for -/

/-- The controller that sees only the counters of a state. -/
def controller (params : GenesisParams) (s : ModelState) : CapacityRetarget where
  quota_4dp := s.quota_4dp
  quota_min := params.quota_min_4dp
  quota_max := params.quota_max_4dp
  target_deltas := params.target_deltas
  damp_div := DAMP_DIV
  stale_ceiling := params.stale_ceiling_4dp
  k_sustain := params.k_sustain
  growth_bound := 1
  announce_lead := params.announce_lead
  total_modules := s.pages.length
  active_modules := active_count s.pages
  min_active := ModelState.genesis_page_count params.spec
  pinned_streak := s.pinned_streak
  slack_streak := s.slack_streak
  pending_growth := s.pending_growth.map (·.window)
  window_id := s.window_id

theorem controller_counters (params : GenesisParams) (s : ModelState) (height n_txs zero_scored score_sum : UInt64)
    (proposer : String) :
    controller params (fold_counters s params height n_txs zero_scored score_sum proposer) = controller params s := rfl

/-- The accumulators of a window are none of the counters. -/
theorem controller_reset (params : GenesisParams) (s : ModelState) :
    controller params { s with win_accepted := 0, win_zero_scored := 0, win_score_sum := 0, win_scorers := [] } =
      controller params s := rfl

theorem filter_windows (p : UInt64 → Bool) (gs : List PendingGrowth) :
    (gs.map (·.window)).filter p = (gs.filter fun g => p g.window).map (·.window) := List.filter_map

/-- Growth that is due. -/
theorem controller_activated (params : GenesisParams) (s : ModelState) :
    controller params (activated params s) = (controller params s).open_window ∧
      ((controller params s).open_window.total_modules - (controller params s).total_modules =
        (activate_all params.spec s.pages (due s)).2.length) := by
  obtain ⟨hsts, hacts⟩ := activate_statuses params.spec s.pages (due s)
  have hlen : (activate_all params.spec s.pages (due s)).1.length = s.pages.length + (due s).length := by
    have := congrArg List.length hsts
    rwa [statuses, statuses, List.length_map, List.length_append, List.length_map, List.length_replicate] at this
  have hcount : active_count (activate_all params.spec s.pages (due s)).1 = active_count s.pages + (due s).length := by
    unfold active_count
    rw [hsts, List.count_append, List.count_replicate_self]
  have hdue : ((controller params s).pending_growth.filter fun w => decide (w ≤ s.window_id + 1)).length =
      (due s).length := by
    rw [controller, filter_windows, List.length_map]
    rfl
  have hstill : (controller params s).pending_growth.filter (fun w => decide (w > s.window_id + 1)) =
      (activated params s).pending_growth.map (·.window) := by
    rw [controller, filter_windows, activated]
    simp only [gt_iff_lt, UInt64.not_le]
  have hopen : (controller params s).open_window = { controller params s with
      window_id := s.window_id + 1
      total_modules := s.pages.length + (due s).length * 1
      active_modules := active_count s.pages + (due s).length * 1
      pending_growth := (activated params s).pending_growth.map (·.window) } := by
    rw [← hdue, ← hstill]
    rfl
  rw [hopen, hacts]
  refine ⟨?_, by simp [controller]⟩
  unfold controller activated
  simp only [hlen, hcount, Nat.cast_add, mul_one]

theorem decide_window_eq (params : GenesisParams) (s : ModelState) :
    (controller params s).decide_window (Int64.ofNat s.win_accepted.toNat) (window_staleness params s) =
      window_decide params s := rfl

/-- Thaw or schedule. -/
theorem controller_recover (prev_hash : String) (d : Decision)
    (h : ActiveBelow (ModelState.genesis_page_count params.spec) (statuses s.pages)) :
    ((controller params s).recover d).1 = controller params (recover params prev_hash d s) := by
  have hfrozen := frozen_grown_iff h
  unfold CapacityRetarget.recover recover
  have hthaw : (controller params s).active_modules < (controller params s).total_modules ↔
      grown_with params s.pages .frozen ≠ [] := by
    rw [hfrozen]
    exact Nat.cast_lt
  have hpending : (controller params s).pending_growth = [] ↔ s.pending_growth = [] := List.map_eq_nil_iff
  simp only [hthaw, hpending]
  split
  · next hcase =>
    have hmem := (mem_grown_with.mp (headD_mem hcase.2)).2
    have hcount : active_count (set_status s.pages ((grown_with params s.pages .frozen).headD 0) .active) =
        active_count s.pages + 1 := by
      unfold active_count
      rw [statuses_set_status, count_set_active hmem]
    unfold controller
    simp only [hcount, length_set_status, Nat.cast_add, Nat.cast_one]
  · split
    · unfold controller
      simp only [List.map_append, List.map_cons, List.map_nil]
    · rfl

/-- The freeze. A window that thaws does not freeze, so both see the same active pages. -/
theorem controller_decline (d : Decision) {s' : ModelState}
    (h : ActiveBelow (ModelState.genesis_page_count params.spec) (statuses s.pages))
    (hsame : d.freeze = true → s'.pages = s.pages) :
    ((controller params s').decline d).1 = controller params (decline d (grown_with params s.pages .active) s') := by
  have hactive := active_grown_iff h
  unfold CapacityRetarget.decline decline
  by_cases hfreeze : d.freeze = true
  · have hmore : (controller params s').active_modules > (controller params s').min_active ↔
        grown_with params s.pages .active ≠ [] := by
      rw [hactive, gt_iff_lt, controller, hsame hfreeze]
      exact Nat.cast_lt
    simp only [hmore, hfreeze, true_and]
    split
    · next hne =>
      have hmem := (mem_grown_with.mp (getLastD_mem hne)).2
      have hpos : 0 < active_count s.pages := (Nat.zero_le _).trans_lt (hactive.mp hne)
      have hcount : (active_count (set_status s.pages ((grown_with params s.pages .active).getLastD 0) .frozen) : Int) =
          active_count s.pages - 1 := by
        unfold active_count
        rw [statuses_set_status, count_set_frozen hmem]
        exact Nat.cast_pred hpos
      unfold controller
      simp only [hsame hfreeze, hcount, length_set_status]
    · rfl
  · rw [if_neg (fun hc => hfreeze hc.1), if_neg (fun hc => hfreeze hc.1)]

/-! ## Blocks and runs -/

/-- What a window shows the controller when it closes: how many deltas were accepted, and how stale. -/
def observed (params : GenesisParams) (s : ModelState) : Int64 × Int64 :=
  (Int64.ofNat s.win_accepted.toNat, window_staleness params s)

/-- The state at which a block closes a window. -/
def counted (params : GenesisParams) (s : ModelState) (height : Nat) (i : FoldInput) : ModelState :=
  fold_counters s params (UInt64.ofNat height) i.n_txs i.zero_scored i.score_sum i.proposer

theorem freeze_not_thaw (hk : 0 < params.k_sustain) (h : (window_decide params s).freeze = true) :
    (window_decide params s).thaw_ok = false := by
  refine Bool.eq_false_iff.mpr fun hthaw => ?_
  rw [freeze_iff, thaw_slack hthaw] at h
  exact Int64.not_le.mpr hk h

theorem recover_pages (prev_hash : String) {d : Decision} (h : d.thaw_ok = false) :
    (recover params prev_hash d s).pages = s.pages := by
  unfold recover
  rw [if_neg (fun hc => Bool.false_ne_true (h.symm.trans hc.1))]
  split <;> rfl

theorem observe_window_state (c : CapacityRetarget) (accepted staleness_4dp : Int64) :
    (c.observe_window accepted staleness_4dp).1 =
      ((c.open_window.recover (c.open_window.decide_window accepted staleness_4dp)).1.decline
        (c.open_window.decide_window accepted staleness_4dp)).1 := by
  unfold CapacityRetarget.observe_window
  rfl

theorem observe_window_grew (c : CapacityRetarget) (accepted staleness_4dp : Int64) :
    (c.observe_window accepted staleness_4dp).2.grew = c.open_window.total_modules - c.total_modules := by
  unfold CapacityRetarget.observe_window
  rfl

/-- A block that closes a window is one observation, any other block none. -/
theorem fold_refines (hk : 0 < params.k_sustain) (height : Nat) (i : FoldInput)
    (h : ActiveBelow (ModelState.genesis_page_count params.spec) (statuses s.pages)) :
    let o := observed params (counted params s height i)
    let r := fold_at params s height i
    if Closes params height then
      controller params r.1 = ((controller params s).observe_window o.1 o.2).1 ∧
        ((controller params s).observe_window o.1 o.2).2.grew = r.2.length
    else controller params r.1 = controller params s ∧ r.2 = [] := by
  dsimp only
  split
  · next hc =>
    rw [fold_closes hc, fold_window_eq, observe_window_state, observe_window_grew]
    obtain ⟨hopen, hgrew⟩ := controller_activated params (counted params s height i)
    have hcounted : controller params (counted params s height i) = controller params s := controller_counters ..
    rw [hcounted] at hopen hgrew
    refine ⟨?_, hgrew⟩
    rw [← hopen]
    set s₁ := activated params (counted params s height i) with hs₁
    have hactive : ActiveBelow (ModelState.genesis_page_count params.spec) (statuses s₁.pages) := by
      rw [hs₁, activated, (activate_statuses params.spec _ _).1]
      exact h.append _
    have hdecide : (controller params s₁).decide_window (observed params (counted params s height i)).1
        (observed params (counted params s height i)).2 = window_decide params s₁ := rfl
    rw [hdecide, controller_recover i.prev_hash _ hactive,
      controller_decline (s := s₁) _ hactive fun hf => recover_pages i.prev_hash (freeze_not_thaw hk hf),
      ← apply_decision_eq]
    exact controller_reset params _
  · next hc =>
    rw [fold_open hc]
    exact ⟨controller_counters .., rfl⟩

/-- What the closed windows of a run show, in their order. -/
def observations (params : GenesisParams) (ins : List FoldInput) : List (Int64 × Int64) :=
  (List.range ins.length).flatMap fun k =>
    if Closes params (k + 1) then
      (ins[k]?.map fun i => observed params (counted params (folds params (ins.take k)) (k + 1) i)).toList
    else []

theorem observations_snoc (ins : List FoldInput) (i : FoldInput) :
    observations params (ins ++ [i]) = observations params ins ++
      if Closes params (ins.length + 1) then [observed params (counted params (folds params ins) (ins.length + 1) i)]
      else [] := by
  unfold observations
  rw [List.length_append, List.length_singleton, List.range_succ, List.flatMap_append, List.flatMap_singleton,
    List.getElem?_concat_length, List.take_left]
  refine congrArg (· ++ _) (List.flatMap_congr fun k hk => ?_)
  have hlt := List.mem_range.mp hk
  rw [List.getElem?_append_left hlt, List.take_append_of_le_length hlt.le]

/-- The controller after some windows. -/
def observe_all (c : CapacityRetarget) (os : List (Int64 × Int64)) : CapacityRetarget :=
  os.foldl (fun c o => (c.observe_window o.1 o.2).1) c

/-- The page table of a chain, counted, is the state of the controller that observed the chain's windows. -/
theorem fold_refines_controller (params : GenesisParams) (hk : 0 < params.k_sustain)
    (hfit : (ModelState.genesis params.spec).pages.length < 2 ^ 64) (ins : List FoldInput) :
    controller params (folds params ins) =
      observe_all (controller params (ModelState.genesis params.spec)) (observations params ins) := by
  have hactive (ins : List FoldInput) :
      ActiveBelow (ModelState.genesis_page_count params.spec) (statuses (folds params ins).pages) := by
    refine folds_induction (P := fun _ s => ActiveBelow (ModelState.genesis_page_count params.spec) (statuses s.pages))
      ?_ (fun n s i h => fold_active (n + 1) i h) ins
    rw [genesis_page_count_eq hfit]
    exact active_genesis params.spec
  induction ins using List.reverseRecOn with
  | nil => rfl
  | append_singleton ins i ih =>
    have hstep := fold_refines hk (ins.length + 1) i (hactive ins)
    rw [folds_snoc, observations_snoc, observe_all, List.foldl_append]
    change _ = List.foldl _ (observe_all _ (observations params ins)) _
    rw [← ih]
    dsimp only at hstep
    split at hstep
    · next hc =>
      rw [if_pos hc]
      exact hstep.1
    · next hc =>
      rw [if_neg hc]
      exact hstep.1

/-! ## The ratchet -/

/-- The genesis modules are active, and no more modules than there are. -/
def Ratcheted (c : CapacityRetarget) : Prop :=
  0 ≤ c.growth_bound ∧ c.min_active ≤ c.active_modules ∧ c.active_modules ≤ c.total_modules

theorem open_ratchets {c : CapacityRetarget} (h : Ratcheted c) :
    Ratcheted c.open_window ∧ c.total_modules ≤ c.open_window.total_modules := by
  obtain ⟨hbound, hmin, htotal⟩ := h
  have hgrown : 0 ≤ ((c.pending_growth.filter fun w => decide (w ≤ c.window_id + 1)).length : Int) * c.growth_bound :=
    mul_nonneg (Int.natCast_nonneg _) hbound
  refine ⟨⟨hbound, ?_, ?_⟩, ?_⟩
  · exact hmin.trans (le_add_of_nonneg_right hgrown)
  · exact Int.add_le_add_right htotal _
  · exact le_add_of_nonneg_right hgrown

theorem recover_ratchets {c : CapacityRetarget} (h : Ratcheted c) (d : Decision) :
    Ratcheted (c.recover d).1 ∧ (c.recover d).1.total_modules = c.total_modules := by
  obtain ⟨hbound, hmin, htotal⟩ := h
  unfold CapacityRetarget.recover
  simp only
  split
  · next hthaw => exact ⟨⟨hbound, hmin.trans (lt_add_one _).le, hthaw.2⟩, rfl⟩
  · split
    · exact ⟨⟨hbound, hmin, htotal⟩, rfl⟩
    · exact ⟨⟨hbound, hmin, htotal⟩, rfl⟩

theorem decline_ratchets {c : CapacityRetarget} (h : Ratcheted c) (d : Decision) :
    Ratcheted (c.decline d).1 ∧ (c.decline d).1.total_modules = c.total_modules := by
  obtain ⟨hbound, hmin, htotal⟩ := h
  unfold CapacityRetarget.decline
  split
  · next hfreeze => exact ⟨⟨hbound, Int.le_sub_one_of_lt hfreeze.2, by simp only; omega⟩, rfl⟩
  · exact ⟨⟨hbound, hmin, htotal⟩, rfl⟩

theorem observe_ratchets {c : CapacityRetarget} (h : Ratcheted c) (accepted staleness_4dp : Int64) :
    Ratcheted (c.observe_window accepted staleness_4dp).1 ∧
      c.total_modules ≤ (c.observe_window accepted staleness_4dp).1.total_modules := by
  obtain ⟨hopen, hle⟩ := open_ratchets h
  obtain ⟨hrecover, htotal⟩ := recover_ratchets hopen (c.open_window.decide_window accepted staleness_4dp)
  obtain ⟨hdecline, htotal'⟩ := decline_ratchets hrecover (c.open_window.decide_window accepted staleness_4dp)
  rw [observe_window_state]
  exact ⟨hdecline, by rw [htotal', htotal]; exact hle⟩

/-! ### The range of the counters -/

/-- Whatever the next windows show, the counters keep within `i64`. -/
def Fits (c : CapacityRetarget) (windows : Nat) : Prop :=
  -2 ^ 63 ≤ c.min_active ∧ c.total_modules + (c.pending_growth.length + windows : Nat) * c.growth_bound < 2 ^ 63

/-- No sum of the `i64` counters wraps. -/
def InRange (c : CapacityRetarget) : Prop := -2 ^ 63 ≤ c.active_modules ∧ c.total_modules < 2 ^ 63

theorem Fits.in_range {c : CapacityRetarget} {windows : Nat} (hfit : Fits c windows) (h : Ratcheted c) : InRange c := by
  obtain ⟨hbound, hmin, -⟩ := h
  have hmore : 0 ≤ ((c.pending_growth.length + windows : Nat) : Int) * c.growth_bound :=
    mul_nonneg (Int.natCast_nonneg _) hbound
  exact ⟨hfit.1.trans hmin, lt_of_le_of_lt (le_add_of_nonneg_right hmore) hfit.2⟩

theorem recover_pending (c : CapacityRetarget) (d : Decision) :
    (c.recover d).1.pending_growth.length ≤ c.pending_growth.length + 1 ∧ (c.recover d).1.growth_bound = c.growth_bound ∧
      (c.recover d).1.min_active = c.min_active := by
  unfold CapacityRetarget.recover
  simp only
  split
  · exact ⟨Nat.le_succ _, rfl, rfl⟩
  · split
    · exact ⟨by rw [List.length_append]; exact Nat.le_refl _, rfl, rfl⟩
    · exact ⟨Nat.le_succ _, rfl, rfl⟩

theorem decline_pending (c : CapacityRetarget) (d : Decision) :
    (c.decline d).1.pending_growth = c.pending_growth ∧ (c.decline d).1.growth_bound = c.growth_bound ∧
      (c.decline d).1.min_active = c.min_active := by
  unfold CapacityRetarget.decline
  split <;> exact ⟨rfl, rfl, rfl⟩

/-- What is activated is no longer pending, so growth that is due has been counted already. -/
theorem Fits.open {c : CapacityRetarget} {windows : Nat} (hfit : Fits c windows) : Fits c.open_window windows := by
  obtain ⟨hmin, htotal⟩ := hfit
  have hsplit : (c.pending_growth.filter fun w => decide (w ≤ c.window_id + 1)).length +
      (c.pending_growth.filter fun w => decide (w > c.window_id + 1)).length = c.pending_growth.length := by
    rw [List.length_eq_length_filter_add (l := c.pending_growth) fun w => decide (w ≤ c.window_id + 1)]
    simp only [gt_iff_lt, ← UInt64.not_le, decide_not]
  refine ⟨hmin, lt_of_eq_of_lt ?_ htotal⟩
  unfold CapacityRetarget.open_window
  simp only
  rw [← hsplit]
  push_cast
  ring

/-- One window uses up one window's room. -/
theorem Fits.observe {c : CapacityRetarget} {windows : Nat} (hfit : Fits c (windows + 1)) (h : Ratcheted c)
    (accepted staleness_4dp : Int64) : Fits (c.observe_window accepted staleness_4dp).1 windows := by
  obtain ⟨hopen, -⟩ := open_ratchets h
  obtain ⟨hmin, htotal⟩ := hfit.open
  set d := c.open_window.decide_window accepted staleness_4dp with hd
  obtain ⟨hpending, hbound, hmin'⟩ := recover_pending c.open_window d
  obtain ⟨hpending', hbound', hmin''⟩ := decline_pending (c.open_window.recover d).1 d
  obtain ⟨hrecover, hsame⟩ := recover_ratchets hopen d
  obtain ⟨-, hsame'⟩ := decline_ratchets hrecover d
  rw [observe_window_state, ← hd]
  refine ⟨by rw [hmin'', hmin']; exact hmin, lt_of_le_of_lt ?_ htotal⟩
  rw [hsame', hsame, hbound', hbound, hpending']
  refine add_le_add_right (mul_le_mul_of_nonneg_right ?_ hopen.1) _
  exact_mod_cast (by omega : (c.open_window.recover d).1.pending_growth.length + windows ≤
    c.open_window.pending_growth.length + (windows + 1))

/-- As long as the counters fit, whatever the windows show: no sum wraps, modules are never lost, and the genesis
modules stay active. -/
theorem ratchet (c : CapacityRetarget) (h : Ratcheted c) (os : List (Int64 × Int64)) (hfit : Fits c os.length) :
    (∀ pre, pre <+: os → Ratcheted (observe_all c pre) ∧ InRange (observe_all c pre) ∧
      InRange (observe_all c pre).open_window) ∧
      ∀ pre post, pre <+: post → post <+: os → (observe_all c pre).total_modules ≤ (observe_all c post).total_modules := by
  have hrun (os : List (Int64 × Int64)) : ∀ (c : CapacityRetarget) (windows : Nat), Ratcheted c → Fits c (os.length + windows) →
      Ratcheted (observe_all c os) ∧ Fits (observe_all c os) windows ∧ c.total_modules ≤ (observe_all c os).total_modules := by
    induction os with
    | nil =>
      intro c windows hc hfit
      rw [List.length_nil, Nat.zero_add] at hfit
      exact ⟨hc, hfit, le_rfl⟩
    | cons o os ih =>
      intro c windows hc hfit
      obtain ⟨hstep, hle⟩ := observe_ratchets hc o.1 o.2
      have hfit' : Fits c ((os.length + windows) + 1) := by
        rwa [List.length_cons, Nat.add_right_comm] at hfit
      obtain ⟨hall, hrest, hle'⟩ := ih _ windows hstep (hfit'.observe hc o.1 o.2)
      exact ⟨hall, hrest, hle.trans hle'⟩
  refine ⟨fun pre hpre => ?_, fun pre post hpost hos => ?_⟩
  · obtain ⟨more, rfl⟩ := hpre
    obtain ⟨hpre, hrest, -⟩ := hrun pre c more.length h (by rwa [List.length_append] at hfit)
    exact ⟨hpre, hrest.in_range hpre, hrest.open.in_range (open_ratchets hpre).1⟩
  · obtain ⟨more, rfl⟩ := hpost
    obtain ⟨rest, rfl⟩ := hos
    obtain ⟨hpre, hrest, -⟩ := hrun pre c (more ++ rest).length h (by simpa [List.length_append, Nat.add_assoc] using hfit)
    obtain ⟨-, -, hle⟩ := hrun more _ rest.length hpre (by rwa [List.length_append] at hrest)
    rw [observe_all, observe_all, List.foldl_append]
    exact hle

end

/-- Five busy windows. -/
theorem fold_refines_controller_busy : controller OneColumn.params (folds OneColumn.params (List.replicate 80 OneColumn.busy)) =
    observe_all (controller OneColumn.params (ModelState.genesis OneColumn.params.spec))
      (observations OneColumn.params (List.replicate 80 OneColumn.busy)) :=
  fold_refines_controller OneColumn.params (by decide) (by decide) (List.replicate 80 OneColumn.busy)

theorem ratchet_default : Ratcheted (observe_all {} [(64, 0)]) ∧
    (observe_all {} [(64, 0)]).total_modules ≤ (observe_all {} [(64, 0), (0, 0)]).total_modules := by
  obtain ⟨hkept, hgrows⟩ := ratchet {} ⟨by decide, by decide, by decide⟩ [(64, 0), (0, 0)] ⟨by decide, by decide⟩
  have hpre : [((64, 0) : Int64 × Int64)] <+: [(64, 0), (0, 0)] := ⟨[(0, 0)], rfl⟩
  exact ⟨(hkept _ hpre).1, hgrows _ _ hpre List.prefix_rfl⟩

end Sestrian.capacity
