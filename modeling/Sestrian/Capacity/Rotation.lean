import Sestrian.Capacity.Runs

/-!
# Freezing and thawing

The grown pages are active up to some page and frozen from there on. Growth is announced only
while none is frozen, and no freeze can come before it is due.
-/

namespace Sestrian.capacity

open client

section

variable {params : GenesisParams} {s : ModelState}

def statuses (pages : List Page) : List PageStatus := pages.map (·.status)

theorem statuses_set_status (pages : List Page) (i : Nat) (st : PageStatus) :
    statuses (set_status pages i st) = (statuses pages).set i st := by
  apply List.ext_getElem?
  intro j
  simp only [statuses, set_status, List.getElem?_map, List.getElem?_modify, List.getElem?_set, List.length_map]
  by_cases hij : i = j
  · subst hij
    cases h : pages[i]? with
    | none => simp [List.getElem?_eq_none_iff.mp h]
    | some p => simp [(List.getElem?_eq_some_iff.mp h).1]
  · simp [hij]

/-! ## Pages in rotation -/

/-- The pages from `n` on are `a` active ones and then `f` frozen ones. -/
def InRotation (n a f : Nat) (sts : List PageStatus) : Prop :=
  n ≤ sts.length ∧ sts.drop n = List.replicate a .active ++ List.replicate f .frozen

variable {n a f : Nat} {sts : List PageStatus}

theorem InRotation.length (h : InRotation n a f sts) : sts.length = n + a + f := by
  have hlen := congrArg List.length h.2
  simp only [List.length_drop, List.length_append, List.length_replicate] at hlen
  have := h.1
  omega

theorem InRotation.get (h : InRotation n a f sts) (j : Nat) : sts[n + j]? =
    if j < a then some .active else if j < a + f then some .frozen else none := by
  rw [← List.getElem?_drop, h.2, List.getElem?_append, List.length_replicate, List.getElem?_replicate,
    List.getElem?_replicate]
  by_cases hj : j < a
  · simp [hj]
  · by_cases hjf : j < a + f
    · simp [hj, hjf, show j - a < f by omega]
    · simp [hj, hjf, show ¬ j - a < f by omega]

theorem InRotation.of_get (hlen : sts.length = n + a + f)
    (h : ∀ j, sts[n + j]? = if j < a then some .active else if j < a + f then some .frozen else none) :
    InRotation n a f sts := by
  refine ⟨by omega, List.ext_getElem? fun j => ?_⟩
  rw [List.getElem?_drop, h, List.getElem?_append, List.length_replicate, List.getElem?_replicate,
    List.getElem?_replicate]
  by_cases hj : j < a
  · simp [hj]
  · by_cases hjf : j < a + f
    · simp [hj, hjf, show j - a < f by omega]
    · simp [hj, hjf, show ¬ j - a < f by omega]

/-- The newest active page is frozen. -/
theorem InRotation.freeze (h : InRotation n (a + 1) f sts) : InRotation n a (f + 1) (sts.set (n + a) .frozen) := by
  have hlen := h.length
  refine .of_get (by rw [List.length_set]; omega) fun j => ?_
  rw [List.getElem?_set, h.get]
  split_ifs <;> first | omega | rfl

/-- The oldest frozen page is thawed. -/
theorem InRotation.thaw (h : InRotation n a (f + 1) sts) : InRotation n (a + 1) f (sts.set (n + a) .active) := by
  have hlen := h.length
  refine .of_get (by rw [List.length_set]; omega) fun j => ?_
  rw [List.getElem?_set, h.get]
  split_ifs <;> first | omega | rfl

/-- Nothing is frozen and pages are added. -/
theorem InRotation.grow (h : InRotation n a 0 sts) (k : Nat) :
    InRotation n (a + k) 0 (sts ++ List.replicate k .active) := by
  refine ⟨by rw [List.length_append]; exact Nat.le_add_right_of_le h.1, ?_⟩
  rw [List.drop_append_of_le_length h.1, h.2, List.replicate_zero, List.append_nil, List.append_nil,
    ← List.replicate_add]

theorem grown_with_eq (pages : List Page) (st : PageStatus) : grown_with params pages st =
    (List.range (statuses pages).length).filter fun i =>
      ModelState.genesis_page_count params.spec ≤ i ∧ (statuses pages)[i]? = some st := by
  simp only [grown_with, statuses, List.length_map, List.getElem?_map]

theorem filter_range_eq {p : Nat → Bool} {m k len : Nat} (hlen : m + k ≤ len)
    (hp : ∀ i < len, p i = true ↔ m ≤ i ∧ i < m + k) : (List.range len).filter p = List.range' m k := by
  have hleft : ((List.range len).filter p).Pairwise (· < ·) := List.pairwise_lt_range.filter _
  have hright : (List.range' m k).Pairwise (· < ·) := List.pairwise_lt_range'
  have hmem (i : Nat) : i ∈ (List.range len).filter p ↔ i ∈ List.range' m k := by
    rw [List.mem_filter, List.mem_range, List.mem_range'_1]
    constructor
    · exact fun ⟨hi, h⟩ => (hp i hi).mp h
    · exact fun h => ⟨by omega, (hp i (by omega)).mpr h⟩
  have hperm := (List.perm_ext_iff_of_nodup (hleft.imp Nat.ne_of_lt) (hright.imp Nat.ne_of_lt)).mpr hmem
  exact hperm.eq_of_pairwise (fun a b _ _ h₁ h₂ => absurd (Nat.lt_trans h₁ h₂) (Nat.lt_irrefl _)) hleft hright

theorem InRotation.active {pages : List Page} (h : InRotation (ModelState.genesis_page_count params.spec) a f (statuses pages)) :
    grown_with params pages .active = List.range' (ModelState.genesis_page_count params.spec) a := by
  have hlen := h.length
  rw [grown_with_eq]
  refine filter_range_eq (by omega) fun i hi => ?_
  rw [decide_eq_true_eq]
  refine and_congr_right fun hge => ?_
  obtain ⟨j, rfl⟩ := Nat.exists_eq_add_of_le hge
  rw [h.get]
  split_ifs <;> simp <;> omega

theorem InRotation.frozen {pages : List Page} (h : InRotation (ModelState.genesis_page_count params.spec) a f (statuses pages)) :
    grown_with params pages .frozen = List.range' (ModelState.genesis_page_count params.spec + a) f := by
  have hlen := h.length
  rw [grown_with_eq]
  refine filter_range_eq (by omega) fun i hi => ?_
  rw [decide_eq_true_eq]
  constructor
  · rintro ⟨hge, hst⟩
    obtain ⟨j, rfl⟩ := Nat.exists_eq_add_of_le hge
    rw [h.get] at hst
    split_ifs at hst with h₁ h₂
    · cases hst
    · omega
  · intro hi
    obtain ⟨j, rfl⟩ := Nat.exists_eq_add_of_le (show ModelState.genesis_page_count params.spec ≤ i by omega)
    refine ⟨by omega, ?_⟩
    rw [h.get, if_neg (by omega), if_pos (by omega)]

/-! ## The decision -/

/-- The decision on a window whose growth has been activated. -/
def window_decide (params : GenesisParams) (s : ModelState) : Decision :=
  retarget_decide s.quota_4dp s.pinned_streak s.slack_streak (Int64.ofNat s.win_accepted.toNat)
    (window_staleness params s) params.quota_min_4dp params.quota_max_4dp params.target_deltas DAMP_DIV
    params.stale_ceiling_4dp params.k_sustain

theorem thaw_slack (h : (window_decide params s).thaw_ok = true) : (window_decide params s).slack_streak = 0 := by
  unfold window_decide retarget_decide at h ⊢
  simp only [Bool.and_eq_true, decide_eq_true_eq] at h ⊢
  rw [if_neg]
  exact fun hd => absurd hd.2 (Int64.not_lt.mpr h.2)

theorem decide_pinned (params : GenesisParams) (s : ModelState) : (window_decide params s).pinned_streak =
    if (window_decide params s).thaw_ok then s.pinned_streak + 1 else 0 := by
  unfold window_decide retarget_decide
  rfl

theorem decide_schedule (params : GenesisParams) (s : ModelState) : (window_decide params s).schedule =
    decide ((window_decide params s).pinned_streak ≥ params.k_sustain) := by
  unfold window_decide retarget_decide
  rfl

theorem schedule_thaw (hk : 0 < params.k_sustain) (h : (window_decide params s).schedule = true) :
    (window_decide params s).thaw_ok = true := by
  rw [decide_schedule, decide_eq_true_eq, decide_pinned] at h
  by_contra hthaw
  rw [if_neg hthaw] at h
  exact Int64.not_le.mpr hk h

theorem slack_cases (params : GenesisParams) (s : ModelState) :
    (window_decide params s).slack_streak = 0 ∨ (window_decide params s).slack_streak = s.slack_streak + 1 := by
  unfold window_decide retarget_decide
  dsimp only
  split_ifs
  all_goals first | exact .inl rfl | exact .inr rfl

theorem freeze_iff : (window_decide params s).freeze = true ↔ params.k_sustain ≤ (window_decide params s).slack_streak := by
  unfold window_decide retarget_decide
  simp only [decide_eq_true_eq]

/-- Thaw or schedule, the first half of the decision. -/
def recover (params : GenesisParams) (prev_hash : String) (d : Decision) (s : ModelState) : ModelState :=
  if d.thaw_ok ∧ grown_with params s.pages .frozen ≠ [] then
    { s with
      quota_4dp := d.quota_4dp
      slack_streak := d.slack_streak
      pages := set_status s.pages ((grown_with params s.pages .frozen).headD 0) .active
      pinned_streak := 0 }
  else if d.schedule ∧ s.pending_growth = [] then
    { s with
      slack_streak := d.slack_streak
      pending_growth := s.pending_growth ++
        [⟨s.window_id + params.announce_lead, (s.events_total % params.spec.n_layers).toNat, prev_hash⟩]
      events_total := s.events_total + 1
      pinned_streak := 0
      quota_4dp := Int64.ofInt ((params.quota_min_4dp + params.quota_max_4dp).toInt / 2) }
  else { s with quota_4dp := d.quota_4dp, pinned_streak := d.pinned_streak, slack_streak := d.slack_streak }

/-- The freeze, its second half. -/
def decline (d : Decision) (active_grown : List Nat) (s : ModelState) : ModelState :=
  if d.freeze ∧ active_grown ≠ [] then
    { s with pages := set_status s.pages (active_grown.getLastD 0) .frozen, slack_streak := 0 }
  else s

theorem apply_decision_eq (prev_hash : String) (d : Decision) (s : ModelState) :
    apply_decision params prev_hash d s =
      decline d (grown_with params s.pages .active) (recover params prev_hash d s) := rfl

theorem decline_not {d : Decision} (h : d.freeze = false) (active_grown : List Nat) (s : ModelState) :
    decline d active_grown s = s := if_neg (by simp [h])

/-- What the decision can do to pages in rotation. -/
theorem apply_decision_cases (prev_hash : String)
    (h : InRotation (ModelState.genesis_page_count params.spec) a f (statuses s.pages)) (hk : 0 < params.k_sustain) :
    let s' := apply_decision params prev_hash (window_decide params s) s
    let n := ModelState.genesis_page_count params.spec
    s'.window_id = s.window_id ∧
    ((∃ f', f = f' + 1 ∧ statuses s'.pages = (statuses s.pages).set (n + a) .active ∧
        s'.pending_growth = s.pending_growth ∧ s'.events_total = s.events_total ∧ s'.slack_streak = 0) ∨
      (f = 0 ∧ s.pending_growth = [] ∧ statuses s'.pages = statuses s.pages ∧ s'.slack_streak = 0 ∧
        ∃ l t, s'.pending_growth = [⟨s.window_id + params.announce_lead, l, t⟩]) ∨
      (∃ a', a = a' + 1 ∧ (window_decide params s).freeze = true ∧
        statuses s'.pages = (statuses s.pages).set (n + a') .frozen ∧
        s'.pending_growth = s.pending_growth ∧ s'.events_total = s.events_total) ∨
      (statuses s'.pages = statuses s.pages ∧ s'.pending_growth = s.pending_growth ∧
        s'.events_total = s.events_total ∧ s'.slack_streak = (window_decide params s).slack_streak)) := by
  have hslack (ht : (window_decide params s).thaw_ok = true) : (window_decide params s).freeze = false := by
    rw [Bool.eq_false_iff, ne_eq, freeze_iff, thaw_slack ht]
    exact Int64.not_le.mpr hk
  have hthaw := @thaw_slack params s
  have hsched := @schedule_thaw params s hk
  generalize window_decide params s = d at hslack hthaw hsched ⊢
  have hfrozen := h.frozen
  have hactive := h.active
  simp only [apply_decision_eq, hactive]
  by_cases ht : d.thaw_ok = true
  · rw [decline_not (hslack ht)]
    cases f with
    | succ f' =>
      have hthawed : recover params prev_hash d s = { s with
          quota_4dp := d.quota_4dp
          slack_streak := d.slack_streak
          pages := set_status s.pages (ModelState.genesis_page_count params.spec + a) .active
          pinned_streak := 0 } := by
        unfold recover
        rw [hfrozen, if_pos ⟨ht, by simp⟩]
        rfl
      rw [hthawed]
      exact ⟨rfl, .inl ⟨f', rfl, statuses_set_status _ _ _, rfl, rfl, hthaw ht⟩⟩
    | zero =>
      unfold recover
      rw [hfrozen, if_neg (by simp)]
      by_cases hs : d.schedule = true ∧ s.pending_growth = []
      · rw [if_pos hs]
        exact ⟨rfl, .inr (.inl ⟨rfl, hs.2, rfl, hthaw ht, _, _, congrArg (· ++ _) hs.2⟩)⟩
      · rw [if_neg hs]
        exact ⟨rfl, .inr (.inr (.inr ⟨rfl, rfl, rfl, rfl⟩))⟩
  · have hrecover : recover params prev_hash d s =
        { s with quota_4dp := d.quota_4dp, pinned_streak := d.pinned_streak, slack_streak := d.slack_streak } := by
      unfold recover
      rw [if_neg (fun hc => ht hc.1), if_neg (fun hc => ht (hsched hc.1))]
    rw [hrecover]
    unfold decline
    by_cases hf : d.freeze = true ∧ List.range' (ModelState.genesis_page_count params.spec) a ≠ []
    · rw [if_pos hf]
      obtain ⟨a', rfl⟩ : ∃ a', a = a' + 1 := Nat.exists_eq_succ_of_ne_zero fun h0 => hf.2 (by rw [h0]; rfl)
      refine ⟨rfl, .inr (.inr (.inl ⟨a', rfl, hf.1, ?_, rfl, rfl⟩))⟩
      rw [statuses_set_status, List.range'_concat, List.getLastD_concat, Nat.one_mul]
    · rw [if_neg hf]
      exact ⟨rfl, .inr (.inr (.inr ⟨rfl, rfl, rfl, rfl⟩))⟩

/-! ## The invariant -/

/-- The constants that the invariant rests on. -/
structure Paced (params : GenesisParams) : Prop where
  sustain : params.k_sustain = 3
  lead : params.announce_lead = 2

/-- While growth is announced nothing is frozen, and the slack streak is too short to freeze before it is due. -/
structure Rotating (params : GenesisParams) (s : ModelState) : Prop where
  pages : ∃ a f, InRotation (ModelState.genesis_page_count params.spec) a f (statuses s.pages)
  announced : s.pending_growth = [] ∨
    (∃ a, InRotation (ModelState.genesis_page_count params.spec) a 0 (statuses s.pages)) ∧
    ∃ pg, s.pending_growth = [pg] ∧ (pg.window = s.window_id + 2 ∧ s.slack_streak = 0 ∨
      pg.window = s.window_id + 1 ∧ (s.slack_streak = 0 ∨ s.slack_streak = 1))

theorem genesis_statuses (spec : ModelSpec) : statuses (ModelState.genesis spec).pages =
    List.replicate (1 + spec.n_layers.toNat * spec.n_experts_initial.toNat) .active := by
  have hactive (off : Nat) (ks : List (Nat × Nat)) :
      statuses (genesis_experts spec off ks) = List.replicate ks.length .active := by
    induction ks generalizing off with
    | nil => rfl
    | cons k ks ih =>
      rw [genesis_experts, statuses, List.map_cons, List.length_cons, List.replicate_succ, ← ih (off + spec.expert_page_len)]
      rfl
  have := hactive spec.backbone_params.toNat ((List.range spec.n_layers.toNat).flatMap fun l =>
    (List.range spec.n_experts_initial.toNat).map fun e => (l, e))
  rw [ModelState.genesis, statuses, List.map_cons, Nat.add_comm, List.replicate_succ]
  refine congrArg _ (this.trans (congrArg (List.replicate · _) ?_))
  simp [List.length_flatMap]

theorem statuses_genesis (spec : ModelSpec) :
    ∃ a, InRotation (ModelState.genesis_page_count spec) a 0 (statuses (ModelState.genesis spec).pages) := by
  have hcount : ModelState.genesis_page_count spec ≤ 1 + spec.n_layers.toNat * spec.n_experts_initial.toNat := by
    rw [ModelState.genesis_page_count, UInt64.toNat_add, UInt64.toNat_mul]
    refine (Nat.mod_le _ _).trans (Nat.add_le_add_left ?_ 1)
    exact Nat.mod_le _ _
  refine ⟨1 + spec.n_layers.toNat * spec.n_experts_initial.toNat - ModelState.genesis_page_count spec, ?_, ?_⟩
  · rw [genesis_statuses, List.length_replicate]
    exact hcount
  · rw [genesis_statuses, List.drop_replicate, List.replicate_zero, List.append_nil]

theorem rotating_genesis (params : GenesisParams) : Rotating params (ModelState.genesis params.spec) := by
  obtain ⟨a, ha⟩ := statuses_genesis params.spec
  exact ⟨⟨a, 0, ha⟩, .inl rfl⟩

theorem activate_statuses (spec : ModelSpec) (pages : List Page) (gs : List PendingGrowth) :
    statuses (activate_all spec pages gs).1 = statuses pages ++ List.replicate gs.length .active ∧
    (activate_all spec pages gs).2.length = gs.length := by
  induction gs generalizing pages with
  | nil => simp [activate_all]
  | cons g gs ih =>
    obtain ⟨hst, hlen⟩ := ih (activate spec pages g).1
    simp only [activate_all, hst, hlen, List.length_cons, and_true]
    simp [activate, statuses, List.replicate_succ]

/-! ## One window -/

/-- What one block does to the statuses: it may freeze the newest active page or thaw the oldest frozen one. -/
structure Turn (n : Nat) (before after : List PageStatus) : Prop where
  freezes : ∀ i, before[i]? = some .active → after[i]? = some .frozen →
    n ≤ i ∧ ∀ j, i < j → before[j]? ≠ some .active
  thaws : ∀ i, before[i]? = some .frozen → after[i]? = some .active →
    n ≤ i ∧ ∀ j, n ≤ j → j < i → before[j]? ≠ some .frozen

theorem turn_append (n : Nat) (sts more : List PageStatus) : Turn n sts (sts ++ more) := by
  have hsame {i : Nat} {st st' : PageStatus} (h : sts[i]? = some st) (h' : (sts ++ more)[i]? = some st') : st = st' := by
    rw [List.getElem?_append_left (List.getElem?_eq_some_iff.mp h).1, h] at h'
    exact Option.some.inj h'
  exact ⟨fun i h h' => absurd (hsame h h') nofun, fun i h h' => absurd (hsame h h') nofun⟩

theorem turn_same (n : Nat) (sts : List PageStatus) : Turn n sts sts := by
  have := turn_append n sts []
  rwa [List.append_nil] at this

theorem InRotation.turn_freeze (h : InRotation n (a + 1) f sts) : Turn n sts (sts.set (n + a) .frozen) := by
  constructor
  · intro i hb ha
    by_cases hi : n + a = i
    · refine ⟨by omega, fun j hj => ?_⟩
      obtain ⟨k, rfl⟩ := Nat.exists_eq_add_of_le (show n ≤ j by omega)
      rw [h.get, if_neg (by omega)]
      split_ifs <;> simp
    · rw [List.getElem?_set_ne hi, hb] at ha
      cases ha
  · intro i hb ha
    by_cases hi : n + a = i
    · rw [← hi, List.getElem?_set_self'] at ha
      cases hx : sts[n + a]? <;> simp [hx] at ha
    · rw [List.getElem?_set_ne hi, hb] at ha
      cases ha

theorem InRotation.turn_thaw (h : InRotation n a (f + 1) sts) : Turn n sts (sts.set (n + a) .active) := by
  constructor
  · intro i hb ha
    by_cases hi : n + a = i
    · rw [← hi, List.getElem?_set_self'] at ha
      cases hx : sts[n + a]? <;> simp [hx] at ha
    · rw [List.getElem?_set_ne hi, hb] at ha
      cases ha
  · intro i hb ha
    by_cases hi : n + a = i
    · refine ⟨by omega, fun j hj hlt => ?_⟩
      obtain ⟨k, rfl⟩ := Nat.exists_eq_add_of_le hj
      rw [h.get, if_pos (by omega)]
      simp
    · rw [List.getElem?_set_ne hi, hb] at ha
      cases ha

/-- After the growth that is due: what is still announced is due in the next window. -/
theorem Rotating.due (h : Rotating params s) :
    let gs := due s
    let still := s.pending_growth.filter fun g => ¬ g.window ≤ s.window_id + 1
    (gs = [] ∧ still = [] ∧ s.pending_growth = []) ∨
    (∃ a, InRotation (ModelState.genesis_page_count params.spec) a 0 (statuses s.pages)) ∧
      ((∃ pg, gs = [pg] ∧ still = [] ∧ (s.slack_streak = 0 ∨ s.slack_streak = 1)) ∨
        ∃ pg, gs = [] ∧ still = [pg] ∧ pg.window = s.window_id + 1 + 1 ∧ s.slack_streak = 0) := by
  unfold capacity.due
  rcases h.announced with hnone | ⟨hall, pg, hone, hwin⟩
  · left
    rw [hnone]
    exact ⟨rfl, rfl, rfl⟩
  · refine .inr ⟨hall, ?_⟩
    rw [hone]
    by_cases hdue : pg.window ≤ s.window_id + 1
    · refine .inl ⟨pg, by simp [hdue], by simp [hdue], ?_⟩
      rcases hwin with ⟨-, h0⟩ | ⟨-, h01⟩
      · exact .inl h0
      · exact h01
    · refine .inr ⟨pg, by simp [hdue], by simp [UInt64.not_le.mp hdue], ?_⟩
      rcases hwin with ⟨hw, h0⟩ | ⟨hw, -⟩
      · refine ⟨?_, h0⟩
        rw [hw, UInt64.add_assoc]
        rfl
      · exact absurd (hw ▸ UInt64.le_refl _) hdue

theorem not_freeze (hp : Paced params) (h : s.slack_streak = 0 ∨ s.slack_streak = 1) :
    (window_decide params s).freeze = false := by
  rw [Bool.eq_false_iff, ne_eq, freeze_iff, hp.sustain]
  rcases slack_cases params s with h0 | h1
  · rw [h0]
    decide
  · rw [h1]
    rcases h with h | h <;> rw [h] <;> decide

/-- The state of a closing window when its growth has been activated. -/
def activated (params : GenesisParams) (s : ModelState) : ModelState :=
  { s with
    window_id := s.window_id + 1
    pending_growth := s.pending_growth.filter fun g => ¬ g.window ≤ s.window_id + 1
    pages := (activate_all params.spec s.pages (due s)).1 }

/-- What a block does to pages in rotation. -/
structure Rotated (params : GenesisParams) (s s' : ModelState) (acts : List Activation) : Prop where
  rotating : Rotating params s'
  turn : Turn (ModelState.genesis_page_count params.spec) (statuses s.pages) (statuses s'.pages)
  grows : acts ≠ [] ∨ s'.events_total ≠ s.events_total →
    (∃ a, InRotation (ModelState.genesis_page_count params.spec) a 0 (statuses s.pages)) ∧
    ∃ a, InRotation (ModelState.genesis_page_count params.spec) a 0 (statuses s'.pages)

theorem InRotation.not_lt (h : InRotation n a f sts) {a' f' : Nat} (h' : InRotation n a' f' sts) : ¬ a < a' := by
  intro hlt
  have hget := h.get a
  rw [h'.get, if_pos hlt, if_neg (Nat.lt_irrefl a)] at hget
  split_ifs at hget; simp at hget

theorem InRotation.unique (h : InRotation n a f sts) {a' f' : Nat} (h' : InRotation n a' f' sts) : a = a' ∧ f = f' := by
  have hlen := h.length
  have hlen' := h'.length
  have hlt := h.not_lt h'
  have hgt := h'.not_lt h
  omega

/-- A window with nothing announced any more, and no growth in it. -/
theorem decision_rotates (prev_hash : String) (hp : Paced params) {s₁ : ModelState}
    (h : InRotation (ModelState.genesis_page_count params.spec) a f (statuses s₁.pages))
    (hnone : s₁.pending_growth = []) :
    let s' := apply_decision params prev_hash (window_decide params s₁) s₁
    Rotating params s' ∧ Turn (ModelState.genesis_page_count params.spec) (statuses s₁.pages) (statuses s'.pages) ∧
    (s'.events_total ≠ s₁.events_total → f = 0 ∧ statuses s'.pages = statuses s₁.pages) ∧
    ((window_decide params s₁).freeze = false → f = 0 → statuses s'.pages = statuses s₁.pages) := by
  have hk : 0 < params.k_sustain := by
    rw [hp.sustain]
    decide
  obtain ⟨hid, hcases⟩ := apply_decision_cases prev_hash h hk
  rcases hcases with ⟨f', rfl, hst, hpend, hev, -⟩ | ⟨rfl, -, hst, hslack, l, t, hpend⟩ |
    ⟨a', rfl, hfreeze, hst, hpend, hev⟩ | ⟨hst, hpend, hev, -⟩
  · refine ⟨⟨⟨_, _, hst ▸ h.thaw⟩, .inl (hpend.trans hnone)⟩, hst ▸ h.turn_thaw, fun hne => absurd hev hne, nofun⟩
  · refine ⟨⟨⟨_, _, hst ▸ h⟩, .inr ⟨⟨_, hst ▸ h⟩, _, hpend, .inl ⟨?_, hslack⟩⟩⟩, hst ▸ turn_same _ _, fun _ => ⟨rfl, hst⟩, fun _ _ => hst⟩
    rw [hid, hp.lead]
  · refine ⟨⟨⟨_, _, hst ▸ h.freeze⟩, .inl (hpend.trans hnone)⟩, hst ▸ h.turn_freeze, fun hne => absurd hev hne,
      fun hnot => absurd (hfreeze.symm.trans hnot) nofun⟩
  · refine ⟨⟨⟨_, _, hst ▸ h⟩, .inl (hpend.trans hnone)⟩, hst ▸ turn_same _ _, fun hne => absurd hev hne,
      fun _ _ => hst⟩

theorem fold_window_eq (prev_hash : String) (s : ModelState) : fold_window params prev_hash s =
    ({ apply_decision params prev_hash (window_decide params (activated params s)) (activated params s) with
        win_accepted := 0, win_zero_scored := 0, win_score_sum := 0, win_scorers := [] },
      (activate_all params.spec s.pages (due s)).2) := rfl

theorem window_rotates (prev_hash : String) (hp : Paced params) (h : Rotating params s) :
    Rotated params s (fold_window params prev_hash s).1 (fold_window params prev_hash s).2 := by
  obtain ⟨a, f, hrot⟩ := h.pages
  have hgrown := activate_statuses params.spec s.pages (due s)
  rw [fold_window_eq]
  rcases h.due with ⟨hdue, hstill, hnone⟩ | ⟨⟨a₀, hall⟩, ⟨pg, hdue, hstill, hslack⟩ | ⟨pg, hdue, hstill, hwin, hslack⟩⟩
  · -- nothing is announced
    have hsts : statuses (activated params s).pages = statuses s.pages := by
      rw [activated, hgrown.1, hdue, List.length_nil, List.replicate_zero, List.append_nil]
    obtain ⟨hr, ht, hev, -⟩ := decision_rotates prev_hash hp (hsts ▸ hrot) hstill
    refine ⟨⟨hr.pages, hr.announced⟩, hsts ▸ ht, fun hgrows => ?_⟩
    have hne := hgrows.resolve_left (by rw [hdue]; exact fun hc => hc rfl)
    obtain ⟨rfl, hsame⟩ := hev hne
    exact ⟨⟨a, hrot⟩, a, by rw [hsame, hsts]; exact hrot⟩
  · -- the announced growth is activated, too early for a freeze
    have hsts : statuses (activated params s).pages = statuses s.pages ++ List.replicate 1 .active := by
      rw [activated, hgrown.1, hdue]
      rfl
    have hgrow := hall.grow 1
    obtain ⟨hr, -, -, hsame⟩ := decision_rotates prev_hash hp (hsts ▸ hgrow) hstill
    have hafter := hsame (not_freeze hp hslack) rfl
    refine ⟨⟨hr.pages, hr.announced⟩, ?_, fun _ => ⟨⟨a₀, hall⟩, a₀ + 1, ?_⟩⟩
    · rw [hafter, hsts]
      exact turn_append _ _ _
    · rw [hafter, hsts]
      exact hgrow
  · -- the announced growth is for the next window
    have hk : 0 < params.k_sustain := by
      rw [hp.sustain]
      decide
    have hsts : statuses (activated params s).pages = statuses s.pages := by
      rw [activated, hgrown.1, hdue, List.length_nil, List.replicate_zero, List.append_nil]
    obtain ⟨hid, hcases⟩ := apply_decision_cases prev_hash (hsts ▸ hall) hk
    have hcalm := @not_freeze params (activated params s) hp (.inl hslack)
    rcases hcases with ⟨f', hf', -⟩ | ⟨-, hno, -⟩ | ⟨a', -, hfreeze, -⟩ | ⟨hst, hpend, hev, hsl⟩
    · cases hf'
    · exact absurd (hstill.symm.trans hno) nofun
    · rw [hcalm] at hfreeze
      cases hfreeze
    · have hafter := hst.trans hsts
      refine ⟨⟨⟨a₀, 0, by rw [hafter]; exact hall⟩, .inr ⟨⟨a₀, by rw [hafter]; exact hall⟩, pg, hpend.trans hstill, .inr ⟨?_, ?_⟩⟩⟩,
        ?_, fun _ => ⟨⟨a₀, hall⟩, a₀, by rw [hafter]; exact hall⟩⟩
      · rw [hwin]
        exact congrArg (· + 1) hid.symm
      · have hslack₁ : (activated params s).slack_streak = 0 := hslack
        rcases slack_cases params (activated params s) with h0 | h1
        · exact .inl (hsl.trans h0)
        · exact .inr (hsl.trans (by rw [h1, hslack₁]; rfl))
      · rw [hafter]
        exact turn_same _ _

theorem fold_rotates (hp : Paced params) (h : Rotating params s) (height : Nat) (i : FoldInput) :
    Rotated params s (fold_at params s height i).1 (fold_at params s height i).2 := by
  have hc : Rotating params (fold_counters s params (UInt64.ofNat height) i.n_txs i.zero_scored i.score_sum i.proposer) :=
    ⟨h.pages, h.announced⟩
  by_cases hclose : Closes params height
  · rw [fold_closes hclose]
    obtain ⟨hr, ht, hg⟩ := window_rotates i.prev_hash hp hc
    exact ⟨hr, ht, hg⟩
  · rw [fold_open hclose]
    exact ⟨hc, turn_same _ _, fun hgrows => absurd rfl (hgrows.resolve_left fun hc => hc rfl)⟩

theorem paced_new (spec : ModelSpec) : Paced { spec } := ⟨rfl, rfl⟩

end

/-- With the constants of `GenesisParams::new`, whatever the blocks: the grown pages are active ones and then
frozen ones, a freeze takes the newest active one and a thaw the oldest frozen one, and no growth is announced or
activated while one is frozen. -/
theorem freeze_thaw_lifo (spec : ModelSpec) (ins : List FoldInput) (i : FoldInput) :
    let params : GenesisParams := { spec }
    let n := ModelState.genesis_page_count spec
    let s := folds params ins
    let r := fold_at params s (ins.length + 1) i
    (∃ a f, InRotation n a f (statuses s.pages)) ∧ Turn n (statuses s.pages) (statuses r.1.pages) ∧
    (r.2 ≠ [] ∨ r.1.events_total ≠ s.events_total →
      (∃ a, InRotation n a 0 (statuses s.pages)) ∧ ∃ a, InRotation n a 0 (statuses r.1.pages)) := by
  intro params n s r
  have hrot : Rotating params s :=
    folds_induction (P := fun _ s => Rotating params s) (rotating_genesis params)
      (fun _ _ i h => (fold_rotates (paced_new spec) h _ i).rotating) ins
  have hstep := fold_rotates (paced_new spec) hrot (ins.length + 1) i
  exact ⟨hrot.pages, hstep.turn, hstep.grows⟩

end Sestrian.capacity
