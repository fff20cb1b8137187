import Sestrian.Capacity.Runs

/-!
# Growth against the router's columns

The fold never looks at `e_max`. The trainer's `add_expert` does.
-/

namespace Sestrian.capacity

open client

def expert_count (pages : List Page) (l : Int) : Nat := (pages.filter fun p => p.kind = .expert ∧ p.layer = l).length

section

variable {params : GenesisParams} {spec : ModelSpec} {s : ModelState} {g : Nat}

theorem expert_count_shape {ps qs : List Page} (h : ps.map shape = qs.map shape) (l : Int) :
    expert_count ps l = expert_count qs l := by
  have := congrArg List.length (filter_shape h l)
  simpa [expert_count] using this

theorem expert_count_keys (h : Grown spec g s) (l : Nat) :
    expert_count s.pages l = (in_layer l (grown_keys spec g)).length := by
  have hlen := congrArg List.length ((filter_shape h.pages l).trans (table_experts spec l (grown_keys spec g)))
  rwa [List.length_map, List.length_map] at hlen

/-- The experts of a layer are numbered from zero without a gap, so the next number is their count. -/
theorem next_expert (h : Grown spec g s) (l : Nat) :
    ((s.pages.filter fun p => p.kind = .expert ∧ p.layer = (l : Int)).map (·.expert)).foldl max (-1) + 1 =
      (expert_count s.pages l : Int) := by
  have hexperts := (filter_shape h.pages l).trans (table_experts spec l (grown_keys spec g))
  rw [expert_count_keys h, hexperts, in_layer_grown, List.map_map, List.length_map, List.length_range]
  have := foldl_max_range (in_layer l (grown_keys spec g)).length
  simp only [Function.comp_def]
  omega

theorem expert_count_activate (pages : List Page) (pg : PendingGrowth) (l : Int) :
    expert_count (activate spec pages pg).1 l = expert_count pages l + if pg.layer = l then 1 else 0 := by
  simp only [expert_count, activate, List.filter_append, List.length_append]
  by_cases hl : pg.layer = l <;> simp [hl]

/-- The growth that is due is one event at most, for one of the layers. -/
theorem due_cases (h : Grown spec g s) : due s = [] ∨ ∃ w l trigger, due s = [⟨w, (l : Nat), trigger⟩] := by
  unfold due
  rcases h.pending with ⟨hnone, -⟩ | ⟨w, trigger, hone, -⟩
  · exact .inl (by rw [hnone]; rfl)
  · rw [hone]
    by_cases hdue : w ≤ s.window_id + 1
    · exact .inr ⟨w, layer_at spec g, trigger, by simp [hdue]⟩
    · exact .inl (by simp [hdue])

/-- A block adds one expert to one layer, the one after the last, or none. -/
theorem fold_experts (h : Folded params s) (height : Nat) (i : FoldInput) :
    ((Closes params height → due s = []) ∧ (fold_at params s height i).2 = [] ∧
      ∀ l, expert_count (fold_at params s height i).1.pages l = expert_count s.pages l) ∨
    Closes params height ∧ ∃ (pg : PendingGrowth) (l : Nat) (a : Activation), due s = [pg] ∧ pg.layer = l ∧
      (fold_at params s height i).2 = [a] ∧ a.layer = l ∧ a.expert = (expert_count s.pages l : Int) ∧
      ∀ l' : Int, expert_count (fold_at params s height i).1.pages l' =
        expert_count s.pages l' + if (l : Int) = l' then 1 else 0 := by
  obtain ⟨g, hg⟩ := h.grown
  obtain ⟨hpages, hacts⟩ := @fold_pages params s height i
  by_cases hc : Closes params height
  · rw [if_pos hc] at hpages hacts
    rcases due_cases hg with hdue | ⟨w, l, trigger, hdue⟩
    · rw [hdue] at hpages hacts
      exact .inl ⟨fun _ => hdue, hacts, fun l => expert_count_shape hpages l⟩
    · rw [hdue] at hpages hacts
      refine .inr ⟨hc, _, l, _, hdue, rfl, hacts, rfl, next_expert hg l, fun l' => ?_⟩
      rw [expert_count_shape hpages]
      exact expert_count_activate s.pages ⟨w, l, trigger⟩ l'
  · rw [if_neg hc] at hpages hacts
    exact .inl ⟨fun h => absurd h hc, hacts, fun l => expert_count_shape hpages l⟩

theorem fold_length (h : Folded params s) (height : Nat) (i : FoldInput) :
    (fold_at params s height i).1.pages.length =
      s.pages.length + if Closes params height ∧ due s ≠ [] then 1 else 0 := by
  obtain ⟨g, hg⟩ := h.grown
  have hlen := congrArg List.length (@fold_pages params s height i).1
  rw [List.length_map, List.length_map] at hlen
  rw [hlen]
  by_cases hc : Closes params height
  · rcases due_cases hg with hdue | ⟨w, l, trigger, hdue⟩ <;> simp [hc, hdue, activate_all, activate]
  · simp [hc, activate_all]

/-! ## The growth of a layer -/

def initial_experts (spec : ModelSpec) (l : Nat) : Nat :=
  if l < spec.n_layers.toNat then spec.n_experts_initial.toNat else 0

/-- How many of the first `g` growth events are for a layer. -/
def events_for (spec : ModelSpec) (g l : Nat) : Nat := (List.range g).countP fun j => layer_at spec j = l

theorem expert_count_grown (h : Grown spec g s) (l : Nat) :
    expert_count s.pages l = initial_experts spec l + events_for spec g l := by
  have hlayers (ks : List (Nat × Nat)) : (in_layer l ks).length = (ks.map (·.1)).countP (· = l) := by
    rw [in_layer, ← List.countP_eq_length_filter, List.countP_map]
    rfl
  have hgenesis : ((grown_keys spec 0).map (·.1)).countP (· = l) = initial_experts spec l := by
    rw [← hlayers, grown_keys, in_layer_keys_of, List.length_map, List.length_range, List.getD_eq_getElem?_getD,
      List.getElem?_replicate]
    unfold initial_experts
    split <;> rfl
  rw [expert_count_keys h, hlayers, grown_layers, List.countP_append, hgenesis, List.countP_map]
  rfl

theorem events_for_succ (spec : ModelSpec) (g l : Nat) :
    events_for spec (g + 1) l = events_for spec g l + if layer_at spec g = l then 1 else 0 := by
  unfold events_for
  rw [List.range_succ, List.countP_append, List.countP_singleton]
  simp

theorem events_for_mono {g' : Nat} (h : g ≤ g') (l : Nat) : events_for spec g l ≤ events_for spec g' l := by
  induction h with
  | refl => exact le_rfl
  | step _ ih =>
    rw [events_for_succ]
    exact ih.trans (Nat.le_add_right _ _)

/-- Every layer has a column for each of its experts, after so many growth events. -/
def Headroom (spec : ModelSpec) (g : Nat) : Prop :=
  ∀ l, initial_experts spec l + events_for spec g l ≤ spec.e_max.toNat

theorem events_for_count (hg : g ≤ 2 ^ 64) (l : Nat) : events_for spec g l = g.count (· % spec.n_layers.toNat = l) := by
  induction g with
  | zero => rfl
  | succ g ih => rw [events_for_succ, ih (Nat.le_of_succ_le hg), Nat.count_succ, layer_at_eq hg]

/-- Growth goes around the layers, and the first layer has the most of it. -/
theorem headroom_iff (hn : 0 < spec.n_layers.toNat) (hg : g ≤ 2 ^ 64) :
    Headroom spec g ↔
      spec.n_experts_initial.toNat + (g / spec.n_layers.toNat + if 0 < g % spec.n_layers.toNat then 1 else 0) ≤
        spec.e_max.toNat := by
  have hevents {l : Nat} (hl : l < spec.n_layers.toNat) : events_for spec g l =
      g / spec.n_layers.toNat + if l < g % spec.n_layers.toNat then 1 else 0 := by
    have hcount := Nat.count_modEq_card g hn l
    rw [Nat.mod_eq_of_lt hl] at hcount
    rw [events_for_count hg, ← hcount]
    congr 1
    ext j
    rw [Nat.ModEq, Nat.mod_eq_of_lt hl]
  have hfirst : initial_experts spec 0 = spec.n_experts_initial.toNat := if_pos hn
  constructor
  · intro h
    rw [← hfirst, ← hevents hn]
    exact h 0
  · intro h l
    by_cases hl : l < spec.n_layers.toNat
    · rw [initial_experts, if_pos hl, hevents hl]
      refine (Nat.add_le_add_left (Nat.add_le_add_left ?_ _) _).trans h
      split_ifs <;> omega
    · have hnone : events_for spec g l = 0 := by
        refine List.countP_eq_zero.mpr fun j _ hj => hl ?_
        exact of_decide_eq_true hj ▸ layer_at_lt hn j
      rw [initial_experts, if_neg hl, hnone]
      exact Nat.zero_le _

/-! ## Whole runs -/

/-- No layer has more experts than the router has columns. -/
def WithinRouter (spec : ModelSpec) (s : ModelState) : Prop := ∀ l : Nat, expert_count s.pages l ≤ spec.e_max.toNat

/-- The assertion of `add_expert` holds for what the block activates. -/
def Addable (params : GenesisParams) (s : ModelState) (height : Nat) (i : FoldInput) : Prop :=
  ∀ a ∈ (fold_at params s height i).2, a.expert < params.spec.e_max.toNat

/-- How many blocks of the run close a window in which growth is due. -/
def growths (params : GenesisParams) (ins : List FoldInput) : Nat :=
  (List.range ins.length).countP fun n => Closes params (n + 1) ∧ due (folds params (ins.take n)) ≠ []

theorem growths_snoc (ins : List FoldInput) (i : FoldInput) :
    growths params (ins ++ [i]) =
      growths params ins + if Closes params (ins.length + 1) ∧ due (folds params ins) ≠ [] then 1 else 0 := by
  have hsame : (List.range ins.length).countP (fun n => Closes params (n + 1) ∧ due (folds params ((ins ++ [i]).take n)) ≠ []) =
      growths params ins := by
    refine List.countP_congr fun n hn => ?_
    rw [List.take_append_of_le_length (List.mem_range.mp hn).le]
  unfold growths at hsame ⊢
  rw [List.length_append, List.length_singleton, List.range_succ, List.countP_append, hsame, List.countP_singleton,
    List.take_left]
  simp

theorem growths_mono {pre ins : List FoldInput} (h : pre <+: ins) : growths params pre ≤ growths params ins := by
  obtain ⟨more, rfl⟩ := h
  induction more using List.reverseRecOn with
  | nil => rw [List.append_nil]
  | append_singleton more i ih =>
    rw [← List.append_assoc, growths_snoc]
    exact ih.trans (Nat.le_add_right _ _)

/-- Each growth event of the run appends one page. -/
theorem grown_folds (ins : List FoldInput) : Grown params.spec (growths params ins) (folds params ins) := by
  induction ins using List.reverseRecOn with
  | nil => exact grown_genesis params.spec
  | append_singleton ins i ih =>
    have hfolded : Folded params (folds params (ins ++ [i])) := folds_folded _
    obtain ⟨g, hg⟩ := hfolded.grown
    have hlen := hg.length
    rw [folds_snoc, fold_length (folds_folded ins), ih.length, Nat.add_assoc, ← growths_snoc] at hlen
    rwa [← Nat.add_left_cancel hlen] at hg

/-- Along a run no layer outgrows the router and no assertion of `add_expert` fails, if and only if every layer has a
column for each of its first experts and of the run's growth events that are its turn. -/
theorem growth_within_router_iff (params : GenesisParams) (ins : List FoldInput) :
    ((∀ pre, pre <+: ins → WithinRouter params.spec (folds params pre)) ∧
      ∀ pre i, pre ++ [i] <+: ins → Addable params (folds params pre) (pre.length + 1) i) ↔
    Headroom params.spec (growths params ins) := by
  constructor
  · rintro ⟨hwithin, -⟩ l
    rw [← expert_count_grown (grown_folds ins)]
    exact hwithin ins List.prefix_rfl l
  · intro hroom
    have hwithin (pre : List FoldInput) (hpre : pre <+: ins) : WithinRouter params.spec (folds params pre) := by
      intro l
      rw [expert_count_grown (grown_folds pre)]
      exact (Nat.add_le_add_left (events_for_mono (growths_mono hpre) l) _).trans (hroom l)
    refine ⟨hwithin, fun pre i hpre a ha => ?_⟩
    rcases fold_experts (folds_folded pre) (pre.length + 1) i with
      ⟨-, hnone, -⟩ | ⟨-, pg, l, a', -, -, hone, -, hexpert, hcount⟩
    · rw [hnone] at ha
      cases ha
    · rw [hone, List.mem_singleton] at ha
      have hafter := hwithin (pre ++ [i]) hpre l
      rw [folds_snoc, hcount, if_pos rfl] at hafter
      rw [ha, hexpert]
      exact_mod_cast hafter

end

/-! ## A router with one column -/

namespace OneColumn

def spec : ModelSpec := { n_layers := 1, d_model := 1, d_ff := 1, n_experts_initial := 1, e_max := 1, backbone_params := 1 }

def params : GenesisParams := { spec }

def busy : FoldInput := { n_txs := 64, zero_scored := 0, prev_hash := "a", score_sum := 0, proposer := "p" }

end OneColumn

example : growths OneColumn.params (List.replicate 80 OneColumn.busy) = 1 := by decide +kernel

/-- Five busy windows, and the layer has two experts. -/
theorem router_exceeded : ¬ WithinRouter OneColumn.spec (folds OneColumn.params (List.replicate 80 OneColumn.busy)) := by
  intro h
  have hcount : expert_count (folds OneColumn.params (List.replicate 80 OneColumn.busy)).pages (0 : Nat) = 2 := by decide +kernel
  have hlayer := h 0
  rw [hcount] at hlayer
  exact absurd hlayer (by decide)

end Sestrian.capacity
