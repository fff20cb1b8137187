import Sestrian.Client.Growth

/-!
# The trainer's pages against the chain's

The node tells the trainer how many experts each layer has. The trainer lays them out layer by
layer, the chain in the order of creation.
-/

namespace Sestrian.client

/-! ## The page table -/

/-- A page without its status. -/
def shape (p : Page) : (Nat × Nat) × PageKind × Int × Int := ((p.start, p.stop), p.kind, p.layer, p.expert)

def backbone_page (spec : ModelSpec) : Page :=
  { start := 0, stop := spec.backbone_params.toNat, kind := .backbone, layer := -1, expert := -1, status := .active }

/-- The table whose expert pages have these keys. -/
def table (spec : ModelSpec) (ks : List (Nat × Nat)) : List Page :=
  backbone_page spec :: genesis_experts spec spec.backbone_params.toNat ks

theorem genesis_experts_append (spec : ModelSpec) (off : Nat) (ks : List (Nat × Nat)) (k : Nat × Nat) :
    genesis_experts spec off (ks ++ [k]) = genesis_experts spec off ks ++
      [{ start := off + ks.length * spec.expert_page_len
         stop := off + ks.length * spec.expert_page_len + spec.expert_page_len
         kind := .expert, layer := k.1, expert := k.2, status := .active }] := by
  induction ks generalizing off with
  | nil => simp [genesis_experts]
  | cons k' ks ih =>
    rw [List.cons_append, genesis_experts, ih, genesis_experts, List.length_cons, Nat.succ_mul]
    simp only [List.cons_append]
    congr 4 <;> omega

theorem table_last (spec : ModelSpec) (ks : List (Nat × Nat)) :
    ((table spec ks).getLast?.map (·.stop)).getD 0 = spec.backbone_params.toNat + ks.length * spec.expert_page_len := by
  induction ks using List.reverseRecOn with
  | nil => simp [table, genesis_experts, backbone_page]
  | append_singleton ks k _ =>
    rw [table, genesis_experts_append, ← List.cons_append, List.getLast?_concat, List.length_append,
      List.length_singleton, Nat.succ_mul]
    simp only [Option.map_some, Option.getD_some]
    omega

theorem experts_of_layer (spec : ModelSpec) (off l : Nat) (ks : List (Nat × Nat)) :
    ((genesis_experts spec off ks).filter fun p => p.kind = .expert ∧ p.layer = (l : Int)).map (·.expert) =
      (in_layer l ks).map fun k => (k.2 : Int) := by
  induction ks generalizing off with
  | nil => rfl
  | cons k ks ih =>
    rw [genesis_experts]
    by_cases h : k.1 = l
    · simp [in_layer, h] at ih ⊢
      exact ih _
    · simp [in_layer, h] at ih ⊢
      exact ih _

theorem table_experts (spec : ModelSpec) (l : Nat) (ks : List (Nat × Nat)) :
    ((table spec ks).filter fun p => p.kind = .expert ∧ p.layer = (l : Int)).map (·.expert) =
      (in_layer l ks).map fun k => (k.2 : Int) := by
  rw [table, List.filter_cons_of_neg (by simp [backbone_page])]
  exact experts_of_layer ..

theorem foldl_max_range (n : Nat) : ((List.range n).map fun e : Nat => (e : Int)).foldl max (-1) = (n : Int) - 1 := by
  induction n with
  | zero => rfl
  | succ n ih =>
    rw [List.range_succ, List.map_append, List.foldl_append, ih]
    simp only [List.map_cons, List.map_nil, List.foldl_cons, List.foldl_nil]
    omega

/-! ## The table along the folds -/

/-- What of a page the shape tells. -/
theorem filter_shape {ps qs : List Page} (h : ps.map shape = qs.map shape) (l : Int) :
    (ps.filter fun p => p.kind = .expert ∧ p.layer = l).map (·.expert) =
      (qs.filter fun p => p.kind = .expert ∧ p.layer = l).map (·.expert) := by
  have hvia (ps : List Page) : (ps.filter fun p => p.kind = .expert ∧ p.layer = l).map (·.expert) =
      ((ps.map shape).filter fun s => s.2.1 = .expert ∧ s.2.2.1 = l).map (·.2.2.2) := by
    rw [List.filter_map, List.map_map]
    rfl
  rw [hvia, hvia, h]

theorem last_shape {ps qs : List Page} (h : ps.map shape = qs.map shape) :
    (ps.getLast?.map (·.stop)).getD 0 = (qs.getLast?.map (·.stop)).getD 0 := by
  have hvia (ps : List Page) : ps.getLast?.map (·.stop) = (ps.map shape).getLast?.map (·.1.2) := by
    rw [List.getLast?_map, Option.map_map]
    rfl
  rw [hvia, hvia, h]

theorem shape_set_status (pages : List Page) (i : Nat) (st : PageStatus) :
    (set_status pages i st).map shape = pages.map shape := by
  apply List.ext_getElem?
  intro j
  simp only [set_status, List.getElem?_map, List.getElem?_modify]
  split <;> cases pages[j]? <;> rfl

/-- The table after `g` growth events, with at most one more announced. -/
structure Grown (spec : ModelSpec) (g : Nat) (s : ModelState) : Prop where
  pages : s.pages.map shape = (table spec (grown_keys spec g)).map shape
  pending : (s.pending_growth = [] ∧ s.events_total = UInt64.ofNat g) ∨
    ∃ w trigger, s.pending_growth = [⟨w, layer_at spec g, trigger⟩] ∧ s.events_total = UInt64.ofNat (g + 1)

theorem grown_genesis (spec : ModelSpec) : Grown spec 0 (ModelState.genesis spec) := by
  refine ⟨?_, .inl ⟨rfl, rfl⟩⟩
  unfold grown_keys
  rw [genesis_keys]
  rfl

theorem activate_shape {spec : ModelSpec} {g : Nat} {pages : List Page}
    (h : pages.map shape = (table spec (grown_keys spec g)).map shape) (w : UInt64) (trigger : String) :
    (activate spec pages ⟨w, layer_at spec g, trigger⟩).1.map shape = (table spec (grown_keys spec (g + 1))).map shape := by
  have hexpert : ((pages.filter fun p => p.kind = .expert ∧ p.layer = (layer_at spec g : Int)).map (·.expert)).foldl
      max (-1) + 1 = ((in_layer (layer_at spec g) (grown_keys spec g)).length : Int) := by
    rw [filter_shape h, table_experts, in_layer_grown, List.map_map, List.length_map, List.length_range]
    have := foldl_max_range (in_layer (layer_at spec g) (grown_keys spec g)).length
    simp only [Function.comp_def]
    omega
  have hstart := (last_shape h).trans (table_last spec (grown_keys spec g))
  simp only [activate, List.map_append, h, hexpert, hstart]
  rw [grown_keys, table, table, genesis_experts_append]
  simp [shape]

theorem Grown.frozen {spec : ModelSpec} {g : Nat} {s : ModelState} (h : Grown spec g s) (c : Prop) [Decidable c] (i : Nat) :
    Grown spec g (if c then { s with pages := set_status s.pages i .frozen, slack_streak := 0 } else s) := by
  split
  · exact ⟨(shape_set_status ..).trans h.pages, h.pending⟩
  · exact h

theorem Grown.apply_decision {params : GenesisParams} {g : Nat} {s : ModelState} (h : Grown params.spec g s)
    (prev_hash : String) (d : Decision) : Grown params.spec g (apply_decision params prev_hash d s) := by
  unfold Sestrian.apply_decision
  refine Grown.frozen ?_ _ _
  split
  · exact ⟨(shape_set_status ..).trans h.pages, h.pending⟩
  · split
    · rename_i hsched
      obtain ⟨-, hnone⟩ := hsched
      have hnone : s.pending_growth = [] := hnone
      have htotal : s.events_total = UInt64.ofNat g := by
        rcases h.pending with ⟨-, ht⟩ | ⟨w, tr, hp, -⟩
        · exact ht
        · rw [hp] at hnone
          cases hnone
      refine ⟨h.pages, .inr ⟨s.window_id + params.announce_lead, prev_hash, ?_, ?_⟩⟩
      · simp only [hnone, htotal, List.nil_append]
        rfl
      · simp only [htotal, UInt64.ofNat_add]
        rfl
    · exact ⟨h.pages, h.pending⟩

theorem Grown.fold_window {params : GenesisParams} {g : Nat} {s : ModelState} (h : Grown params.spec g s)
    (prev_hash : String) : ∃ g', Grown params.spec g' (fold_window params prev_hash s).1 := by
  unfold Sestrian.fold_window
  simp only
  rcases h.pending with ⟨hnone, htotal⟩ | ⟨w, trigger, hone, htotal⟩
  · refine ⟨g, ?_⟩
    have hg : Grown params.spec g { s with window_id := s.window_id + 1, pending_growth := [], pages := s.pages } :=
      ⟨h.pages, .inl ⟨rfl, htotal⟩⟩
    have hd := hg.apply_decision prev_hash (retarget_decide s.quota_4dp s.pinned_streak s.slack_streak
      (Int64.ofNat s.win_accepted.toNat) (window_staleness params s) params.quota_min_4dp params.quota_max_4dp
      params.target_deltas DAMP_DIV params.stale_ceiling_4dp params.k_sustain)
    simp only [hnone, List.filter_nil, activate_all]
    exact ⟨hd.pages, hd.pending⟩
  · simp only [hone, List.filter_cons, List.filter_nil]
    by_cases hdue : w ≤ s.window_id + 1
    · refine ⟨g + 1, ?_⟩
      simp only [hdue, decide_true, if_true, not_true_eq_false, decide_false, Bool.false_eq_true, if_false, activate_all]
      have hg : Grown params.spec (g + 1) { s with
          window_id := s.window_id + 1
          pending_growth := []
          pages := (activate params.spec s.pages ⟨w, layer_at params.spec g, trigger⟩).1 } :=
        ⟨activate_shape h.pages w trigger, .inl ⟨rfl, htotal⟩⟩
      have hd := hg.apply_decision prev_hash
      exact ⟨(hd _).pages, (hd _).pending⟩
    · refine ⟨g, ?_⟩
      simp only [hdue, decide_false, Bool.false_eq_true, if_false, not_false_eq_true, decide_true, if_true, activate_all]
      have hg : Grown params.spec g { s with
          window_id := s.window_id + 1
          pending_growth := [⟨w, layer_at params.spec g, trigger⟩]
          pages := s.pages } := ⟨h.pages, .inr ⟨w, trigger, rfl, htotal⟩⟩
      have hd := hg.apply_decision prev_hash
      exact ⟨(hd _).pages, (hd _).pending⟩

theorem Folded.grown {params : GenesisParams} {s : ModelState} (h : Folded params s) : ∃ g, Grown params.spec g s := by
  induction h with
  | genesis => exact ⟨0, grown_genesis params.spec⟩
  | fold _ height n_txs zero_scored prev_hash score_sum proposer ih =>
    obtain ⟨g, hg⟩ := ih
    rename_i s _
    have hc : Grown params.spec g (fold_counters s params height n_txs zero_scored score_sum proposer) :=
      ⟨hg.pages, hg.pending⟩
    unfold Sestrian.fold
    simp only
    split
    · exact hc.fold_window prev_hash
    · exact ⟨g, hc⟩

/-! ## The trainer against the chain -/

/-- The trainer's configuration is the one the genesis parameters were made from. -/
structure Corresponds (cfg : MoEGPTConfig) (spec : ModelSpec) : Prop where
  n_layers : cfg.n_layer = spec.n_layers.toNat
  d_model : cfg.n_embd = spec.d_model.toNat
  d_ff : cfg.d_ff = spec.d_ff.toNat
  n_experts : cfg.n_experts = spec.n_experts_initial.toNat
  e_max : cfg.e_max = spec.e_max.toNat
  backbone : (ChainLayout.of ⟨cfg, List.replicate cfg.n_layer cfg.n_experts⟩).backbone_params =
    spec.backbone_params.toNat
  attn : cfg.attn_ok
  /-- The elements of a tensor are counted in 64 bits. -/
  fits : cfg.expert_page_len < 2 ^ 64

/-- The span, layer and expert of each of the trainer's pages. -/
def layout_pages (layout : ChainLayout) : List ((Nat × Nat) × Int × Int) :=
  layout.page_spans.zip ((-1, -1) :: layout.experts.map fun k => ((k.1 : Int), (k.2 : Int)))

def chain_pages (s : ModelState) : List ((Nat × Nat) × Int × Int) :=
  s.pages.map fun p => ((p.start, p.stop), p.layer, p.expert)

/-- The trainer can be built, its page `k` is the chain's page `k`, a delta of an expert lands on
that expert's page, and loading the chain state puts each page into its own expert. -/
def InPlace (cfg : MoEGPTConfig) (spec : ModelSpec) (s : ModelState) : Prop :=
  ∃ model, build_moe cfg (experts_per_layer s spec.n_layers) = some model ∧
    (∀ k : Nat, (layout_pages (ChainLayout.of model))[k]? = (chain_pages s)[k]?) ∧
    ∀ p ∈ s.pages, p.kind = .expert → ∃ l e : Nat, p.layer = l ∧ p.expert = e ∧
      (∀ torch_vec, slice ((ChainLayout.of model).chain_of torch_vec) p.start p.stop =
        expert_params model torch_vec (l, e)) ∧
      ∀ chain_vec, chain_vec.length = (ChainLayout.of model).n →
        expert_params model ((ChainLayout.of model).torch_of chain_vec) (l, e) = slice chain_vec p.start p.stop

/-- How many pages growth has added. -/
def grown (spec : ModelSpec) (s : ModelState) : Nat :=
  s.pages.length - (1 + spec.n_layers.toNat * spec.n_experts_initial.toNat)

theorem Corresponds.page_len {cfg : MoEGPTConfig} {spec : ModelSpec} (h : Corresponds cfg spec) :
    cfg.expert_page_len = spec.expert_page_len := by
  have hfits := h.fits
  unfold MoEGPTConfig.expert_page_len at hfits ⊢
  rw [h.d_model, h.d_ff] at hfits ⊢
  rw [ModelSpec.expert_page_len, UInt64.toNat_add, UInt64.toNat_add, UInt64.toNat_add, UInt64.toNat_mul,
    UInt64.toNat_mul, ← Nat.mod_eq_of_lt hfits]
  simp only [Nat.mod_add_mod, Nat.add_mod_mod]

theorem length_grown_keys (spec : ModelSpec) (g : Nat) :
    (grown_keys spec g).length = spec.n_layers.toNat * spec.n_experts_initial.toNat + g := by
  have := congrArg List.length (grown_layers spec g)
  simpa [grown_keys, genesis_keys, List.length_flatMap] using this

theorem Grown.length {spec : ModelSpec} {g : Nat} {s : ModelState} (h : Grown spec g s) :
    s.pages.length = 1 + spec.n_layers.toNat * spec.n_experts_initial.toNat + g := by
  have hlen : s.pages.length = 1 + (grown_keys spec g).length := by
    have := congrArg List.length h.pages
    rw [List.length_map, List.length_map, table, List.length_cons] at this
    have hexperts (off : Nat) (ks : List (Nat × Nat)) : (genesis_experts spec off ks).length = ks.length := by
      induction ks generalizing off with
      | nil => rfl
      | cons k ks ih => simp [genesis_experts, ih]
    rw [hexperts] at this
    omega
  rw [hlen, length_grown_keys]
  omega

theorem Grown.grown_eq {spec : ModelSpec} {g : Nat} {s : ModelState} (h : Grown spec g s) : grown spec s = g := by
  rw [grown, h.length, Nat.add_sub_cancel_left]

theorem Grown.counts {spec : ModelSpec} {g : Nat} {s : ModelState} (h : Grown spec g s) :
    experts_per_layer s spec.n_layers = grown_counts spec g := by
  unfold experts_per_layer grown_counts
  refine List.map_congr_left fun l _ => ?_
  have := congrArg List.length ((filter_shape h.pages l).trans (table_experts spec l (grown_keys spec g)))
  simpa using this

theorem Grown.chain_pages {spec : ModelSpec} {g : Nat} {s : ModelState} (h : Grown spec g s) : chain_pages s =
    ((0, spec.backbone_params.toNat), -1, -1) ::
      (spans_of spec.expert_page_len spec.backbone_params.toNat (grown_keys spec g)).zip
        ((grown_keys spec g).map fun k => ((k.1 : Int), (k.2 : Int))) := by
  have hvia : client.chain_pages s = (s.pages.map shape).map fun x => (x.1, x.2.2) := by
    rw [List.map_map]
    rfl
  have hexperts (off : Nat) (ks : List (Nat × Nat)) :
      ((genesis_experts spec off ks).map shape).map (fun x => (x.1, x.2.2)) =
        (spans_of spec.expert_page_len off ks).zip (ks.map fun k => ((k.1 : Int), (k.2 : Int))) := by
    induction ks generalizing off with
    | nil => rfl
    | cons k ks ih =>
      rw [genesis_experts, List.map_cons, List.map_cons, ih, spans_of, List.map_cons, List.zip_cons_cons]
      rfl
  rw [hvia, h.pages, table, List.map_cons, List.map_cons, hexperts]
  rfl

theorem layout_pages_eq {cfg : MoEGPTConfig} {spec : ModelSpec} (hc : Corresponds cfg spec) {model : MoEGPT}
    (hcfg : model.cfg = cfg) (hlen : model.experts_per_layer.length = cfg.n_layer) :
    layout_pages (ChainLayout.of model) = ((0, spec.backbone_params.toNat), -1, -1) ::
      (spans_of spec.expert_page_len spec.backbone_params.toNat (keys_of model.experts_per_layer)).zip
        ((keys_of model.experts_per_layer).map fun k => ((k.1 : Int), (k.2 : Int))) := by
  have hback : (ChainLayout.of model).backbone_params = spec.backbone_params.toNat := by
    rw [← hc.backbone]
    exact layout_backbone_congr hcfg (by simp [hlen])
  have hspans : (ChainLayout.of model).page_spans = (0, (ChainLayout.of model).backbone_params) ::
      spans_of model.cfg.expert_page_len (ChainLayout.of model).backbone_params (ChainLayout.of model).experts := rfl
  rw [layout_pages, hspans, layout_experts, hback, hcfg, hc.page_len, List.zip_cons_cons]

theorem length_spans_of (len pos : Nat) (ks : List (Nat × Nat)) : (spans_of len pos ks).length = ks.length := by
  induction ks generalizing pos with
  | nil => rfl
  | cons k ks ih => simp [spans_of, ih]

/-- The keys can be read off the pages. -/
theorem keys_of_pages {len pos : Nat} {ks ks' : List (Nat × Nat)}
    (h : (spans_of len pos ks).zip (ks.map fun k => ((k.1 : Int), (k.2 : Int))) =
      (spans_of len pos ks').zip (ks'.map fun k => ((k.1 : Int), (k.2 : Int)))) : ks = ks' := by
  have hsnd := congrArg (List.map Prod.snd) h
  rw [List.map_snd_zip (by simp [length_spans_of]), List.map_snd_zip (by simp [length_spans_of])] at hsnd
  refine List.map_injective_iff.mpr ?_ hsnd
  intro a b hab
  simp only [Prod.mk.injEq, Nat.cast_inj] at hab
  exact Prod.ext hab.1 hab.2

theorem build_iff {cfg : MoEGPTConfig} {spec : ModelSpec} (hc : Corresponds cfg spec) (s : ModelState) (model : MoEGPT) :
    build_moe cfg (experts_per_layer s spec.n_layers) = some model ↔
      (∀ c ∈ experts_per_layer s spec.n_layers, 0 < c ∧ c ≤ cfg.e_max) ∧
        model = ⟨cfg, experts_per_layer s spec.n_layers⟩ := by
  have hlen : (experts_per_layer s spec.n_layers).length = cfg.n_layer := by simp [experts_per_layer, hc.n_layers]
  unfold build_moe
  split
  · rename_i h
    rw [Option.some.injEq, eq_comm]
    exact ⟨fun he => ⟨h.2.1, he⟩, And.right⟩
  · rename_i h
    have : ¬ ∀ c ∈ experts_per_layer s spec.n_layers, 0 < c ∧ c ≤ cfg.e_max := fun hall => h ⟨hlen, hall, .inr hc.attn⟩
    simp only [reduceCtorEq, this, false_and]

/-- Where the pages agree, each expert is where the chain has it. -/
theorem experts_in_place {spec : ModelSpec} {g : Nat} {s : ModelState} (hg : Grown spec g s) {model : MoEGPT}
    (hpages : layout_pages (ChainLayout.of model) = chain_pages s) {p : Page} (hp : p ∈ s.pages) (hkind : p.kind = .expert) :
    ∃ l e : Nat, p.layer = l ∧ p.expert = e ∧
      (∀ torch_vec, slice ((ChainLayout.of model).chain_of torch_vec) p.start p.stop =
        expert_params model torch_vec (l, e)) ∧
      ∀ chain_vec, chain_vec.length = (ChainLayout.of model).n →
        expert_params model ((ChainLayout.of model).torch_of chain_vec) (l, e) = slice chain_vec p.start p.stop := by
  obtain ⟨k, hk⟩ := List.mem_iff_getElem?.mp hp
  cases k with
  | zero =>
    -- page 0 is the backbone
    have h0 : (s.pages.map shape)[0]? = some (shape p) := by rw [List.getElem?_map, hk]; rfl
    rw [hg.pages, table, List.map_cons, List.getElem?_cons_zero, Option.some.injEq] at h0
    have : p.kind = .backbone := (congrArg (·.2.1) h0).symm
    rw [hkind] at this
    cases this
  | succ i =>
    have hrow : (layout_pages (ChainLayout.of model))[i + 1]? = some ((p.start, p.stop), p.layer, p.expert) := by
      rw [hpages, chain_pages, List.getElem?_map, hk]
      rfl
    rw [layout_pages, List.getElem?_zip_eq_some] at hrow
    obtain ⟨hspan, hkey⟩ := hrow
    rw [List.getElem?_cons_succ, List.getElem?_map, Option.map_eq_some_iff] at hkey
    obtain ⟨⟨l, e⟩, hkey, he⟩ := hkey
    rw [Prod.mk.injEq] at he
    exact ⟨l, e, he.1.symm, he.2.symm, fun v => chain_of_page hkey v hspan, fun v hv => torch_of_page hkey hv hspan⟩

/-- The trainer's pages are the chain's if and only if the trainer can hold the experts and growth
has not broken the layer order. -/
theorem in_place_iff {cfg : MoEGPTConfig} {params : GenesisParams} (hc : Corresponds cfg params.spec) {s : ModelState}
    (hs : Folded params s) : InPlace cfg params.spec s ↔
      (∀ c ∈ experts_per_layer s params.spec.n_layers, 0 < c ∧ c ≤ cfg.e_max) ∧
        InOrder params.spec (grown params.spec s) := by
  obtain ⟨g, hg⟩ := hs.grown
  have hlen : (experts_per_layer s params.spec.n_layers).length = cfg.n_layer := by
    simp [experts_per_layer, hc.n_layers]
  have hrows := @layout_pages_eq cfg params.spec hc ⟨cfg, experts_per_layer s params.spec.n_layers⟩ rfl hlen
  rw [hg.counts] at hrows
  rw [hg.grown_eq, ← keys_agree_iff]
  constructor
  · rintro ⟨model, hbuild, hpages, -⟩
    obtain ⟨hcounts, rfl⟩ := (build_iff hc s model).mp hbuild
    have hsame := List.ext_getElem? hpages
    rw [hg.counts, hrows, hg.chain_pages, List.cons.injEq] at hsame
    exact ⟨hcounts, keys_of_pages hsame.2⟩
  · rintro ⟨hcounts, hkeys⟩
    have hsame : layout_pages (ChainLayout.of ⟨cfg, experts_per_layer s params.spec.n_layers⟩) = chain_pages s := by
      rw [hg.counts, hrows, hg.chain_pages, hkeys]
    exact ⟨_, (build_iff hc s _).mpr ⟨hcounts, rfl⟩, fun k => by rw [hsame],
      fun p hp hkind => experts_in_place hg hsame hp hkind⟩

/-! ## A small trainer -/

namespace Small

def cfg : MoEGPTConfig := { vocab_size := 1, n_layer := 2, n_head := 1, n_embd := 2, n_experts := 1, e_max := 2 }

def spec : ModelSpec := { n_layers := 2, d_model := 2, d_ff := 8, n_experts_initial := 1, e_max := 2, backbone_params := 80 }

/-- Every block closes a window, and one busy window is enough for a growth event. -/
def params : GenesisParams :=
  { spec, retarget_window := 1, target_deltas := 1, quota_min_4dp := 10000, quota_max_4dp := 10000, k_sustain := 1,
    announce_lead := 1 }

theorem corresponds : Corresponds cfg spec where
  n_layers := rfl
  d_model := rfl
  d_ff := rfl
  n_experts := rfl
  e_max := rfl
  backbone := by decide
  attn := rfl
  fits := by decide

/-- One busy block, which announces the growth, and one more, which adds the page. -/
def once_grown : ModelState := (fold (fold (ModelState.genesis spec) params 1 1 0 "a" 0 "").1 params 2 0 0 "b" 0 "").1

theorem once_grown_folded : Folded params once_grown := .fold (.fold .genesis 1 1 0 "a" 0 "") 2 0 0 "b" 0 ""

def flat_cfg : MoEGPTConfig := { cfg with n_layer := 1 }

def flat_spec : ModelSpec := { spec with n_layers := 1, backbone_params := 44 }

def flat_params : GenesisParams := { params with spec := flat_spec }

theorem flat_corresponds : Corresponds flat_cfg flat_spec where
  n_layers := rfl
  d_model := rfl
  d_ff := rfl
  n_experts := rfl
  e_max := rfl
  backbone := by decide
  attn := rfl
  fits := by decide

/-- The same two blocks. -/
def flat_grown : ModelState := (fold (fold (ModelState.genesis flat_spec) flat_params 1 1 0 "a" 0 "").1 flat_params 2 0 0 "b" 0 "").1

theorem flat_folded : Folded flat_params flat_grown := .fold (.fold .genesis 1 1 0 "a" 0 "") 2 0 0 "b" 0 ""

end Small

/-- With one layer, growth appends to it. -/
theorem in_place_one_layer : Small.flat_grown.pages.length = 3 ∧ InPlace Small.flat_cfg Small.flat_spec Small.flat_grown :=
  ⟨by decide, (@in_place_iff Small.flat_cfg Small.flat_params Small.flat_corresponds _ Small.flat_folded).mpr (by decide)⟩

/-- The chain's third page is the first of layer 1, the trainer's third page the second of layer 0. -/
theorem growth_moves_pages : Folded Small.params Small.once_grown ∧
    ¬ InPlace Small.cfg Small.params.spec Small.once_grown := by
  refine ⟨Small.once_grown_folded, ?_⟩
  rintro ⟨model, hbuild, hpages, -⟩
  have hmodel : model = ⟨Small.cfg, [2, 1]⟩ := (Option.some.inj hbuild).symm
  have hthird := hpages 2
  rw [hmodel, layout_pages, layout_experts] at hthird
  revert hthird
  decide

end Sestrian.client
