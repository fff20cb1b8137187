import Sestrian.Code.Client
import Sestrian.Lib.Patch

/-!
# What the trainer's layout is

The experts stand in the order of their keys, each on a page of its own, and the two
conversions move every expert to its page and back.
-/

namespace Sestrian.client

/-! ## Runs -/

/-- A list splits into the parts that the keys pick out. -/
theorem perm_by_key {α κ : Type} [DecidableEq κ] (f : α → κ) {ks : List κ} (hn : ks.Nodup) {xs : List α}
    (hk : ∀ x ∈ xs, f x ∈ ks) : (ks.flatMap fun k => xs.filter (f · = k)).Perm xs := by
  induction ks generalizing xs with
  | nil =>
    have : xs = [] := List.eq_nil_iff_forall_not_mem.mpr fun x hx => by simpa using hk x hx
    simp [this]
  | cons k ks ih =>
    obtain ⟨hk', hn⟩ := List.nodup_cons.mp hn
    have hleft : ∀ x ∈ xs.filter (¬ f · = k), f x ∈ ks := by
      intro x hx
      obtain ⟨hx, hne⟩ := List.mem_filter.mp hx
      exact (List.mem_cons.mp (hk x hx)).resolve_left (by simpa using hne)
    have hrest := ih hn hleft
    have hsame : (ks.flatMap fun k' => (xs.filter (¬ f · = k)).filter (f · = k')) =
        ks.flatMap fun k' => xs.filter (f · = k') := by
      refine List.flatMap_congr fun k' hk'' => ?_
      rw [List.filter_filter]
      refine List.filter_congr fun x _ => ?_
      by_cases h : f x = k'
      · have : k' ≠ k := fun he => hk' (he ▸ hk'')
        simp [h, this]
      · simp [h]
    rw [List.flatMap_cons, ← hsame]
    refine (hrest.append_left _).trans ?_
    simpa using List.filter_append_perm (fun x => decide (f x = k)) xs

theorem offs_coords (i : Nat) (ps : List Param) :
    (offs i ps).flatMap Run.coords = List.range' i (ps.map (·.numel)).sum := by
  induction ps generalizing i with
  | nil => rfl
  | cons p ps ih =>
    rw [offs, List.flatMap_cons, ih, List.map_cons, List.sum_cons]
    simp only [Run.coords, Nat.add_sub_cancel_left]
    exact List.range'_append_1 ..

theorem offs_keys (i : Nat) (ps : List Param) : (offs i ps).map (·.key) = ps.map (expert_key ·.name) := by
  induction ps generalizing i with
  | nil => rfl
  | cons p ps ih => simp [offs, ih]

/-- The coordinates of the parameters with one key, counted. -/
theorem length_key_coords (i : Nat) (ps : List Param) (k : Option (Nat × Nat)) :
    (((offs i ps).filter (·.key = k)).flatMap Run.coords).length =
      ((ps.filter (expert_key ·.name = k)).map (·.numel)).sum := by
  induction ps generalizing i with
  | nil => rfl
  | cons p ps ih =>
    by_cases h : expert_key p.name = k
    · simp [offs, h, ih, Run.coords]
    · simp [offs, h, ih]

theorem sum_lengths (runs : List Run) : (runs.map fun r => r.stop - r.start).sum = (runs.flatMap Run.coords).length := by
  induction runs with
  | nil => rfl
  | cons r rs ih =>
    rw [List.map_cons, List.sum_cons, ih, List.flatMap_cons, List.length_append, Run.coords, List.length_range']

theorem mem_sorted_keys {runs : List Run} {k : Nat × Nat} : k ∈ sorted_keys runs ↔ some k ∈ runs.map (·.key) := by
  unfold sorted_keys
  rw [(List.perm_insertionSort _ _).mem_iff, List.mem_dedup]
  simp

theorem sorted_keys_nodup (runs : List Run) : (sorted_keys runs).Nodup :=
  (List.perm_insertionSort key_le _).nodup_iff.mpr (List.nodup_dedup _)

/-- The chain order is a permutation of the flat order. -/
theorem to_chain_perm (model : MoEGPT) : (ChainLayout.of model).to_chain.Perm (List.range model.num_params) := by
  set runs := offs 0 model.named_parameters with hruns
  have hn : (none :: (sorted_keys runs).map some).Nodup := by
    refine List.nodup_cons.mpr ⟨by simp, ?_⟩
    exact (List.nodup_map_iff (Option.some_injective _)).mpr (sorted_keys_nodup runs)
  have hk : ∀ r ∈ runs, r.key ∈ none :: (sorted_keys runs).map some := by
    intro r hr
    cases hkey : r.key with
    | none => exact List.mem_cons_self
    | some k =>
      refine List.mem_cons_of_mem _ (List.mem_map_of_mem (mem_sorted_keys.mpr ?_))
      exact hkey ▸ List.mem_map_of_mem hr
  have hperm := (perm_by_key Run.key hn hk).flatMap_right Run.coords
  rw [hruns, offs_coords, ← hruns, List.flatMap_cons, List.flatMap_append, List.flatMap_map, List.flatMap_assoc,
    ← List.range_eq_range'] at hperm
  exact hperm

theorem length_to_chain (model : MoEGPT) : (ChainLayout.of model).to_chain.length = model.num_params := by
  rw [(to_chain_perm model).length_eq, List.length_range]

/-! ## Scatter inverts gather -/

/-- The place that `idx` sends to `j` holds `j`. -/
theorem get_scatter {n : Nat} {idx : List Nat} (hp : idx.Perm (List.range n)) {j a : Nat} (ha : idx[j]? = some a) :
    (scatter n idx)[a]? = some j := by
  have hlt : a < n := by
    have := hp.mem_iff.mp (List.mem_of_getElem? ha)
    simpa using this
  have hnd : idx.Nodup := hp.nodup_iff.mpr List.nodup_range
  have hd : Patch.Distinct (fun ji : Nat × Nat => ji.1) idx.zipIdx := by
    unfold Patch.Distinct
    rw [← List.pairwise_map (R := fun a b => a ≠ b), List.zipIdx_map_fst]
    exact hnd
  have hmem : (a, j) ∈ idx.zipIdx := List.mem_zipIdx_iff_getElem?.mpr ha
  have hhit := Patch.hit_of_mem hd hmem
  have hset : scatter n idx = Patch.setAll (fun ji : Nat × Nat => ji.1) (·.2) (List.replicate n 0) idx.zipIdx := rfl
  rw [hset, Patch.setAll_eq_modifyAll, Patch.getElem?_modifyAll hd, hhit]
  simp [hlt]

/-! ## The keys of the parameters -/

/-- The keys of a model, in order. -/
def keys_of (epl : List Nat) : List (Nat × Nat) :=
  epl.zipIdx.flatMap fun cl => (List.range cl.1).map fun e => (cl.2, e)

theorem mem_keys_of {epl : List Nat} {k : Nat × Nat} : k ∈ keys_of epl ↔ ∃ c, epl[k.1]? = some c ∧ k.2 < c := by
  unfold keys_of
  simp only [List.mem_flatMap, List.mem_map, List.mem_range, Prod.exists, List.mem_zipIdx_iff_getElem?]
  constructor
  · rintro ⟨c, l, hc, e, he, rfl⟩
    exact ⟨c, hc, he⟩
  · rintro ⟨c, hc, he⟩
    exact ⟨c, k.1, hc, k.2, he, rfl⟩

/-- Whether the parameters of a module have the key `k`, in total size. -/
def keyed (k : Option (Nat × Nat)) (ps : List Param) : Nat :=
  ((ps.filter (expert_key ·.name = k)).map (·.numel)).sum

theorem keyed_append (k : Option (Nat × Nat)) (ps qs : List Param) : keyed k (ps ++ qs) = keyed k ps + keyed k qs := by
  simp [keyed]

theorem keyed_flatMap {α : Type} (k : Option (Nat × Nat)) (f : α → List Param) (xs : List α) :
    keyed k (xs.flatMap f) = (xs.map fun x => keyed k (f x)).sum := by
  induction xs with
  | nil => rfl
  | cons x xs ih => rw [List.flatMap_cons, keyed_append, ih, List.map_cons, List.sum_cons]

theorem expert_keys (cfg : MoEGPTConfig) (l e : Nat) (p : Param)
    (hp : p ∈ Expert cfg [.word "blocks", .num l, .word "moe", .word "experts", .num e]) :
    expert_key p.name = some (l, e) := by
  simp only [Expert, Linear, weight, bias, List.cons_append, List.nil_append, List.mem_cons, List.not_mem_nil, or_false] at hp
  rcases hp with rfl | rfl | rfl | rfl <;>
    simp [expert_key, int_after]

theorem keyed_expert (cfg : MoEGPTConfig) (l e : Nat) (k : Option (Nat × Nat)) :
    keyed k (Expert cfg [.word "blocks", .num l, .word "moe", .word "experts", .num e]) =
      if some (l, e) = k then cfg.expert_page_len else 0 := by
  unfold keyed
  split
  · rename_i h
    rw [List.filter_eq_self.mpr fun p hp => by simpa [expert_keys cfg l e p hp] using h]
    simp only [Expert, Linear, weight, bias, MoEGPTConfig.expert_page_len, List.cons_append, List.nil_append,
      List.map_cons, List.map_nil, List.sum_cons, List.sum_nil]
    ring
  · rename_i h
    rw [List.filter_eq_nil_iff.mpr fun p hp => by simpa [expert_keys cfg l e p hp] using h]
    rfl

/-- The part of a block that does not depend on its experts. -/
def fixed_params (cfg : MoEGPTConfig) (l : Nat) : List Param :=
  LayerNorm [.word "blocks", .num l, .word "ln1"] cfg.n_embd ++
    CausalSelfAttention cfg [.word "blocks", .num l, .word "attn"] ++
    LayerNorm [.word "blocks", .num l, .word "ln2"] cfg.n_embd ++
    [weight [.word "blocks", .num l, .word "moe", .word "router"] (cfg.e_max * cfg.n_embd)]

theorem block_split (cfg : MoEGPTConfig) (l c : Nat) : MoEBlock cfg [.word "blocks", .num l] c =
    fixed_params cfg l ++ (List.range c).flatMap fun e =>
      Expert cfg [.word "blocks", .num l, .word "moe", .word "experts", .num e] := by
  simp [MoEBlock, MoEFeedForward, fixed_params]

theorem fixed_keys {cfg : MoEGPTConfig} {l : Nat} {p : Param} (hp : p ∈ fixed_params cfg l) :
    expert_key p.name = none := by
  simp only [fixed_params, LayerNorm, CausalSelfAttention, Linear, weight, bias, List.cons_append, List.nil_append,
    List.mem_cons, List.not_mem_nil, or_false] at hp
  rcases hp with rfl | rfl | rfl | rfl | rfl | rfl | rfl | rfl | rfl <;> simp [expert_key]

theorem keyed_fixed (cfg : MoEGPTConfig) (l : Nat) (k : Nat × Nat) : keyed (some k) (fixed_params cfg l) = 0 := by
  unfold keyed
  rw [List.filter_eq_nil_iff.mpr fun p hp => by simp [fixed_keys hp]]
  rfl

theorem keyed_block (cfg : MoEGPTConfig) (l c : Nat) (k : Nat × Nat) :
    keyed (some k) (MoEBlock cfg [.word "blocks", .num l] c) =
      ((List.range c).map fun e => (l, e)).count k * cfg.expert_page_len := by
  rw [block_split, keyed_append, keyed_fixed, Nat.zero_add]
  induction c with
  | zero => simp [keyed]
  | succ c ih =>
    rw [List.range_succ, List.flatMap_append, keyed_append, ih, List.flatMap_singleton, keyed_expert,
      List.map_append, List.count_append, Nat.add_mul]
    by_cases h : (l, c) = k <;> simp [h]

theorem keyed_block_none (cfg : MoEGPTConfig) (l c : Nat) :
    keyed none (MoEBlock cfg [.word "blocks", .num l] c) = keyed none (fixed_params cfg l) := by
  rw [block_split, keyed_append, keyed_flatMap]
  simp [keyed_expert]

/-- The parameters outside the blocks. -/
def outer_params (cfg : MoEGPTConfig) : List Param :=
  LayerNorm [.word "lnf"] cfg.n_embd ++ [weight [.word "head"] (cfg.vocab_size * cfg.n_embd)]

def tok_params (cfg : MoEGPTConfig) : List Param := [weight [.word "tok"] (cfg.vocab_size * cfg.n_embd)]

theorem named_split (model : MoEGPT) : model.named_parameters = tok_params model.cfg ++
    (model.experts_per_layer.zipIdx.flatMap fun cl => MoEBlock model.cfg [.word "blocks", .num cl.2] cl.1) ++
    outer_params model.cfg := by
  simp [MoEGPT.named_parameters, tok_params, outer_params]

theorem outside_keys {cfg : MoEGPTConfig} {p : Param} (hp : p ∈ tok_params cfg ∨ p ∈ outer_params cfg) :
    expert_key p.name = none := by
  simp only [tok_params, outer_params, LayerNorm, weight, bias, List.cons_append, List.nil_append, List.mem_cons,
    List.not_mem_nil, or_false] at hp
  rcases hp with rfl | rfl | rfl | rfl <;> simp [expert_key]

theorem keyed_outside (cfg : MoEGPTConfig) (k : Nat × Nat) :
    keyed (some k) (tok_params cfg) = 0 ∧ keyed (some k) (outer_params cfg) = 0 := by
  unfold keyed
  constructor
  · rw [List.filter_eq_nil_iff.mpr fun p hp => by simp [outside_keys (.inl hp)]]
    rfl
  · rw [List.filter_eq_nil_iff.mpr fun p hp => by simp [outside_keys (.inr hp)]]
    rfl

theorem keyed_named (model : MoEGPT) (k : Nat × Nat) : keyed (some k) model.named_parameters =
    (keys_of model.experts_per_layer).count k * model.cfg.expert_page_len := by
  obtain ⟨htok, houter⟩ := keyed_outside model.cfg k
  rw [named_split, keyed_append, keyed_append, htok, houter, keyed_flatMap, keys_of, List.count_flatMap]
  simp only [keyed_block, Nat.zero_add, Nat.add_zero, Function.comp_def]
  rw [List.sum_map_mul_right]

theorem backbone_named (model : MoEGPT) : keyed none model.named_parameters =
    keyed none (tok_params model.cfg) +
      ((List.range model.experts_per_layer.length).map fun l => keyed none (fixed_params model.cfg l)).sum +
      keyed none (outer_params model.cfg) := by
  rw [named_split, keyed_append, keyed_append, keyed_flatMap]
  simp only [keyed_block_none]
  have : model.experts_per_layer.zipIdx.map (fun cl => keyed none (fixed_params model.cfg cl.2)) =
      (model.experts_per_layer.zipIdx.map Prod.snd).map fun l => keyed none (fixed_params model.cfg l) := by
    rw [List.map_map]
    rfl
  rw [this, List.zipIdx_map_snd, ← List.range_eq_range']

/-! ## The order of the experts -/

theorem keys_of_pairwise (epl : List Nat) : (keys_of epl).Pairwise fun a b => key_le a b ∧ a ≠ b := by
  unfold keys_of
  rw [List.pairwise_flatMap]
  constructor
  · rintro ⟨c, l⟩ -
    rw [List.pairwise_map]
    refine List.pairwise_lt_range.imp fun {a b} h => ⟨.inr ⟨rfl, h.le⟩, ?_⟩
    intro he
    exact h.ne (congrArg Prod.snd he)
  · have hidx : (epl.zipIdx.map Prod.snd).Pairwise (· < ·) := by
      rw [List.zipIdx_map_snd, ← List.range_eq_range']
      exact List.pairwise_lt_range
    rw [List.pairwise_map] at hidx
    refine hidx.imp ?_
    rintro ⟨c, l⟩ ⟨c', l'⟩ hlt a ha b hb
    obtain ⟨e, -, rfl⟩ := List.mem_map.mp ha
    obtain ⟨e', -, rfl⟩ := List.mem_map.mp hb
    exact ⟨.inl hlt, fun he => hlt.ne (congrArg Prod.fst he)⟩

theorem keys_of_nodup (epl : List Nat) : (keys_of epl).Nodup := (keys_of_pairwise epl).imp And.right

theorem mem_named_keys (model : MoEGPT) (k : Nat × Nat) :
    some k ∈ model.named_parameters.map (expert_key ·.name) ↔ k ∈ keys_of model.experts_per_layer := by
  rw [named_split, List.mem_map]
  constructor
  · rintro ⟨p, hp, hk⟩
    rw [List.mem_append, List.mem_append] at hp
    rcases hp with (hp | hp) | hp
    · rw [outside_keys (.inl hp)] at hk
      cases hk
    · obtain ⟨⟨c, l⟩, hcl, hp⟩ := List.mem_flatMap.mp hp
      rw [block_split, List.mem_append] at hp
      rcases hp with hp | hp
      · rw [fixed_keys hp] at hk
        cases hk
      · obtain ⟨e, he, hp⟩ := List.mem_flatMap.mp hp
        rw [expert_keys _ _ _ _ hp] at hk
        obtain rfl := Option.some.inj hk
        exact List.mem_flatMap.mpr ⟨(c, l), hcl, List.mem_map_of_mem he⟩
    · rw [outside_keys (.inr hp)] at hk
      cases hk
  · intro hk
    obtain ⟨⟨c, l⟩, hcl, hk⟩ := List.mem_flatMap.mp hk
    obtain ⟨e, he, rfl⟩ := List.mem_map.mp hk
    refine ⟨weight [.word "blocks", .num l, .word "moe", .word "experts", .num e, .word "fc"]
      (model.cfg.d_ff * model.cfg.n_embd), ?_, ?_⟩
    · refine List.mem_append_left _ (List.mem_append_right _ (List.mem_flatMap.mpr ⟨(c, l), hcl, ?_⟩))
      rw [block_split]
      exact List.mem_append_right _ (List.mem_flatMap.mpr ⟨e, he, by simp [Expert, Linear]⟩)
    · simp [weight, expert_key, int_after]

instance : Std.Total key_le := ⟨fun a b => by unfold key_le; omega⟩

instance : IsTrans (Nat × Nat) key_le := ⟨fun a b c => by unfold key_le; omega⟩

theorem key_le_antisymm {a b : Nat × Nat} (h : key_le a b) (h' : key_le b a) : a = b := by
  unfold key_le at h h'
  exact Prod.ext (by omega) (by omega)

/-- The layout lists the experts layer by layer. -/
theorem layout_experts (model : MoEGPT) : (ChainLayout.of model).experts = keys_of model.experts_per_layer := by
  have hmem (k : Nat × Nat) : k ∈ (ChainLayout.of model).experts ↔ k ∈ keys_of model.experts_per_layer := by
    rw [← mem_named_keys, ← offs_keys 0]
    exact mem_sorted_keys
  have hperm : (ChainLayout.of model).experts.Perm (keys_of model.experts_per_layer) :=
    (List.perm_ext_iff_of_nodup (sorted_keys_nodup _) (keys_of_nodup _)).mpr hmem
  refine hperm.eq_of_pairwise (fun a b _ _ => key_le_antisymm) (List.pairwise_insertionSort key_le _) ?_
  exact (keys_of_pairwise _).imp And.left

/-! ## Pages and conversions -/

theorem layout_backbone (model : MoEGPT) :
    (ChainLayout.of model).backbone_params = keyed none model.named_parameters := by
  have h := length_key_coords 0 model.named_parameters none
  rw [← sum_lengths] at h
  exact h

/-- The layout's backbone depends on the number of layers only. -/
theorem layout_backbone_congr {model model' : MoEGPT} (hcfg : model.cfg = model'.cfg)
    (hlen : model.experts_per_layer.length = model'.experts_per_layer.length) :
    (ChainLayout.of model).backbone_params = (ChainLayout.of model').backbone_params := by
  rw [layout_backbone, layout_backbone, backbone_named, backbone_named, hcfg, hlen]

theorem length_expert_coords {model : MoEGPT} {k : Nat × Nat} (hk : k ∈ (ChainLayout.of model).experts) :
    ((expert_runs (offs 0 model.named_parameters) k).flatMap Run.coords).length = model.cfg.expert_page_len := by
  have h := length_key_coords 0 model.named_parameters (some k)
  rw [layout_experts] at hk
  refine h.trans ((keyed_named model k).trans ?_)
  rw [List.count_eq_one_of_mem (keys_of_nodup _) hk, Nat.one_mul]

theorem spans_of_get (len pos : Nat) (ks : List (Nat × Nat)) (i : Nat) :
    (spans_of len pos ks)[i]? = ks[i]?.map fun _ => (pos + i * len, pos + i * len + len) := by
  induction ks generalizing pos i with
  | nil => rfl
  | cons k ks ih =>
    cases i with
    | zero => simp [spans_of]
    | succ i =>
      rw [spans_of, List.getElem?_cons_succ, ih, List.getElem?_cons_succ, Nat.succ_mul]
      congr 2
      funext
      rw [Prod.mk.injEq]
      omega

/-- A block of a list made of blocks of one length. -/
theorem slice_flatMap {α β : Type} {f : β → List α} {len : Nat} {bs : List β} (hlen : ∀ b ∈ bs, (f b).length = len)
    (front : List α) {i : Nat} {b : β} (hb : bs[i]? = some b) :
    slice (front ++ bs.flatMap f) (front.length + i * len) (front.length + i * len + len) = f b := by
  induction bs generalizing front i with
  | nil => simp at hb
  | cons b' bs ih =>
    obtain ⟨hb', hrest⟩ := List.forall_mem_cons.mp hlen
    cases i with
    | zero =>
      rw [List.getElem?_cons_zero, Option.some.injEq] at hb
      subst hb
      simp [slice, ← hb']
    | succ i =>
      have h := ih hrest (front ++ f b') hb
      rw [List.append_assoc, List.length_append, hb'] at h
      rw [List.flatMap_cons, Nat.succ_mul, show front.length + (i * len + len) = front.length + len + i * len by omega]
      exact h

theorem slice_map {α β : Type} (f : α → β) (l : List α) (a b : Nat) : slice (l.map f) a b = (slice l a b).map f := by
  simp [slice, List.map_take, List.map_drop]

/-- An expert's parameters land on the page that the layout gives it. -/
theorem chain_of_page {model : MoEGPT} {i : Nat} {k : Nat × Nat} (hk : (ChainLayout.of model).experts[i]? = some k)
    (torch_vec : List Int64) {a b : Nat} (hspan : (ChainLayout.of model).page_spans[i + 1]? = some (a, b)) :
    slice ((ChainLayout.of model).chain_of torch_vec) a b = expert_params model torch_vec k := by
  have hspan' : (a, b) = ((ChainLayout.of model).backbone_params + i * model.cfg.expert_page_len,
      (ChainLayout.of model).backbone_params + i * model.cfg.expert_page_len + model.cfg.expert_page_len) := by
    have h : (ChainLayout.of model).page_spans[i + 1]? = _ :=
      spans_of_get model.cfg.expert_page_len (ChainLayout.of model).backbone_params (ChainLayout.of model).experts i
    rw [hspan, hk] at h
    exact Option.some.inj h
  have hback : (ChainLayout.of model).backbone_params =
      ((backbone_runs (offs 0 model.named_parameters)).flatMap Run.coords).length := sum_lengths _
  obtain ⟨rfl, rfl⟩ := Prod.mk.injEq .. ▸ hspan'
  rw [ChainLayout.chain_of, slice_map, expert_params, hback]
  congr 1
  exact slice_flatMap (fun k hk => length_expert_coords hk) _ hk

/-- Reading in chain order what was loaded gives the chain's own vector back. -/
theorem chain_of_torch_of (model : MoEGPT) {chain_vec : List Int64} (hlen : chain_vec.length = (ChainLayout.of model).n) :
    (ChainLayout.of model).chain_of ((ChainLayout.of model).torch_of chain_vec) = chain_vec := by
  apply List.ext_getElem?
  intro j
  rw [ChainLayout.chain_of, List.getElem?_map]
  by_cases hj : j < model.num_params
  · have hj' : j < (ChainLayout.of model).to_chain.length := by rwa [length_to_chain]
    have hget := List.getElem?_eq_getElem hj'
    have hback : (ChainLayout.of model).to_torch[(ChainLayout.of model).to_chain[j]]? = some j :=
      get_scatter (to_chain_perm model) hget
    have hlt : j < chain_vec.length := hlen ▸ hj
    rw [hget, Option.map_some, ChainLayout.torch_of, List.getD_eq_getElem?_getD, List.getElem?_map, hback,
      Option.map_some, Option.getD_some, List.getElem?_eq_getElem hlt, List.getD_eq_getElem _ _ hlt]
  · have h₁ : (ChainLayout.of model).to_chain[j]? = none := by
      rw [List.getElem?_eq_none_iff, length_to_chain]
      omega
    have h₂ : chain_vec[j]? = none := by
      rw [List.getElem?_eq_none_iff, hlen]
      exact Nat.le_of_not_lt hj
    rw [h₁, h₂]
    rfl

/-- Loading a chain vector puts each page into the expert that the layout names. -/
theorem torch_of_page {model : MoEGPT} {i : Nat} {k : Nat × Nat} (hk : (ChainLayout.of model).experts[i]? = some k)
    {chain_vec : List Int64} (hlen : chain_vec.length = (ChainLayout.of model).n) {a b : Nat}
    (hspan : (ChainLayout.of model).page_spans[i + 1]? = some (a, b)) :
    expert_params model ((ChainLayout.of model).torch_of chain_vec) k = slice chain_vec a b := by
  rw [← chain_of_page hk _ hspan, chain_of_torch_of model hlen]

end Sestrian.client
