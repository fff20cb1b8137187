import Sestrian.Client.Layout

/-!
# The chain's page table under growth

A growth event appends a page for the next layer in turn. The table is a function of the
number of events, and it is in layer order only as long as no event broke the order.
-/

namespace Sestrian.client

/-- The states that folds can reach from genesis. -/
inductive Folded (params : GenesisParams) : ModelState → Prop where
  | genesis : Folded params (ModelState.genesis params.spec)
  | fold {s : ModelState} (h : Folded params s) (height n_txs zero_scored : UInt64) (prev_hash : String)
      (score_sum : UInt64) (proposer : String) :
      Folded params (fold s params height n_txs zero_scored prev_hash score_sum proposer).1

/-! ## The keys after some growth events -/

/-- The layer of the growth event with this number. -/
def layer_at (spec : ModelSpec) (i : Nat) : Nat := (UInt64.ofNat i % spec.n_layers).toNat

def in_layer (l : Nat) (ks : List (Nat × Nat)) : List (Nat × Nat) := ks.filter (·.1 = l)

/-- The keys of the expert pages after `g` growth events, in the order of creation. -/
def grown_keys (spec : ModelSpec) : Nat → List (Nat × Nat)
  | 0 => keys_of (List.replicate spec.n_layers.toNat spec.n_experts_initial.toNat)
  | g + 1 => grown_keys spec g ++ [(layer_at spec g, (in_layer (layer_at spec g) (grown_keys spec g)).length)]

theorem genesis_keys (n e : Nat) :
    keys_of (List.replicate n e) = (List.range n).flatMap fun l => (List.range e).map fun i => (l, i) := by
  have hzip : (List.replicate n e).zipIdx = (List.range n).map fun l => (e, l) := by
    apply List.ext_getElem?
    intro i
    rw [List.getElem?_zipIdx, List.getElem?_replicate, List.getElem?_map]
    by_cases h : i < n <;> simp [h]
  rw [keys_of, hzip, List.flatMap_map]

theorem in_layer_keys_of (epl : List Nat) (l : Nat) :
    in_layer l (keys_of epl) = (List.range (epl.getD l 0)).map fun e => (l, e) := by
  have hright : ((List.range (epl.getD l 0)).map fun e => (l, e)).Pairwise fun a b => key_le a b ∧ a ≠ b := by
    rw [List.pairwise_map]
    refine List.pairwise_lt_range.imp fun {a b} h => ⟨.inr ⟨rfl, h.le⟩, fun he => h.ne (congrArg Prod.snd he)⟩
  have hleft := (keys_of_pairwise epl).filter (fun k => decide (k.1 = l))
  have hmem (k : Nat × Nat) : k ∈ in_layer l (keys_of epl) ↔ k ∈ (List.range (epl.getD l 0)).map fun e => (l, e) := by
    rw [in_layer, List.mem_filter, mem_keys_of, List.mem_map]
    simp only [decide_eq_true_eq, List.mem_range, List.getD_eq_getElem?_getD]
    constructor
    · rintro ⟨⟨c, hc, hlt⟩, rfl⟩
      exact ⟨k.2, by simpa [hc] using hlt, rfl⟩
    · rintro ⟨e, he, rfl⟩
      cases hc : epl[l]? with
      | none => simp [hc] at he
      | some c => exact ⟨⟨c, rfl, by simpa [hc] using he⟩, rfl⟩
  have hperm := (List.perm_ext_iff_of_nodup (hleft.imp And.right) (hright.imp And.right)).mpr hmem
  exact hperm.eq_of_pairwise (fun a b _ _ => key_le_antisymm) (hleft.imp And.left) (hright.imp And.left)

/-- The experts of a layer are numbered without a gap. -/
theorem in_layer_grown (spec : ModelSpec) (g l : Nat) : in_layer l (grown_keys spec g) =
    (List.range (in_layer l (grown_keys spec g)).length).map fun e => (l, e) := by
  induction g with
  | zero =>
    rw [grown_keys, in_layer_keys_of]
    simp
  | succ g ih =>
    have happ : in_layer l (grown_keys spec (g + 1)) = in_layer l (grown_keys spec g) ++
        in_layer l [(layer_at spec g, (in_layer (layer_at spec g) (grown_keys spec g)).length)] := List.filter_append ..
    rw [happ]
    by_cases h : layer_at spec g = l
    · subst h
      rw [show in_layer (layer_at spec g) [(layer_at spec g, (in_layer (layer_at spec g) (grown_keys spec g)).length)] =
        [(layer_at spec g, (in_layer (layer_at spec g) (grown_keys spec g)).length)] by simp [in_layer]]
      rw [List.length_append, List.length_singleton, List.range_succ, List.map_append, ← ih]
      rfl
    · rw [show in_layer l [(layer_at spec g, (in_layer (layer_at spec g) (grown_keys spec g)).length)] = [] by
        simp [in_layer, h], List.append_nil]
      exact ih

theorem mem_grown_keys {spec : ModelSpec} {g : Nat} {k : Nat × Nat} :
    k ∈ grown_keys spec g ↔ k.2 < (in_layer k.1 (grown_keys spec g)).length := by
  have hin : k ∈ grown_keys spec g ↔ k ∈ in_layer k.1 (grown_keys spec g) := by simp [in_layer]
  rw [hin, in_layer_grown, List.mem_map]
  simp only [List.mem_range, List.length_map, List.length_range]
  constructor
  · rintro ⟨e, he, hk⟩
    rw [← hk]
    exact he
  · exact fun h => ⟨k.2, h, rfl⟩

theorem grown_layers (spec : ModelSpec) (g : Nat) : (grown_keys spec g).map (·.1) =
    (grown_keys spec 0).map (·.1) ++ (List.range g).map (layer_at spec) := by
  induction g with
  | zero => simp
  | succ g ih =>
    have hstep : (grown_keys spec (g + 1)).map (·.1) = (grown_keys spec g).map (·.1) ++ [layer_at spec g] :=
      List.map_append ..
    rw [hstep, ih, List.range_succ, List.map_append, List.append_assoc]
    rfl

theorem grown_keys_nodup (spec : ModelSpec) (g : Nat) : (grown_keys spec g).Nodup := by
  induction g with
  | zero => exact keys_of_nodup _
  | succ g ih =>
    rw [grown_keys, List.nodup_append]
    refine ⟨ih, List.nodup_singleton _, fun a ha b hb => ?_⟩
    rintro rfl
    rw [List.mem_singleton] at hb
    rw [mem_grown_keys, hb] at ha
    exact Nat.lt_irrefl _ ha

theorem layer_at_lt {spec : ModelSpec} (hn : 0 < spec.n_layers.toNat) (i : Nat) : layer_at spec i < spec.n_layers.toNat := by
  rw [layer_at, UInt64.toNat_mod]
  exact Nat.mod_lt _ hn

theorem layer_at_eq {spec : ModelSpec} {i : Nat} (hi : i < 2 ^ 64) : layer_at spec i = i % spec.n_layers.toNat := by
  rw [layer_at, UInt64.toNat_mod, UInt64.toNat_ofNat', Nat.mod_eq_of_lt hi]

theorem grown_layer_lt {spec : ModelSpec} (hn : 0 < spec.n_layers.toNat) {g : Nat} {k : Nat × Nat}
    (hk : k ∈ grown_keys spec g) : k.1 < spec.n_layers.toNat := by
  have h := List.mem_map_of_mem (f := (·.1)) hk
  rw [grown_layers, List.mem_append, List.mem_map, List.mem_map] at h
  rcases h with ⟨k', hk', he⟩ | ⟨i, -, he⟩
  · rw [grown_keys, mem_keys_of] at hk'
    obtain ⟨c, hc, -⟩ := hk'
    have := (List.getElem?_eq_some_iff.mp hc).1
    rw [List.length_replicate] at this
    exact he ▸ this
  · exact he ▸ layer_at_lt hn i

/-! ## When creation order is layer order -/

/-- No growth yet, or a single layer, or a table that growth alone filled, once around. -/
def InOrder (spec : ModelSpec) (g : Nat) : Prop :=
  g = 0 ∨ spec.n_layers.toNat = 1 ∨ spec.n_experts_initial.toNat = 0 ∧ g ≤ spec.n_layers.toNat

instance (spec : ModelSpec) (g : Nat) : Decidable (InOrder spec g) := by
  unfold InOrder
  infer_instance

/-- The counts of the layers. -/
def grown_counts (spec : ModelSpec) (g : Nat) : List Nat :=
  (List.range spec.n_layers.toNat).map fun l => (in_layer l (grown_keys spec g)).length

theorem grown_counts_get (spec : ModelSpec) (g : Nat) {l : Nat} (hl : l < spec.n_layers.toNat) :
    (grown_counts spec g)[l]? = some (in_layer l (grown_keys spec g)).length := by
  simp [grown_counts, hl]

theorem keys_of_counts_perm {spec : ModelSpec} (hn : 0 < spec.n_layers.toNat) (g : Nat) :
    (keys_of (grown_counts spec g)).Perm (grown_keys spec g) := by
  refine (List.perm_ext_iff_of_nodup (keys_of_nodup _) (grown_keys_nodup spec g)).mpr fun k => ?_
  rw [mem_keys_of]
  constructor
  · rintro ⟨c, hc, hlt⟩
    have hl : k.1 < spec.n_layers.toNat := by
      have := (List.getElem?_eq_some_iff.mp hc).1
      simpa [grown_counts] using this
    rw [grown_counts_get spec g hl, Option.some.injEq] at hc
    exact mem_grown_keys.mpr (hc ▸ hlt)
  · intro hk
    exact ⟨_, grown_counts_get spec g (grown_layer_lt hn hk), mem_grown_keys.mp hk⟩

theorem sorted_of_one_layer {spec : ModelSpec} (hn : spec.n_layers.toNat = 1) (g : Nat) :
    (grown_keys spec g).Pairwise key_le := by
  have hall : in_layer 0 (grown_keys spec g) = grown_keys spec g := by
    refine List.filter_eq_self.mpr fun k hk => ?_
    have := grown_layer_lt (by omega) hk
    simp only [decide_eq_true_eq]
    omega
  rw [← hall, in_layer_grown, List.pairwise_map]
  exact List.pairwise_lt_range.imp fun h => .inr ⟨rfl, h.le⟩

/-- Without genesis experts, the first turn gives each layer its first. -/
theorem first_turn {spec : ModelSpec} (he : spec.n_experts_initial.toNat = 0) {g : Nat} (hg : g ≤ spec.n_layers.toNat) :
    grown_keys spec g = (List.range g).map fun l => (l, 0) := by
  induction g with
  | zero => simp [grown_keys, he, genesis_keys]
  | succ g ih =>
    have hlt : g < 2 ^ 64 := (Nat.lt_of_succ_le hg).trans spec.n_layers.toNat_lt
    have hlayer : layer_at spec g = g := by
      rw [layer_at_eq hlt, Nat.mod_eq_of_lt hg]
    have hnone : in_layer g ((List.range g).map fun l => (l, 0)) = [] := by
      refine List.filter_eq_nil_iff.mpr fun k hk => ?_
      obtain ⟨l, hl, rfl⟩ := List.mem_map.mp hk
      simp only [decide_eq_true_eq]
      exact (List.mem_range.mp hl).ne
    rw [grown_keys, ih (Nat.le_of_succ_le hg), hlayer, hnone, List.range_succ, List.map_append]
    rfl

theorem sorted_of_inOrder {spec : ModelSpec} {g : Nat} (h : InOrder spec g) : (grown_keys spec g).Pairwise key_le := by
  rcases h with rfl | hn | ⟨he, hg⟩
  · exact (keys_of_pairwise _).imp And.left
  · exact sorted_of_one_layer hn g
  · rw [first_turn he hg, List.pairwise_map]
    exact List.pairwise_lt_range.imp .inl

theorem genesis_layer_mem {spec : ModelSpec} {l : Nat} (hl : l < spec.n_layers.toNat)
    (he : 0 < spec.n_experts_initial.toNat) : l ∈ (grown_keys spec 0).map (·.1) := by
  refine List.mem_map.mpr ⟨(l, 0), mem_keys_of.mpr ⟨spec.n_experts_initial.toNat, ?_, he⟩, rfl⟩
  simp [hl]

/-- The layers of a sorted table never go back. A growth event of layer 0 after a page of a
later layer does. -/
theorem inOrder_of_sorted {spec : ModelSpec} (hn : 0 < spec.n_layers.toNat) {g : Nat}
    (h : (grown_keys spec g).Pairwise key_le) : InOrder spec g := by
  have hlayers : ((grown_keys spec g).map (·.1)).Pairwise (· ≤ ·) := by
    rw [List.pairwise_map]
    refine h.imp fun {a b} hab => ?_
    unfold key_le at hab
    omega
  rw [grown_layers, List.pairwise_append] at hlayers
  obtain ⟨-, hgrown, hacross⟩ := hlayers
  by_cases hg : g = 0
  · exact .inl hg
  by_cases hone : spec.n_layers.toNat = 1
  · exact .inr (.inl hone)
  have hzero : layer_at spec 0 = 0 := by simp [layer_at_eq]
  have he : spec.n_experts_initial.toNat = 0 := by
    by_contra he
    have h0 : layer_at spec 0 ∈ (List.range g).map (layer_at spec) :=
      List.mem_map_of_mem (List.mem_range.mpr (Nat.pos_of_ne_zero hg))
    have := hacross 1 (genesis_layer_mem (by omega) (Nat.pos_of_ne_zero he)) _ h0
    omega
  refine .inr (.inr ⟨he, ?_⟩)
  by_contra hlong
  rw [List.pairwise_map, List.pairwise_iff_getElem] at hgrown
  have hback := hgrown 1 spec.n_layers.toNat (by simp; omega) (by simp; omega) (by omega)
  rw [List.getElem_range, List.getElem_range, layer_at_eq spec.n_layers.toNat_lt, Nat.mod_self,
    layer_at_eq (by norm_num), Nat.mod_eq_of_lt (by omega)] at hback
  omega

theorem keys_agree_iff (spec : ModelSpec) (g : Nat) :
    keys_of (grown_counts spec g) = grown_keys spec g ↔ InOrder spec g := by
  by_cases hn : 0 < spec.n_layers.toNat
  · constructor
    · intro h
      exact inOrder_of_sorted hn (h ▸ (keys_of_pairwise _).imp And.left)
    · intro h
      exact (keys_of_counts_perm hn g).eq_of_pairwise (fun a b _ _ => key_le_antisymm)
        ((keys_of_pairwise _).imp And.left) (sorted_of_inOrder h)
  · -- without layers the trainer has no expert
    have hn : spec.n_layers.toNat = 0 := by omega
    have hleft : keys_of (grown_counts spec g) = [] := by simp [grown_counts, hn, keys_of]
    have hlen : (grown_keys spec g).length = g := by
      have := congrArg List.length (grown_layers spec g)
      simpa [grown_keys, hn, keys_of] using this
    rw [hleft, eq_comm, ← List.length_eq_zero_iff, hlen, InOrder, hn]
    omega

end Sestrian.client
