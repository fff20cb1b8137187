import Sestrian.Code.Sampling
import Sestrian.Da.Recover
import Sestrian.Tree.Branches

/-!
# A sample that passes is worth the body

Everyone who draws from one seed samples the same shards. The sample passes exactly when each of
them is the shard that was encoded, and any `k` of those give the body back.
-/

namespace Sestrian

namespace da

section Any

variable [Crypto] {seed : List UInt8} {n want fuel : Nat} {counter : UInt64} {chosen sampled : List Nat}

/-! ## The draw -/

/-- Different shards of the blob. -/
structure Drawn (n : Nat) (chosen : List Nat) : Prop where
  nodup : chosen.Nodup
  in_range : ∀ i ∈ chosen, i < n

/-- What one draw leaves. -/
def drawn (seed : List UInt8) (n : Nat) (counter : UInt64) (chosen : List Nat) : List Nat :=
  if chosen.contains (pick seed n counter) then chosen else chosen ++ [pick seed n counter]

theorem sample_from_succ (h : chosen.length < want) :
    sample_from seed n want (fuel + 1) counter chosen =
      sample_from seed n want fuel (counter + 1) (drawn seed n counter chosen) := by
  rw [sample_from, if_pos h]
  rfl

theorem sample_from_enough (h : want ≤ chosen.length) : sample_from seed n want fuel counter chosen = some chosen := by
  cases fuel with
  | zero => rw [sample_from, if_neg (Nat.not_lt.mpr h)]
  | succ fuel => rw [sample_from, if_neg (Nat.not_lt.mpr h)]

theorem sample_from_zero (h : chosen.length < want) : sample_from seed n want 0 counter chosen = none := by
  rw [sample_from, if_pos h]

theorem prefix_drawn (seed : List UInt8) (n : Nat) (counter : UInt64) (chosen : List Nat) :
    chosen <+: drawn seed n counter chosen := by
  unfold drawn
  split
  · exact List.prefix_rfl
  · exact List.prefix_append _ _

theorem length_drawn_le (h : chosen.length < want) : (drawn seed n counter chosen).length ≤ want := by
  unfold drawn
  split
  · exact h.le
  · rw [List.length_append, List.length_singleton]
    exact h

theorem Drawn.draw (hd : Drawn n chosen) (hn : 0 < n) : Drawn n (drawn seed n counter chosen) := by
  unfold drawn
  split
  · exact hd
  · next hnew =>
    have hout : pick seed n counter ∉ chosen := fun hin => hnew (List.contains_iff_mem.mpr hin)
    refine ⟨hd.nodup.append (List.nodup_singleton _) (List.disjoint_singleton.mpr hout), fun i hi => ?_⟩
    rcases List.mem_append.mp hi with hi | hi
    · exact hd.in_range i hi
    · rw [List.mem_singleton.mp hi]
      exact Nat.mod_lt _ hn

/-- The loop ends with the wanted number of different indices, the earlier ones first. -/
theorem sample_from_spec (hwant : want ≤ n) (hd : Drawn n chosen) (hshort : chosen.length ≤ want)
    (h : sample_from seed n want fuel counter chosen = some sampled) :
    Drawn n sampled ∧ sampled.length = want ∧ chosen <+: sampled := by
  induction fuel generalizing counter chosen with
  | zero =>
    rcases Nat.lt_or_ge chosen.length want with hlt | hge
    · rw [sample_from_zero hlt] at h
      cases h
    · rw [sample_from_enough hge] at h
      obtain rfl := Option.some.inj h
      exact ⟨hd, Nat.le_antisymm hshort hge, List.prefix_rfl⟩
  | succ fuel ih =>
    rcases Nat.lt_or_ge chosen.length want with hlt | hge
    · rw [sample_from_succ hlt] at h
      have hn : 0 < n := (Nat.zero_le _).trans_lt (hlt.trans_le hwant)
      obtain ⟨hd', hlen, hpre⟩ := ih (hd.draw hn) (length_drawn_le hlt) h
      exact ⟨hd', hlen, (prefix_drawn seed n counter chosen).trans hpre⟩
    · rw [sample_from_enough hge] at h
      obtain rfl := Option.some.inj h
      exact ⟨hd, Nat.le_antisymm hshort hge, List.prefix_rfl⟩

omit [Crypto] in
theorem drawn_nil (n : Nat) : Drawn n [] := ⟨List.nodup_nil, fun _ hi => absurd hi List.not_mem_nil⟩

theorem sample_indices_spec {draws num_samples : Nat} (h : sample_indices draws seed n num_samples = some sampled) :
    Drawn n sampled ∧ sampled.length = min num_samples n := by
  obtain ⟨hd, hlen, -⟩ := sample_from_spec (Nat.min_le_right _ _) (drawn_nil n) (Nat.zero_le _) h
  exact ⟨hd, hlen⟩

/-- Whoever wants fewer samples stops earlier in the same sequence. -/
theorem sample_from_extends {want' fuel' : Nat} {sampled' : List Nat} (hle : want ≤ want') (hwant : want' ≤ n)
    (hd : Drawn n chosen) (hshort : chosen.length ≤ want)
    (h : sample_from seed n want fuel counter chosen = some sampled)
    (h' : sample_from seed n want' fuel' counter chosen = some sampled') : sampled <+: sampled' := by
  induction fuel generalizing fuel' counter chosen with
  | zero =>
    rcases Nat.lt_or_ge chosen.length want with hlt | hge
    · rw [sample_from_zero hlt] at h
      cases h
    · rw [sample_from_enough hge] at h
      obtain rfl := Option.some.inj h
      exact (sample_from_spec hwant hd (hshort.trans hle) h').2.2
  | succ fuel ih =>
    rcases Nat.lt_or_ge chosen.length want with hlt | hge
    · rw [sample_from_succ hlt] at h
      cases fuel' with
      | zero =>
        rw [sample_from_zero (hlt.trans_le hle)] at h'
        cases h'
      | succ fuel' =>
        rw [sample_from_succ (hlt.trans_le hle)] at h'
        have hn : 0 < n := (Nat.zero_le _).trans_lt (hlt.trans_le (hle.trans hwant))
        exact ih (hd.draw hn) (length_drawn_le hlt) h h'
    · rw [sample_from_enough hge] at h
      obtain rfl := Option.some.inj h
      exact (sample_from_spec hwant hd (hshort.trans hle) h').2.2

theorem sample_indices_extend {draws draws' num_samples num_samples' : Nat} {sampled' : List Nat}
    (hle : num_samples ≤ num_samples') (h : sample_indices draws seed n num_samples = some sampled)
    (h' : sample_indices draws' seed n num_samples' = some sampled') : sampled <+: sampled' :=
  sample_from_extends (min_le_min_right n hle) (Nat.min_le_right _ _) (drawn_nil n) (Nat.zero_le _) h h'

/-- Whoever wants fewer samples stops earlier in the same sequence of different indices, however many draws either has,
and a blob that passes with more samples passes with fewer. -/
theorem fewer_samples_pass (seed : List UInt8) {draws draws' n num_samples num_samples' : Nat} {sampled : List Nat}
    (hle : num_samples ≤ num_samples') (hs : sample_indices draws seed n num_samples = some sampled) :
    (Drawn n sampled ∧ sampled.length = min num_samples n) ∧
      (∀ sampled', sample_indices draws' seed n num_samples' = some sampled' → sampled <+: sampled') ∧
      ∀ (available : Shards) (blob : DaBlob), blob.n = n → sample_available draws' available blob seed num_samples' = some true →
        sample_available draws available blob seed num_samples = some true := by
  refine ⟨sample_indices_spec hs, fun sampled' hs' => sample_indices_extend hle hs hs', ?_⟩
  rintro available blob rfl hpass
  unfold sample_available at hpass ⊢
  simp only [Option.bind_eq_bind, Option.bind_eq_some_iff, Option.pure_def, Option.some.injEq, List.all_eq_true] at hpass ⊢
  obtain ⟨sampled', hs', hall⟩ := hpass
  exact ⟨sampled, hs, fun i hi => hall i ((sample_indices_extend hle hs hs').subset hi)⟩

/-! ## One shard against the root -/

variable {body : List UInt8} {k : Nat}

/-- The shard cannot pass for the encoded one unless it is the same. -/
def Unforged (body : List UInt8) (k n i : Nat) (shard : List UInt8) : Prop :=
  merkle.NoForgery ((encode body k n).map merkle.leaf_hash) (merkle.leaf_hash shard) ((disperse body k n).proof i) ∧
    ∀ own, (encode body k n)[i]? = some own → merkle.leaf_hash shard = merkle.leaf_hash own → shard = own

theorem disperse_root (hn : 0 < n) :
    (disperse body k n).root = merkle.root_from_hashes ((encode body k n).map merkle.leaf_hash) := by
  have hne : (encode body k n).map merkle.leaf_hash ≠ [] := by
    rw [ne_eq, List.map_eq_nil_iff, encode, List.map_eq_nil_iff, List.range_eq_nil]
    omega
  have hlast : (disperse body k n).levels.getLast? =
      some [merkle.root_from_hashes ((encode body k n).map merkle.leaf_hash)] := by
    unfold disperse merkle_build merkle.root_from_hashes merkle.levels
    simp only
    rw [merkle.build_levels_eq, merkle.fold_levels_eq]
    exact PairTree.levels_last le_rfl hne
  unfold DaBlob.root
  rw [List.getLastD_eq_getLast?, hlast]
  rfl

theorem proof_verifies_iff {i : Nat} {own shard : List UInt8} (hown : (encode body k n)[i]? = some own)
    (h : Unforged body k n i shard) :
    merkle_verify shard ((disperse body k n).proof i) (disperse body k n).root = true ↔ shard = own := by
  have hi : i < n := by
    obtain ⟨hlt, -⟩ := List.getElem?_eq_some_iff.mp hown
    rwa [encode, List.length_map, List.length_range] at hlt
  have hleaf : ((encode body k n).map merkle.leaf_hash)[i]? = some (merkle.leaf_hash own) := by
    rw [List.getElem?_map, hown, Option.map_some]
  have hpath : (disperse body k n).proof i = PairTree.path_of
      (PairTree.levels merkle.node_hash ((encode body k n).map merkle.leaf_hash).length
        ((encode body k n).map merkle.leaf_hash)).dropLast i := by
    rw [← merkle.build_levels_eq, ← merkle.proof_from_eq]
    rfl
  obtain ⟨hapart, hinj⟩ := h
  unfold merkle_verify
  rw [merkle.verify_leaf_iff, disperse_root (by omega), merkle.root_from_hashes, merkle.fold_levels_eq]
  constructor
  · intro hclimb
    exact hinj own hown (PairTree.eq_of_climb le_rfl hleaf (congrArg _ hpath) hapart hclimb)
  · rintro rfl
    rw [hpath]
    exact PairTree.climb_path_of le_rfl hleaf

/-! ## The verdict -/

variable {available : Shards} {draws num_samples : Nat}

omit [Crypto] in
theorem encode_get {i : Nat} (hi : i < n) :
    (encode body k n)[i]? = some (combine_rows (vandermonde_row k i) (rows body k)) := by
  unfold encode
  rw [List.getElem?_map, List.getElem?_range hi, Option.map_some]

theorem sample_available_iff (hs : sample_indices draws seed n num_samples = some sampled)
    (hunforged : ∀ i ∈ sampled, ∀ shard, available[UInt32.ofNat i]? = some shard → Unforged body k n i shard) :
    sample_available draws available (disperse body k n) seed num_samples = some true ↔
      ∀ i ∈ sampled, available[UInt32.ofNat i]? = (encode body k n)[i]? := by
  have hn : (disperse body k n).n = n := rfl
  unfold sample_available
  rw [hn, hs]
  simp only [Option.bind_eq_bind, Option.bind_some, Option.pure_def, Option.some.injEq, List.all_eq_true]
  refine forall₂_congr fun i hi => ?_
  have hown := @encode_get n body k i ((sample_indices_spec hs).1.in_range i hi)
  rw [hown]
  cases hav : available[UInt32.ofNat i]? with
  | none => simp
  | some shard =>
    simp only [Option.some.injEq]
    exact proof_verifies_iff hown (hunforged i hi shard hav)

/-- The shards at the sampled places. -/
def sampled_shards (available : Shards) (sampled : List Nat) : Shards :=
  available.filter fun i _ => decide (i.toNat ∈ sampled)

omit [Crypto] in
/-- The body comes back from the `k` shards of least index when these are encoded ones. -/
theorem reconstruct_chosen (hk : 0 < k) (hn : n ≤ 255) (hsize : k ≤ available.size)
    (hfrom : ∀ s ∈ available.toList.take k,
      s.1.toNat < n ∧ s.2 = combine_rows (vandermonde_row k s.1.toNat) (rows body k)) :
    reconstruct available k body.length = some body := by
  have hlen := length_chosen hsize
  have hnd := nodup_chosen available k
  unfold reconstruct
  rw [if_neg (by omega)]
  dsimp only
  generalize available.toList.take k = chosen at hlen hfrom hnd
  have hsmall : (chosen.any fun s => decide (s.1.toNat + 1 ≥ 256)) = false := by
    rw [List.any_eq_false]
    intro s hs
    have hlt := (hfrom s hs).1
    rw [decide_eq_true_eq]
    omega
  have hplaced : ∀ c ∈ chosen.map fun s => (s.1.toNat, s.2),
      c.1 < n ∧ c.2 = combine_rows (vandermonde_row k c.1) (rows body k) := by
    intro c hc
    obtain ⟨s, hs, rfl⟩ := List.mem_map.mp hc
    exact hfrom s hs
  have hlen' : (chosen.map fun s => (s.1.toNat, s.2)).length = k := by rw [List.length_map, hlen]
  have hnd' : ((chosen.map fun s => (s.1.toNat, s.2)).map (·.1)).Nodup := by rwa [List.map_map]
  obtain ⟨inv, hinv, hrows⟩ := combine_inverse hk hlen' hnd' (fun c hc => (hplaced c hc).1.trans_le hn)
    fun c hc => (hplaced c hc).2
  rw [List.map_map] at hinv hrows
  have hinv' : mat_inv (chosen.map fun s => vandermonde_row k s.1.toNat) = some inv := hinv
  have hrows' : inv.map (fun row => combine_rows row (chosen.map (·.2))) = rows body k := hrows
  rw [hsmall, if_neg Bool.false_ne_true, hinv', Option.bind_eq_bind, Option.bind_some, List.flatMap_def, hrows',
    flatten_rows body hk, take_padded]

theorem passing_sample_recovers (body : List UInt8) (k n : Nat) (hk : 0 < k) (hn : n ≤ 255) (available : Shards)
    (seed : List UInt8) (draws num_samples : Nat) (sampled : List Nat)
    (hs : sample_indices draws seed n num_samples = some sampled)
    (hunforged : ∀ i ∈ sampled, ∀ shard, available[UInt32.ofNat i]? = some shard → Unforged body k n i shard) :
    (sampled.Nodup ∧ sampled.length = min num_samples n ∧ ∀ i ∈ sampled, i < n) ∧
    (sample_available draws available (disperse body k n) seed num_samples = some true ↔
      ∀ i ∈ sampled, available[UInt32.ofNat i]? = (encode body k n)[i]?) ∧
    (sample_available draws available (disperse body k n) seed num_samples = some true → k ≤ num_samples → k ≤ n →
      reconstruct (sampled_shards available sampled) k body.length = some body) := by
  obtain ⟨hdrawn, hlen⟩ := sample_indices_spec hs
  have hverdict := sample_available_iff hs hunforged
  refine ⟨⟨hdrawn.nodup, hlen, hdrawn.in_range⟩, hverdict, fun hpass hmany hkn => ?_⟩
  have hall := hverdict.mp hpass
  have hplace {i : Nat} (hi : i ∈ sampled) : (UInt32.ofNat i).toNat = i := by
    rw [UInt32.toNat_ofNat_of_lt']
    have := hdrawn.in_range i hi
    have hsize : UInt32.size = 2 ^ 32 := rfl
    omega
  have hget (i : UInt32) : (sampled_shards available sampled)[i]? =
      if i.toNat ∈ sampled then available[i]? else none := by
    unfold sampled_shards
    rw [Std.ExtTreeMap.getElem?_filter']
    by_cases hi : i.toNat ∈ sampled
    · simp [hi, Option.filter]
      cases available[i]? <;> rfl
    · simp [hi, Option.filter]
      cases available[i]? <;> rfl
  refine reconstruct_chosen hk hn ?_ fun s hs => ?_
  · have hkeys : sampled.map UInt32.ofNat ⊆ (sampled_shards available sampled).keys := by
      intro x hx
      obtain ⟨i, hi, rfl⟩ := List.mem_map.mp hx
      rw [Std.ExtTreeMap.mem_keys, Std.ExtTreeMap.mem_iff_isSome_getElem?, hget, if_pos (by rwa [hplace hi]), hall i hi,
        encode_get (hdrawn.in_range i hi)]
      rfl
    have hnodup : (sampled.map UInt32.ofNat).Nodup := by
      refine List.Nodup.map_on (fun i hi j hj he => ?_) hdrawn.nodup
      rw [← hplace hi, ← hplace hj, he]
    have hle := (hnodup.subperm hkeys).length_le
    rw [List.length_map, Std.ExtTreeMap.length_keys, hlen] at hle
    exact (Nat.le_min.mpr ⟨hmany, hkn⟩).trans hle
  · have hs := Std.ExtTreeMap.mem_toList_iff_getElem?_eq_some.mp (List.mem_of_mem_take hs)
    rw [hget] at hs
    split at hs
    · next hi =>
      have hshard := hall s.1.toNat hi
      rw [UInt32.ofNat_toNat, hs, encode_get (hdrawn.in_range _ hi)] at hshard
      exact ⟨hdrawn.in_range _ hi, Option.some.inj hshard⟩
    · cases hs

end Any

end da

open scoped Toy

namespace Toy

/-- All three shards of `[1, 2, 3]`. -/
def all_shards : da.Shards := two_shards.insert 0 [2, 2]

theorem draws_two : da.sample_indices 20 [0] 3 2 = some [0, 1] := by decide +kernel

theorem all_shards_encoded : ∀ i ∈ [0, 1], all_shards[UInt32.ofNat i]? = (da.encode [1, 2, 3] 2 3)[i]? := by
  decide +kernel

theorem encoded_unforged : ∀ i ∈ [0, 1], ∀ shard, all_shards[UInt32.ofNat i]? = some shard →
    da.Unforged [1, 2, 3] 2 3 i shard := by
  have hapart : ∀ i ∈ [0, 1], ∀ shard ∈ (da.encode [1, 2, 3] 2 3)[i]?, da.Unforged [1, 2, 3] 2 3 i shard := by
    intro i hi shard hshard
    refine ⟨?_, fun own hown _ => Option.some.inj (hshard.symm.trans hown)⟩
    have hall : ∀ i ∈ [0, 1], ∀ shard ∈ ((da.encode [1, 2, 3] 2 3)[i]?).toList,
        ∀ p ∈ PairTree.climb_pairs merkle.node_hash (merkle.leaf_hash shard) ((da.disperse [1, 2, 3] 2 3).proof i),
        ∀ q ∈ PairTree.tree_pairs merkle.node_hash ((da.encode [1, 2, 3] 2 3).map merkle.leaf_hash).length
          ((da.encode [1, 2, 3] 2 3).map merkle.leaf_hash),
        merkle.node_hash p.1 p.2 = merkle.node_hash q.1 q.2 → p = q := by decide +kernel
    exact hall i hi shard (Option.mem_toList.mpr hshard)
  intro i hi shard hshard
  exact hapart i hi shard (all_shards_encoded i hi ▸ hshard)

end Toy

theorem fewer_samples_pass_one : [0] <+: [0, 1] ∧
    da.sample_available 5 Toy.all_shards (da.disperse [1, 2, 3] 2 3) [0] 1 = some true := by
  obtain ⟨-, hinitial, hpass⟩ := da.fewer_samples_pass [0] (by decide : 1 ≤ 2)
    (by decide +kernel : da.sample_indices 5 [0] 3 1 = some [0])
  exact ⟨hinitial [0, 1] Toy.draws_two, hpass Toy.all_shards (da.disperse [1, 2, 3] 2 3) rfl
    (by decide +kernel : da.sample_available 20 Toy.all_shards (da.disperse [1, 2, 3] 2 3) [0] 2 = some true)⟩

theorem passing_sample_recovers_two :
    da.sample_available 20 Toy.all_shards (da.disperse [1, 2, 3] 2 3) [0] 2 = some true ∧
      da.reconstruct (da.sampled_shards Toy.all_shards [0, 1]) 2 3 = some [1, 2, 3] := by
  obtain ⟨-, hverdict, hrecovers⟩ := da.passing_sample_recovers [1, 2, 3] 2 3 (by decide) (by decide) Toy.all_shards [0] 20 2
    [0, 1] Toy.draws_two Toy.encoded_unforged
  have hpass := hverdict.mpr Toy.all_shards_encoded
  exact ⟨hpass, hrecovers hpass (by decide) (by decide)⟩

end Sestrian
