import Sestrian.Node.Bodies

/-!
# Handlers that leave the tree

Eviction, bookkeeping and the bodies that arrive: each only shrinks the pool.
-/

namespace Sestrian

open Store

variable [Crypto]

namespace Node

variable {s s' : Node} {env : Env}

/-! ## Eviction -/

omit [Crypto] in
theorem drop_all_fields (ids : List String) (s : Node) :
    (s.drop_all ids).key = s.key ∧ (s.drop_all ids).cfg = s.cfg ∧ (s.drop_all ids).tree = s.tree ∧
    (s.drop_all ids).blocks_full = s.blocks_full := by
  induction ids generalizing s with
  | nil => exact ⟨rfl, rfl, rfl, rfl⟩
  | cons id ids ih => exact ih (s.drop_pool_delta id)

omit [Crypto] in
theorem drop_all_pool (ids : List String) (s : Node) (id : String) :
    (s.drop_all ids).delta_pool[id]? = if id ∈ ids then none else s.delta_pool[id]? := by
  induction ids generalizing s with
  | nil => simp [drop_all]
  | cons k ids ih =>
    change ((s.drop_pool_delta k).drop_all ids).delta_pool[id]? = _
    rw [ih, drop_pool_delta, SumMap.get_erase]
    by_cases hk : k = id
    · simp [hk]
    · simp [hk, Ne.symm hk]

omit [Crypto] in
theorem drop_all_dispersed (ids : List String) (s : Node) {id : String} (hid : id ∉ ids) :
    (s.drop_all ids).store.dispersed id = s.store.dispersed id := by
  induction ids generalizing s with
  | nil => rfl
  | cons k ids ih =>
    obtain ⟨hk, hids⟩ := not_or.mp (mt List.mem_cons.mpr hid)
    change ((s.drop_pool_delta k).drop_all ids).store.dispersed id = _
    rw [ih _ hids, drop_pool_delta, dispersed_remove, if_neg (Ne.symm hk)]

omit [Crypto] in
theorem drop_all_sound {zone : List UInt32} (ids : List String) (s : Node) (h : Sound zone s.store) :
    Sound zone (s.drop_all ids).store := by
  induction ids generalizing s with
  | nil => exact h
  | cons k ids ih => exact ih (s.drop_pool_delta k) (h.remove_payload k)

/-- Deltas of the pool may be dropped. -/
theorem drop_all_shrinks {ids : List String} (hids : ∀ id ∈ ids, id ∈ s.delta_pool) : Shrinks s (s.drop_all ids) where
  key := (drop_all_fields ids s).1
  cfg := (drop_all_fields ids s).2.1
  tree := (drop_all_fields ids s).2.2.1
  full := (drop_all_fields ids s).2.2.2
  pool id := by
    rw [drop_all_pool]
    split
    · exact .inr rfl
    · exact .inl rfl
  sound h := drop_all_sound ids s h
  kept id _ hd hm := by
    have hid : id ∉ ids := by
      intro hin
      rcases hm with hm | hm
      · rw [mem_pool_iff, drop_all_pool, if_pos hin] at hm
        exact hm rfl
      · exact hm (hids id hin)
    rwa [drop_all_dispersed ids s hid]

theorem evict_delta_pool_shrinks (env : Env) (s : Node) : Shrinks s (s.evict_delta_pool env) := by
  have hstale : Shrinks s (s.drop_all s.stale_deltas) := by
    refine drop_all_shrinks fun id hid => ?_
    obtain ⟨e, he, rfl⟩ := List.mem_map.mp hid
    exact mem_pool_iff.mpr (by
      rw [Std.ExtTreeMap.mem_toList_iff_getElem?_eq_some.mp (List.mem_filter.mp he).1]; simp)
  unfold evict_delta_pool
  simp only
  split
  · refine hstale.trans (drop_all_shrinks fun id hid => ?_)
    obtain ⟨e, he, rfl⟩ := List.mem_map.mp hid
    have hby := (List.mem_insertionSort _).mp (List.mem_of_mem_take he)
    obtain ⟨k, -, hk⟩ := List.mem_filterMap.mp hby
    obtain ⟨t, ht, rfl⟩ := Option.map_eq_some_iff.mp hk
    exact mem_pool_iff.mpr (by simp [ht])
  · exact hstale

/-! ## Bookkeeping -/

theorem mark_seen_shrinks (s : Node) (txid : String) : Shrinks s (s.mark_seen txid) := by
  unfold mark_seen
  split
  · exact .refl s
  · exact .of_eq rfl rfl rfl rfl rfl rfl

theorem evict_account_pool_shrinks (env : Env) (s : Node) : Shrinks s (s.evict_account_pool env) := by
  unfold evict_account_pool
  exact .of_eq rfl rfl rfl rfl rfl rfl

theorem queue_pending_shrinks (env : Env) (s : Node) (bh : String) (sb : StoredBlock) (peer : PeerId) :
    Shrinks s (s.queue_pending env bh sb peer) := by
  unfold queue_pending
  simp only
  split
  · split <;> exact .of_eq rfl rfl rfl rfl rfl rfl
  · exact .of_eq rfl rfl rfl rfl rfl rfl

theorem park_shrinks (env : Env) (s : Node) (sb : StoredBlock) (source : Option PeerId) :
    Shrinks s (s.park env sb source) := by
  cases source with
  | none => exact .refl s
  | some peer => exact queue_pending_shrinks env s sb.hash sb peer

theorem drop_pending_shrinks (env : Env) (s : Node) (k : String) : Shrinks s (s.drop_pending env k) := by
  unfold drop_pending
  split
  · exact .of_eq rfl rfl rfl rfl rfl rfl
  · exact .refl s

theorem settle_account_shrinks (s : Node) (t : AccountTx) : Shrinks s (s.settle_account t) := by
  unfold settle_account
  have herase : Shrinks s { s with account_pool := s.account_pool.erase t.txid } := .of_eq rfl rfl rfl rfl rfl rfl
  exact herase.trans (mark_seen_shrinks _ _)

/-- An archive node prunes a body to its zone and no further. -/
theorem prune_old_bodies_shrinks (h : s.cfg.da_retain_blocks = 0) (head_h : UInt64) :
    Shrinks s (s.prune_old_bodies head_h) := by
  have hret : s.prune_retained head_h = s := by
    unfold prune_retained
    rw [if_neg (by simp [h])]
  unfold prune_old_bodies
  simp only [hret]
  split
  · exact .refl s
  · split
    · rename_i sb _
      have key : ∀ (ids : List String) (st : Store), Sound s.my_shard_zone st →
          Sound s.my_shard_zone (ids.foldl (fun st id => st.prune_body_to_shards id s.my_shard_zone) st) ∧
          ∀ id, st.dispersed id →
            (ids.foldl (fun st id => st.prune_body_to_shards id s.my_shard_zone) st).dispersed id := by
        intro ids
        induction ids with
        | nil => exact fun st hst => ⟨hst, fun _ h => h⟩
        | cons k ids ih =>
          intro st hst
          obtain ⟨hs, hk⟩ := hst.prune k
          obtain ⟨hs', hk'⟩ := ih _ hs
          exact ⟨hs', fun id hid => hk' id (hk id hid)⟩
      exact ⟨rfl, rfl, rfl, rfl, fun _ => .inl rfl, fun hs => (key sb.txids s.store hs).1,
        fun id hs hd _ => (key sb.txids s.store hs).2 id hd⟩
    · exact .refl s

theorem on_head_advance_shrinks (env : Env) (h : s.cfg.da_retain_blocks = 0) : Shrinks s (s.on_head_advance env) := by
  unfold on_head_advance
  simp only
  have hevict := (evict_delta_pool_shrinks env s).trans (evict_account_pool_shrinks env _)
  have hdrop := hevict.trans (Shrinks.foldl (drop_pending_shrinks env)
    ((s.evict_delta_pool env).evict_account_pool env).pending.keys _)
  exact hdrop.trans (prune_old_bodies_shrinks (by rw [hdrop.cfg, h]) _)

variable [Serde]

theorem preload_shrinks (s : Node) (ids : List String) : Shrinks s (s.preload ids) := by
  refine Shrinks.foldl (fun s id => ?_) ids s
  split
  · exact .refl s
  · split
    · exact .of_eq rfl rfl rfl rfl rfl rfl
    · exact .refl s

theorem recover_shrinks (s : Node) (ids : List String) : Shrinks s (s.recover ids) := by
  refine Shrinks.foldl (fun s id => ?_) ids s
  split
  · exact .refl s
  · split
    · exact .of_eq rfl rfl rfl rfl rfl rfl
    · exact .refl s

/-! ## Bodies that arrive -/

omit [Serde] in
/-- The disk may gain bodies and shards. -/
theorem Shrinks.of_store {st : Store}
    (h : Sound s.my_shard_zone s.store → Sound s.my_shard_zone st ∧ ∀ id, s.store.dispersed id → st.dispersed id) :
    Shrinks s { s with store := st } :=
  ⟨rfl, rfl, rfl, rfl, fun _ => .inl rfl, fun hs => (h hs).1, fun id hs hd _ => (h hs).2 id hd⟩

theorem put_payload_shrinks (s : Node) (txid : String) (p : Payload) :
    Shrinks s { s with store := s.store.put_payload txid p } :=
  .of_store fun hs => ⟨(hs.put_payload s.zone_lt txid p).1, (hs.put_payload s.zone_lt txid p).2.2⟩

theorem keep_payload_shrinks (s : Node) (e : String × Payload) : Shrinks s (s.keep_payload e) := by
  unfold keep_payload
  split
  · exact .refl s
  · exact put_payload_shrinks s e.1 e.2

omit [Serde] in
theorem put_shards_shrinks (s : Node) (b : BodyShards) : Shrinks s { s with store := put_shards s.store b } := by
  refine .of_store ?_
  unfold put_shards
  generalize s.store = st
  induction b.shards generalizing st with
  | nil => exact fun hs => ⟨hs, fun _ h => h⟩
  | cons sh shs ih =>
    intro hs
    rw [List.foldl_cons]
    split
    · rename_i bytes _
      obtain ⟨hs', hk⟩ := hs.put_shard b.txid sh.1 bytes b.k b.n b.orig_len
      obtain ⟨hs'', hk'⟩ := ih _ hs'
      exact ⟨hs'', fun id hid => hk' id (hk id hid)⟩
    · exact ih _ hs

theorem rebuild_shrinks (s : Node) (txid : String) : Shrinks s (s.rebuild txid) := by
  unfold rebuild
  split
  · split
    · exact put_payload_shrinks s txid _
    · exact .refl s
  · exact .refl s

end Node

end Sestrian
