import Sestrian.Node.Steps

/-!
# Bodies of included deltas

Membership in the pool is the only guard before a body is deleted. It is a good guard as long
as no delta enters the pool after a block that holds it: then what is included and what is in
the pool never meet, and every included body keeps its file or the shards of the node's zone.
-/

namespace Sestrian

open Store

variable [Crypto] [Serde]

namespace Node

variable {s s' : Node} {env : Env}

/-! ## The invariant -/

/-- The id of a delta in an installed block. -/
def Included (s : Node) (id : String) : Prop := ∃ bh sb, s.blocks_full[(bh : String)]? = some sb ∧ id ∈ sb.txids

/-- What is included and what is in the pool never meet, and both are on disk. -/
structure Guarded (s : Node) : Prop where
  archive : s.cfg.da_retain_blocks = 0
  sound : Sound s.my_shard_zone s.store
  held : ∀ id, s.Included id → s.store.dispersed id ∧ id ∉ s.delta_pool
  pooled : ∀ id ∈ s.delta_pool, s.store.dispersed id
  named : ∀ (id : String) tx, s.delta_pool[id]? = some tx → tx.txid = id

/-- Every block of the tree but genesis came through the node. -/
def Stored (s : Node) : Prop :=
  ∀ bh ∈ s.tree.blocks, bh = s.tree.genesis_hash ∨ ∃ sb, s.blocks_full[(bh : String)]? = some sb ∧ sb.hash = bh

omit [Serde] in
theorem Guarded.shrinks (h : Guarded s) (hs : Shrinks s s') : Guarded s' where
  archive := hs.cfg ▸ h.archive
  sound := my_shard_zone_congr hs.key ▸ hs.sound h.sound
  held id hid := by
    unfold Included at hid
    rw [hs.full] at hid
    obtain ⟨hd, hn⟩ := h.held id hid
    exact ⟨hs.kept id h.sound hd (.inr hn), fun hm => hn (hs.mem hm)⟩
  pooled id hid := hs.kept id h.sound (h.pooled id (hs.mem hid)) (.inl hid)
  named id tx htx := by
    rcases hs.pool id with heq | hnone
    · exact h.named id tx (heq ▸ htx)
    · rw [hnone] at htx
      cases htx

omit [Serde] in
theorem Stored.shrinks (h : Stored s) (hs : Shrinks s s') : Stored s' := by
  unfold Stored
  rw [hs.tree, hs.full]
  exact h

omit [Serde] in
/-- The tree is not part of it. -/
theorem Guarded.tree (h : Guarded s) (tree : BlockTree) : Guarded { s with tree } :=
  ⟨h.archive, h.sound, h.held, h.pooled, h.named⟩

/-- What the disk holds after a delta was admitted. -/
theorem pool_delta_store (h : Sound s.my_shard_zone s.store) (tx : BackpropTx) (p : Payload) :
    Sound s.my_shard_zone (s.pool_delta tx p).store ∧ (s.pool_delta tx p).store.dispersed tx.txid ∧
    ∀ id, s.store.dispersed id → (s.pool_delta tx p).store.dispersed id := by
  have hst : ∀ (s : Node) (txid : String), (s.mark_seen txid).store = s.store := by
    intro s txid
    unfold mark_seen
    split <;> rfl
  obtain ⟨hput, hmade, hkeep⟩ := h.put_payload s.zone_lt tx.txid p
  unfold pool_delta
  simp only [hst]
  split
  · obtain ⟨hdisp, hkeep'⟩ := hput.disperse_payload s.zone_lt tx.txid p
    exact ⟨hdisp, hkeep' _ hmade, fun id hid => hkeep' id (hkeep id hid)⟩
  · exact ⟨hput, hmade, hkeep⟩

omit [Crypto] [Serde] in
theorem mark_seen_fields (s : Node) (txid : String) :
    (s.mark_seen txid).cfg = s.cfg ∧ (s.mark_seen txid).key = s.key ∧ (s.mark_seen txid).tree = s.tree ∧
    (s.mark_seen txid).blocks_full = s.blocks_full ∧ (s.mark_seen txid).delta_pool = s.delta_pool := by
  unfold mark_seen
  split <;> exact ⟨rfl, rfl, rfl, rfl, rfl⟩

theorem pool_delta_fields (s : Node) (tx : BackpropTx) (p : Payload) :
    (s.pool_delta tx p).cfg = s.cfg ∧ (s.pool_delta tx p).key = s.key ∧ (s.pool_delta tx p).blocks_full = s.blocks_full ∧
    (s.pool_delta tx p).delta_pool = s.delta_pool.insert tx.txid tx ∧
    (s.pool_delta tx p).tree = { s.tree with hash_verified := s.tree.hash_verified.insert tx.txid } := by
  obtain ⟨hcfg, hkey, htree, hfull, hpool⟩ := mark_seen_fields
    { s with tree := { s.tree with hash_verified := s.tree.hash_verified.insert tx.txid } } tx.txid
  exact ⟨hcfg, hkey, hfull, congrArg (fun m : Dict BackpropTx => m.insert tx.txid tx) hpool, htree⟩

/-- A delta in no block may enter the pool. -/
theorem Guarded.pool_delta (h : Guarded s) {tx : BackpropTx} (hnew : ¬ s.Included tx.txid) (p : Payload) :
    Guarded (s.pool_delta tx p) := by
  obtain ⟨hcfg, hkey, hfull, hpool, -⟩ := pool_delta_fields s tx p
  obtain ⟨hsound, hmade, hkeep⟩ := pool_delta_store h.sound tx p
  refine ⟨hcfg ▸ h.archive, my_shard_zone_congr hkey ▸ hsound, fun id hid => ?_, fun id hid => ?_, fun id tx' htx => ?_⟩
  · unfold Included at hid
    rw [hfull] at hid
    obtain ⟨hd, hn⟩ := h.held id hid
    refine ⟨hkeep id hd, fun hm => ?_⟩
    rw [hpool, mem_insert_iff] at hm
    rcases hm with rfl | hm
    · exact hnew hid
    · exact hn hm
  · rw [hpool, mem_insert_iff] at hid
    rcases hid with rfl | hid
    · exact hmade
    · exact hkeep id (h.pooled id hid)
  · rw [hpool, SumMap.get_insert] at htx
    split at htx
    · rename_i heq
      rw [← Option.some.inj htx, heq]
    · exact h.named id tx' htx

/-- The gate lets a delta in no block in, or nothing. -/
theorem Guarded.accept_delta (h : Guarded s) {tx : BackpropTx} {p : Payload}
    (hnew : s.admits tx p → ¬ s.Included tx.txid) : Guarded (s.accept_delta env tx p).2 := by
  unfold Node.accept_delta
  split
  · rename_i hadm
    exact (h.pool_delta (hnew hadm) p).shrinks (evict_delta_pool_shrinks env _)
  · exact h

theorem Stored.accept_delta (h : Stored s) (tx : BackpropTx) (p : Payload) : Stored (s.accept_delta env tx p).2 := by
  unfold Node.accept_delta
  split
  · have hadm : Stored (s.pool_delta tx p) := by
      obtain ⟨-, -, hfull, -, htree⟩ := pool_delta_fields s tx p
      unfold Stored
      rw [hfull, htree]
      exact h
    exact hadm.shrinks (evict_delta_pool_shrinks env _)
  · exact h

/-! ## Installing -/

/-- Settling puts the bodies at hand on disk. -/
theorem settle_delta_store (h : Sound s.my_shard_zone s.store) (id : String) :
    Sound s.my_shard_zone (s.settle_delta id).store ∧
    (id ∈ s.payloads → (s.settle_delta id).store.dispersed id) ∧
    ∀ id', s.store.dispersed id' → (s.settle_delta id).store.dispersed id' := by
  unfold settle_delta
  simp only
  split
  · obtain ⟨hput, hmade, hkeep⟩ := h.put_payload s.zone_lt id ‹Payload›
    exact ⟨hput, fun _ => hmade, hkeep⟩
  · rename_i hnone
    refine ⟨h, fun hm => ?_, fun _ hd => hd⟩
    rw [Std.ExtTreeMap.mem_iff_isSome_getElem?, hnone] at hm
    cases hm

theorem settle_delta_fields (s : Node) (id : String) :
    (s.settle_delta id).key = s.key ∧ (s.settle_delta id).cfg = s.cfg ∧ (s.settle_delta id).tree = s.tree ∧
    (s.settle_delta id).blocks_full = s.blocks_full ∧ (s.settle_delta id).delta_pool = s.delta_pool.erase id ∧
    ∀ id' ∈ s.payloads, id' ∈ (s.settle_delta id).payloads ∨ id' = id := by
  unfold settle_delta
  simp only
  split
  · refine ⟨rfl, rfl, rfl, rfl, rfl, fun id' hid' => ?_⟩
    by_cases heq : id' = id
    · exact .inr heq
    · exact .inl (Std.ExtTreeMap.mem_erase.mpr ⟨fun hc => heq (Std.compare_eq_iff_eq.mp hc).symm, hid'⟩)
  · exact ⟨rfl, rfl, rfl, rfl, rfl, fun id' hid' => .inl hid'⟩

/-- Over all deltas of a block: each is on disk and out of the pool. -/
theorem settle_all (ids : List String) (s : Node) (h : Sound s.my_shard_zone s.store) :
    let s' := ids.foldl settle_delta s
    s'.key = s.key ∧ s'.cfg = s.cfg ∧ s'.tree = s.tree ∧ s'.blocks_full = s.blocks_full ∧
    (∀ id : String, s'.delta_pool[id]? = if id ∈ ids then none else s.delta_pool[id]?) ∧
    Sound s.my_shard_zone s'.store ∧ (∀ id, s.store.dispersed id → s'.store.dispersed id) ∧
    ∀ id ∈ ids, id ∈ s.payloads ∨ s.store.dispersed id → s'.store.dispersed id := by
  induction ids generalizing s with
  | nil => exact ⟨rfl, rfl, rfl, rfl, by simp, h, fun _ hd => hd, by simp⟩
  | cons k ids ih =>
    obtain ⟨hkey, hcfg, htree, hfull, hpool, hram⟩ := settle_delta_fields s k
    obtain ⟨hsound, hmade, hkeep⟩ := settle_delta_store h k
    have hz := my_shard_zone_congr hkey
    obtain ⟨hkey', hcfg', htree', hfull', hpool', hsound', hkeep', hput'⟩ := ih (s.settle_delta k) (hz ▸ hsound)
    refine ⟨hkey'.trans hkey, hcfg'.trans hcfg, htree'.trans htree, hfull'.trans hfull, fun id => ?_, hz ▸ hsound',
      fun id hd => hkeep' id (hkeep id hd), fun id hid hat => ?_⟩
    · rw [List.foldl_cons, hpool', hpool, SumMap.get_erase]
      by_cases hk : k = id
      · simp [hk]
      · simp [hk, Ne.symm hk]
    · rcases hat with hat | hd
      · rcases hram id hat with hram | rfl
        · rcases List.mem_cons.mp hid with rfl | hid
          · exact hkeep' id (hmade hat)
          · exact hput' id hid (.inl hram)
        · exact hkeep' id (hmade hat)
      · exact hkeep' id (hkeep id hd)

omit [Serde] in
/-- The blocks recorded after one more. -/
theorem included_insert {bh : String} {sb : StoredBlock} {id : String}
    (h : ({ s with blocks_full := s.blocks_full.insert bh sb } : Node).Included id) : s.Included id ∨ id ∈ sb.txids := by
  obtain ⟨bh', sb', hget, hid⟩ := h
  rw [SumMap.get_insert] at hget
  split at hget
  · exact .inr (Option.some.inj hget ▸ hid)
  · exact .inl ⟨bh', sb', hget, hid⟩

omit [Serde] in
/-- A block whose deltas are on disk and out of the pool may be recorded. -/
theorem Guarded.record (h : Guarded s) {bh : String} {sb : StoredBlock}
    (hids : ∀ id ∈ sb.txids, s.store.dispersed id ∧ id ∉ s.delta_pool) :
    Guarded { s with blocks_full := s.blocks_full.insert bh sb } :=
  { h with held := fun id hid => (included_insert hid).elim (h.held id) (hids id) }

omit [Serde] in
/-- The tree took the block, and the node records it. -/
theorem Stored.record {t : BlockTree} {b : Block} {sb : StoredBlock} (h : Stored s) (htree : s.tree = t)
    (hb : b.hash = sb.hash) :
    Stored { s with tree := (t.add_block b).2, blocks_full := s.blocks_full.insert sb.hash sb } := by
  intro bh hbh
  have hnew : bh = sb.hash → ∃ sb', (s.blocks_full.insert sb.hash sb)[bh]? = some sb' ∧ sb'.hash = bh := by
    intro heq
    exact ⟨sb, by rw [SumMap.get_insert, if_pos heq.symm], heq.symm⟩
  by_cases heq : bh = sb.hash
  · exact .inr (hnew heq)
  · rcases BlockTree.mem_add_block hbh with hold | ⟨hh, -⟩
    · rcases h bh (htree ▸ hold) with hgen | ⟨sb', hget, hhash⟩
      · exact .inl (hgen.trans ((congrArg BlockTree.genesis_hash htree).trans BlockTree.add_block_genesis.symm))
      · exact .inr ⟨sb', by rw [SumMap.get_insert, if_neg (Ne.symm heq)]; exact hget, hhash⟩
    · exact absurd (hh.trans hb) heq

omit [Crypto] [Serde] in
theorem filterMap_of_mapM {α β : Type} {f : α → Option β} {l : List α} {r : List β} (h : l.mapM f = some r) :
    l.filterMap f = r := by
  induction l generalizing r with
  | nil => simpa using h
  | cons a l ih =>
    simp only [List.mapM_cons, Option.bind_eq_bind, Option.bind_eq_some_iff, Option.pure_def, Option.some.injEq] at h
    obtain ⟨b, hb, rs, hrs, rfl⟩ := h
    rw [List.filterMap_cons, hb, ih hrs]

omit [Serde] in
theorem mem_of_insert_bodies {payloads : Dict Payload} {txs : List BackpropTx} {m m' : Dict SparseBody}
    (h : txs.foldlM (StoredBlock.insert_body payloads) m = some m') : ∀ t ∈ txs, t.txid ∈ payloads := by
  induction txs generalizing m with
  | nil => simp
  | cons t txs ih =>
    simp only [List.foldlM_cons, Option.bind_eq_bind, Option.bind_eq_some_iff] at h
    obtain ⟨m₁, hm₁, hrest⟩ := h
    simp only [StoredBlock.insert_body, Option.bind_eq_bind, Option.bind_eq_some_iff] at hm₁
    obtain ⟨p, hp, -⟩ := hm₁
    intro t' ht'
    rcases List.mem_cons.mp ht' with rfl | ht'
    · rw [Std.ExtTreeMap.mem_iff_isSome_getElem?, hp]
      rfl
    · exact ih hrest t' ht'

omit [Serde] in
/-- A block decodes only when all its bodies are at hand. -/
theorem to_core_sparse_spec {sb : StoredBlock} {payloads : Dict Payload} {b : Block}
    (h : sb.to_core_sparse payloads = some b) : b.hash = sb.hash ∧ ∀ id ∈ sb.txids, id ∈ payloads := by
  simp only [StoredBlock.to_core_sparse, Option.bind_eq_bind, Option.bind_eq_some_iff, Option.some.injEq] at h
  obtain ⟨txs, htxs, transfers, -, data_txs, -, sparse, hsparse, rfl⟩ := h
  refine ⟨rfl, fun id hid => ?_⟩
  rw [StoredBlock.txids, StoredBlock.deltas, filterMap_of_mapM htxs] at hid
  obtain ⟨t, ht, rfl⟩ := List.mem_map.mp hid
  exact mem_of_insert_bodies hsparse t ht

/-- What follows when the tree took the block keeps what is guarded. -/
theorem Guarded.installed (h : Guarded s) (env : Env) {sb : StoredBlock} (hids : ∀ id ∈ sb.txids, id ∈ s.payloads)
    (old_head : String) :
    Guarded (s.installed env sb old_head) ∧ (s.installed env sb old_head).tree = s.tree ∧
    (s.installed env sb old_head).blocks_full = s.blocks_full.insert sb.hash sb := by
  obtain ⟨hkey, hcfg, htree, hfull, hpool, hsound, hkeep, hput⟩ := settle_all sb.txids s h.sound
  have hz := my_shard_zone_congr hkey
  have hmem : ∀ id, id ∈ (sb.txids.foldl settle_delta s).delta_pool → id ∈ s.delta_pool ∧ id ∉ sb.txids := by
    intro id hm
    rw [mem_pool_iff, hpool] at hm
    split at hm
    · exact absurd rfl hm
    · exact ⟨mem_pool_iff.mpr hm, ‹_›⟩
  have hsettled : Guarded (sb.txids.foldl settle_delta s) := by
    refine ⟨hcfg ▸ h.archive, hz ▸ hsound, fun id hid => ?_, fun id hid => hkeep id (h.pooled id (hmem id hid).1),
      fun id tx htx => ?_⟩
    · unfold Included at hid
      rw [hfull] at hid
      exact ⟨hkeep id (h.held id hid).1, fun hm => (h.held id hid).2 (hmem id hm).1⟩
    · rw [hpool] at htx
      split at htx
      · cases htx
      · exact h.named id tx htx
  have haccounts := Shrinks.foldl settle_account_shrinks sb.account_txs (sb.txids.foldl settle_delta s)
  unfold Node.installed
  simp only
  have hrec : Guarded { sb.account_txs.foldl settle_account (sb.txids.foldl settle_delta s) with
      blocks_full := (sb.account_txs.foldl settle_account (sb.txids.foldl settle_delta s)).blocks_full.insert sb.hash sb } := by
    refine (hsettled.shrinks haccounts).record fun id hid => ?_
    have hn : id ∉ (sb.txids.foldl settle_delta s).delta_pool := fun hm => (hmem id hm).2 hid
    exact ⟨haccounts.kept id hsettled.sound (hput id hid (.inl (hids id hid))) (.inr hn), fun hm => hn (haccounts.mem hm)⟩
  have hfields := congrArg (fun m : Dict StoredBlock => m.insert sb.hash sb) (haccounts.full.trans hfull)
  split
  · have hadvance := on_head_advance_shrinks env hrec.archive
    exact ⟨hrec.shrinks hadvance, hadvance.tree.trans (haccounts.tree.trans htree), hadvance.full.trans hfields⟩
  · exact ⟨hrec, haccounts.tree.trans htree, hfields⟩

omit [Serde] in
theorem Stored.congr (h : Stored s) (htree : s'.tree = s.tree) (hfull : s'.blocks_full = s.blocks_full) : Stored s' := by
  unfold Stored
  rw [htree, hfull]
  exact h

/-- The two halves together. -/
structure Kept (s : Node) : Prop where
  guarded : Guarded s
  stored : Stored s

omit [Serde] in
theorem Kept.shrinks (h : Kept s) (hs : Shrinks s s') : Kept s' := ⟨h.guarded.shrinks hs, h.stored.shrinks hs⟩

theorem Kept.install (h : Kept s) (sb : StoredBlock) (source : Option PeerId) : Kept (s.install env sb source).2 := by
  have hpre := preload_shrinks s sb.txids
  have hk := h.shrinks hpre
  unfold Node.install
  split
  · exact h
  · simp only
    split
    · exact (hk.shrinks (recover_shrinks _ _)).shrinks (park_shrinks env _ sb source)
    · rename_i b hb
      obtain ⟨hhash, hids⟩ := to_core_sparse_spec hb
      split
      · rename_i x tree hadd
        have htree : tree = ((s.preload sb.txids).tree.add_block b).2 := by rw [hadd]
        obtain ⟨hg, ht, hf⟩ := (hk.guarded.tree tree).installed env hids (s.preload sb.txids).tree.head
        refine ⟨hg, ?_⟩
        refine (hk.stored.record (t := (s.preload sb.txids).tree) rfl hhash).congr ?_ hf
        exact ht.trans htree
      · rename_i e tree hadd
        have hkeep : Kept { s.preload sb.txids with tree } := by
          refine ⟨hk.guarded.tree tree, fun bh hbh => ?_⟩
          have htree : tree = ((s.preload sb.txids).tree.add_block b).2 := by rw [hadd]
          subst htree
          rcases BlockTree.mem_add_block hbh with hold | ⟨-, x, hok⟩
          · rw [BlockTree.add_block_genesis]
            exact hk.stored bh hold
          · rw [hadd] at hok
            cases hok
        split
        · exact hkeep.shrinks (park_shrinks env _ sb source)
        · exact hkeep

theorem Kept.retry_pending (h : Kept s) : Kept (s.retry_pending env) := by
  unfold Node.retry_pending
  simp only
  generalize (env.order s.pending.keys).filter _ = ready
  induction ready generalizing s with
  | nil => exact h
  | cons k ready ih =>
    refine ih ?_
    unfold retry_one
    split
    · rename_i sb peer _
      have herase : Shrinks s { s with pending := s.pending.erase k, pending_at := s.pending_at.erase k } :=
        .of_eq rfl rfl rfl rfl rfl rfl
      exact (h.shrinks herase).install sb (some peer)
    · exact h

/-! ## Producing -/

omit [Crypto] [Serde] in
theorem mem_pick {miners : List String} {room : Nat} {l : List BackpropTx} {t : BackpropTx}
    (h : t ∈ pick miners room l) : t ∈ l := by
  induction l generalizing miners room with
  | nil => cases room <;> simp [pick] at h
  | cons a l ih =>
    cases room with
    | zero => simp [pick] at h
    | succ room =>
      rw [pick] at h
      split at h
      · exact List.mem_cons_of_mem _ (ih h)
      · rcases List.mem_cons.mp h with rfl | h
        · exact List.mem_cons_self
        · exact List.mem_cons_of_mem _ (ih h)

omit [Serde] in
/-- The chosen deltas come from the pool. -/
theorem mem_chosen {model : ModelState} {t : BackpropTx} (h : t ∈ s.chosen model) :
    ∃ id : String, s.delta_pool[id]? = some t := by
  have hval := (List.mem_filter.mp ((List.mem_insertionSort _).mp (mem_pick h))).1
  obtain ⟨e, he, rfl⟩ := List.mem_map.mp hval
  exact ⟨e.1, Std.ExtTreeMap.mem_toList_iff_getElem?_eq_some.mp he⟩

omit [Serde] in
theorem build_candidate_spec {attempt : UInt64} {stored : StoredBlock} {b : Block}
    (h : s.build_candidate attempt = some (stored, b)) :
    b.hash = stored.hash ∧ ∃ model, stored.txs = (s.chosen model).map .from_core := by
  simp only [build_candidate, Option.bind_eq_bind, Option.bind_eq_some_iff] at h
  obtain ⟨model, -, h⟩ := h
  split at h
  · cases h
  · obtain ⟨led, -, h⟩ := Option.bind_eq_some_iff.mp h
    obtain ⟨rfl, rfl⟩ := Prod.mk.inj (Option.some.inj h)
    exact ⟨rfl, model, rfl⟩

omit [Crypto] [Serde] in
theorem to_core_from_core (t : BackpropTx) : (WireDeltaTx.from_core t).to_core = some t := by
  simp [WireDeltaTx.to_core, WireDeltaTx.from_core, hex_decode_encode]

omit [Serde] in
/-- The deltas of a candidate are in the pool, under their ids. -/
theorem Guarded.candidate_pooled (h : Guarded s) {attempt : UInt64} {stored : StoredBlock} {b : Block}
    (hc : s.build_candidate attempt = some (stored, b)) : ∀ id ∈ stored.txids, id ∈ s.delta_pool := by
  obtain ⟨-, model, htxs⟩ := build_candidate_spec hc
  intro id hid
  rw [StoredBlock.txids, StoredBlock.deltas, htxs, List.filterMap_map] at hid
  obtain ⟨t, ht, rfl⟩ := List.mem_map.mp hid
  obtain ⟨t', ht', heq⟩ := List.mem_filterMap.mp ht
  rw [Function.comp_apply, to_core_from_core] at heq
  obtain rfl := Option.some.inj heq
  obtain ⟨id, hget⟩ := mem_chosen ht'
  rw [h.named id _ hget, mem_pool_iff, hget]
  simp

omit [Serde] in
theorem Kept.propose (h : Kept s) (attempt : UInt64) : Kept (s.propose env attempt) := by
  unfold Node.propose
  split
  · exact h
  · rename_i stored b hc
    have hids := h.guarded.candidate_pooled hc
    split
    · rename_i e tree hadd
      refine ⟨h.guarded.tree tree, fun bh hbh => ?_⟩
      have htree : tree = (s.tree.add_block b).2 := by rw [hadd]
      subst htree
      rcases BlockTree.mem_add_block hbh with hold | ⟨-, x, hok⟩
      · rw [BlockTree.add_block_genesis]
        exact h.stored bh hold
      · rw [hadd] at hok
        cases hok
    · rename_i x tree hadd
      have htree : tree = (s.tree.add_block b).2 := by rw [hadd]
      simp only
      set r : Node := { s with
        tree
        delta_pool := stored.txids.foldl (fun m id => m.erase id) s.delta_pool
        delta_scores := stored.txids.foldl (fun m id => m.erase id) s.delta_scores
        delta_sketches := stored.txids.foldl (fun m id => m.erase id) s.delta_sketches
        account_pool := stored.account_txs.foldl (fun m t => m.erase (AccountTx.txid t)) s.account_pool
        blocks_full := s.blocks_full.insert stored.hash stored } with hr
      have hmem : ∀ id, id ∈ r.delta_pool → id ∈ s.delta_pool ∧ id ∉ stored.txids := by
        intro id hm
        rw [mem_pool_iff, hr, get_erase_all] at hm
        split at hm
        · exact absurd rfl hm
        · exact ⟨mem_pool_iff.mpr hm, ‹_›⟩
      have hg : Guarded r := by
        refine ⟨h.guarded.archive, h.guarded.sound, fun id hid => ?_, fun id hid => h.guarded.pooled id (hmem id hid).1,
          fun id tx htx => ?_⟩
        · rcases included_insert (s := s) hid with hold | hnew
          · exact ⟨(h.guarded.held id hold).1, fun hm => (h.guarded.held id hold).2 (hmem id hm).1⟩
          · exact ⟨h.guarded.pooled id (hids id hnew), fun hm => (hmem id hm).2 hnew⟩
        · rw [hr, get_erase_all] at htx
          split at htx
          · cases htx
          · exact h.guarded.named id tx htx
      have hstored : Stored r :=
        (h.stored.record rfl (build_candidate_spec hc).1).congr htree rfl
      exact (Kept.mk hg hstored).shrinks (on_head_advance_shrinks env hg.archive)

/-! ## The message loop -/

/-- A block holds the delta already, and the gate's window is still open to it. -/
def Late (s : Node) (t : BackpropTx) : Prop := s.Included t.txid ∧ delta_in_window t.base_height s.head_height

/-- No late delta is offered, unless the node remembers it. -/
def Timely (s : Node) : Msg → Prop
  | .Dtx tx _ => ∀ t, tx.to_core = some t → t.txid ∈ s.seen ∨ ¬ s.Late t
  | .ShardBatch _ bodies => ∀ b ∈ bodies, ∀ w, s.want_deltas[b.txid]? = some w → ∀ t, w.1.to_core = some t → ¬ s.Late t
  | _ => True

omit [Serde] in
/-- What the gate lets in is not remembered and in the window. -/
theorem admits_spec {tx : BackpropTx} {p : Payload} (h : s.admits tx p) :
    tx.txid ∉ s.seen ∧ delta_in_window tx.base_height s.head_height ∧
    ∃ coords, p.coords = some coords ∧ delta_hash_sparse p.n coords = tx.delta_hash := by
  unfold admits at h
  simp only [Bool.and_eq_true, Bool.not_eq_true', decide_eq_false_iff_not] at h
  obtain ⟨⟨hseen, -⟩, h⟩ := h
  split at h
  · cases h
  · rename_i coords hc
    simp only [Bool.and_eq_true, beq_iff_eq] at h
    exact ⟨hseen, h.1.2, coords, hc, h.1.1⟩

theorem Kept.accept_delta (h : Kept s) {tx : BackpropTx} (p : Payload) (hlate : tx.txid ∈ s.seen ∨ ¬ s.Late tx) :
    Kept (s.accept_delta env tx p).2 := by
  refine ⟨h.guarded.accept_delta fun hadm hinc => ?_, h.stored.accept_delta tx p⟩
  obtain ⟨hseen, hwin, -⟩ := admits_spec hadm
  exact hlate.elim hseen fun hn => hn ⟨hinc, hwin⟩

theorem Kept.handle_dtx (h : Kept s) (tx : WireDeltaTx) (p : Payload) (ht : s.Timely (.Dtx tx p)) :
    Kept (s.handle_dtx env tx p) := by
  unfold Node.handle_dtx
  split
  · exact h
  · rename_i t htx
    refine Kept.retry_pending ?_
    split
    · unfold announce
      split
      · rename_i p' _
        have hram : Shrinks s { s with payloads := s.payloads.insert t.txid p' } := .of_eq rfl rfl rfl rfl rfl rfl
        exact (h.shrinks hram).accept_delta p' (ht t htx)
      · split
        · exact h.shrinks (.of_eq rfl rfl rfl rfl rfl rfl)
        · exact h
    · exact h.accept_delta p (ht t htx)

omit [Crypto] [Serde] in
theorem drop_all_rest (ids : List String) (s : Node) :
    (s.drop_all ids).want_deltas = s.want_deltas ∧ (s.drop_all ids).pending = s.pending ∧
    (s.drop_all ids).seen = s.seen := by
  induction ids generalizing s with
  | nil => exact ⟨rfl, rfl, rfl⟩
  | cons id ids ih => exact ih (s.drop_pool_delta id)

omit [Crypto] [Serde] in
theorem evict_delta_pool_rest (env : Env) (s : Node) :
    (s.evict_delta_pool env).want_deltas = s.want_deltas ∧ (s.evict_delta_pool env).pending = s.pending ∧
    (s.evict_delta_pool env).seen = s.seen := by
  obtain ⟨hwant, hpend, hseen⟩ := drop_all_rest s.stale_deltas s
  unfold evict_delta_pool
  simp only
  split
  · obtain ⟨hwant', hpend', hseen'⟩ := drop_all_rest ((s.drop_all s.stale_deltas).excess_deltas env)
      (s.drop_all s.stale_deltas)
    exact ⟨hwant'.trans hwant, hpend'.trans hpend, hseen'.trans hseen⟩
  · exact ⟨hwant, hpend, hseen⟩

omit [Serde] in
theorem late_congr {t : BackpropTx} (hfull : s'.blocks_full = s.blocks_full) (hblocks : s'.tree.blocks = s.tree.blocks)
    (hhead : s'.tree.head = s.tree.head) : s'.Late t ↔ s.Late t := by
  unfold Late Included head_height
  rw [hfull, hblocks, hhead]

theorem accept_delta_frame (env : Env) (s : Node) (tx : BackpropTx) (p : Payload) :
    (s.accept_delta env tx p).2.want_deltas = s.want_deltas ∧
    ∀ t, (s.accept_delta env tx p).2.Late t ↔ s.Late t := by
  unfold accept_delta
  split
  · obtain ⟨-, -, hfull, -, htree⟩ := pool_delta_fields s tx p
    have hshrink := evict_delta_pool_shrinks env (s.pool_delta tx p)
    refine ⟨(evict_delta_pool_rest env _).1.trans ?_, fun t => ?_⟩
    · unfold pool_delta mark_seen
      simp only
      split <;> rfl
    · exact late_congr (hshrink.full.trans hfull) (by rw [hshrink.tree, htree]) (by rw [hshrink.tree, htree])
  · exact ⟨rfl, fun _ => .rfl⟩

/-- No delta that waits for one of these bodies is late. -/
def WantTimely (s : Node) (ids : List String) : Prop :=
  ∀ id ∈ ids, ∀ w, s.want_deltas[(id : String)]? = some w → ∀ t, w.1.to_core = some t → ¬ s.Late t

theorem Kept.fulfil (h : Kept s) {id : String} {ids : List String} (hid : id ∈ ids) (ht : WantTimely s ids) :
    Kept (s.fulfil env id) ∧ WantTimely (s.fulfil env id) ids := by
  unfold Node.fulfil
  split
  · exact ⟨h, ht⟩
  · rename_i wtx _ hw
    split
    · refine ⟨h.shrinks (.of_eq rfl rfl rfl rfl rfl rfl), fun id' hid' w hw' t htx => ?_⟩
      rw [SumMap.get_insert] at hw'
      refine (late_congr rfl rfl rfl).not.mpr ?_
      split at hw'
      · obtain rfl := Option.some.inj hw'
        exact ht id hid _ hw t htx
      · exact ht id' hid' w hw' t htx
    · rename_i p _
      have herase : Shrinks s { s with want_deltas := s.want_deltas.erase id } := .of_eq rfl rfl rfl rfl rfl rfl
      have hwant : WantTimely { s with want_deltas := s.want_deltas.erase id } ids := by
        intro id' hid' w hw' t htx
        rw [SumMap.get_erase] at hw'
        refine (late_congr rfl rfl rfl).not.mpr ?_
        split at hw'
        · cases hw'
        · exact ht id' hid' w hw' t htx
      simp only
      split
      · rename_i t htx
        refine ⟨(h.shrinks herase).accept_delta p (.inr ?_), ?_⟩
        · exact (late_congr rfl rfl rfl).not.mpr (ht id hid _ hw t htx)
        · obtain ⟨hsame, hlate⟩ := accept_delta_frame env { s with want_deltas := s.want_deltas.erase id } t p
          intro id' hid' w hw' t' htx'
          rw [hsame] at hw'
          exact (hlate t').not.mpr (hwant id' hid' w hw' t' htx')
      · exact ⟨h.shrinks herase, hwant⟩

theorem rebuild_want (s : Node) (txid : String) : (s.rebuild txid).want_deltas = s.want_deltas := by
  unfold rebuild
  split
  · split <;> rfl
  · rfl

theorem Kept.take_shards (h : Kept s) {b : BodyShards} {ids : List String} (hid : b.txid ∈ ids) (ht : WantTimely s ids) :
    Kept (s.take_shards env b) ∧ WantTimely (s.take_shards env b) ids := by
  have hbuild := (put_shards_shrinks s b).trans (rebuild_shrinks _ b.txid)
  refine (h.shrinks hbuild).fulfil hid fun id hid w hw t htx => ?_
  rw [rebuild_want] at hw
  exact (late_congr hbuild.full (by rw [hbuild.tree]) (by rw [hbuild.tree])).not.mpr (ht id hid w hw t htx)

theorem Kept.handle_shard_batch (h : Kept s) {current : Bool} {bodies : List BodyShards}
    (ht : s.Timely (.ShardBatch current bodies)) : Kept (s.handle_shard_batch env current bodies) := by
  have hall : ∀ (bs : List BodyShards) (s : Node), (∀ b ∈ bs, b ∈ bodies) → Kept s →
      WantTimely s (bodies.map (·.txid)) → Kept (bs.foldl (Node.take_shards env) s) := by
    intro bs
    induction bs with
    | nil => exact fun s _ h _ => h
    | cons b bs ih =>
      intro s hsub h hw
      obtain ⟨hb, hbs⟩ := List.forall_mem_cons.mp hsub
      obtain ⟨hk, hw'⟩ : Kept (s.take_shards env b) ∧ _ := h.take_shards (List.mem_map_of_mem hb) hw
      exact ih _ hbs hk hw'
  have hk := hall bodies s (fun _ hb => hb) h fun id hid => by
    obtain ⟨b, hb, rfl⟩ := List.mem_map.mp hid
    exact ht b hb
  unfold Node.handle_shard_batch
  simp only
  split
  · split
    · exact hk.retry_pending.shrinks (.of_eq rfl rfl rfl rfl rfl rfl)
    · exact hk.retry_pending
  · exact hk

theorem Kept.handle_sync_batch (h : Kept s) (peer : PeerId) (blocks : List StoredBlock)
    (payloads : List (String × Payload)) : Kept (s.handle_sync_batch env peer blocks payloads) := by
  have hkeep := h.shrinks (Shrinks.foldl keep_payload_shrinks payloads s)
  have hall : ∀ (l : List StoredBlock) (s : Node), Kept s →
      Kept (l.foldl (fun s sb => (s.install env sb (some peer)).2) s) := by
    intro l
    induction l with
    | nil => exact fun s h => h
    | cons sb l ih => exact fun s h => ih _ (h.install sb (some peer))
  have hr : Kept (Node.retry_pending env _) := (hall blocks _ hkeep).retry_pending
  unfold Node.handle_sync_batch
  simp only
  split
  · exact hr
  · exact hr.shrinks (.of_eq rfl rfl rfl rfl rfl rfl)

/-- One step keeps the bodies, when it offers no late delta. -/
theorem Kept.handle (h : Kept s) (m : Env × Msg) (ht : s.Timely m.2) : Kept (s.handle m) := by
  obtain ⟨env, m⟩ := m
  cases m with
  | Dtx tx p => exact h.handle_dtx tx p ht
  | Atx v =>
    unfold Node.handle
    simp only
    split
    · rename_i t _
      unfold accept_account_tx
      split
      · exact h
      · have hpool : Shrinks (s.mark_seen t.txid) { s.mark_seen t.txid with
            account_pool := (s.mark_seen t.txid).account_pool.insert t.txid t } := .of_eq rfl rfl rfl rfl rfl rfl
        exact h.shrinks (((mark_seen_shrinks s t.txid).trans hpool).trans (evict_account_pool_shrinks env _))
    · exact h
  | Blk sb source => exact (h.install sb source).retry_pending
  | SyncBatch peer blocks payloads => exact h.handle_sync_batch peer blocks payloads
  | ShardBatch current bodies => exact h.handle_shard_batch ht
  | Scores height scores sketches =>
    unfold Node.handle handle_scores
    simp only
    split
    · exact h.shrinks (.of_eq rfl rfl rfl rfl rfl rfl)
    · exact h
  | Propose attempt => exact h.propose attempt

theorem run_cons (s : Node) (m : Env × Msg) (ms : List (Env × Msg)) : s.run (m :: ms) = (s.handle m).run ms := rfl

/-- Every step of the run meets the condition in the state it finds. -/
def AllTimely (s : Node) : List (Env × Msg) → Prop
  | [] => True
  | m :: ms => s.Timely m.2 ∧ AllTimely (s.handle m) ms

theorem Kept.run {ms : List (Env × Msg)} (h : Kept s) (ht : AllTimely s ms) : Kept (s.run ms) := by
  induction ms generalizing s with
  | nil => exact h
  | cons m ms ih => exact ih (h.handle m ht.1) ht.2

omit [Serde] in
theorem new_blocks (genesis_w : List Int64) (dc : Option String) (params : GenesisParams) :
    ∀ bh ∈ (BlockTree.new genesis_w dc params).blocks, bh = (BlockTree.new genesis_w dc params).genesis_hash := by
  intro bh hbh
  rcases (mem_insert_iff _ _ _ _).mp hbh with rfl | hbh
  · rfl
  · exact absurd hbh Std.ExtTreeMap.not_mem_empty

end Node

end Sestrian
