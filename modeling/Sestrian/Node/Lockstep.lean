import Sestrian.Node.Trims

/-!
# The mempools in step

Every handler keeps the invariant, and so does every run whose events are careful.
-/

namespace Sestrian

open Bounded

variable [Crypto] [Serde]

namespace Node

variable {s s' : Node} {env : Env}

/-! ## A block is recorded -/

/-- A settled delta is out of the pool. -/
theorem settle_delta_trims (s : Node) (id : String) : Trims s (s.settle_delta id) ∧ id ∉ (s.settle_delta id).delta_pool := by
  have hgone : id ∉ without s.delta_pool [id] := by simp [mem_without]
  unfold settle_delta
  simp only
  split
  · refine ⟨.of_without [id] (without s.payloads [id]) rfl ?_ le_rfl, hgone⟩
    exact fun k hk hb => mem_without.mpr ⟨hb, hk⟩
  · exact ⟨.of_without [id] s.payloads rfl (fun _ _ hb => hb) le_rfl, hgone⟩

theorem settle_deltas_trims (ids : List String) (s : Node) :
    Trims s (ids.foldl settle_delta s) ∧ ∀ id ∈ ids, id ∉ (ids.foldl settle_delta s).delta_pool := by
  induction ids generalizing s with
  | nil => exact ⟨.refl s, by simp⟩
  | cons k ids ih =>
    obtain ⟨hk, hgone⟩ := settle_delta_trims s k
    obtain ⟨hall, hout⟩ := ih (s.settle_delta k)
    refine ⟨hk.trans hall, fun id hid => ?_⟩
    rcases List.mem_cons.mp hid with rfl | hid
    · exact fun hm => hgone (hall.mem hm)
    · exact hout id hid

omit [Serde] in
theorem settle_account_trims (s : Node) (t : AccountTx) : Trims s (s.settle_account t) := by
  have herase : Trims s { s with account_pool := s.account_pool.erase t.txid } :=
    ⟨rfl, rfl, UInt64.le_refl _, fun _ => .inl rfl, fun _ h => ⟨h, id⟩, fun _ h => ⟨h, id⟩, fun _ _ h => h, id, le_rfl,
      Std.ExtTreeMap.size_erase_le⟩
  exact herase.trans (mark_seen_trims _ _)

omit [Serde] in
/-- A block whose deltas have left the pool. -/
theorem Orderly.record (h : Orderly s) (bh : String) {sb : StoredBlock} (hout : ∀ id ∈ sb.txids, id ∉ s.delta_pool) :
    Orderly { s with blocks_full := s.blocks_full.insert bh sb } := by
  refine ⟨⟨h.aligned.scores, h.aligned.sketches, h.aligned.bodies, h.aligned.ring, fun id t ht => ?_⟩, h.deltas, h.accounts⟩
  refine (h.aligned.apart id t ht).imp_right fun hall bh' sb' hsb hid => ?_
  rw [SumMap.get_insert] at hsb
  split at hsb
  · obtain rfl := Option.some.inj hsb
    exact absurd (mem_pool_iff.mpr (by rw [ht]; simp)) (hout id hid)
  · exact hall bh' sb' hsb hid

theorem Orderly.installed (h : Orderly s) (sb : StoredBlock) (old_head : String) :
    Orderly (s.installed env sb old_head) := by
  obtain ⟨hdeltas, hout⟩ := settle_deltas_trims sb.txids s
  have haccounts := Trims.foldl settle_account_trims sb.account_txs (sb.txids.foldl settle_delta s)
  have hrecorded := (h.trims (hdeltas.trans haccounts)).record sb.hash fun id hid hm =>
    hout id hid (haccounts.mem hm)
  unfold Node.installed
  simp only
  split
  · exact hrecorded.trims (on_head_advance_trims env hrecorded.aligned)
  · exact hrecorded

theorem Orderly.install (h : Orderly s) (sb : StoredBlock) (source : Option PeerId) :
    Orderly (s.install env sb source).2 := by
  have hpre := h.trims (preload_trims s sb.txids)
  unfold Node.install
  split
  · exact h
  · simp only
    split
    · exact hpre.trims ((recover_trims _ sb.txids).trans (park_trims env _ sb source))
    · split
      · refine Orderly.installed ?_ sb _
        exact hpre.trims (.of_eq rfl)
      · simp only
        split
        · refine Orderly.trims ?_ (park_trims env _ sb source)
          exact hpre.trims (.of_eq rfl)
        · exact hpre.trims (.of_eq rfl)

theorem Orderly.retry_pending (h : Orderly s) : Orderly (s.retry_pending env) := by
  unfold Node.retry_pending
  simp only
  generalize (env.order s.pending.keys).filter _ = ready
  induction ready generalizing s with
  | nil => exact h
  | cons k ready ih =>
    refine ih (s := s.retry_one env k) ?_
    unfold retry_one
    split
    · refine Orderly.install ?_ _ _
      exact h.trims (.of_eq rfl)
    · exact h

/-! ## A delta is admitted -/

omit [Serde] in
/-- A delta enters the pool together with its body. -/
theorem Aligned.let_in (h : Aligned s) {id : String} {tx : BackpropTx} {p : Payload} (hstep : s'.mempool =
      { s.mempool with payloads := s.payloads.insert id p, delta_pool := s.delta_pool.insert id tx })
    (hapart : s.Apart id tx.base_height) : Aligned s' := by
  have hpool : s'.delta_pool = s.delta_pool.insert id tx := congrArg Mempool.delta_pool hstep
  have hscores : s'.delta_scores = s.delta_scores := congrArg Mempool.delta_scores hstep
  have hsketches : s'.delta_sketches = s.delta_sketches := congrArg Mempool.delta_sketches hstep
  have hbodies : s'.payloads = s.payloads.insert id p := congrArg Mempool.payloads hstep
  have hseen : s'.seen = s.seen := congrArg Mempool.seen hstep
  have horder : s'.seen_order = s.seen_order := congrArg Mempool.seen_order hstep
  have hfull : s'.blocks_full = s.blocks_full := congrArg Mempool.blocks_full hstep
  have hpruned : s'.da_pruned_to = s.da_pruned_to := congrArg Mempool.da_pruned_to hstep
  have hcfg : s'.cfg = s.cfg := congrArg Mempool.cfg hstep
  have hold {k : String} (hk : k ∈ s.delta_pool) : k ∈ s.delta_pool.insert id tx :=
    Std.ExtTreeMap.mem_insert.mpr (.inr hk)
  constructor
  · rw [hscores, hpool]
    exact fun k hk => hold (h.scores k hk)
  · rw [hsketches, hpool]
    exact fun k hk => hold (h.sketches k hk)
  · rw [hpool, hbodies]
    intro k hk
    exact Std.ExtTreeMap.mem_insert.mpr ((Std.ExtTreeMap.mem_insert.mp hk).imp_right (h.bodies k))
  · rw [hseen, horder]
    exact h.ring
  · intro k t ht
    refine Apart.mono ?_ hcfg hfull (hpruned ▸ UInt64.le_refl _)
    rw [hpool, SumMap.get_insert] at ht
    split at ht
    · next hk =>
      obtain rfl := Option.some.inj ht
      exact hk ▸ hapart
    · exact h.apart k t ht

theorem pool_delta_mempool (s : Node) (tx : BackpropTx) (p : Payload) :
    (s.pool_delta tx p).mempool = { (s.mark_seen tx.txid).mempool with
      payloads := (s.mark_seen tx.txid).payloads.insert tx.txid p
      delta_pool := (s.mark_seen tx.txid).delta_pool.insert tx.txid tx } := by
  unfold pool_delta mark_seen
  simp only
  split <;> rfl

theorem Orderly.accept_delta (h : Orderly s) (hfair : env.Fair) {tx : BackpropTx} (p : Payload)
    (hapart : s.admits tx p → s.Apart tx.txid tx.base_height) : Orderly (s.accept_delta env tx p).2 := by
  unfold Node.accept_delta
  split
  · next hadm =>
    have hmark := mark_seen_trims s tx.txid
    have hmarked := (hapart hadm).mono hmark.cfg hmark.full hmark.pruned
    have hstep := pool_delta_mempool s tx p
    have hpooled : Aligned (s.pool_delta tx p) := (h.trims hmark).aligned.let_in hstep hmarked
    have haccounts : (s.pool_delta tx p).account_pool = (s.mark_seen tx.txid).account_pool :=
      congrArg Mempool.account_pool hstep
    have hevict := evict_delta_pool_trims env (s.pool_delta tx p)
    refine ⟨hpooled.trims hevict, evict_delta_pool_cap hfair _, hevict.accounts.trans ?_⟩
    rw [haccounts]
    exact hmark.accounts.trans h.accounts
  · exact h

omit [Serde] in
theorem Orderly.accept_account_tx (h : Orderly s) (hfair : env.Fair) (t : AccountTx) :
    Orderly (s.accept_account_tx env t).2 := by
  unfold Node.accept_account_tx
  split
  · exact h
  · have hmarked := h.trims (mark_seen_trims s t.txid)
    obtain ⟨pool, hstep, -, hcap⟩ := evict_account_pool_spec env { s.mark_seen t.txid with
      account_pool := (s.mark_seen t.txid).account_pool.insert t.txid t }
    simp only
    rw [hstep]
    exact ⟨⟨hmarked.aligned.scores, hmarked.aligned.sketches, hmarked.aligned.bodies, hmarked.aligned.ring,
      hmarked.aligned.apart⟩, hmarked.deltas, hcap hfair⟩

/-! ## The handlers -/

theorem Orderly.handle_dtx (h : Orderly s) (hfair : env.Fair) (tx : WireDeltaTx) (p : Payload)
    (hapart : ∀ t, tx.to_core = some t → t.txid ∈ s.seen ∨ s.Apart t.txid t.base_height) :
    Orderly (s.handle_dtx env tx p) := by
  unfold Node.handle_dtx
  split
  · exact h
  · next t ht =>
    have hadmit {s' : Node} (hseen : s'.seen = s.seen) {p : Payload} (hadm : s'.admits t p) : s.Apart t.txid t.base_height :=
      (hapart t ht).resolve_left (hseen ▸ (admits_spec hadm).1)
    refine Orderly.retry_pending ?_
    split
    · unfold announce
      split
      · refine Orderly.accept_delta (h.trims (.of_payloads fun k _ hk => Std.ExtTreeMap.mem_insert.mpr (.inr hk))) hfair _
          fun hadm => ?_
        exact hadmit rfl hadm
      · split
        · exact h.trims (.of_eq rfl)
        · exact h
    · exact h.accept_delta hfair p fun hadm => hadmit rfl hadm

theorem keep_payload_trims (s : Node) (e : String × Payload) : Trims s (s.keep_payload e) := by
  unfold keep_payload
  split
  · exact .refl s
  · exact .of_eq rfl

theorem Orderly.handle_sync_batch (h : Orderly s) (peer : PeerId) (blocks : List StoredBlock)
    (payloads : List (String × Payload)) : Orderly (s.handle_sync_batch env peer blocks payloads) := by
  have hinstalled (l : List StoredBlock) {s : Node} (h : Orderly s) :
      Orderly (l.foldl (fun s sb => (s.install env sb (some peer)).2) s) := by
    induction l generalizing s with
    | nil => exact h
    | cons sb l ih => exact ih (h.install sb (some peer))
  have hretried : Orderly (Node.retry_pending env
      (blocks.foldl (fun s sb => (s.install env sb (some peer)).2) (payloads.foldl keep_payload s))) :=
    (hinstalled blocks (h.trims (Trims.foldl keep_payload_trims payloads s))).retry_pending
  unfold Node.handle_sync_batch
  simp only
  split
  · exact hretried
  · exact hretried.trims (.of_eq rfl)

/-- What waits for its body under one of these ids may be admitted. -/
def WantApart (s : Node) (ids : List String) : Prop :=
  ∀ id ∈ ids, ∀ w, s.want_deltas[(id : String)]? = some w → ∀ t, w.1.to_core = some t → s.Apart t.txid t.base_height

omit [Serde] in
theorem WantApart.mono {ids : List String} (h : WantApart s ids) (hcfg : s'.cfg = s.cfg)
    (hfull : s'.blocks_full = s.blocks_full) (hpruned : s.da_pruned_to ≤ s'.da_pruned_to)
    (hwant : ∀ id ∈ ids, ∀ w, s'.want_deltas[(id : String)]? = some w →
      ∃ id' ∈ ids, ∃ w', s.want_deltas[(id' : String)]? = some w' ∧ w'.1 = w.1) : WantApart s' ids := by
  intro id hid w hw t ht
  obtain ⟨id', hid', w', hw', heq⟩ := hwant id hid w hw
  exact (h id' hid' w' hw' t (heq ▸ ht)).mono hcfg hfull hpruned

theorem accept_delta_rest (env : Env) (s : Node) (tx : BackpropTx) (p : Payload) :
    (s.accept_delta env tx p).2.cfg = s.cfg ∧ (s.accept_delta env tx p).2.blocks_full = s.blocks_full ∧
      s.da_pruned_to ≤ (s.accept_delta env tx p).2.da_pruned_to := by
  unfold Node.accept_delta
  split
  · have hmark := mark_seen_trims s tx.txid
    have hstep := pool_delta_mempool s tx p
    have hevict := evict_delta_pool_trims env (s.pool_delta tx p)
    have hcfg : (s.pool_delta tx p).cfg = (s.mark_seen tx.txid).cfg := congrArg Mempool.cfg hstep
    have hfull : (s.pool_delta tx p).blocks_full = (s.mark_seen tx.txid).blocks_full :=
      congrArg Mempool.blocks_full hstep
    have hpruned : (s.pool_delta tx p).da_pruned_to = (s.mark_seen tx.txid).da_pruned_to :=
      congrArg Mempool.da_pruned_to hstep
    refine ⟨(hevict.cfg.trans hcfg).trans hmark.cfg, (hevict.full.trans hfull).trans hmark.full, ?_⟩
    exact UInt64.le_trans hmark.pruned (hpruned ▸ hevict.pruned)
  · exact ⟨rfl, rfl, UInt64.le_refl _⟩

theorem Orderly.fulfil (h : Orderly s) (hfair : env.Fair) {id : String} {ids : List String} (hid : id ∈ ids)
    (hw : WantApart s ids) : Orderly (s.fulfil env id) ∧ WantApart (s.fulfil env id) ids := by
  unfold Node.fulfil
  split
  · exact ⟨h, hw⟩
  · next wtx deadline hwtx =>
    split
    · refine ⟨h.trims (.of_eq rfl), hw.mono rfl rfl (UInt64.le_refl _) fun k hk w hkw => ?_⟩
      rw [SumMap.get_insert] at hkw
      split at hkw
      · obtain rfl := Option.some.inj hkw
        exact ⟨id, hid, _, hwtx, rfl⟩
      · exact ⟨k, hk, w, hkw, rfl⟩
    · next p _ =>
      have herased : WantApart { s with want_deltas := s.want_deltas.erase id } ids := by
        refine hw.mono rfl rfl (UInt64.le_refl _) fun k hk w hkw => ?_
        rw [SumMap.get_erase] at hkw
        split at hkw
        · cases hkw
        · exact ⟨k, hk, w, hkw, rfl⟩
      have horderly : Orderly { s with want_deltas := s.want_deltas.erase id } := h.trims (.of_eq rfl)
      simp only
      split
      · next t ht =>
        refine ⟨horderly.accept_delta hfair p fun _ => (hw id hid _ hwtx t ht).mono rfl rfl (UInt64.le_refl _), ?_⟩
        obtain ⟨hcfg, hfull, hpruned⟩ := accept_delta_rest env { s with want_deltas := s.want_deltas.erase id } t p
        obtain ⟨hwant, -⟩ := accept_delta_frame env { s with want_deltas := s.want_deltas.erase id } t p
        refine herased.mono hcfg hfull hpruned fun k hk w hkw => ?_
        rw [hwant] at hkw
        exact ⟨k, hk, w, hkw, rfl⟩
      · exact ⟨horderly, herased⟩

omit [Crypto] [Serde] in
theorem put_shards_trims (s : Node) (b : BodyShards) : Trims s { s with store := put_shards s.store b } := .of_eq rfl

theorem rebuild_trims (s : Node) (txid : String) : Trims s (s.rebuild txid) := by
  unfold rebuild
  split
  · split
    · exact .of_eq rfl
    · exact .refl s
  · exact .refl s

theorem Orderly.take_shards (h : Orderly s) (hfair : env.Fair) {b : BodyShards} {ids : List String}
    (hid : b.txid ∈ ids) (hw : WantApart s ids) :
    Orderly (s.take_shards env b) ∧ WantApart (s.take_shards env b) ids := by
  have hbuilt := (put_shards_trims s b).trans (rebuild_trims { s with store := put_shards s.store b } b.txid)
  refine (h.trims hbuilt).fulfil hfair hid (hw.mono hbuilt.cfg hbuilt.full hbuilt.pruned fun k hk w hkw => ?_)
  rw [rebuild_want] at hkw
  exact ⟨k, hk, w, hkw, rfl⟩

theorem Orderly.handle_shard_batch (h : Orderly s) (hfair : env.Fair) {current : Bool} {bodies : List BodyShards}
    (hw : WantApart s (bodies.map (·.txid))) : Orderly (s.handle_shard_batch env current bodies) := by
  have htaken (bs : List BodyShards) {s : Node} (hsub : ∀ b ∈ bs, b ∈ bodies) (h : Orderly s)
      (hw : WantApart s (bodies.map (·.txid))) : Orderly (bs.foldl (Node.take_shards env) s) := by
    induction bs generalizing s with
    | nil => exact h
    | cons b bs ih =>
      obtain ⟨hb, hbs⟩ := List.forall_mem_cons.mp hsub
      obtain ⟨hnext, hw'⟩ := h.take_shards hfair (List.mem_map_of_mem hb) hw
      exact ih hbs hnext hw'
  have hall := htaken bodies (fun _ hb => hb) h hw
  unfold Node.handle_shard_batch
  simp only
  split
  · split
    · exact hall.retry_pending.trims (.of_eq rfl)
    · exact hall.retry_pending
  · exact hall

omit [Crypto] [Serde] in
/-- Scores and sketches are taken for deltas of the pool. -/
theorem mem_insert_pooled {ν β : Type} {pool : Dict BackpropTx} (f : β → ν) (l : List (String × β)) (m : Dict ν)
    (h : ∀ id ∈ m, id ∈ pool) :
    ∀ id ∈ (l.filter fun e => pool.contains e.1).foldl (fun m e => m.insert e.1 (f e.2)) m, id ∈ pool := by
  induction l generalizing m with
  | nil => exact h
  | cons e l ih =>
    rw [List.filter_cons]
    split
    · next he =>
      refine ih (m.insert e.1 (f e.2)) fun id hid => ?_
      rcases Std.ExtTreeMap.mem_insert.mp hid with hk | hid
      · exact Std.compare_eq_iff_eq.mp hk ▸ Std.ExtTreeMap.contains_iff_mem.mp he
      · exact h id hid
    · exact ih m h

omit [Serde] in
theorem Orderly.handle_scores (h : Orderly s) (height : UInt64) (scores : List (String × UInt64))
    (sketches : List (String × List Int32)) : Orderly (s.handle_scores height scores sketches) := by
  unfold Node.handle_scores
  split
  · exact ⟨⟨mem_insert_pooled (min · SCORE_CAP) scores s.delta_scores h.aligned.scores,
      mem_insert_pooled resize_sketch sketches s.delta_sketches h.aligned.sketches, h.aligned.bodies, h.aligned.ring,
      h.aligned.apart⟩, h.deltas, h.accounts⟩
  · exact h

omit [Serde] in
theorem Orderly.propose (h : Orderly s) (attempt : UInt64) : Orderly (s.propose env attempt) := by
  unfold Node.propose
  split
  · exact h
  · next stored block _ =>
    split
    · exact h.trims (.of_eq rfl)
    · next tree _ =>
      have htaken : Trims s { s with
          tree
          delta_pool := stored.txids.foldl (fun m id => m.erase id) s.delta_pool
          delta_scores := stored.txids.foldl (fun m id => m.erase id) s.delta_scores
          delta_sketches := stored.txids.foldl (fun m id => m.erase id) s.delta_sketches
          account_pool := stored.account_txs.foldl (fun m t => m.erase (AccountTx.txid t)) s.account_pool } := by
        refine .of_without stored.txids s.payloads rfl (fun _ _ hb => hb) ?_
        have hfold : stored.account_txs.foldl (fun m t => m.erase (AccountTx.txid t)) s.account_pool =
            without s.account_pool (stored.account_txs.map AccountTx.txid) := by
          rw [without, List.foldl_map]
        exact hfold ▸ size_without_le _ _
      have hrecorded := (h.trims htaken).record stored.hash fun id hid hm => (mem_without.mp hm).2 hid
      exact hrecorded.trims (on_head_advance_trims env hrecorded.aligned)

theorem Orderly.handle_delta (h : Orderly s) (hfair : env.Fair) (height : UInt64) (pages : List UInt32)
    (data_refs : List String) (payload : Payload)
    (hapart : (s.own_delta height pages data_refs payload).txid ∈ s.seen ∨
      s.Apart (s.own_delta height pages data_refs payload).txid (s.own_delta height pages data_refs payload).base_height) :
    Orderly (s.handle_delta env height pages data_refs payload) := by
  unfold Node.handle_delta
  split
  · exact h
  · exact h.accept_delta hfair payload fun hadm => hapart.resolve_left (admits_spec hadm).1

omit [Serde] in
theorem Orderly.on_fraud_proof (h : Orderly s) (verdict : Option (Bool × String)) (header : Option Header) :
    Orderly (s.on_fraud_proof env verdict header) := by
  unfold Node.on_fraud_proof
  split
  · split
    · exact h
    · split
      · refine Orderly.trims ?_ (on_head_advance_trims env ?_)
        · exact h.trims (.of_eq rfl)
        · exact h.aligned.trims (.of_eq rfl)
      · exact h.trims (.of_eq rfl)
  · exact h

/-! ## Runs -/

/-- What the events may rely on, between any two of them. -/
structure Lockstep (s : Node) : Prop where
  scores : ∀ id ∈ s.delta_scores, id ∈ s.delta_pool
  sketches : ∀ id ∈ s.delta_sketches, id ∈ s.delta_pool
  bodies : ∀ id ∈ s.delta_pool, id ∈ s.payloads
  deltas : s.delta_pool.size ≤ MAX_DELTA_POOL
  accounts : s.account_pool.size ≤ MAX_ACCOUNT_POOL
  seen : ∀ id, id ∈ s.seen ↔ id ∈ s.seen_order
  nodup : s.seen_order.Nodup
  ring : s.seen_order.length ≤ MAX_SEEN

omit [Serde] in
theorem Orderly.lockstep (h : Orderly s) : Lockstep s :=
  ⟨h.aligned.scores, h.aligned.sketches, h.aligned.bodies, h.deltas, h.accounts, h.aligned.ring.same,
    h.aligned.ring.nodup, h.aligned.ring.short⟩

omit [Serde] in
theorem orderly_start (tree : BlockTree) (key : Key) (cfg : NodeConfig) : Orderly (start tree key cfg) := by
  refine ⟨⟨?_, ?_, ?_, ⟨?_, List.nodup_nil, Nat.zero_le _⟩, ?_⟩, ?_, ?_⟩ <;> simp [start]

/-- No delta is offered that a recorded block holds and that retention could still strip of its
body while it is in the pool, unless the node remembers it. -/
def Careful (s : Node) : Event → Prop
  | .chain (.Dtx tx _) => ∀ t, tx.to_core = some t → t.txid ∈ s.seen ∨ s.Apart t.txid t.base_height
  | .chain (.ShardBatch _ bodies) => WantApart s (bodies.map (·.txid))
  | .Delta height pages data_refs payload =>
    (s.own_delta height pages data_refs payload).txid ∈ s.seen ∨ s.Apart
      (s.own_delta height pages data_refs payload).txid height
  | _ => True

/-- Every event of the run meets the condition in the state it finds. -/
def AllCareful (s : Node) : List (Env × Event) → Prop
  | [] => True
  | e :: es => Careful s e.2 ∧ AllCareful (s.meet e) es

theorem Orderly.meet (h : Orderly s) {e : Env × Event} (hfair : e.1.Fair) (hcareful : Careful s e.2) :
    Orderly (s.meet e) := by
  obtain ⟨env, e⟩ := e
  cases e with
  | chain m =>
    cases m with
    | Dtx tx p => exact h.handle_dtx hfair tx p hcareful
    | Atx v =>
      unfold Node.meet Node.handle
      simp only
      split
      · exact h.accept_account_tx hfair _
      · exact h
    | Blk sb source => exact (h.install sb source).retry_pending
    | SyncBatch peer blocks payloads => exact h.handle_sync_batch peer blocks payloads
    | ShardBatch current bodies => exact h.handle_shard_batch hfair hcareful
    | Scores height scores sketches => exact h.handle_scores height scores sketches
    | Propose attempt => exact h.propose attempt
  | Delta height pages data_refs payload => exact h.handle_delta hfair height pages data_refs payload hcareful
  | Account t => exact h.accept_account_tx hfair t
  | Fraud verdict header => exact h.on_fraud_proof verdict header

theorem Orderly.live {es : List (Env × Event)} (h : Orderly s) (hfair : ∀ e ∈ es, e.1.Fair)
    (hcareful : AllCareful s es) (n : Nat) : Orderly (s.live (es.take n)) := by
  induction es generalizing s n with
  | nil =>
    rw [List.take_nil]
    exact h
  | cons e es ih =>
    obtain ⟨he, hes⟩ := List.forall_mem_cons.mp hfair
    cases n with
    | zero => exact h
    | succ n => exact ih (h.meet he hcareful.1) hes hcareful.2 n

/-- In a run of careful events the mempools are in step after every event. -/
theorem mempools_in_lockstep (tree : BlockTree) (key : Key) (cfg : NodeConfig) (es : List (Env × Event))
    (hfair : ∀ e ∈ es, e.1.Fair) (hcareful : AllCareful (start tree key cfg) es) (n : Nat) :
    Lockstep ((start tree key cfg).live (es.take n)) :=
  ((orderly_start tree key cfg).live hfair hcareful n).lockstep

end Node

end Sestrian
