import Sestrian.Code.Events
import Sestrian.Node.Adopt
import Sestrian.Node.Included
import Sestrian.Tree.Step

/-!
# A node drives its tree

Whatever comes, in whatever order: the tree of a node is the one it booted with after some calls of
`add_block`, some marks and some convictions. So all that holds of every run of a tree holds in every node.
-/

open Check

namespace Sestrian

open BlockTree

section Any

variable [Crypto]

namespace Node

variable {s s' s'' : Node} {env : Env} {t₀ : BlockTree}

/-! ## Steps that leave the tree alone -/

/-- The same tree, and the same blocks to serve. -/
structure Idle (s s' : Node) : Prop where
  tree : s'.tree = s.tree
  full : s'.blocks_full = s.blocks_full

namespace Idle

omit [Crypto] in
theorem refl (s : Node) : Idle s s := ⟨rfl, rfl⟩

omit [Crypto] in
theorem trans (h : Idle s s') (h' : Idle s' s'') : Idle s s'' := ⟨h'.tree.trans h.tree, h'.full.trans h.full⟩

omit [Crypto] in
theorem foldl {α : Type} {f : Node → α → Node} (h : ∀ s a, Idle s (f s a)) (l : List α) (s : Node) :
    Idle s (l.foldl f s) := by
  induction l generalizing s with
  | nil => exact refl s
  | cons a l ih => exact (h s a).trans (ih _)

end Idle

omit [Crypto] in
theorem evict_delta_pool_same (env : Env) (s : Node) : Idle s (s.evict_delta_pool env) := by
  have hdrop (ids : List String) (s : Node) : Idle s (s.drop_all ids) :=
    Idle.foldl (f := drop_pool_delta) (fun _ _ => ⟨rfl, rfl⟩) ids s
  unfold evict_delta_pool
  simp only
  split
  · exact (hdrop _ s).trans (hdrop _ _)
  · exact hdrop _ s

theorem prune_old_bodies_idle (s : Node) (head_h : UInt64) : Idle s (s.prune_old_bodies head_h) := by
  have hdelete (ids : List String) (s : Node) : Idle s (s.delete_bodies ids) := by
    unfold delete_bodies
    refine Idle.foldl (fun _ _ => ?_) ids s
    exact ⟨rfl, rfl⟩
  have hretained : Idle s (s.prune_retained head_h) := by
    unfold prune_retained
    simp only
    split
    · split
      · exact (hdelete _ s).trans ⟨rfl, rfl⟩
      · exact .refl s
    · exact .refl s
  unfold prune_old_bodies
  simp only
  split
  · exact hretained
  · split
    · exact hretained.trans ⟨rfl, rfl⟩
    · exact hretained

theorem on_head_advance_idle (env : Env) (s : Node) : Idle s (s.on_head_advance env) := by
  have haccounts : Idle (s.evict_delta_pool env) ((s.evict_delta_pool env).evict_account_pool env) := by
    unfold evict_account_pool
    exact ⟨rfl, rfl⟩
  have hdrop (s : Node) (k : String) : Idle s (s.drop_pending env k) := by
    unfold drop_pending
    split <;> exact ⟨rfl, rfl⟩
  exact (((evict_delta_pool_same env s).trans haccounts).trans
    (Idle.foldl hdrop ((s.evict_delta_pool env).evict_account_pool env).pending.keys _)).trans
      (prune_old_bodies_idle _ _)

theorem park_idle (env : Env) (s : Node) (sb : StoredBlock) (source : Option PeerId) : Idle s (s.park env sb source) := by
  cases source with
  | none => exact .refl s
  | some peer =>
    unfold park queue_pending
    simp only
    split
    · split <;> exact ⟨rfl, rfl⟩
    · exact ⟨rfl, rfl⟩

omit [Crypto] in
theorem mark_seen_idle (s : Node) (txid : String) : Idle s (s.mark_seen txid) := by
  unfold mark_seen
  split <;> exact ⟨rfl, rfl⟩

variable [Serde]

omit [Crypto] in
theorem preload_idle (s : Node) (ids : List String) : Idle s (s.preload ids) := by
  refine Idle.foldl (fun s id => ?_) ids s
  split
  · exact .refl s
  · split <;> exact ⟨rfl, rfl⟩

omit [Crypto] in
theorem recover_idle (s : Node) (ids : List String) : Idle s (s.recover ids) := by
  refine Idle.foldl (fun s id => ?_) ids s
  split
  · exact .refl s
  · split <;> exact ⟨rfl, rfl⟩

theorem keep_payload_idle (s : Node) (e : String × Payload) : Idle s (s.keep_payload e) := by
  unfold keep_payload
  split <;> exact ⟨rfl, rfl⟩

theorem rebuild_idle (s : Node) (txid : String) : Idle s (s.rebuild txid) := by
  unfold rebuild
  split
  · split <;> exact ⟨rfl, rfl⟩
  · exact .refl s

/-- What follows a block that the tree took: the block can be served. -/
theorem installed_frame (env : Env) (s : Node) (sb : StoredBlock) (old_head : String) :
    (s.installed env sb old_head).tree = s.tree ∧
      (s.installed env sb old_head).blocks_full = s.blocks_full.insert sb.hash sb := by
  have hdeltas : Idle s (sb.txids.foldl settle_delta s) := by
    refine Idle.foldl (fun s id => ?_) sb.txids s
    unfold settle_delta
    simp only
    split <;> exact ⟨rfl, rfl⟩
  have hsettle (s : Node) (t : AccountTx) : Idle s (s.settle_account t) := by
    have hpool : Idle s { s with account_pool := s.account_pool.erase t.txid } := ⟨rfl, rfl⟩
    exact hpool.trans (mark_seen_idle _ t.txid)
  have haccounts := hdeltas.trans (Idle.foldl hsettle sb.account_txs (sb.txids.foldl settle_delta s))
  unfold installed
  simp only
  rw [← haccounts.full]
  split
  · have hadvance := on_head_advance_idle env { sb.account_txs.foldl settle_account (sb.txids.foldl settle_delta s) with
      blocks_full := (sb.account_txs.foldl settle_account (sb.txids.foldl settle_delta s)).blocks_full.insert sb.hash sb }
    exact ⟨hadvance.tree.trans haccounts.tree, hadvance.full⟩
  · exact ⟨haccounts.tree, rfl⟩

/-! ## The calls -/

/-- What the handlers of a node ask of the tree. -/
def Calls : Op → Prop
  | .add_block _ => True
  | .mark_verified _ => True
  | .convict _ => True
  | _ => False

/-- The tree has only been driven by such calls, and every block that it took can be served. -/
structure Driven (t₀ : BlockTree) (s : Node) : Prop where
  calls : ∃ ops, (∀ op ∈ ops, Calls op) ∧ s.tree = t₀.run ops
  stored : Stored s

omit [Serde] in
theorem Driven.idle (h : Driven t₀ s) (hi : Idle s s') : Driven t₀ s' :=
  ⟨hi.tree ▸ h.calls, h.stored.congr hi.tree hi.full⟩

omit [Serde] in
/-- One more call. -/
theorem Driven.call (h : Driven t₀ s) {op : Op} (hop : Calls op) (htree : s'.tree = s.tree.step op) (hstored : Stored s') :
    Driven t₀ s' := by
  obtain ⟨ops, hall, hrun⟩ := h.calls
  refine ⟨⟨ops ++ [op], fun o ho => ?_, ?_⟩, hstored⟩
  · rcases List.mem_append.mp ho with ho | ho
    · exact hall o ho
    · rw [List.mem_singleton.mp ho]
      exact hop
  · rw [htree, hrun, BlockTree.run, BlockTree.run, List.foldl_append]
    rfl

omit [Serde] in
/-- A block that the tree refused. -/
theorem Driven.refused (h : Driven t₀ s) {b : Block} {e : String} {tree : BlockTree}
    (hadd : s.tree.add_block b = (.error e, tree)) : Driven t₀ { s with tree } := by
  have htree : tree = (s.tree.add_block b).2 := by rw [hadd]
  refine h.call (show Calls (.add_block b) from trivial) htree fun bh hbh => ?_
  subst htree
  rcases BlockTree.mem_add_block hbh with hold | ⟨-, x, hok⟩
  · rw [BlockTree.add_block_genesis]
    exact h.stored bh hold
  · rw [hadd] at hok
    cases hok

omit [Serde] in
/-- A block that the tree took, and that the node recorded. -/
theorem Driven.took (h : Driven t₀ s) {b : Block} {sb : StoredBlock} {x : Bool} {tree : BlockTree}
    (hadd : s.tree.add_block b = (.ok x, tree)) (hb : b.hash = sb.hash) (htree : s'.tree = tree)
    (hfull : s'.blocks_full = s.blocks_full.insert sb.hash sb) : Driven t₀ s' := by
  have htree' : s'.tree = (s.tree.add_block b).2 := by rw [htree, hadd]
  exact h.call (show Calls (.add_block b) from trivial) htree' ((h.stored.record rfl hb).congr htree' hfull)

theorem Driven.install (h : Driven t₀ s) (sb : StoredBlock) (source : Option PeerId) :
    Driven t₀ (s.install env sb source).2 := by
  unfold Node.install
  split
  · exact h
  · have hk := h.idle (preload_idle s sb.txids)
    simp only
    split
    · exact (hk.idle (recover_idle _ sb.txids)).idle (park_idle env _ sb source)
    · next b hdec =>
      obtain ⟨hhash, -⟩ := to_core_sparse_spec hdec
      split
      · next x tree hadd =>
        obtain ⟨htree, hfull⟩ := installed_frame env { s.preload sb.txids with tree } sb (s.preload sb.txids).tree.head
        exact hk.took hadd hhash htree hfull
      · next e tree hadd =>
        simp only
        split
        · exact (hk.refused hadd).idle (park_idle env _ sb source)
        · exact hk.refused hadd

theorem Driven.retry_pending (h : Driven t₀ s) : Driven t₀ (s.retry_pending env) := by
  unfold Node.retry_pending
  simp only
  generalize (env.order s.pending.keys).filter _ = ready
  induction ready generalizing s with
  | nil => exact h
  | cons k ready ih =>
    refine ih ?_
    unfold retry_one
    split
    · next sb peer _ =>
      have herase : Idle s { s with pending := s.pending.erase k, pending_at := s.pending_at.erase k } := ⟨rfl, rfl⟩
      exact (h.idle herase).install sb (some peer)
    · exact h

theorem Driven.accept_delta (h : Driven t₀ s) (tx : BackpropTx) (p : Payload) : Driven t₀ (s.accept_delta env tx p).2 := by
  unfold Node.accept_delta
  split
  · obtain ⟨-, -, hfull, -, htree⟩ := pool_delta_fields s tx p
    have hmarked : Driven t₀ (s.pool_delta tx p) := by
      refine h.call (show Calls (.mark_verified tx.txid) from trivial) htree ?_
      unfold Stored
      rw [hfull, htree]
      exact h.stored
    exact hmarked.idle (evict_delta_pool_same env _)
  · exact h

theorem Driven.handle_dtx (h : Driven t₀ s) (tx : WireDeltaTx) (p : Payload) : Driven t₀ (s.handle_dtx env tx p) := by
  unfold Node.handle_dtx
  split
  · exact h
  · next t _ =>
    simp only
    refine Driven.retry_pending ?_
    split
    · unfold announce
      split
      · next p' _ =>
        have hram : Idle s { s with payloads := s.payloads.insert t.txid p' } := ⟨rfl, rfl⟩
        exact (h.idle hram).accept_delta t p'
      · split
        · exact h.idle ⟨rfl, rfl⟩
        · exact h
    · exact h.accept_delta t p

theorem Driven.take_shards (h : Driven t₀ s) (b : BodyShards) : Driven t₀ (s.take_shards env b) := by
  have hput : Idle s { s with store := put_shards s.store b } := ⟨rfl, rfl⟩
  have hbuilt := (h.idle hput).idle (rebuild_idle _ b.txid)
  unfold Node.take_shards Node.fulfil
  split
  · exact hbuilt
  · split
    · exact hbuilt.idle ⟨rfl, rfl⟩
    · next p _ =>
      simp only
      split
      · next t _ =>
        refine Driven.accept_delta ?_ t p
        exact hbuilt.idle ⟨rfl, rfl⟩
      · exact hbuilt.idle ⟨rfl, rfl⟩

theorem Driven.handle_shard_batch (h : Driven t₀ s) (current : Bool) (bodies : List BodyShards) :
    Driven t₀ (s.handle_shard_batch env current bodies) := by
  have hall (bs : List BodyShards) : ∀ s, Driven t₀ s → Driven t₀ (bs.foldl (Node.take_shards env) s) := by
    induction bs with
    | nil => exact fun s h => h
    | cons b bs ih => exact fun s h => ih _ (h.take_shards b)
  have hk := hall bodies s h
  unfold Node.handle_shard_batch
  simp only
  split
  · split
    · exact hk.retry_pending.idle ⟨rfl, rfl⟩
    · exact hk.retry_pending
  · exact hk

theorem Driven.handle_sync_batch (h : Driven t₀ s) (peer : PeerId) (blocks : List StoredBlock)
    (payloads : List (String × Payload)) : Driven t₀ (s.handle_sync_batch env peer blocks payloads) := by
  have hkept := h.idle (Idle.foldl keep_payload_idle payloads s)
  have hall (l : List StoredBlock) : ∀ s, Driven t₀ s →
      Driven t₀ (l.foldl (fun s sb => (s.install env sb (some peer)).2) s) := by
    induction l with
    | nil => exact fun s h => h
    | cons sb l ih => exact fun s h => ih _ (h.install sb (some peer))
  have hr : Driven t₀ (Node.retry_pending env _) := (hall blocks _ hkept).retry_pending
  unfold Node.handle_sync_batch
  simp only
  split
  · exact hr
  · exact hr.idle ⟨rfl, rfl⟩

omit [Serde] in
theorem Driven.propose (h : Driven t₀ s) (attempt : UInt64) : Driven t₀ (s.propose env attempt) := by
  unfold Node.propose
  split
  · exact h
  · next stored b hc =>
    split
    · next e tree hadd => exact h.refused hadd
    · next x tree hadd =>
      simp only
      refine Driven.idle ?_ (on_head_advance_idle env _)
      exact h.took hadd (build_candidate_spec hc).1 rfl rfl

omit [Serde] in
theorem Driven.accept_account_tx (h : Driven t₀ s) (t : AccountTx) : Driven t₀ (s.accept_account_tx env t).2 := by
  unfold Node.accept_account_tx
  split
  · exact h
  · have hpool : Idle (s.mark_seen t.txid) (evict_account_pool env { s.mark_seen t.txid with
        account_pool := (s.mark_seen t.txid).account_pool.insert t.txid t }) := by
      unfold evict_account_pool
      exact ⟨rfl, rfl⟩
    exact h.idle ((mark_seen_idle s t.txid).trans hpool)

/-- One message. -/
theorem Driven.handle (h : Driven t₀ s) (m : Env × Msg) : Driven t₀ (s.handle m) := by
  obtain ⟨env, m⟩ := m
  cases m with
  | Dtx tx p => exact h.handle_dtx tx p
  | Atx v =>
    unfold Node.handle
    simp only
    split
    · next t _ => exact h.accept_account_tx t
    · exact h
  | Blk sb source => exact (h.install sb source).retry_pending
  | SyncBatch peer blocks payloads => exact h.handle_sync_batch peer blocks payloads
  | ShardBatch current bodies => exact h.handle_shard_batch current bodies
  | Scores height scores sketches =>
    unfold Node.handle handle_scores
    simp only
    split
    · exact h.idle ⟨rfl, rfl⟩
    · exact h
  | Propose attempt => exact h.propose attempt

omit [Serde] in
/-- A conviction moves the head at most. -/
theorem Driven.convict (h : Driven t₀ s) {bh : String} {x : Bool} {tree : BlockTree}
    (hconvict : s.tree.convict bh = (x, tree)) : Driven t₀ { s with tree } := by
  have htree : tree = (s.tree.convict bh).2 := by rw [hconvict]
  obtain ⟨hblocks, hgenesis⟩ := convict_same (t := s.tree) bh
  refine h.call (show Calls (.convict bh) from trivial) htree fun bh' hbh' => ?_
  rw [show ({ s with tree } : Node).tree = tree from rfl, htree, hblocks] at hbh'
  rw [show ({ s with tree } : Node).tree = tree from rfl, htree, hgenesis]
  exact h.stored bh' hbh'

omit [Serde] in
theorem Driven.on_fraud_proof (h : Driven t₀ s) (verdict : Option (Bool × String)) (header : Option Header) :
    Driven t₀ (s.on_fraud_proof env verdict header) := by
  unfold Node.on_fraud_proof
  split
  · split
    · exact h
    · split
      · next hconvict => exact (h.convict hconvict).idle (on_head_advance_idle env _)
      · next hconvict => exact h.convict hconvict
  · exact h

/-- One event. -/
theorem Driven.meet (h : Driven t₀ s) (e : Env × Event) : Driven t₀ (s.meet e) := by
  obtain ⟨env, e⟩ := e
  cases e with
  | chain m => exact h.handle (env, m)
  | Delta height pages data_refs payload =>
    unfold Node.meet Node.handle_delta
    simp only
    split
    · exact h
    · exact h.accept_delta _ payload
  | Account t => exact h.accept_account_tx t
  | Fraud verdict header => exact h.on_fraud_proof verdict header

theorem Driven.live (h : Driven t₀ s) (es : List (Env × Event)) : Driven t₀ (s.live es) := by
  induction es generalizing s with
  | nil => exact h
  | cons e es ih => exact ih (h.meet e)

/-! ## From the start -/

variable {genesis_w : List Int64} {params : GenesisParams}

omit [Serde] in
theorem coherent_boot (hw : genesis_w.length = (ModelState.genesis params.spec).dim) (dc : Option String)
    (depth : Option UInt64) : Coherent genesis_w params
      { Logged.new genesis_w dc params with tree := boot_tree genesis_w dc params depth }
      fun _ => (genesis_w, ModelState.genesis params.spec) :=
  (coherent_new hw dc).congr_marks depth ∅ ∅

omit [Serde] in
theorem driven_start (genesis_w : List Int64) (dc : Option String) (params : GenesisParams) (depth : Option UInt64)
    (key : Key) (cfg : NodeConfig) :
    Driven (boot_tree genesis_w dc params depth) (start (boot_tree genesis_w dc params depth) key cfg) :=
  ⟨⟨[], fun _ ho => absurd ho List.not_mem_nil, rfl⟩, fun bh hbh => .inl (new_blocks genesis_w dc params bh hbh)⟩

omit [Serde] in
theorem Driven.coherent {dc : Option String} {depth : Option UInt64} (h : Driven (boot_tree genesis_w dc params depth) s)
    (hw : genesis_w.length = (ModelState.genesis params.spec).dim) :
    ∃ log S, Coherent genesis_w params { tree := s.tree, log } S := by
  obtain ⟨ops, -, hrun⟩ := h.calls
  let n : Logged := { Logged.new genesis_w dc params with tree := boot_tree genesis_w dc params depth }
  obtain ⟨S, hc⟩ := (coherent_boot hw dc depth).run ops
  have htree : s.tree = (n.run ops).tree := hrun.trans (n.run_tree ops).symm
  refine ⟨(n.run ops).log, S, ?_⟩
  rw [htree]
  exact hc

end Node

end Any

end Sestrian
