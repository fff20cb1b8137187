import Sestrian.Code.CatchUp
import Sestrian.Node.Kept

/-!
# What a block changes

On any node, full or paged: `add_block` either leaves the line of the tree as it is, or connects
the block to a parent that is there. Of the node's own steps only this one touches the tree.
-/

open Check

namespace Sestrian

variable [Crypto]

namespace BlockTree

variable {t t' t'' : BlockTree} {b : Block}

/-- The known blocks, their work and the head. -/
structure SameLine (t t' : BlockTree) : Prop where
  blocks : t'.blocks = t.blocks
  cum_work : t'.cum_work = t.cum_work
  head : t'.head = t.head
  genesis_hash : t'.genesis_hash = t.genesis_hash
  model : t'.model = t.model
  convicted : t'.convicted = t.convicted

omit [Crypto] in
theorem SameLine.refl (t : BlockTree) : SameLine t t := ⟨rfl, rfl, rfl, rfl, rfl, rfl⟩

/-- The block is known now. It is the head if it extends the head or outweighs it. -/
structure Connects (t t' : BlockTree) (b : Block) : Prop where
  fresh : b.hash ∉ t.blocks
  parent : b.header.prev_hash ∈ t.blocks
  blocks : t'.blocks = t.blocks.insert b.hash b.header
  genesis_hash : t'.genesis_hash = t.genesis_hash
  model : ∃ m, t'.model = t.model.insert b.hash m
  convicted : t'.convicted = t.convicted
  work : ∃ w, t.cum_work[b.header.prev_hash]? = some w ∧
    t'.cum_work = t.cum_work.insert b.hash (saturating_add w (max b.header.work 1)) ∧
    t'.head = if b.header.prev_hash = t.head ∨ t.outweighs b.hash (saturating_add w (max b.header.work 1))
      then b.hash else t.head

theorem rewind_to_line (t : BlockTree) (target : String) : SameLine t (t.rewind_to target).2 := by
  unfold rewind_to
  split
  · exact .refl t
  · split
    · exact .refl t
    · split
      · exact .refl t
      · exact ⟨rfl, rfl, rfl, rfl, rfl, rfl⟩

omit [Crypto] in
theorem parent_entries_mem {h : String} {p : Parent} (hp : t.parent_entries h = .ok p) :
    h ∈ t.blocks ∧ t.cum_work[h]? = some p.work := by
  obtain ⟨-, -, hwork, hheight, -⟩ := parent_entries_spec hp
  refine ⟨?_, hwork⟩
  obtain ⟨hd, hhd, -⟩ := Option.map_eq_some_iff.mp hheight
  exact Std.ExtTreeMap.mem_iff_isSome_getElem?.mpr (by rw [hhd]; rfl)

theorem connect_extend_line (hfresh : b.hash ∉ t.blocks) (hhead : b.header.prev_hash = t.head) :
    ((∃ e, (t.connect_extend b).1 = .error e) ∧ SameLine t (t.connect_extend b).2) ∨
      ((∃ x, (t.connect_extend b).1 = .ok x) ∧ Connects t (t.connect_extend b).2 b) := by
  unfold connect_extend
  split
  · exact .inl ⟨⟨_, rfl⟩, .refl t⟩
  · next p hp =>
    obtain ⟨hmem, hwork⟩ := parent_entries_mem hp
    split
    · exact .inl ⟨⟨_, rfl⟩, .refl t⟩
    · next staged hv =>
      refine .inr ⟨⟨_, rfl⟩, hfresh, hhead ▸ hmem, ?_, ?_, ⟨staged.post_model, ?_⟩, ?_, p.work, hhead ▸ hwork, ?_, ?_⟩
      · simp [commit_staged, record]
      · simp [commit_staged, record]
      · simp [commit_staged, record]
      · simp [commit_staged, record]
      · simp [commit_staged, record]
      · rw [if_pos (.inl hhead)]
        simp [commit_staged]

theorem connect_extend_paged_line (hfresh : b.hash ∉ t.blocks) (hhead : b.header.prev_hash = t.head) :
    ((∃ e, (t.connect_extend_paged b).1 = .error e) ∧ SameLine t (t.connect_extend_paged b).2) ∨
      ((∃ x, (t.connect_extend_paged b).1 = .ok x) ∧ Connects t (t.connect_extend_paged b).2 b) := by
  unfold connect_extend_paged
  simp only
  split
  · exact .inl ⟨⟨_, rfl⟩, .refl t⟩
  · next p v held_agg leaves undo canon hs =>
    simp only [bind_eq_ok, pure_eq_ok] at hs
    obtain ⟨p', hp, stage, -, heq⟩ := hs
    obtain ⟨rfl, -⟩ := Prod.mk.inj heq
    obtain ⟨hmem, hwork⟩ := parent_entries_mem hp
    refine .inr ⟨⟨_, rfl⟩, hfresh, hhead ▸ hmem, ?_, ?_, ⟨v.model, ?_⟩, ?_, p'.work, hhead ▸ hwork, ?_, ?_⟩
    · simp
    · simp
    · simp
    · simp
    · simp
    · rw [if_pos (.inl hhead)]
      simp

theorem connect_side_line (hfresh : b.hash ∉ t.blocks) (hhead : b.header.prev_hash ≠ t.head) :
    ((∃ e, (t.connect_side b).1 = .error e) ∧ SameLine t (t.connect_side b).2) ∨
      ((∃ x, (t.connect_side b).1 = .ok x) ∧ Connects t (t.connect_side b).2 b) := by
  unfold connect_side
  simp only
  split
  · exact .inl ⟨⟨_, rfl⟩, .refl t⟩
  · next p hp =>
    obtain ⟨hmem, hwork⟩ := parent_entries_mem hp
    have hrewind := rewind_to_line t b.header.prev_hash
    split
    · next e t₁ hr =>
      have hline : SameLine t t₁ := by rwa [hr] at hrewind
      exact .inl ⟨⟨_, rfl⟩, hline⟩
    · next plan t₁ hr =>
      obtain ⟨hblocks, hwork₁, hhead₁, hgenesis, hmodel, hconvicted⟩ : SameLine t t₁ := by rwa [hr] at hrewind
      split
      · exact .inl ⟨⟨_, rfl⟩, hblocks, hwork₁, hhead₁, hgenesis, hmodel, hconvicted⟩
      · next staged hv =>
        have hweigh : t₁.outweighs b.hash (saturating_add p.work (max b.header.work 1)) =
            t.outweighs b.hash (saturating_add p.work (max b.header.work 1)) := by
          unfold outweighs
          rw [hwork₁, hhead₁]
        split
        · next hout =>
          refine .inr ⟨⟨_, rfl⟩, hfresh, hmem, ?_, ?_, ⟨staged.post_model, ?_⟩, ?_, p.work, hwork, ?_, ?_⟩
          · simp [commit_staged, record, hblocks]
          · simp [commit_staged, record, hgenesis]
          · simp [commit_staged, record, hmodel]
          · simp [commit_staged, record, hconvicted]
          · simp [commit_staged, record, hwork₁]
          · rw [if_pos (.inr (hweigh ▸ hout))]
            simp [commit_staged]
        · next hout =>
          refine .inr ⟨⟨_, rfl⟩, hfresh, hmem, ?_, ?_, ⟨staged.post_model, ?_⟩, ?_, p.work, hwork, ?_, ?_⟩
          · simp [roll_forward, record, hblocks]
          · simp [roll_forward, record, hgenesis]
          · simp [roll_forward, record, hmodel]
          · simp [roll_forward, record, hconvicted]
          · simp [roll_forward, record, hwork₁]
          · rw [if_neg (fun h => h.elim hhead (fun h => hout (hweigh ▸ h)))]
            simp [roll_forward, record, hhead₁]

/-- What `add_block` does to the line of the tree. -/
theorem add_block_line (t : BlockTree) (b : Block) :
    ((b.hash ∈ t.blocks ∨ ∃ e, (t.add_block b).1 = .error e) ∧ SameLine t (t.add_block b).2) ∨
      ((∃ x, (t.add_block b).1 = .ok x) ∧ Connects t (t.add_block b).2 b) := by
  unfold add_block
  simp only [Std.ExtTreeMap.contains_iff_mem]
  split
  · next hmem => exact .inl ⟨.inl hmem, .refl t⟩
  · next hfresh =>
    split
    · exact .inl ⟨.inr ⟨_, rfl⟩, .refl t⟩
    · split
      · split
        · next hhead => exact (connect_extend_paged_line hfresh hhead).imp_left fun h => ⟨.inr h.1, h.2⟩
        · exact .inl ⟨.inr ⟨_, rfl⟩, .refl t⟩
      · split
        · next hhead => exact (connect_extend_line hfresh hhead).imp_left fun h => ⟨.inr h.1, h.2⟩
        · next hhead => exact (connect_side_line hfresh hhead).imp_left fun h => ⟨.inr h.1, h.2⟩

/-- A block whose parent is nowhere is an orphan, on a full tree and on a paged one. -/
theorem add_block_orphan (hfresh : b.hash ∉ t.blocks) (hblock : b.hash ∉ t.convicted)
    (hprev : b.header.prev_hash ∉ t.convicted) (haside : b.header.prev_hash ≠ t.head)
    (hparent : b.header.prev_hash ∉ t.model) :
    ∃ e, t.add_block b = (.error e, t) ∧ "orphan".toList <:+: e.toList := by
  have hnew : ¬ t.blocks.contains b.hash = true := fun hc => hfresh (Std.ExtTreeMap.contains_iff_mem.mp hc)
  have hentries : t.parent_entries b.header.prev_hash = .error "orphan: parent unknown" := by
    unfold parent_entries
    rw [Std.ExtTreeMap.getElem?_eq_none hparent]
    rfl
  unfold BlockTree.add_block connect_side
  simp only [hnew, hblock, hprev, or_self, if_false, haside, hentries]
  cases t.held.isSome with
  | true => exact ⟨_, rfl, ⟨[], ": paged node follows head only".toList, by decide⟩⟩
  | false => exact ⟨_, rfl, ⟨[], ": parent unknown".toList, by decide⟩⟩

end BlockTree

namespace Node

variable {s s' s'' : Node} {env : Env}

/-! ## The node's own steps -/

/-- The tree is as it was, and no block is parked that was not. -/
structure Aside (s s' : Node) : Prop where
  tree : s'.tree = s.tree
  parked : ∀ (k : String) v, s'.pending[k]? = some v → s.pending[k]? = some v

namespace Aside

omit [Crypto] in
theorem of_eq (htree : s'.tree = s.tree) (hpending : s'.pending = s.pending) : Aside s s' :=
  ⟨htree, fun _ _ h => hpending ▸ h⟩

omit [Crypto] in
theorem refl (s : Node) : Aside s s := .of_eq rfl rfl

omit [Crypto] in
theorem trans (h : Aside s s') (h' : Aside s' s'') : Aside s s'' :=
  ⟨h'.tree.trans h.tree, fun k v hv => h.parked k v (h'.parked k v hv)⟩

omit [Crypto] in
/-- Over a list of steps. -/
theorem foldl {α : Type} {f : Node → α → Node} (h : ∀ s a, Aside s (f s a)) (l : List α) (s : Node) :
    Aside s (l.foldl f s) := by
  induction l generalizing s with
  | nil => exact refl s
  | cons a l ih => exact (h s a).trans (ih _)

omit [Crypto] in
/-- A parked block may be given up. -/
theorem of_erase (k : String) (htree : s'.tree = s.tree) (hpending : s'.pending = s.pending.erase k) : Aside s s' := by
  refine ⟨htree, fun k' v hv => ?_⟩
  rw [hpending, SumMap.get_erase] at hv
  split at hv
  · cases hv
  · exact hv

end Aside

omit [Crypto] in
theorem drop_all_aside (ids : List String) (s : Node) : Aside s (s.drop_all ids) :=
  Aside.foldl (f := drop_pool_delta) (fun _ _ => .of_eq rfl rfl) ids s

omit [Crypto] in
theorem evict_delta_pool_aside (env : Env) (s : Node) : Aside s (s.evict_delta_pool env) := by
  unfold evict_delta_pool
  simp only
  split
  · exact (drop_all_aside _ s).trans (drop_all_aside _ _)
  · exact drop_all_aside _ s

theorem drop_pending_aside (env : Env) (s : Node) (k : String) : Aside s (s.drop_pending env k) := by
  unfold drop_pending
  split
  · exact .of_erase k rfl rfl
  · exact .refl s

omit [Crypto] in
theorem delete_bodies_aside (s : Node) (ids : List String) : Aside s (s.delete_bodies ids) := by
  have hstep (s : Node) (id : String) : Aside s
      { s with store := s.store.delete_body_and_shards id, payloads := s.payloads.erase id } := .of_eq rfl rfl
  exact Aside.foldl hstep ids s

theorem prune_old_bodies_aside (s : Node) (head_h : UInt64) : Aside s (s.prune_old_bodies head_h) := by
  have hretained : Aside s (s.prune_retained head_h) := by
    unfold prune_retained
    split
    · simp only
      split
      · exact (delete_bodies_aside s _).trans (.of_eq rfl rfl)
      · exact .refl s
    · exact .refl s
  unfold prune_old_bodies
  simp only
  split
  · exact hretained
  · split
    · exact hretained.trans (.of_eq rfl rfl)
    · exact hretained

theorem on_head_advance_aside (env : Env) (s : Node) : Aside s (s.on_head_advance env) := by
  have haccounts : Aside (s.evict_delta_pool env) ((s.evict_delta_pool env).evict_account_pool env) := by
    unfold evict_account_pool
    exact .of_eq rfl rfl
  exact (((evict_delta_pool_aside env s).trans haccounts).trans
    (Aside.foldl (drop_pending_aside env) ((s.evict_delta_pool env).evict_account_pool env).pending.keys _)).trans
      (prune_old_bodies_aside _ _)

variable [Serde]

omit [Crypto] in
theorem preload_aside (s : Node) (ids : List String) : Aside s (s.preload ids) := by
  refine Aside.foldl (fun s id => ?_) ids s
  split
  · exact .refl s
  · split
    · exact .of_eq rfl rfl
    · exact .refl s

omit [Crypto] in
theorem recover_aside (s : Node) (ids : List String) : Aside s (s.recover ids) := by
  refine Aside.foldl (fun s id => ?_) ids s
  split
  · exact .refl s
  · split
    · exact .of_eq rfl rfl
    · exact .refl s

theorem keep_payload_aside (s : Node) (e : String × Payload) : Aside s (s.keep_payload e) := by
  unfold keep_payload
  split
  · exact .refl s
  · exact .of_eq rfl rfl

theorem installed_aside (s : Node) (sb : StoredBlock) (old_head : String) : Aside s (s.installed env sb old_head) := by
  have hdeltas : Aside s (sb.txids.foldl settle_delta s) := by
    refine Aside.foldl (fun s id => ?_) sb.txids s
    unfold settle_delta
    simp only
    split <;> exact .of_eq rfl rfl
  have haccounts : Aside (sb.txids.foldl settle_delta s) (sb.account_txs.foldl settle_account (sb.txids.foldl settle_delta s)) := by
    refine Aside.foldl (fun s t => ?_) sb.account_txs _
    unfold settle_account mark_seen
    split <;> exact .of_eq rfl rfl
  have hrecorded : Aside s { sb.account_txs.foldl settle_account (sb.txids.foldl settle_delta s) with
      blocks_full := (sb.account_txs.foldl settle_account (sb.txids.foldl settle_delta s)).blocks_full.insert sb.hash sb } :=
    (hdeltas.trans haccounts).trans (.of_eq rfl rfl)
  unfold installed
  simp only
  split
  · exact hrecorded.trans (on_head_advance_aside env _)
  · exact hrecorded

omit [Serde] in
/-- The block may wait for its parent or for its bodies. -/
theorem park_parks (env : Env) (s : Node) (sb : StoredBlock) (source : Option PeerId) :
    (s.park env sb source).tree = s.tree ∧
      ∀ (k : String) v, (s.park env sb source).pending[k]? = some v → s.pending[k]? = some v ∨ k = sb.hash ∧ v.1 = sb := by
  cases source with
  | none => exact ⟨rfl, fun _ _ h => .inl h⟩
  | some peer =>
    have hroom (s : Node) (k : String) v (h : (s.pending.insert sb.hash (sb, peer))[k]? = some v) :
        s.pending[k]? = some v ∨ k = sb.hash ∧ v.1 = sb := by
      rw [SumMap.get_insert] at h
      split at h
      · next hk =>
        obtain rfl := Option.some.inj h
        exact .inr ⟨hk.symm, rfl⟩
      · exact .inl h
    have hqueue : ∀ s₁ : Node, Aside s s₁ → ∀ (k : String) v,
        (s₁.pending.insert sb.hash (sb, peer))[k]? = some v → s.pending[k]? = some v ∨ k = sb.hash ∧ v.1 = sb :=
      fun s₁ hs k v h => (hroom s₁ k v h).imp_left (hs.parked k v)
    unfold park queue_pending
    simp only
    split
    · next drop _ _ =>
      split
      · exact ⟨rfl, hqueue { s with pending := s.pending.erase drop } (.of_erase drop rfl rfl)⟩
      · exact ⟨rfl, hqueue s (.refl s)⟩
    · exact ⟨rfl, hqueue s (.refl s)⟩

omit [Serde] in
theorem to_core_sparse_header {sb : StoredBlock} {payloads : Dict Payload} {b : Block}
    (h : sb.to_core_sparse payloads = some b) : b.header = sb.header := by
  simp only [StoredBlock.to_core_sparse, Option.bind_eq_bind, Option.bind_eq_some_iff, Option.some.injEq] at h
  obtain ⟨txs, -, transfers, -, data_txs, -, sparse, -, rfl⟩ := h
  rfl

/-- The node can take this block when its turn comes: its bodies are at hand, it is valid, and
the state of its parent can be reached. -/
def Takes (s : Node) (sb : StoredBlock) : Prop :=
  sb.hash ∉ s.tree.blocks → ∃ b, sb.to_core_sparse (s.preload sb.txids).payloads = some b ∧
    (sb.header.prev_hash ∈ s.tree.blocks → ∃ x, (s.tree.add_block b).1 = .ok x)

/-- What `install` does to the line of the tree, and whom it may park. -/
structure Installs (s s' : Node) (sb : StoredBlock) : Prop where
  line : BlockTree.SameLine s.tree s'.tree ∨
    ∃ b : Block, b.hash = sb.hash ∧ b.header = sb.header ∧ BlockTree.Connects s.tree s'.tree b
  parked : ∀ (k : String) v, s'.pending[k]? = some v → s.pending[k]? = some v ∨ k = sb.hash ∧ v.1 = sb

omit [Serde] in
theorem Aside.installs {sb : StoredBlock} (h : Aside s s') : Installs s s' sb :=
  ⟨.inl (h.tree ▸ .refl _), fun k v hv => .inl (h.parked k v hv)⟩

omit [Serde] in
theorem Installs.before {sb : StoredBlock} (h : Aside s s') (h' : Installs s' s'' sb) : Installs s s'' sb :=
  ⟨h.tree ▸ h'.line, fun k v hv => (h'.parked k v hv).imp_left (h.parked k v)⟩

omit [Serde] in
theorem park_installs (s : Node) (sb : StoredBlock) (source : Option PeerId) : Installs s (s.park env sb source) sb := by
  obtain ⟨htree, hparked⟩ := park_parks env s sb source
  exact ⟨.inl (htree ▸ .refl _), hparked⟩

theorem install_installs (s : Node) (sb : StoredBlock) (source : Option PeerId) :
    Installs s (s.install env sb source).2 sb := by
  have hpre := preload_aside s sb.txids
  unfold install
  split
  · exact (Aside.refl s).installs
  · simp only
    refine Installs.before hpre ?_
    generalize s.preload sb.txids = s
    split
    · exact .before (recover_aside s sb.txids) (park_installs _ sb source)
    · next b hdec =>
      obtain ⟨hhash, -⟩ := to_core_sparse_spec hdec
      have hheader := to_core_sparse_header hdec
      have hline := (BlockTree.add_block_line s.tree b).imp And.right And.right
      split
      · next x tree hadd =>
        rw [hadd] at hline
        have hinst : Aside { s with tree } (Node.installed env { s with tree } sb s.tree.head) := installed_aside _ sb _
        refine ⟨?_, fun k v hv => .inl (hinst.parked k v hv)⟩
        rw [hinst.tree]
        exact hline.imp_right fun hc => ⟨b, hhash, hheader, hc⟩
      · next e tree hadd =>
        rw [hadd] at hline
        have hlined : Installs s { s with tree } sb :=
          ⟨hline.imp_right fun hc => ⟨b, hhash, hheader, hc⟩, fun k v hv => .inl hv⟩
        simp only
        split
        · obtain ⟨htree, hparked⟩ := park_parks env { s with tree } sb source
          refine ⟨?_, hparked⟩
          rw [htree]
          exact hlined.line
        · exact hlined

/-- A block that the node can take is known afterwards. -/
theorem install_takes (env : Env) (s : Node) (sb : StoredBlock) (source : Option PeerId) (ht : s.Takes sb)
    (hparent : sb.header.prev_hash ∈ s.tree.blocks) : sb.hash ∈ (s.install env sb source).2.tree.blocks := by
  unfold install
  split
  · next hmem => exact Std.ExtTreeMap.contains_iff_mem.mp hmem
  · next hfresh =>
    rw [Std.ExtTreeMap.contains_iff_mem] at hfresh
    obtain ⟨b, hdec, hvalid⟩ := ht hfresh
    obtain ⟨x, hok⟩ := hvalid hparent
    obtain ⟨hhash, -⟩ := to_core_sparse_spec hdec
    have htree : (s.preload sb.txids).tree = s.tree := (preload_aside s sb.txids).tree
    simp only [hdec, htree]
    rcases hadd : s.tree.add_block b with ⟨r, tree⟩
    rw [hadd] at hok
    simp only at hok
    subst hok
    simp only
    rw [(installed_aside _ sb _).tree]
    have hline := BlockTree.add_block_line s.tree b
    rw [hadd] at hline
    rcases hline with ⟨hsame, -⟩ | ⟨-, hc⟩
    · rcases hsame with hmem | ⟨e, he⟩
      · exact absurd (hhash ▸ hmem) hfresh
      · cases he
    · simp only at hc ⊢
      rw [hc.blocks, ← hhash]
      exact Std.ExtTreeMap.mem_insert_self

/-- A block that the node can take makes it ask for nothing. -/
theorem install_ask_takes {s : Node} {sb : StoredBlock} (ht : s.Takes sb)
    (hparent : sb.header.prev_hash ∈ s.tree.blocks) : s.install_ask sb = none := by
  unfold install_ask
  split
  · rfl
  · next hfresh =>
    rw [Std.ExtTreeMap.contains_iff_mem] at hfresh
    obtain ⟨b, hdec, hvalid⟩ := ht hfresh
    obtain ⟨x, hok⟩ := hvalid hparent
    simp only [hdec, (preload_aside s sb.txids).tree]
    rcases hadd : s.tree.add_block b with ⟨r, tree⟩
    rw [hadd] at hok
    simp only at hok
    subst hok
    rfl

/-- A block whose parent is nowhere makes it ask from eight below the head. -/
theorem install_ask_orphan {s : Node} {sb : StoredBlock} (ht : s.Takes sb) (hfresh : sb.hash ∉ s.tree.blocks)
    (hblock : sb.hash ∉ s.tree.convicted) (hprev : sb.header.prev_hash ∉ s.tree.convicted)
    (haside : sb.header.prev_hash ≠ s.tree.head) (hparent : sb.header.prev_hash ∉ s.tree.model) :
    s.install_ask sb = some (BlockTree.saturating_sub s.head_height 8) := by
  obtain ⟨b, hdec, -⟩ := ht hfresh
  obtain ⟨hhash, -⟩ := to_core_sparse_spec hdec
  have hheader := to_core_sparse_header hdec
  rw [← hhash] at hfresh hblock
  rw [← hheader] at hprev haside hparent
  obtain ⟨e, hadd, horphan⟩ := BlockTree.add_block_orphan hfresh hblock hprev haside hparent
  have hnew : ¬ s.tree.blocks.contains sb.hash = true := fun hc =>
    hfresh (hhash ▸ Std.ExtTreeMap.contains_iff_mem.mp hc)
  unfold install_ask
  simp only [hnew, hdec, (preload_aside s sb.txids).tree, hadd, horphan, if_true]
  rfl

end Node

end Sestrian
