import Sestrian.Node.Kept
import Sestrian.Tree.Delta
import Sestrian.Tree.Tip

/-!
# Runs of a young node

While the head is low and no block is parked, a block that extends the head leaves little but
itself behind. The lemmas say what each message does to such a node.
-/

open Check

namespace Sestrian

open BlockTree

section Any

variable [Crypto]

variable {t : BlockTree} {p : Parent} {known : List String} {b : Block} {staged : Staged}

namespace Node

open Store

variable {s : Node} {env : Env} {id : String}

omit [Crypto] in
/-- With nothing stale and room in the pool, eviction does nothing. -/
theorem evict_delta_pool_idle (hwin : ∀ (id : String) tx, s.delta_pool[id]? = some tx → delta_in_window tx.base_height s.head_height)
    (hsize : s.delta_pool.size ≤ MAX_DELTA_POOL) : s.evict_delta_pool env = s := by
  have hstale : s.stale_deltas = [] := by
    unfold stale_deltas
    rw [List.map_eq_nil_iff, List.filter_eq_nil_iff]
    intro e he
    simp [hwin e.1 e.2 (Std.ExtTreeMap.mem_toList_iff_getElem?_eq_some.mp he)]
  unfold evict_delta_pool
  simp only [hstale]
  rw [if_neg]
  · rfl
  · exact not_lt.mpr hsize

theorem evict_account_pool_rest (env : Env) (s : Node) :
    ∃ pool, s.evict_account_pool env = { s with account_pool := pool } := by
  unfold evict_account_pool
  exact ⟨_, rfl⟩

/-- Retention and the body window leave everything alone at this height. -/
def Shallow (s : Node) (head_h : UInt64) : Prop :=
  (s.cfg.da_retain_blocks > 0 → BlockTree.saturating_sub head_h s.cfg.da_retain_blocks ≤ s.da_pruned_to) ∧
    head_h ≤ s.cfg.body_window + 1

omit [Crypto] in
theorem shallow_early {head_h : UInt64} (hcfg : s.cfg = {}) (hlow : head_h ≤ 129) : s.Shallow head_h := by
  unfold Shallow
  rw [hcfg]
  exact ⟨fun h => absurd h (by simp), hlow⟩

omit [Crypto] in
theorem Shallow.congr {s' : Node} {head_h : UInt64} (h : s.Shallow head_h) (hcfg : s'.cfg = s.cfg)
    (hpruned : s'.da_pruned_to = s.da_pruned_to) : s'.Shallow head_h := by
  unfold Shallow
  rw [hcfg, hpruned]
  exact h

theorem prune_old_bodies_shallow {head_h : UInt64} (h : s.Shallow head_h) : s.prune_old_bodies head_h = s := by
  have hret : s.prune_retained head_h = s := by
    unfold prune_retained
    split
    · next hr =>
      simp only
      rw [if_neg (UInt64.not_lt.mpr (h.1 hr))]
    · rfl
  unfold prune_old_bodies
  simp only [hret]
  rw [if_pos h.2]

/-- With no parked blocks a new head means eviction, then pruning. -/
theorem on_head_advance_unparked (hpend : s.pending = ∅) : ∃ pool, s.on_head_advance env =
    ({ s.evict_delta_pool env with account_pool := pool } : Node).prune_old_bodies s.head_height := by
  obtain ⟨pool, hpool⟩ := evict_account_pool_rest env (s.evict_delta_pool env)
  have hkeys : (s.evict_delta_pool env).pending.keys = [] := by
    rw [(evict_delta_pool_rest env s).2.1, hpend]
    exact Std.ExtTreeMap.keys_eq_nil_iff.mpr rfl
  refine ⟨pool, ?_⟩
  unfold on_head_advance
  simp only [hpool, hkeys, List.foldl_nil]

variable [Serde]

theorem retry_pending_none (hpend : s.pending = ∅) (horder : env.order [] = []) : s.retry_pending env = s := by
  have hkeys : s.pending.keys = [] := by
    rw [hpend]
    exact Std.ExtTreeMap.keys_eq_nil_iff.mpr rfl
  unfold retry_pending
  simp [hkeys, horder]

/-- A block that extends the head is installed. -/
theorem install_extend {sb : StoredBlock} {source : Option PeerId} {work : UInt64} (h : Tip s.tree p known)
    (hnew : sb.hash ∉ known) (hdec : sb.to_core_sparse (s.preload sb.txids).payloads = some b)
    (hprev : b.header.prev_hash = s.tree.head) (hwork : work = saturating_add p.work (max b.header.work 1))
    (hv : ∀ jurors, s.tree.validate_at_base b { p with jurors } = .ok staged) :
    (s.install env sb source).2 =
      ({ s.preload sb.txids with tree := s.tree.commit_staged b.hash b.header staged work }).installed env sb s.tree.head := by
  have hhash := (to_core_sparse_spec hdec).1
  have hfresh : ¬ s.tree.blocks.contains sb.hash = true := fun hc =>
    hnew (h.only _ (Std.ExtTreeMap.contains_iff_mem.mp hc))
  have htree := (preload_shrinks s sb.txids).tree
  have hadd := h.add_block (hhash ▸ hnew) hprev hv
  unfold install
  simp only [hfresh, hdec, htree, hadd, hwork]
  rfl

/-- The stored form of a block without transactions. -/
def empty_stored (header : Header) : StoredBlock :=
  { header, txs := [], transfers := [], data_txs := [], scores := ∅, sketches := ∅, page_leaves := [] }

omit [Crypto] [Serde] in
theorem head_height_commit {bh : String} {header : Header} (t : BlockTree) (staged : Staged) (work : UInt64)
    (htree : s.tree = t.commit_staged bh header staged work) : s.head_height = header.height := by
  obtain ⟨hblocks, -, -, -, hhead, -⟩ := prune_deep_frame { t.record bh header staged work with
    canon := apply_redo t.canon staged.agg.toList ++ staged.init_pages.flatten
    page_leaves := staged.new_leaves
    head := bh }
  have hb : s.tree.blocks = t.blocks.insert bh header := htree ▸ hblocks
  have hh : s.tree.head = bh := htree ▸ hhead
  rw [head_height, hb, hh, SumMap.get_insert, if_pos rfl]
  rfl

omit [Crypto] [Serde] in
theorem head_commit {bh : String} {header : Header} (t : BlockTree) (staged : Staged) (work : UInt64) :
    (t.commit_staged bh header staged work).head = bh :=
  (prune_deep_frame _).2.2.2.2.1

theorem installed_empty (header : Header) (old_head : String) :
    s.installed env (empty_stored header) old_head = if s.tree.head ≠ old_head then
      ({ s with blocks_full := s.blocks_full.insert (empty_stored header).hash (empty_stored header) }).on_head_advance env
    else { s with blocks_full := s.blocks_full.insert (empty_stored header).hash (empty_stored header) } := rfl

theorem settle_delta_rest (s : Node) (id : String) :
    (s.settle_delta id).pending = s.pending ∧ (s.settle_delta id).seen = s.seen ∧
      (s.settle_delta id).da_pruned_to = s.da_pruned_to := by
  unfold settle_delta
  simp only
  split <;> exact ⟨rfl, rfl, rfl⟩

/-- What the node looks like to the run below. -/
structure Quiet (s : Node) (t : BlockTree) (pool : Dict BackpropTx) : Prop where
  tree : s.tree = t
  pool : s.delta_pool = pool
  pending : s.pending = ∅
  cfg : s.cfg = {}

/-- The same with any options, and how far retention has come. -/
structure Calm (s : Node) (t : BlockTree) (pool : Dict BackpropTx) (cfg : NodeConfig) (pruned : UInt64) : Prop where
  tree : s.tree = t
  pool : s.delta_pool = pool
  pending : s.pending = ∅
  cfg : s.cfg = cfg
  pruned : s.da_pruned_to = pruned

omit [Crypto] [Serde] in
theorem Quiet.keys {pool : Dict BackpropTx} (h : Quiet s t pool) : s.pending.keys = [] := by
  rw [h.pending]
  exact Std.ExtTreeMap.keys_eq_nil_iff.mpr rfl

theorem get_payload_put {pay : Payload} (hserde : Serde.from_slice (Serde.to_vec pay) = some pay) (id : String) :
    (Store.empty.put_payload id pay).get_payload id = some pay := by
  have hfile : (Store.empty.put_payload id pay).payloads = (∅ : Dict (List UInt8)).insert id (Serde.to_vec pay) := by
    unfold Store.put_payload
    rw [if_neg (by simp [Store.empty, has_payload]), disperse_payload_payloads]
    rfl
  rw [get_payload, hfile, SumMap.get_insert, if_pos rfl, Option.bind_some, hserde]
  rfl

/-- A sync response with one block of one delta, and its body, on a node that has neither. -/
theorem sync_calm {sb : StoredBlock} {id : String} {pay : Payload} {peer : PeerId} {work pruned : UInt64}
    {cfg : NodeConfig} (hq : Calm s t ∅ cfg pruned) (hram : s.payloads = ∅) (hstore : s.store = .empty) (h : Tip t p known)
    (hids : sb.txids = [id]) (hacc : sb.account_txs = [])
    (hserde : Serde.from_slice (Serde.to_vec pay) = some pay)
    (hdec : ∀ m : Dict Payload, m[id]? = some pay → sb.to_core_sparse m = some b) (hnew : sb.hash ∉ known)
    (hprev : b.header.prev_hash = t.head) (hwork : work = saturating_add p.work (max b.header.work 1))
    (hv : ∀ jurors, t.validate_at_base b { p with jurors } = .ok staged)
    (hhead : b.hash ≠ t.head) (hshallow : s.Shallow b.header.height) (horder : env.order [] = []) :
    Calm (s.handle_sync_batch env peer [sb] [(id, pay)]) (t.commit_staged b.hash b.header staged work) ∅ cfg pruned ∧
    (s.handle_sync_batch env peer [sb] [(id, pay)]).seen = s.seen ∧
    (s.handle_sync_batch env peer [sb] [(id, pay)]).blocks_full = s.blocks_full.insert sb.hash sb := by
  obtain ⟨rfl, hpool, hpend, hcfg, hpruned⟩ := hq
  set s₁ : Node := { s with store := Store.empty.put_payload id pay } with hs₁
  have hkeep : s.keep_payload (id, pay) = s₁ := by
    unfold keep_payload
    rw [if_neg (by simp [hram, hstore, Store.empty, has_payload]), hstore]
  set s₂ : Node := { s₁ with payloads := s.payloads.insert id pay } with hs₂
  have hpre : s₁.preload sb.txids = s₂ := by
    rw [hids]
    unfold preload
    simp only [List.foldl_cons, List.foldl_nil]
    rw [if_neg (by simp [hs₁, hram]), hs₁, get_payload_put hserde]
  have hinst : (s₁.install env sb (some peer)).2 = _ := install_extend (s := s₁) h hnew
    (hpre.symm ▸ hdec _ (by rw [hs₂, SumMap.get_insert, if_pos rfl])) hprev hwork hv
  rw [hpre] at hinst
  set s₃ : Node := { s₂ with tree := s.tree.commit_staged b.hash b.header staged work } with hs₃
  obtain ⟨hpend₄, hseen₄, hpruned₄⟩ := settle_delta_rest s₃ id
  obtain ⟨-, hcfg₄, htree₄, hfull₄, hpool₄, -⟩ := settle_delta_fields s₃ id
  set s₅ : Node := { s₃.settle_delta id with
    blocks_full := (s₃.settle_delta id).blocks_full.insert sb.hash sb } with hs₅
  have hnone : s₅.delta_pool = ∅ := by
    rw [hs₅]
    simp only [hpool₄]
    rw [show s₃.delta_pool = ∅ from hpool]
    exact Std.ExtTreeMap.ext_getElem? fun k => by rw [SumMap.get_erase]; simp
  have hidle : s₅.evict_delta_pool env = s₅ := by
    refine evict_delta_pool_idle (fun k tx hk => ?_) ?_
    · rw [hnone] at hk
      simp at hk
    · rw [hnone]
      simp
  obtain ⟨apool, hadv⟩ : ∃ pool, s₅.on_head_advance env = _ := on_head_advance_unparked (hpend₄.trans hpend)
  have hshallow₅ : Shallow { s₅ with account_pool := apool } s₅.head_height := by
    rw [@head_height_commit s₅ _ _ s.tree staged work htree₄]
    exact hshallow.congr hcfg₄ hpruned₄
  rw [hidle, prune_old_bodies_shallow hshallow₅] at hadv
  have hinstalled : s₃.installed env sb s.tree.head = { s₅ with account_pool := apool } := by
    unfold installed
    simp only [hids, hacc, List.foldl_cons, List.foldl_nil]
    rw [if_pos (by rw [htree₄, hs₃]; simp only [head_commit]; exact hhead)]
    exact hadv
  have hretry : Node.retry_pending env { s₅ with account_pool := apool } = { s₅ with account_pool := apool } :=
    retry_pending_none (hpend₄.trans hpend) horder
  have hfinal : ∃ want, s.handle_sync_batch env peer [sb] [(id, pay)] = { s₅ with account_pool := apool, want_deltas := want } := by
    have hpayloads : [(id, pay)].foldl keep_payload s = s₁ := hkeep
    have hblocks : [sb].foldl (fun s sb => (s.install env sb (some peer)).2) s₁ = { s₅ with account_pool := apool } :=
      hinst.trans hinstalled
    unfold handle_sync_batch
    simp only
    rw [hpayloads, hblocks, hretry]
    split
    · exact ⟨_, rfl⟩
    · exact ⟨_, rfl⟩
  obtain ⟨want, hfinal⟩ := hfinal
  rw [hfinal]
  exact ⟨⟨htree₄, hnone, hpend₄.trans hpend, hcfg₄.trans hcfg, hpruned₄.trans hpruned⟩, hseen₄,
    congrArg (fun m : Dict StoredBlock => m.insert sb.hash sb) hfull₄⟩

theorem sync_one {sb : StoredBlock} {id : String} {pay : Payload} {peer : PeerId} {work : UInt64}
    (hq : Quiet s t ∅) (hram : s.payloads = ∅) (hstore : s.store = .empty) (h : Tip t p known)
    (hids : sb.txids = [id]) (hacc : sb.account_txs = [])
    (hserde : Serde.from_slice (Serde.to_vec pay) = some pay)
    (hdec : ∀ m : Dict Payload, m[id]? = some pay → sb.to_core_sparse m = some b) (hnew : sb.hash ∉ known)
    (hprev : b.header.prev_hash = t.head) (hwork : work = saturating_add p.work (max b.header.work 1))
    (hv : ∀ jurors, t.validate_at_base b { p with jurors } = .ok staged)
    (hhead : b.hash ≠ t.head) (hlow : b.header.height ≤ 129) (horder : env.order [] = []) :
    Quiet (s.handle_sync_batch env peer [sb] [(id, pay)]) (t.commit_staged b.hash b.header staged work) ∅ ∧
    (s.handle_sync_batch env peer [sb] [(id, pay)]).seen = s.seen ∧
    (s.handle_sync_batch env peer [sb] [(id, pay)]).blocks_full = s.blocks_full.insert sb.hash sb := by
  have hcalm : Calm s t ∅ {} s.da_pruned_to := ⟨hq.tree, hq.pool, hq.pending, hq.cfg, rfl⟩
  obtain ⟨hc, hrest⟩ : Calm (s.handle_sync_batch env peer [sb] [(id, pay)]) _ ∅ {} s.da_pruned_to ∧ _ :=
    sync_calm hcalm hram hstore h hids hacc hserde hdec hnew hprev hwork hv hhead (shallow_early hq.cfg hlow) horder
  exact ⟨⟨hc.tree, hc.pool, hc.pending, hc.cfg⟩, hrest⟩

/-- What the gate asks of a body without coordinates. -/
def takes_zero (model : ModelState) (tx : BackpropTx) (pay : Payload) : Bool :=
  !tx.canonical_pages.isEmpty && tx.pages == tx.canonical_pages &&
  tx.canonical_pages.all (fun p => model.is_active p.toNat) && pay.n == model.dim &&
  decide ((model.required_nnz tx.canonical_pages).toNat ≤ 0)

omit [Crypto] [Serde] in
theorem fits_zero {tx : BackpropTx} {pay : Payload} {model : ModelState}
    (hmodel : s.tree.model[s.tree.head]? = some model) (h : takes_zero model tx pay = true) :
    s.fits_model tx pay [] = true := by
  unfold takes_zero at h
  unfold fits_model
  rw [hmodel]
  simpa using h

omit [Serde] in
theorem admits_of {tx : BackpropTx} {pay : Payload} {coords : List (UInt32 × Int64)} (hseen : tx.txid ∉ s.seen)
    (hver : tx.verify = true) (hcoords : pay.coords = some coords) (hhash : delta_hash_sparse pay.n coords = tx.delta_hash)
    (hwin : delta_in_window tx.base_height s.head_height = true) (hfits : s.fits_model tx pay coords = true) :
    s.admits tx pay = true := by
  unfold admits
  simp [hseen, hver, hcoords, hhash, hwin, hfits]

/-- A delta that the gate lets in, on a node with an empty pool. -/
theorem dtx_calm {tx : BackpropTx} {wtx : WireDeltaTx} {pay : Payload} {cfg : NodeConfig} {pruned : UInt64}
    (hq : Calm s t ∅ cfg pruned) (hcore : wtx.to_core = some tx)
    (hfull : ¬ (pay.idx = "" ∧ pay.val = "")) (hadm : s.admits tx pay) (horder : env.order [] = []) :
    Calm (s.handle_dtx env wtx pay) { t with hash_verified := t.hash_verified.insert tx.txid }
      ((∅ : Dict BackpropTx).insert tx.txid tx) cfg pruned ∧
    (s.handle_dtx env wtx pay).blocks_full = s.blocks_full := by
  obtain ⟨hcfg, -, hblocks, hpool, htree⟩ := pool_delta_fields s tx pay
  have hpruned : (s.pool_delta tx pay).da_pruned_to = s.da_pruned_to := by
    unfold pool_delta mark_seen
    simp only
    split <;> rfl
  have hpend : (s.pool_delta tx pay).pending = ∅ := by
    rw [← hq.pending]
    unfold pool_delta mark_seen
    simp only
    split <;> rfl
  have hheight : (s.pool_delta tx pay).head_height = s.head_height := by
    unfold head_height
    rw [htree]
  rw [hq.pool] at hpool
  have hidle : (s.pool_delta tx pay).evict_delta_pool env = s.pool_delta tx pay := by
    refine evict_delta_pool_idle (fun k tx' hk => ?_) ?_
    · rw [hpool, SumMap.get_insert] at hk
      split at hk
      · rw [← Option.some.inj hk, hheight]
        exact (admits_spec hadm).2.1
      · simp at hk
    · rw [hpool, Std.ExtTreeMap.size_insert]
      simp [MAX_DELTA_POOL]
  have hstep : s.handle_dtx env wtx pay = s.pool_delta tx pay := by
    unfold handle_dtx accept_delta
    simp only [hcore, if_neg hfull, hadm, if_true]
    rw [hidle, retry_pending_none hpend horder]
  rw [hstep]
  exact ⟨⟨by rw [htree, hq.tree], hpool, hpend, hcfg.trans hq.cfg, hpruned.trans hq.pruned⟩, hblocks⟩

end Node

end Any

open scoped Toy

namespace Toy

/-- `serde_json` on the payloads that occur below. -/
def payload_json (p : Payload) : List UInt8 :=
  (Json.obj [("n", .num p.n), ("idx", .str p.idx), ("val", .str p.val)]).compact

def zero_payload : Payload := { n := 1, idx := "AAAAAA==", val := "AAAAAA==" }

def one_payload : Payload := { n := 1, idx := "AAAAAA==", val := "AQAAAA==" }

scoped instance : Serde where
  to_vec := payload_json
  from_slice b := [zero_payload, one_payload].find? fun p => payload_json p = b

theorem zero_coords : zero_payload.coords = some [] := by decide +kernel

def zero_tx (pk : ByteArr 32) : BackpropTx :=
  { zero_unsigned pk with sig := (sign pk (zero_unsigned pk).signing_bytes).val }

theorem zero_tx_signed (pk : ByteArr 32) : (zero_tx pk).verify = true :=
  verify_sign (hex_decode_encode pk.val) (zero_unsigned pk).signing_bytes

theorem zero_sorted : ([] : List (UInt32 × Int64)).Pairwise fun a b => a.1 < b.1 := List.Pairwise.nil

theorem zero_nonzero : ∀ c ∈ ([] : List (UInt32 × Int64)), c.2 ≠ 0 := fun _ h => absurd h List.not_mem_nil

theorem zero_in_range : ∀ c ∈ ([] : List (UInt32 × Int64)), c.1.toNat < 1 := fun _ h => absurd h List.not_mem_nil

def zero_body : SparseBody :=
  { n := 1, coords := [], sorted := zero_sorted, nonzero := zero_nonzero, in_range := zero_in_range }

def zero_draft : Block :=
  let proof := vrf_prove (key 7) owned.head 1 lottery.ATTEMPT_MAX
  delta_draft 1 (expected_version_at 1 params) owned.head (hex_encode (key 7).val) (hex_encode proof) lottery.ATTEMPT_MAX
    (lottery.attempt_work proof lottery.ATTEMPT_MAX) (zero_tx (key 7)) zero_body

theorem zero_ready : DeltaReady owned_parent owned.params zero_draft (zero_tx (key 7)) where
  version := rfl
  height := rfl
  lottery := lottery_last _ (key 7) (hex_decode_encode (key 7).val) (hex_ne_genesis (key 7).val) rfl rfl rfl
  signed := zero_tx_signed (key 7)
  base := show (0 : UInt64) = 1 - 1 by decide
  claims := rfl
  lane := rfl
  bond := rfl
  provenance := ⟨"genesis", List.mem_singleton_self _, owned_active⟩

theorem zero_body_rules : owned.check_sparse_tx zero_draft owned_parent.model (zero_tx (key 7)) = .ok zero_body.coords := by
  have hbody : body_coords zero_draft (zero_tx (key 7)) = .ok (1, []) := by
    have : zero_draft.sparse[(zero_tx (key 7)).da_pointer]? = some zero_body := Std.ExtTreeMap.getElem?_insert_self
    rw [body_coords, this]
    rfl
  simp only [check_sparse_tx, hbody, bind_eq_ok, require_eq_ok, exists_unit, pure_eq_ok]
  refine ⟨(1, []), rfl, rfl, .inr rfl, rfl, by simp, ?_, rfl⟩
  decide +kernel

def zero_block : Block := full_block owned owned_parent zero_draft zero_body.coords

def owned₁ : BlockTree :=
  owned.commit_staged zero_block.hash zero_block.header (delta_staged owned owned_parent zero_draft zero_body.coords) 1

def parent₁ : Parent :=
  { model := (delta_staged owned owned_parent zero_draft zero_body.coords).post_model
    ledger := (delta_staged owned owned_parent zero_draft zero_body.coords).led
    height := 1, work := 1, jurors := ∅ }

/-- The delta's own message marks its body as verified. -/
def marked₁ : BlockTree := { owned₁ with hash_verified := owned₁.hash_verified.insert (zero_tx (key 7)).txid }

def second : Block := block_by marked₁ parent₁ zero_block.hash (key 7)

def owned₂ : BlockTree := marked₁.commit_staged second.hash second.header (empty_staged marked₁ parent₁ second) 2

def parent₂ : Parent :=
  { model := (empty_staged marked₁ parent₁ second).post_model
    ledger := (empty_staged marked₁ parent₁ second).led
    height := 2, work := 2, jurors := ∅ }

def third : Block := block_by owned₂ parent₂ second.hash (key 7)

theorem hashes_distinct : [owned.head, zero_block.hash, second.hash, third.hash].Nodup := by decide +kernel

theorem block_by_jurors (t : BlockTree) (p : Parent) (prev_hash : String) (pk : ByteArr 32) (jurors : StrSet) :
    t.validate_at_base (block_by t p prev_hash pk) { p with jurors } =
      .ok (empty_staged t p (block_by t p prev_hash pk)) :=
  block_by_valid t { p with jurors } prev_hash pk

theorem block_by_decodes [Serde] (t : BlockTree) (p : Parent) (prev_hash : String) (pk : ByteArr 32) (m : Dict Payload) :
    (Node.empty_stored (block_by t p prev_hash pk).header).to_core_sparse m = some (block_by t p prev_hash pk) := rfl

theorem block_by_work (t : BlockTree) (p : Parent) (prev_hash : String) (pk : ByteArr 32) :
    (block_by t p prev_hash pk).header.work = 1 := attempt_work_last _

theorem zero_body_eq : zero_payload.body = some zero_body := by
  cases hb : zero_payload.body with
  | none =>
    unfold Payload.body at hb
    split at hb
    · rename_i hc
      rw [zero_coords] at hc
      cases hc
    · cases hb
  | some b =>
    obtain ⟨hn, hc⟩ := Payload.body_eq_some hb
    have hcoords : b.coords = [] := (Option.some.inj (zero_coords.symm.trans hc)).symm
    cases b
    cases hn
    cases hcoords
    rfl

def zero_id : String := (zero_tx (key 7)).txid

def zero_stored : StoredBlock :=
  { header := zero_block.header, txs := [.from_core (zero_tx (key 7))], transfers := [], data_txs := []
    scores := zero_block.scores, sketches := zero_block.sketches, page_leaves := [] }

theorem zero_txids : zero_stored.txids = [zero_id] := by
  unfold StoredBlock.txids StoredBlock.deltas
  simp only [zero_stored, List.filterMap_cons, Node.to_core_from_core, List.filterMap_nil, List.map_cons, List.map_nil]
  rfl

theorem zero_decodes {payloads : Dict Payload} (h : payloads[zero_id]? = some zero_payload) :
    zero_stored.to_core_sparse payloads = some zero_block := by
  have hins : StoredBlock.insert_body payloads ∅ (zero_tx (key 7)) = some ((∅ : Dict SparseBody).insert "body" zero_body) := by
    unfold StoredBlock.insert_body
    rw [show (zero_tx (key 7)).txid = zero_id from rfl, h]
    simp only [Option.bind_eq_bind, Option.bind_some, zero_body_eq]
    rfl
  simp only [StoredBlock.to_core_sparse, zero_stored, List.mapM_cons, List.mapM_nil, Node.to_core_from_core,
    Option.bind_eq_bind, Option.bind_some, Option.pure_def, List.foldlM_cons, List.foldlM_nil, hins]
  rfl

def env : Env := ⟨0, id⟩

def node_key : Key := { pub_hex := hex_encode (key 7).val, sign := fun m => (sign (key 7) m).val }

def node₀ : Node := .start owned node_key {}

/-- The block and the body arrive in a sync response, before the delta itself. -/
def first : Node.Msg := .SyncBatch "peer" [zero_stored] [(zero_id, zero_payload)]

theorem owned_tip : Tip owned owned_parent [owned.head] where
  full := rfl
  innocent _ := Std.ExtTreeSet.not_mem_empty
  unpruned := rfl
  only := fun h hh => List.mem_singleton.mpr (Node.new_blocks [5] (some "owner") params h hh)
  entries := ⟨_, owned_entries⟩

theorem owned_takes (jurors : StrSet) : owned.validate_at_base zero_block { owned_parent with jurors } =
    .ok (delta_staged owned owned_parent zero_draft zero_body.coords) :=
  validate_delta_jurors jurors zero_ready zero_body_rules


end Toy

end Sestrian
