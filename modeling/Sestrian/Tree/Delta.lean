import Sestrian.Tree.Empty

/-!
# Blocks with one delta

The block commits to what the validator computes from its parent. Its weights root is a
parameter: a full node and a paged node compute it from different things.
-/

open Check

namespace Sestrian

open BlockTree

section Any

variable [Crypto]

/-- The delta's body stands in the block under its pointer. -/
def delta_draft (height version : UInt64) (prev_hash proposer vrf_proof : String) (vrf_attempt work : UInt64)
    (tx : BackpropTx) (body : SparseBody) : Block :=
  let scores : Dict UInt64 := (∅ : Dict UInt64).insert tx.txid 0
  let sketches : Dict (List Int32) := (∅ : Dict (List Int32)).insert tx.txid (List.replicate SKETCH_DIM 0)
  { header :=
      { height, prev_hash, state_root := "", txset_root := txset_root [tx.txid], n_txs := 1, work, proposer,
        transfer_root := transfer_root [], ledger_root := "", data_root := data_root [], vrf_proof,
        score_root := scores_root scores, sketch_root := sketch_root sketches, model_root := "", vrf_attempt, version }
    txs := [tx]
    bodies := ∅
    sparse := (∅ : Dict SparseBody).insert tx.da_pointer body
    transfers := []
    data_txs := []
    scores
    sketches
    witness_leaves := [] }

def seal_delta (p : Parent) (dc : Option String) (params : GenesisParams) (state_root : String) (b : Block) : Block :=
  { b with header := { b.header with
      state_root
      model_root := (fold_block b p.model params).1.model_root
      ledger_root := (empty_ledger p dc b).root } }

/-- A delta without a bond costs its miner nothing. -/
theorem token_transition_delta {b : Block} {tx : BackpropTx} (htxs : b.txs = [tx]) (hacc : b.transfers = [] ∧ b.data_txs = [])
    (hbond : tx.bond = 0) (p : Parent) (dc : Option String) (jurors : StrSet)
    (hprov : ∃ r ∈ tx.canonical_refs, r ∈ active_hashes
      ((p.ledger.resolve_expired_challenges b.header.height).resolve_expired_bonds b.header.height)) :
    token_transition p.ledger b dc jurors = .ok (empty_ledger p dc b) := by
  have hcheck : check_provenance ((p.ledger.resolve_expired_challenges b.header.height).resolve_expired_bonds
      b.header.height) b = .ok () := by
    rw [check_provenance, forM_eq_ok, htxs]
    intro tx' htx'
    rw [List.mem_singleton.mp htx', require_eq_ok]
    exact hprov
  have hlock (led : TokenLedger) : lock_tx_bond b.header.height led tx = .ok led := by
    simp [lock_tx_bond, TokenLedger.lock_bond, hbond, require]
  simp only [token_transition, hcheck, htxs, bind, Except.bind, List.foldlM_cons, List.foldlM_nil, hlock]
  simp [account_txs, canonical_account_txs, hacc, empty_ledger, pure, Except.pure]

theorem check_sets_delta (height version : UInt64) (prev_hash proposer vrf_proof : String) (vrf_attempt work : UInt64)
    (tx : BackpropTx) (body : SparseBody) :
    check_sets (delta_draft height version prev_hash proposer vrf_proof vrf_attempt work tx body) = .ok () := by
  have hkeys {ν : Type} (v : ν) (k : String) : k ∈ ((∅ : Dict ν).insert tx.txid v).keys ↔ k = tx.txid := by
    rw [Std.ExtTreeMap.mem_keys, mem_insert_iff]
    simp
  have hvals {ν : Type} (v x : ν) (hx : x ∈ ((∅ : Dict ν).insert tx.txid v).values) : x = v := by
    obtain ⟨k, hk⟩ := SumMap.mem_values.mp hx
    rw [SumMap.get_insert] at hk
    split at hk
    · exact (Option.some.inj hk).symm
    · simp at hk
  simp only [check_sets, bind_eq_ok, require_eq_ok, exists_unit]
  refine ⟨rfl, ⟨fun k hk => ?_, fun k hk => ?_⟩, fun v hv => ?_, rfl, ⟨fun k hk => ?_, fun k hk => ?_⟩,
    fun v hv => ?_, rfl⟩
  · exact List.mem_singleton.mpr ((hkeys _ k).mp hk)
  · exact (hkeys _ k).mpr (List.mem_singleton.mp hk)
  · rw [hvals _ v hv]
    decide
  · exact List.mem_singleton.mpr ((hkeys _ k).mp hk)
  · exact (hkeys _ k).mpr (List.mem_singleton.mp hk)
  · rw [hvals _ v hv, List.length_replicate]

/-- The rules that need no weights. -/
structure DeltaReady (p : Parent) (params : GenesisParams) (b : Block) (tx : BackpropTx) : Prop where
  version : b.header.version = expected_version_at b.header.height params
  height : b.header.height = p.height + 1
  lottery : check_lottery b.header p.ledger = .ok ()
  signed : tx.verify = true
  base : tx.base_height = b.header.height - 1
  claims : check_claims p.model tx = .ok ()
  lane : check_lane b.header.height p.model params tx = .ok ()
  bond : tx.bond = 0
  provenance : ∃ r ∈ tx.canonical_refs, r ∈ active_hashes
    ((p.ledger.resolve_expired_challenges b.header.height).resolve_expired_bonds b.header.height)

theorem validate_inner_delta {p : Parent} {params : GenesisParams} (dc : Option String) (jurors : StrSet)
    {height version : UInt64} {prev_hash proposer vrf_proof : String} {vrf_attempt work : UInt64} {tx : BackpropTx}
    {body : SparseBody} (state_root : String) (witness_leaves : List Hash)
    (h : DeltaReady p params (delta_draft height version prev_hash proposer vrf_proof vrf_attempt work tx body) tx) :
    let d := delta_draft height version prev_hash proposer vrf_proof vrf_attempt work tx body
    let b := { seal_delta p dc params state_root d with witness_leaves }
    validate_inner b none p.height p.ledger dc jurors p.model params =
      .ok { weights := none, ledger := empty_ledger p dc b, model := (fold_block b p.model params).1,
            activations := (fold_block b p.model params).2 } := by
  intro d b
  have hheader : check_header b p.height p.ledger params = .ok () := by
    simp only [check_header, bind_eq_ok, require_eq_ok, exists_unit]
    exact ⟨h.version, h.height, rfl, h.lottery⟩
  have htx : check_tx b none p.model.dim p.model params tx = .ok () := by
    simp only [check_tx, Option.isSome_none, Bool.false_eq_true, if_false, bind_eq_ok, require_eq_ok, exists_unit,
      pure_eq_ok]
    exact ⟨h.signed, h.base, h.claims, h.lane, trivial⟩
  have hsets : check_sets b = .ok () := check_sets_delta height version prev_hash proposer vrf_proof vrf_attempt work tx body
  have htoken := token_transition_delta (b := b) rfl ⟨rfl, rfl⟩ h.bond p dc jurors h.provenance
  simp only [validate_inner, bind_eq_ok, require_eq_ok, pure_eq_ok, exists_unit, forM_eq_ok, mapM_none_eq_ok, htoken]
  refine ⟨hheader, fun tx' htx' => ?_, hsets, none, rfl, rfl, rfl, rfl, _, rfl, rfl, rfl⟩
  rw [List.mem_singleton.mp (show tx' ∈ [tx] from htx')]
  exact htx

/-- The block on a full node: its weights root is that of the aggregate. -/
def full_block (t : BlockTree) (p : Parent) (d : Block) (coords : List (UInt32 × Int64)) : Block :=
  seal_delta p t.data_contributor t.params (t.state_root_with p.model.spans (page_aggregate d p.model.spans [coords])
    (init_pages t.params (fold_block d p.model t.params).2)).1 d

def delta_staged (t : BlockTree) (p : Parent) (d : Block) (coords : List (UInt32 × Int64)) : Staged :=
  let init := init_pages t.params (fold_block d p.model t.params).2
  { agg := page_aggregate d p.model.spans [coords]
    init_pages := init
    new_leaves := (t.state_root_with p.model.spans (page_aggregate d p.model.spans [coords]) init).2
    led := empty_ledger p t.data_contributor (full_block t p d coords)
    post_model := (fold_block d p.model t.params).1 }

theorem validate_delta {t : BlockTree} {p : Parent} {height version : UInt64} {prev_hash proposer vrf_proof : String}
    {vrf_attempt work : UInt64} {tx : BackpropTx} {body : SparseBody}
    (hd : DeltaReady p t.params (delta_draft height version prev_hash proposer vrf_proof vrf_attempt work tx body) tx)
    (hbody : t.check_sparse_tx (delta_draft height version prev_hash proposer vrf_proof vrf_attempt work tx body)
      p.model tx = .ok body.coords) :
    t.validate_at_base (full_block t p
      (delta_draft height version prev_hash proposer vrf_proof vrf_attempt work tx body) body.coords) p =
      .ok (delta_staged t p (delta_draft height version prev_hash proposer vrf_proof vrf_attempt work tx body)
        body.coords) := by
  set d := delta_draft height version prev_hash proposer vrf_proof vrf_attempt work tx body with hdef
  have hv := validate_inner_delta t.data_contributor p.jurors
    (t.state_root_with p.model.spans (page_aggregate d p.model.spans [body.coords])
      (init_pages t.params (fold_block d p.model t.params).2)).1 [] hd
  simp only [validate_at_base, bind_eq_ok, require_eq_ok, pure_eq_ok, exists_unit]
  refine ⟨[body.coords], ?_, _, hv, rfl, rfl⟩
  change [tx].mapM (t.check_sparse_tx d p.model) = _
  simp [hbody, pure, Except.pure, bind, Except.bind]


/-- Who judges does not matter to it. -/
theorem validate_delta_jurors {t : BlockTree} {p : Parent} {height version : UInt64}
    {prev_hash proposer vrf_proof : String} {vrf_attempt work : UInt64} {tx : BackpropTx} {body : SparseBody}
    (jurors : StrSet)
    (hd : DeltaReady p t.params (delta_draft height version prev_hash proposer vrf_proof vrf_attempt work tx body) tx)
    (hbody : t.check_sparse_tx (delta_draft height version prev_hash proposer vrf_proof vrf_attempt work tx body)
      p.model tx = .ok body.coords) :
    t.validate_at_base (full_block t p
      (delta_draft height version prev_hash proposer vrf_proof vrf_attempt work tx body) body.coords)
      { p with jurors } =
      .ok (delta_staged t p (delta_draft height version prev_hash proposer vrf_proof vrf_attempt work tx body)
        body.coords) :=
  validate_delta (p := { p with jurors }) ⟨hd.version, hd.height, hd.lottery, hd.signed, hd.base, hd.claims, hd.lane,
    hd.bond, hd.provenance⟩ hbody

end Any

/-! ## A block that adds one -/

open scoped Toy

namespace Toy

/-- A node where the genesis data has an owner. -/
def owned : BlockTree := BlockTree.new [5] (some "owner") params

def owned_parent : Parent :=
  { model := ModelState.genesis params.spec, ledger := genesis_ledger (some "owner"), height := 0, work := 0,
    jurors := owned.recent_proposers owned.head }

theorem owned_entries : owned.parent_entries owned.head = .ok owned_parent := by
  simp [parent_entries, owned, BlockTree.new, ok_or, genesis_header, owned_parent]

theorem owned_active : "genesis" ∈ active_hashes
    ((owned_parent.ledger.resolve_expired_challenges 1).resolve_expired_bonds 1) := by
  decide +kernel

/-- The delta that moves nothing, by the holder of a key. -/
def zero_unsigned (pk : ByteArr 32) : BackpropTx :=
  { miner := hex_encode pk.val, base_height := 0, delta_hash := delta_hash_sparse 1 [], da_pointer := "body", bond := 0,
    pages := [0], data_refs := ["genesis"], sig := [] }

/-- The delta that adds one, by the holder of a key. -/
def one_unsigned (pk : ByteArr 32) : BackpropTx := { zero_unsigned pk with delta_hash := delta_hash_sparse 1 [(0, 1)] }

def one_tx (pk : ByteArr 32) : BackpropTx :=
  { one_unsigned pk with sig := (sign pk (one_unsigned pk).signing_bytes).val }

theorem one_tx_signed (pk : ByteArr 32) : (one_tx pk).verify = true :=
  verify_sign (hex_decode_encode pk.val) (one_unsigned pk).signing_bytes

theorem one_sorted : ([(0, 1)] : List (UInt32 × Int64)).Pairwise fun a b => a.1 < b.1 := List.pairwise_singleton _ _

theorem one_nonzero : ∀ c ∈ ([(0, 1)] : List (UInt32 × Int64)), c.2 ≠ 0 := by simp

theorem one_in_range : ∀ c ∈ ([(0, 1)] : List (UInt32 × Int64)), c.1.toNat < 1 := by simp

def adding_body : SparseBody :=
  { n := 1, coords := [(0, 1)], sorted := one_sorted, nonzero := one_nonzero, in_range := one_in_range }

def one_draft : Block :=
  let proof := vrf_prove (key 7) owned.head 1 lottery.ATTEMPT_MAX
  delta_draft 1 (expected_version_at 1 params) owned.head (hex_encode (key 7).val) (hex_encode proof) lottery.ATTEMPT_MAX
    (lottery.attempt_work proof lottery.ATTEMPT_MAX) (one_tx (key 7)) adding_body

theorem one_ready : DeltaReady owned_parent owned.params one_draft (one_tx (key 7)) where
  version := rfl
  height := rfl
  lottery := lottery_last _ (key 7) (hex_decode_encode (key 7).val) (hex_ne_genesis (key 7).val) rfl rfl rfl
  signed := one_tx_signed (key 7)
  base := show (0 : UInt64) = 1 - 1 by decide
  claims := rfl
  lane := rfl
  bond := rfl
  provenance := ⟨"genesis", List.mem_singleton_self _, owned_active⟩

theorem one_body_rules : owned.check_sparse_tx one_draft owned_parent.model (one_tx (key 7)) = .ok adding_body.coords := by
  have hbody : body_coords one_draft (one_tx (key 7)) = .ok (1, [(0, 1)]) := by
    have : one_draft.sparse[(one_tx (key 7)).da_pointer]? = some adding_body := Std.ExtTreeMap.getElem?_insert_self
    rw [body_coords, this]
    rfl
  simp only [check_sparse_tx, hbody, bind_eq_ok, require_eq_ok, exists_unit, pure_eq_ok]
  refine ⟨(1, [(0, 1)]), rfl, rfl, .inr rfl, rfl, ?_, ?_, rfl⟩
  · intro c hc _
    obtain rfl := List.mem_singleton.mp hc
    decide
  · decide +kernel

def adding_block : Block := full_block owned owned_parent one_draft adding_body.coords

def adding_staged : Staged := delta_staged owned owned_parent one_draft adding_body.coords

theorem adding_takes : owned.validate_at_base adding_block owned_parent = .ok adding_staged :=
  validate_delta one_ready one_body_rules

end Toy

end Sestrian
