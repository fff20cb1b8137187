import Sestrian.Tree.Unpruned
import Sestrian.Code.Bytes
import Sestrian.Code.Toy

/-!
# Blocks without transactions

A proposer without deltas still proposes. Such a block is accepted exactly when its proposer
passes the lottery, since it commits to what the validator computes.
-/

open Check

namespace Sestrian

open Aggregate Pages BlockTree

section Any

variable [Crypto]

/-- Every commitment that does not depend on the parent. -/
def draft_block (height version : UInt64) (prev_hash proposer vrf_proof : String) (vrf_attempt work : UInt64) :
    Block where
  header :=
    { height, prev_hash, state_root := "", txset_root := txset_root [], n_txs := 0, work, proposer,
      transfer_root := transfer_root [], ledger_root := "", data_root := data_root [], vrf_proof,
      score_root := scores_root ∅, sketch_root := sketch_root ∅, model_root := "", vrf_attempt, version }
  txs := []
  bodies := ∅
  sparse := ∅
  transfers := []
  data_txs := []
  scores := ∅
  sketches := ∅
  witness_leaves := []

/-- The ledger after a block that only pays its proposer. -/
def empty_ledger (p : Parent) (dc : Option String) (b : Block) : TokenLedger :=
  reward_block ((p.ledger.resolve_expired_challenges b.header.height).resolve_expired_bonds b.header.height) b dc

/-- The state roots that canon at the parent gives. -/
def seal_block (t : BlockTree) (p : Parent) (b : Block) : Block :=
  let post := fold_block b p.model t.params
  { b with header := { b.header with
      state_root := (t.state_root_with p.model.spans ∅ (init_pages t.params post.2)).1
      model_root := post.1.model_root
      ledger_root := (empty_ledger p t.data_contributor b).root } }

def empty_block (t : BlockTree) (p : Parent) (prev_hash proposer vrf_proof : String) (vrf_attempt work : UInt64) :
    Block :=
  seal_block t p (draft_block (p.height + 1) (expected_version_at (p.height + 1) t.params) prev_hash proposer
    vrf_proof vrf_attempt work)

def empty_staged (t : BlockTree) (p : Parent) (b : Block) : Staged :=
  let post := fold_block b p.model t.params
  { agg := ∅
    init_pages := init_pages t.params post.2
    new_leaves := (t.state_root_with p.model.spans ∅ (init_pages t.params post.2)).2
    led := empty_ledger p t.data_contributor b
    post_model := post.1 }

theorem token_transition_empty {b : Block} (h : b.txs = [] ∧ b.transfers = [] ∧ b.data_txs = []) (p : Parent)
    (dc : Option String) (jurors : StrSet) :
    token_transition p.ledger b dc jurors = .ok (empty_ledger p dc b) := by
  simp [token_transition, check_provenance, h, account_txs, canonical_account_txs, empty_ledger]

/-- The fold and the ledger do not read the roots that sealing fills in. -/
theorem fold_block_seal (t : BlockTree) (p : Parent) (b : Block) (m : ModelState) (params : GenesisParams) :
    fold_block (seal_block t p b) m params = fold_block b m params := by
  unfold fold_block zero_scored
  rfl

theorem empty_ledger_seal (t : BlockTree) (p : Parent) (b : Block) (dc : Option String) :
    empty_ledger p dc (seal_block t p b) = empty_ledger p dc b := by
  unfold empty_ledger reward_block accrue
  rfl

/-- A sealed block commits to its own results. -/
theorem seal_block_roots (t : BlockTree) (p : Parent) (b : Block) :
    (fold_block (seal_block t p b) p.model t.params).1.model_root = (seal_block t p b).header.model_root ∧
    (empty_ledger p t.data_contributor (seal_block t p b)).root = (seal_block t p b).header.ledger_root ∧
    (t.state_root_with p.model.spans ∅
      (init_pages t.params (fold_block (seal_block t p b) p.model t.params).2)).1 =
      (seal_block t p b).header.state_root := by
  rw [fold_block_seal, empty_ledger_seal]
  exact ⟨rfl, rfl, rfl⟩

/-- An empty block needs a proposer who passes the lottery, and nothing else. -/
theorem validate_empty (t : BlockTree) (p : Parent) (prev_hash proposer vrf_proof : String)
    (vrf_attempt work : UInt64)
    (hl : check_lottery (empty_block t p prev_hash proposer vrf_proof vrf_attempt work).header p.ledger = .ok ()) :
    t.validate_at_base (empty_block t p prev_hash proposer vrf_proof vrf_attempt work) p =
      .ok (empty_staged t p (empty_block t p prev_hash proposer vrf_proof vrf_attempt work)) := by
  set b := empty_block t p prev_hash proposer vrf_proof vrf_attempt work with hb
  have htxs : b.txs = [] := rfl
  have hkeys {ν : Type} : (∅ : Dict ν).keys = [] := Std.ExtTreeMap.keys_eq_nil_iff.mpr rfl
  have hvals {ν : Type} : (∅ : Dict ν).values = [] := rfl
  have hsets : check_sets b = .ok () := by
    simp [check_sets, htxs, show b.scores = ∅ from rfl, show b.sketches = ∅ from rfl, hkeys, hvals]
    exact ⟨rfl, rfl, rfl⟩
  have hheader : check_header b p.height p.ledger t.params = .ok () := by
    simp only [check_header, bind_eq_ok, require_eq_ok, exists_unit]
    exact ⟨rfl, rfl, rfl, hl⟩
  obtain ⟨hmodel, hled, hstate⟩ := seal_block_roots t p (draft_block (p.height + 1)
    (expected_version_at (p.height + 1) t.params) prev_hash proposer vrf_proof vrf_attempt work)
  rw [← empty_block, ← hb] at hmodel hled hstate
  have htoken := token_transition_empty (b := b) ⟨rfl, rfl, rfl⟩ p t.data_contributor p.jurors
  have hinner : validate_inner b none p.height p.ledger t.data_contributor p.jurors p.model t.params =
      .ok { weights := none, ledger := empty_ledger p t.data_contributor b,
            model := (fold_block b p.model t.params).1, activations := (fold_block b p.model t.params).2 } := by
    simp only [validate_inner, bind_eq_ok, require_eq_ok, pure_eq_ok, exists_unit, forM_eq_ok, mapM_none_eq_ok,
      htoken]
    exact ⟨hheader, fun tx htx => absurd htx (by simp [htxs]), hsets, none, rfl, hmodel, rfl, rfl, _, rfl, hled, rfl⟩
  simp only [validate_at_base, bind_eq_ok, require_eq_ok, pure_eq_ok, exists_unit]
  refine ⟨[], by rw [htxs]; rfl, _, hinner, ?_, ?_⟩
  · rw [page_aggregate_nil htxs]
    exact hstate
  · rw [page_aggregate_nil htxs]
    rfl

/-! ## Work -/

omit [Crypto] in
theorem leading_zeros_le (b : List UInt8) : lottery.leading_zeros b ≤ 8 * b.length := by
  induction b with
  | nil => simp [lottery.leading_zeros]
  | cons x b ih =>
    simp only [lottery.leading_zeros, List.length_cons]
    split
    · omega
    · simp only [lottery.byte_leading_zeros]
      omega

theorem vrf_work_le (proof : List UInt8) : (lottery.vrf_work proof).toNat ≤ 257 := by
  have h := leading_zeros_le (lottery.vrf_output proof).val
  rw [(lottery.vrf_output proof).2] at h
  rw [lottery.vrf_work, UInt64.toNat_ofNat_of_lt' (show _ < 2 ^ 64 by omega)]
  omega

/-- The last attempt is worth one unit, whatever the proof. -/
theorem attempt_work_last (proof : List UInt8) : lottery.attempt_work proof lottery.ATTEMPT_MAX = 1 := by
  have h := vrf_work_le proof
  apply UInt64.toNat_inj.mp
  rw [lottery.attempt_work, toNat_max, UInt64.toNat_shiftRight,
    show (min lottery.ATTEMPT_MAX 63).toNat % 64 = 16 by decide, Nat.shiftRight_eq_div_pow,
    Nat.div_eq_of_lt (by omega)]
  rfl

end Any

/-! ## Proposers at the last attempt -/

theorem hex_ne_genesis (b : List UInt8) : hex_encode b ≠ "genesis" := by
  intro he
  have := congrArg hex_decode he
  rw [hex_decode_encode, show hex_decode "genesis" = none by decide] at this
  exact absurd this (by simp)

namespace Toy

/-- The proof that the holder of a key makes for a slot. -/
def vrf_prove (pk : ByteArr 32) (prev_hash : String) (height attempt : UInt64) : List UInt8 :=
  (sign pk (lottery.seed prev_hash height attempt)).val

/-- An empty block by the holder of a key. At the last attempt everybody is eligible. -/
def block_by (t : BlockTree) (p : Parent) (prev_hash : String) (pk : ByteArr 32) : Block :=
  let proof := vrf_prove pk prev_hash (p.height + 1) lottery.ATTEMPT_MAX
  empty_block t p prev_hash (hex_encode pk.val) (hex_encode proof) lottery.ATTEMPT_MAX
    (lottery.attempt_work proof lottery.ATTEMPT_MAX)

/-- Whoever proves with its own key passes at the last attempt. -/
theorem lottery_last {h : Header} (led : TokenLedger) (pk : ByteArr 32) (hp : hex_decode h.proposer = some pk.val)
    (hne : h.proposer ≠ "genesis") (hatt : h.vrf_attempt = lottery.ATTEMPT_MAX)
    (hproof : h.vrf_proof = hex_encode (vrf_prove pk h.prev_hash h.height lottery.ATTEMPT_MAX))
    (hwork : h.work = lottery.attempt_work (vrf_prove pk h.prev_hash h.height lottery.ATTEMPT_MAX) lottery.ATTEMPT_MAX) :
    check_lottery h led = .ok () := by
  have hget : (hex_decode h.vrf_proof).getD [] = vrf_prove pk h.prev_hash h.height lottery.ATTEMPT_MAX := by
    rw [hproof, hex_decode_encode]
    rfl
  have hver := verify_sign hp (lottery.seed h.prev_hash h.height lottery.ATTEMPT_MAX)
  simp only [check_lottery, hne, if_false, hget, bind_eq_ok, require_eq_ok, exists_unit, hatt]
  refine ⟨by rw [UInt64.le_iff_toNat_le], ?_, hwork⟩
  simp only [lottery.eligible, gt_iff_lt, UInt64.lt_irrefl, if_false, if_true]
  rw [if_neg]
  simp only [Bool.not_eq_true', Bool.not_eq_false]
  exact hver

theorem block_by_lottery (t : BlockTree) (p : Parent) (prev_hash : String) (pk : ByteArr 32) :
    check_lottery (block_by t p prev_hash pk).header p.ledger = .ok () :=
  lottery_last p.ledger pk (hex_decode_encode pk.val) (hex_ne_genesis pk.val) rfl rfl rfl

theorem block_by_valid (t : BlockTree) (p : Parent) (prev_hash : String) (pk : ByteArr 32) :
    t.validate_at_base (block_by t p prev_hash pk) p = .ok (empty_staged t p (block_by t p prev_hash pk)) :=
  validate_empty _ _ _ _ _ _ _ (block_by_lottery t p prev_hash pk)

def key (x : UInt8) : ByteArr 32 := ⟨List.replicate 32 x, List.length_replicate⟩

/-- A node that has seen nothing but genesis. -/
def start : BlockTree := .new [5] none params

/-- What genesis gives to its children. -/
def genesis_parent : Parent :=
  { model := ModelState.genesis params.spec, ledger := TokenLedger.new, height := 0, work := 0,
    jurors := start.recent_proposers start.head }

theorem start_entries : start.parent_entries start.head = .ok genesis_parent := by
  simp [parent_entries, start, BlockTree.new, ok_or, genesis_ledger, genesis_header, genesis_parent]

end Toy

end Sestrian
