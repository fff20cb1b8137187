import Sestrian.Ledger.Booked
import Sestrian.Tree.Tip

/-!
# Blocks with account transactions

A block without deltas whose account transactions all apply. Two such blocks make the small
market on which later results are run: a payment, a submission, a challenge and a vote.
-/

open Check

namespace Sestrian

open Aggregate Pages BlockTree

section Any

variable [Crypto]

/-- The block with the roots that the validator computes from it, and with the root of this ledger. -/
def seal_trade (t : BlockTree) (p : Parent) (d : Block) (led : TokenLedger) : Block :=
  let post := fold_block d p.model t.params
  { d with header := { d.header with
      state_root := (t.state_root_with p.model.spans ∅ (init_pages t.params post.2)).1
      model_root := post.1.model_root
      ledger_root := led.root } }

def trade_staged (t : BlockTree) (p : Parent) (d : Block) (led : TokenLedger) : Staged :=
  let post := fold_block d p.model t.params
  { agg := ∅
    init_pages := init_pages t.params post.2
    new_leaves := (t.state_root_with p.model.spans ∅ (init_pages t.params post.2)).2
    led
    post_model := post.1 }

/-- A block without deltas is accepted when its proposer passes the lottery and its account transactions apply. -/
theorem validate_trade (t : BlockTree) (p : Parent) {d : Block} {led : TokenLedger} (htxs : d.txs = [])
    (hheader : check_header d p.height p.ledger t.params = .ok ()) (hsets : check_sets d = .ok ())
    (htransfer : transfer_root d.transfers = d.header.transfer_root) (hdata : data_root d.data_txs = d.header.data_root)
    (htoken : token_transition p.ledger d t.data_contributor p.jurors = .ok led) :
    t.validate_at_base (seal_trade t p d led) p = .ok (trade_staged t p d led) := by
  set b := seal_trade t p d led with hb
  have hbtxs : b.txs = [] := htxs
  have hfold : fold_block b p.model t.params = fold_block d p.model t.params := rfl
  have hinner : validate_inner b none p.height p.ledger t.data_contributor p.jurors p.model t.params =
      .ok { weights := none, ledger := led, model := (fold_block d p.model t.params).1,
            activations := (fold_block d p.model t.params).2 } := by
    simp only [validate_inner, bind_eq_ok, require_eq_ok, pure_eq_ok, exists_unit, forM_eq_ok, mapM_none_eq_ok]
    exact ⟨hheader, fun tx htx => absurd htx (by simp [hbtxs]), hsets, none, rfl, rfl, htransfer, hdata, led, htoken, rfl, rfl⟩
  simp only [validate_at_base, bind_eq_ok, require_eq_ok, pure_eq_ok, exists_unit]
  refine ⟨[], by rw [hbtxs]; rfl, _, hinner, ?_, ?_⟩
  · rw [page_aggregate_nil hbtxs]
    rfl
  · rw [page_aggregate_nil hbtxs]
    rfl

/-- On a chain the jurors of the head are its last proposers. -/
theorem Tip.entries_on {genesis_w : List Int64} {params : GenesisParams} {n : Logged} {S : String → List Int64 × ModelState}
    {p : Parent} {known : List String} {chain : List Block} (h : Tip n.tree p known) (hc : Coherent genesis_w params n S)
    (hch : Chain n.log n.tree.genesis_hash n.tree.head chain) :
    n.tree.parent_entries n.tree.head = .ok { p with jurors := jurors_of chain } := by
  obtain ⟨jurors, he⟩ := h.entries
  obtain ⟨-, -, -, -, hjurors⟩ := parent_entries_spec he
  rw [he, ← hc.jurors_eq hch]
  exact congrArg (fun j => Except.ok { p with jurors := j }) hjurors

end Any

open scoped Toy

namespace Toy

/-- The transaction with the signature of the holder of a key. -/
def payment (pk pk' : ByteArr 32) (nonce : UInt64) : TransferTx :=
  let t : TransferTx :=
    { from_pub := hex_encode pk.val, to_addr := address (hex_encode pk'.val), amount := 10, nonce, sig := [] }
  { t with sig := (sign pk (AccountTx.Transfer t).signing_bytes).val }

def submission (pk : ByteArr 32) : DataSubmitTx :=
  let t : DataSubmitTx :=
    { owner_pub := hex_encode pk.val, data_hash := "corpus", size_bytes := 1, media_type := "text", stake := 3, nonce := 0,
      da_root := String.ofList (List.replicate 64 '0'), sig := [] }
  { t with sig := (sign pk (AccountTx.DataSubmit t).signing_bytes).val }

def doubt (pk : ByteArr 32) (data_id : String) : DataChallengeTx :=
  let t : DataChallengeTx :=
    { challenger_pub := hex_encode pk.val, data_id, stake := 2, reason := "copied", nonce := 0, sig := [] }
  { t with sig := (sign pk (AccountTx.DataChallenge t).signing_bytes).val }

def ballot (pk : ByteArr 32) (challenge_id : String) (nonce : UInt64) : DataVoteTx :=
  let t : DataVoteTx := { voter_pub := hex_encode pk.val, challenge_id, support := true, nonce, sig := [] }
  { t with sig := (sign pk (AccountTx.DataVote t).signing_bytes).val }

/-- A block by the holder of a key, with these transactions. -/
def trade_draft (pk : ByteArr 32) (p : Parent) (prev_hash : String) (transfers : List TransferTx) (data_txs : List AccountTx) :
    Block :=
  let proof := vrf_prove pk prev_hash (p.height + 1) lottery.ATTEMPT_MAX
  let d := draft_block (p.height + 1) (expected_version_at (p.height + 1) params) prev_hash (hex_encode pk.val)
    (hex_encode proof) lottery.ATTEMPT_MAX (lottery.attempt_work proof lottery.ATTEMPT_MAX)
  { d with
    transfers
    data_txs
    header := { d.header with transfer_root := transfer_root transfers, data_root := data_root data_txs } }

theorem trade_draft_valid (pk : ByteArr 32) (t : BlockTree) (p : Parent) (prev_hash : String) (transfers : List TransferTx)
    (data_txs : List AccountTx) {led : TokenLedger} (jurors : StrSet) (hparams : t.params = params)
    (htoken : token_transition p.ledger (trade_draft pk p prev_hash transfers data_txs) t.data_contributor jurors = .ok led) :
    t.validate_at_base (seal_trade t p (trade_draft pk p prev_hash transfers data_txs) led) { p with jurors } =
      .ok (trade_staged t p (trade_draft pk p prev_hash transfers data_txs) led) := by
  have hkeys {ν : Type} : (∅ : Dict ν).keys = [] := Std.ExtTreeMap.keys_eq_nil_iff.mpr rfl
  have hvals {ν : Type} : (∅ : Dict ν).values = [] := rfl
  set d := trade_draft pk p prev_hash transfers data_txs with hd
  have htxs : d.txs = [] := rfl
  have hheader : check_header d p.height p.ledger t.params = .ok () := by
    rw [hparams]
    simp only [check_header, bind_eq_ok, require_eq_ok, exists_unit]
    exact ⟨rfl, rfl, rfl, lottery_last _ pk (hex_decode_encode pk.val) (hex_ne_genesis pk.val) rfl rfl rfl⟩
  have hsets : check_sets d = .ok () := by
    simp [check_sets, htxs, show d.scores = ∅ from rfl, show d.sketches = ∅ from rfl, hkeys, hvals]
    exact ⟨rfl, rfl, rfl⟩
  exact validate_trade t { p with jurors } htxs hheader hsets rfl rfl htoken

theorem trade_prev (pk : ByteArr 32) (t : BlockTree) (p : Parent) (prev_hash : String) (transfers : List TransferTx)
    (data_txs : List AccountTx) (led : TokenLedger) :
    (seal_trade t p (trade_draft pk p prev_hash transfers data_txs) led).header.prev_hash = prev_hash := rfl

/-! ## A small market -/

def corpus : AccountTx := .DataSubmit (submission (key 3))

def challenge : AccountTx := .DataChallenge (doubt (key 2) corpus.txid)

def vote : AccountTx := .DataVote (ballot (key 4) challenge.txid 2)

/-- Block 1 by one key, which pays two others. One of these submits a corpus, the other challenges it. -/
def opening_draft : Block :=
  trade_draft (key 4) genesis_parent start.head [payment (key 4) (key 3) 0, payment (key 4) (key 2) 1] [corpus, challenge]

@[irreducible]
def opening_ledger : TokenLedger := (token_transition TokenLedger.new opening_draft none ∅).toOption.getD TokenLedger.new

def opening_trade : Block := seal_trade start genesis_parent opening_draft opening_ledger

def opening_staged : Staged := trade_staged start genesis_parent opening_draft opening_ledger

def opening_work : UInt64 := saturating_add genesis_parent.work (max opening_trade.header.work 1)

def opening_tree : BlockTree := start.commit_staged opening_trade.hash opening_trade.header opening_staged opening_work

def opening_log : Dict Block := (∅ : Dict Block).insert opening_trade.hash opening_trade

def voting_parent : Parent :=
  { model := opening_staged.post_model, ledger := opening_ledger, height := opening_trade.header.height, work := opening_work,
    jurors := ∅ }

/-- Block 2 by the challenger, in which the proposer of block 1 votes. -/
def voting_draft : Block :=
  trade_draft (key 2) voting_parent opening_trade.hash [] [vote]

@[irreducible]
def traded_ledger : TokenLedger :=
  (token_transition opening_ledger voting_draft none ((∅ : StrSet).insert (hex_encode (key 4).val))).toOption.getD TokenLedger.new

def voting_trade : Block := seal_trade opening_tree voting_parent voting_draft traded_ledger

def voting_staged : Staged := trade_staged opening_tree voting_parent voting_draft traded_ledger

def voting_work : UInt64 := saturating_add voting_parent.work (max voting_trade.header.work 1)

def voting_tree : BlockTree := opening_tree.commit_staged voting_trade.hash voting_trade.header voting_staged voting_work

def voting_log : Dict Block := opening_log.insert voting_trade.hash voting_trade

theorem ok_of_isSome {ε α : Type} {x : Except ε α} {d : α} (h : x.toOption.isSome) : x = .ok (x.toOption.getD d) := by
  cases x with
  | error e => simp [Except.toOption] at h
  | ok a => rfl

theorem opening_tokens : token_transition TokenLedger.new opening_draft none ∅ = .ok opening_ledger := by
  unfold opening_ledger
  exact ok_of_isSome (by decide +kernel)

theorem traded_tokens : token_transition opening_ledger voting_draft none (jurors_of [opening_trade]) = .ok traded_ledger := by
  have hjurors : jurors_of [opening_trade] = (∅ : StrSet).insert (hex_encode (key 4).val) := rfl
  rw [hjurors]
  unfold traded_ledger
  exact ok_of_isSome (by decide +kernel)

theorem trades_apart : [voting_trade.hash, opening_trade.hash, start.head].Nodup := by decide +kernel

theorem opening_fresh : opening_trade.hash ∉ [start.head] :=
  List.nodup_cons.mp (List.nodup_cons.mp trades_apart).2 |>.1

theorem voting_fresh : voting_trade.hash ∉ [opening_trade.hash, start.head] := (List.nodup_cons.mp trades_apart).1

theorem opening_prev : opening_trade.header.prev_hash = start.head := trade_prev (key 4) start genesis_parent start.head _ _ _

theorem voting_prev : voting_trade.header.prev_hash = opening_trade.hash :=
  trade_prev (key 2) opening_tree voting_parent opening_trade.hash _ _ _

theorem opening_valid : start.validate_at_base opening_trade { genesis_parent with jurors := jurors_of [] } = .ok opening_staged := by
  unfold opening_trade opening_staged
  exact trade_draft_valid (key 4) start genesis_parent start.head
    [payment (key 4) (key 3) 0, payment (key 4) (key 2) 1] [corpus, challenge] _ rfl opening_tokens

theorem voting_valid : opening_tree.validate_at_base voting_trade { voting_parent with jurors := jurors_of [opening_trade] } =
    .ok voting_staged := by
  have hparams : opening_tree.params = params ∧ opening_tree.data_contributor = none := by
    unfold opening_tree
    rw [start_tip.commit_eq]
    exact ⟨rfl, rfl⟩
  have htokens : token_transition voting_parent.ledger voting_draft opening_tree.data_contributor (jurors_of [opening_trade]) =
      .ok traded_ledger := by
    rw [hparams.2]
    exact traded_tokens
  unfold voting_trade voting_staged
  exact trade_draft_valid (key 2) opening_tree voting_parent opening_trade.hash [] [vote] _ hparams.1
    htokens

theorem opening_step : (Logged.new [5] none params).step (.add_block opening_trade) = { tree := opening_tree, log := opening_log } := by
  have hc : Coherent [5] params (.new [5] none params) _ := coherent_new (by decide) none
  have he := start_tip.entries_on (n := .new [5] none params) hc .genesis
  have hstep := start_tip.step_at (n := .new [5] none params) opening_fresh opening_prev he opening_valid
  rw [hstep]
  unfold opening_tree opening_log opening_work
  rfl

theorem opening_tip : Tip opening_tree voting_parent [opening_trade.hash, start.head] := start_tip.commit opening_work

theorem opening_head : opening_tree.head = opening_trade.hash ∧ opening_tree.genesis_hash = start.head := by
  unfold opening_tree
  rw [start_tip.commit_eq]
  exact ⟨rfl, rfl⟩

theorem opening_chain : Chain opening_log opening_tree.genesis_hash opening_trade.hash [opening_trade] := by
  rw [opening_head.2]
  have hget : opening_log[opening_trade.hash]? = some opening_trade := by simp [opening_log]
  have hparent : Chain opening_log start.head opening_trade.header.prev_hash [] := by
    rw [opening_prev]
    exact .genesis
  have hne : opening_trade.hash ≠ start.head := fun he => opening_fresh (List.mem_singleton.mpr he)
  exact .block hne hget hparent

theorem voting_step : Logged.step { tree := opening_tree, log := opening_log } (.add_block voting_trade) =
    { tree := voting_tree, log := voting_log } := by
  have hnew : Coherent [5] params (.new [5] none params) _ := coherent_new (by decide) none
  obtain ⟨S, hc, -⟩ := hnew.step (.add_block opening_trade)
  rw [opening_step] at hc
  have hhead : opening_tree.head = opening_trade.hash := opening_head.1
  have he := opening_tip.entries_on hc (show Chain opening_log _ opening_tree.head [opening_trade] from hhead ▸ opening_chain)
  have hstep := opening_tip.step_at (n := ⟨opening_tree, opening_log⟩) voting_fresh (voting_prev.trans hhead.symm) he voting_valid
  rw [hstep]
  simp only [voting_tree, voting_log, voting_work]

/-- A node that took the two blocks. -/
def market : Logged := (Logged.new [5] none params).run [.add_block opening_trade, .add_block voting_trade]

theorem market_eq : market = { tree := voting_tree, log := voting_log } := by
  unfold market Logged.run
  rw [List.foldl_cons, List.foldl_cons, List.foldl_nil, opening_step, voting_step]

theorem market_ledger : market.tree.ledger[voting_trade.hash]? = some traded_ledger := by
  rw [market_eq]
  unfold voting_tree
  rw [opening_tip.commit_eq]
  simp [record, voting_staged, trade_staged]

theorem market_chain : Chain market.log market.tree.genesis_hash voting_trade.hash [opening_trade, voting_trade] := by
  have hgen : voting_tree.genesis_hash = opening_tree.genesis_hash := by
    unfold voting_tree
    rw [opening_tip.commit_eq]
    simp only [record]
  have hget : voting_log[voting_trade.hash]? = some voting_trade := by simp [voting_log]
  have hfresh : voting_trade.hash ∉ opening_log := fun hm => by
    have he := ((mem_insert_iff _ _ _ _).mp hm).resolve_right Std.ExtTreeMap.not_mem_empty
    exact voting_fresh (by rw [← he]; exact List.mem_cons_self)
  have hparent : Chain voting_log opening_tree.genesis_hash voting_trade.header.prev_hash [opening_trade] := by
    rw [voting_prev]
    exact opening_chain.mono hfresh voting_trade
  rw [market_eq]
  change Chain voting_log voting_tree.genesis_hash voting_trade.hash ([opening_trade] ++ [voting_trade])
  rw [hgen]
  have hne : voting_trade.hash ≠ opening_tree.genesis_hash := fun he =>
    voting_fresh (by rw [he, opening_head.2]; exact List.mem_cons_of_mem _ List.mem_cons_self)
  exact .block hne hget hparent

end Toy

end Sestrian
