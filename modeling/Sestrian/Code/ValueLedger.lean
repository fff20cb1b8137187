import Sestrian.Code.Value
import Sestrian.Code.Validate
import Sestrian.Lib.Panic

/-!
# The ledger over JSON values (`token.rs`, `blocktree.rs`)

The registry, the challenges and the bonds are `serde_json::Value`s in the source, and its code unwraps their fields.
Here they are values too, and what the source unwraps, indexes or divides by can panic.
-/

namespace Sestrian

open Panic serde_json

/-- What a step of the node on such a ledger returns. -/
abbrev Step := Except (Stop String)

structure ValueLedger where
  balances : Dict UInt64
  nonces : Dict UInt64
  registry : Dict Value
  challenges : Dict Value
  bonds : Dict Value
  fee_data_pool : UInt64
  fee_train_pool : UInt64

namespace ValueLedger

variable [Crypto]

def new : ValueLedger := ⟨∅, ∅, ∅, ∅, ∅, 0, 0⟩

def seed_genesis_data (led : ValueLedger) (owner_addr : String) : ValueLedger :=
  { led with registry := led.registry.insert "genesis" (.object
    [("data_hash", .string "genesis"), ("media_type", .string "text"), ("owner", .string owner_addr), ("size", .of_u64 0),
     ("stake", .of_u64 0), ("status", .string "active"), ("weight", .of_u64 GENESIS_DATA_WEIGHT)]) }

def balance (led : ValueLedger) (addr : String) : UInt64 := led.balances[addr]?.getD 0

def nonce_of (led : ValueLedger) (addr : String) : UInt64 := led.nonces[addr]?.getD 0

def credit (led : ValueLedger) (addr : String) (amount : UInt64) : ValueLedger :=
  if amount > 0 then
    { led with balances := led.balances.insert addr (saturating_add (led.balance addr) amount) }
  else led

def credit_all (led : ValueLedger) (pays : List (String × UInt64)) : ValueLedger :=
  pays.foldl (fun led p => led.credit p.1 p.2) led

/-- `*balances.get_mut(addr).unwrap() -= amount`. -/
def debit (led : ValueLedger) (addr : String) (amount : UInt64) : Step ValueLedger := do
  let b ← unwrap led.balances[addr]?
  pure { led with balances := led.balances.insert addr (b - amount) }

def bump_nonce (led : ValueLedger) (addr : String) (nonce : UInt64) : ValueLedger :=
  { led with nonces := led.nonces.insert addr (nonce + 1) }

def is_active (e : Value) : Bool := (e.index "status").eq_str "active"

/-! ## The block reward -/

/-- A division by a length, which fits in 64 bits. -/
def div_len (x : UInt64) (n : Nat) : Step UInt64 :=
  if n = 0 then .error .panic else pure (x / UInt64.ofNat n)

def div_u128 (x n : Nat) : Step UInt64 :=
  if n = 0 then .error .panic else pure (UInt64.ofNat (x / n))

def weighted_shares (pool : UInt64) (items : List (String × UInt64)) : Step (List (String × UInt64)) :=
  let wsum := (items.map fun i => i.2.toNat).sum
  items.mapM fun i => do
    let share ← div_u128 (pool.toNat * i.2.toNat) wsum
    pure (i.1, share)

def equal_shares (pool : UInt64) (addrs : List String) : Step (List (String × UInt64)) := do
  let each ← div_len pool addrs.length
  pure (addrs.map fun a => (a, each))

def miner_pays (pool : UInt64) (miner_pubs : List String) (miner_weights : Dict UInt64) : Step (List (String × UInt64)) :=
  let weights := TokenLedger.weights_of miner_pubs miner_weights
  if 0 < (weights.toList.map fun w => w.2.toNat).sum then
    weighted_shares pool (weights.toList.map fun w => (address w.1, w.2))
  else equal_shares pool ((miner_pubs.insertionSort (· ≤ ·)).map address)

def pay_miners (led : ValueLedger) (miners_pool : UInt64) (miner_pubs : List String) (miner_weights : Dict UInt64) :
    Step ValueLedger :=
  if miner_pubs.isEmpty then pure led
  else do
    let pays ← miner_pays (saturating_add miners_pool led.fee_train_pool) miner_pubs miner_weights
    pure (({ led with fee_train_pool := 0 }).credit_all pays)

def pay_proposer (led : ValueLedger) (proposer_pub : String) (proposer_cut : UInt64) : ValueLedger :=
  if proposer_pub ≠ "" ∧ proposer_pub ≠ "genesis" then led.credit (address proposer_pub) proposer_cut
  else led

/-- An active entry's owner under its data hash, when both are strings. -/
def add_owner (m : Dict String) (e : Value) : Dict String :=
  match is_active e, (e.index "data_hash").as_str, (e.index "owner").as_str with
  | true, some h, some owner => m.insert h owner
  | _, _, _ => m

def hash_to_owner (led : ValueLedger) : Dict String := led.registry.toList.foldl (fun m e => add_owner m e.2) ∅

def paid_hashes (led : ValueLedger) (data_credits : Dict UInt64) : List (String × UInt64) :=
  data_credits.toList.filter fun c => c.2 > 0 ∧ led.hash_to_owner.contains c.1

def pay_data (led : ValueLedger) (data_pool : UInt64) (legacy_data_addrs : List String) (data_credits : Dict UInt64) :
    Step ValueLedger := do
  let paid := led.paid_hashes data_credits
  if ¬ paid.isEmpty then
    let pool := saturating_add data_pool led.fee_data_pool
    let owners ← paid.mapM fun c => do
      let owner ← unwrap led.hash_to_owner[c.1]?
      pure (owner, c.2)
    let pays ← weighted_shares pool owners
    pure (({ led with fee_data_pool := 0 }).credit_all pays)
  else if ¬ legacy_data_addrs.isEmpty then
    let pays ← equal_shares data_pool (legacy_data_addrs.insertionSort (· ≤ ·))
    pure (led.credit_all pays)
  else pure led

def apply_reward (led : ValueLedger) (height : UInt64) (miner_pubs : List String) (proposer_pub : String)
    (legacy_data_addrs : List String) (data_credits miner_weights : Dict UInt64) : Step ValueLedger :=
  let total := emission height
  if total = 0 ∧ led.fee_train_pool = 0 ∧ led.fee_data_pool = 0 then pure led
  else do
    let miners_pool := total * SHARE_MINERS / 10000
    let proposer_cut := total * SHARE_PROPOSER / 10000
    let data_pool := total * SHARE_DATA / 10000
    let led ← led.pay_miners miners_pool miner_pubs miner_weights
    (led.pay_proposer proposer_pub proposer_cut).pay_data data_pool legacy_data_addrs data_credits

/-! ## Bonds and challenges -/

def return_bond (height : UInt64) (led : ValueLedger) (tid : String) : Step ValueLedger := do
  let b ← unwrap led.bonds[tid]?
  let expiry ← unwrap (b.index "expiry").as_u64
  if expiry ≤ height then
    let miner ← unwrap (b.index "miner").as_str
    let amount ← unwrap (b.index "amount").as_u64
    pure { led.credit miner amount with bonds := led.bonds.erase tid }
  else pure led

def resolve_expired_bonds (led : ValueLedger) (height : UInt64) : Step ValueLedger :=
  led.bonds.keys.foldlM (return_bond height) led

def bond_value (miner : String) (amount expiry : UInt64) : Value :=
  .object [("amount", .of_u64 amount), ("expiry", .of_u64 expiry), ("miner", .string miner)]

def lock_bond (led : ValueLedger) (delta_txid miner_addr : String) (amount height : UInt64) : Step (Bool × ValueLedger) :=
  if amount = 0 then pure (true, led)
  else if led.balance miner_addr < amount then pure (false, led)
  else do
    let led ← led.debit miner_addr amount
    pure (true, { led with bonds := led.bonds.insert delta_txid (bond_value miner_addr amount (height + BOND_WINDOW)) })

/-- Takes the owner's stake off an entry. -/
def revoke (entry : Value) : Step Value := do
  let entry ← unwrap (entry.set "status" (.string "revoked"))
  unwrap (entry.set "stake" (.of_u64 0))

def settle_challenge (led : ValueLedger) (ch : Value) (data_id : String) (upheld : Bool) : Step ValueLedger :=
  match led.registry[data_id]? with
  | none => pure led
  | some entry =>
    if upheld then do
      let stake ← unwrap (entry.index "stake").as_u64
      let revoked ← revoke entry
      let challenger ← unwrap (ch.index "challenger").as_str
      let ch_stake ← unwrap (ch.index "stake").as_u64
      pure (({ led with registry := led.registry.insert data_id revoked }).credit challenger (saturating_add stake ch_stake))
    else do
      let owner ← unwrap (entry.index "owner").as_str
      let ch_stake ← unwrap (ch.index "stake").as_u64
      pure (led.credit owner ch_stake)

def resolve_challenge (height : UInt64) (led : ValueLedger) (cid : String) : Step ValueLedger := do
  let ch ← unwrap led.challenges[cid]?
  let expiry ← unwrap (ch.index "expiry").as_u64
  if expiry > height then pure led
  else
    let data_id ← unwrap (ch.index "data_id").as_str
    let votes_for ← unwrap (ch.index "votes_for").as_array
    let votes_against ← unwrap (ch.index "votes_against").as_array
    let upheld := votes_for.length ≥ CHALLENGE_QUORUM && votes_for.length > votes_against.length
    let led ← led.settle_challenge ch data_id upheld
    pure { led with challenges := led.challenges.erase cid }

def resolve_expired_challenges (led : ValueLedger) (height : UInt64) : Step ValueLedger :=
  led.challenges.keys.foldlM (resolve_challenge height) led

/-! ## Account transactions on the ledger -/

def apply_transfer (led : ValueLedger) (tx : TransferTx) : Step (Bool × ValueLedger) :=
  if !(AccountTx.Transfer tx).verify ∨ tx.amount = 0 then pure (false, led)
  else
    let src := address tx.from_pub
    if tx.nonce ≠ led.nonce_of src ∨ led.balance src < tx.amount then pure (false, led)
    else do
      let led ← led.debit src tx.amount
      pure (true, (led.credit tx.to_addr tx.amount).bump_nonce src tx.nonce)

def entry_value (owner : String) (t : DataSubmitTx) : Value :=
  .object [("da_root", .string t.da_root), ("data_hash", .string t.data_hash), ("media_type", .string t.media_type),
    ("owner", .string owner), ("size", .of_u64 t.size_bytes), ("stake", .of_u64 t.stake), ("status", .string "active"),
    ("weight", .of_u64 t.stake)]

def apply_submit (led : ValueLedger) (src txid : String) (t : DataSubmitTx) : Step (Bool × ValueLedger) :=
  if t.stake = 0 ∨ led.balance src < t.stake ∨ led.registry.contains txid then pure (false, led)
  else if !TokenLedger.well_formed_root t.da_root then pure (false, led)
  else if t.size_bytes = 0 then pure (false, led)
  else do
    let led ← led.debit src t.stake
    pure (true, { led with registry := led.registry.insert txid (entry_value src t) })

def challenge_value (challenger : String) (t : DataChallengeTx) (expiry : UInt64) : Value :=
  .object [("challenger", .string challenger), ("data_id", .string t.data_id), ("expiry", .of_u64 expiry),
    ("reason", .string t.reason), ("stake", .of_u64 t.stake), ("votes_against", .array []), ("votes_for", .array [])]

def apply_challenge (led : ValueLedger) (src txid : String) (t : DataChallengeTx) (height : UInt64) :
    Step (Bool × ValueLedger) :=
  let ok : Bool := (led.registry[t.data_id]?.map is_active).getD false
  let already := led.challenges.toList.any fun c => (c.2.index "data_id").eq_str t.data_id
  if !ok ∨ already ∨ t.stake = 0 ∨ led.balance src < t.stake then pure (false, led)
  else do
    let led ← led.debit src t.stake
    pure (true, { led with
      challenges := led.challenges.insert txid (challenge_value src t (height + CHALLENGE_WINDOW)) })

/-- What is not a string comes first. -/
def vote_le (a b : Value) : Prop :=
  match a.as_str, b.as_str with
  | none, _ => True
  | some _, none => False
  | some s, some t => s ≤ t

instance : DecidableRel vote_le := fun a b => by
  unfold vote_le
  split <;> infer_instance

/-- The second list is looked at only when the first does not have the vote. -/
def has_voted (ch : Value) (src : String) : Step Bool := do
  let votes_for ← unwrap (ch.index "votes_for").as_array
  if votes_for.any (·.eq_str src) then pure true
  else
    let votes_against ← unwrap (ch.index "votes_against").as_array
    pure (votes_against.any (·.eq_str src))

def add_vote (ch : Value) (src : String) (support : Bool) : Step Value := do
  let k := if support then "votes_for" else "votes_against"
  let arr ← unwrap (ch.index k).as_array
  unwrap (ch.set k (.array ((arr ++ [Value.string src]).insertionSort vote_le)))

def apply_vote (led : ValueLedger) (src : String) (t : DataVoteTx) (recent_proposers : StrSet) :
    Step (Bool × ValueLedger) :=
  if !recent_proposers.contains t.voter_pub then pure (false, led)
  else match led.challenges[t.challenge_id]? with
    | none => pure (false, led)
    | some ch => do
      let voted ← has_voted ch src
      let is_challenger := (ch.index "challenger").eq_str src
      let data_id ← unwrap (ch.index "data_id").as_str
      if voted ∨ is_challenger then pure (false, led)
      else if (led.registry[data_id]?.map fun e => (e.index "owner").eq_str src).getD false then pure (false, led)
      else
        let ch ← add_vote ch src t.support
        pure (true, { led with challenges := led.challenges.insert t.challenge_id ch })

/-! ### Inference receipts -/

def sketch_of (e : Value) : Option (List Int64) :=
  ((e.get "sketch").bind Value.as_array).map fun items => items.map fun x => x.as_i64.getD 0

def align_entry (ans : List Int64) (aligns : Dict Int) (e : Value) : Dict Int :=
  match is_active e, sketch_of e, (e.index "owner").as_str with
  | true, some sk, some owner =>
    if ¬ sk.isEmpty ∧ TokenLedger.sketch_dot sk ans > 0 then
      aligns.insert owner (TokenLedger.i128 (aligns[owner]?.getD 0 + TokenLedger.sketch_dot sk ans))
    else aligns
  | _, _, _ => aligns

def aligns (led : ValueLedger) (ans : List Int64) : Dict Int :=
  led.registry.toList.foldl (fun m e => align_entry ans m e.2) ∅

def align_share (data_cut : UInt64) (total a : Int) : Step UInt64 :=
  if total = 0 then .error .panic else pure (TokenLedger.align_share data_cut total a)

def pay_data_cut (led : ValueLedger) (ans : List Int64) (data_cut : UInt64) : Step ValueLedger :=
  let aligned := (led.aligns ans).toList
  let total := TokenLedger.i128_sum (aligned.map (·.2))
  if (ans.any fun x => x ≠ 0) ∧ total > 0 then do
    let pays ← aligned.mapM fun a => do
      let share ← align_share data_cut total a.2
      pure (a.1, share)
    pure (led.credit_all pays)
  else pure { led with fee_data_pool := saturating_add led.fee_data_pool data_cut }

def apply_receipt (led : ValueLedger) (src : String) (t : InferenceReceiptTx) : Step (Bool × ValueLedger) :=
  if t.fee = 0 ∨ led.balance src < t.fee then pure (false, led)
  else do
    let led ← led.debit src t.fee
    let data_cut := TokenLedger.fee_data_cut t.fee
    let train_cut := TokenLedger.fee_train_cut t.fee
    let led := led.credit t.server_addr (t.fee - data_cut - train_cut)
    let led ← ({ led with fee_train_pool := saturating_add led.fee_train_pool train_cut }).pay_data_cut
      t.answer_sketch data_cut
    pure (true, led)

def apply_data_kind (led : ValueLedger) (src : String) (tx : AccountTx) (height : UInt64) (recent_proposers : StrSet) :
    Step (Bool × ValueLedger) :=
  match tx with
  | .DataSubmit t => led.apply_submit src tx.txid t
  | .DataChallenge t => led.apply_challenge src tx.txid t height
  | .DataVote t => led.apply_vote src t recent_proposers
  | .InferenceReceipt t => led.apply_receipt src t
  | .Transfer _ => pure (false, led)

def apply_data_tx (led : ValueLedger) (tx : AccountTx) (height : UInt64) (recent_proposers : StrSet) :
    Step (Bool × ValueLedger) :=
  if !tx.verify then pure (false, led)
  else
    let src := address tx.sender_pub
    if tx.nonce ≠ led.nonce_of src then pure (false, led)
    else do
      let (ok, led) ← led.apply_data_kind src tx height recent_proposers
      pure (ok, if ok then led.bump_nonce src tx.nonce else led)

/-! ## Root and snapshot -/

def to_value (led : ValueLedger) : Value :=
  .object [("balances", .of_dict .of_u64 led.balances), ("bonds", .of_dict id led.bonds),
    ("challenges", .of_dict id led.challenges), ("fee_data_pool", .of_u64 led.fee_data_pool),
    ("fee_train_pool", .of_u64 led.fee_train_pool), ("nonces", .of_dict .of_u64 led.nonces),
    ("registry", .of_dict id led.registry)]

/-- The root is the hash of the same value as a snapshot has, written as text. -/
def root (to_string : Value → Option String) (led : ValueLedger) : Step String := do
  let text ← unwrap (to_string led.to_value)
  pure (sha256_hex (as_bytes text))

def valid_registry_entry (e : Value) : Bool :=
  (e.index "owner").is_string && (e.index "data_hash").is_string && (e.index "size").is_u64 &&
    (e.index "media_type").is_string && (e.index "stake").is_u64 && (e.index "weight").is_u64 &&
    (e.index "status").is_string

def str_array (x : Value) : Bool := x.as_array.any fun a => a.all (·.is_string)

def valid_challenge (c : Value) : Bool :=
  (c.index "data_id").is_string && (c.index "challenger").is_string && (c.index "stake").is_u64 &&
    (c.index "reason").is_string && (c.index "expiry").is_u64 && str_array (c.index "votes_for") &&
    str_array (c.index "votes_against")

def valid_bond (b : Value) : Bool :=
  (b.index "miner").is_string && (b.index "amount").is_u64 && (b.index "expiry").is_u64

def read_u64s (fields : List (String × Value)) : Option (Dict UInt64) :=
  fields.foldlM (fun m f => do
    let n ← f.2.as_u64
    pure (m.insert f.1 n)) ∅

def read_values (valid : Value → Bool) (fields : List (String × Value)) : Option (Dict Value) :=
  fields.foldlM (fun m f => if valid f.2 then some (m.insert f.1 f.2) else none) ∅

/-- Snapshots from before the bonds have none. -/
def read_bonds (v : Value) : Option (Dict Value) :=
  match (v.get "bonds").bind Value.as_object with
  | some bonds => read_values valid_bond bonds
  | none => some ∅

def read_pool (v : Value) (key : String) : Option UInt64 :=
  match v.get key with
  | some x => x.as_u64
  | none => some 0

def from_value (v : Value) : Option ValueLedger := do
  let balances ← (v.index "balances").as_object
  let balances ← read_u64s balances
  let nonces ← (v.index "nonces").as_object
  let nonces ← read_u64s nonces
  let registry ← (v.index "registry").as_object
  let registry ← read_values valid_registry_entry registry
  let challenges ← (v.index "challenges").as_object
  let challenges ← read_values valid_challenge challenges
  let bonds ← read_bonds v
  let fee_data_pool ← read_pool v "fee_data_pool"
  let fee_train_pool ← read_pool v "fee_train_pool"
  pure { balances, nonces, registry, challenges, bonds, fee_data_pool, fee_train_pool }

/-! ## Token transition -/

def active_hashes (led : ValueLedger) : List String :=
  (led.registry.toList.filter fun e => is_active e.2).filterMap fun e => (e.2.index "data_hash").as_str

def weighted_hashes (led : ValueLedger) : List String :=
  (led.registry.toList.filter fun e => is_active e.2 ∧ (e.2.index "weight").as_u64.getD 0 > 0).filterMap
    fun e => (e.2.index "data_hash").as_str

def add_key (m : Dict String) (e : String × Value) : Dict String :=
  match is_active e.2, (e.2.index "data_hash").as_str with
  | true, some h => m.insert h e.1
  | _, _ => m

def hash_to_key (led : ValueLedger) : Dict String := led.registry.toList.foldl add_key ∅

def add_sketch (sketch : Option (List Int64)) (sk : List Int32) (n : Nat) : Step Value :=
  if n = 0 then .error .panic
  else pure (.array ((Sestrian.add_sketch sketch sk n).map .of_i64))

def accrue_sketch (sk : List Int32) (n : Nat) (registry : Dict Value) (key : String) : Step (Dict Value) := do
  let e ← unwrap registry[key]?
  let new ← add_sketch (sketch_of e) sk n
  let e ← unwrap (e.set "sketch" new)
  pure (registry.insert key e)

def accrue_sketches (sk : List Int32) (named_keys : List String) (registry : Dict Value) : Step (Dict Value) :=
  if sk.any (· ≠ 0) then named_keys.foldlM (accrue_sketch sk named_keys.length) registry else pure registry

structure ValueAccrual where
  registry : Dict Value
  miner_weights : Dict UInt64
  data_credits : Dict UInt64

def accrue_tx (eff : Dict UInt64) (active_set : List String) (keys : Dict String) (sketches : Dict (List Int32))
    (acc : ValueAccrual) (tx : BackpropTx) : Step ValueAccrual := do
  let s ← unwrap eff[tx.txid]?
  let named := tx.canonical_refs.filter (active_set.contains ·)
  let data_credits ← named.foldlM (fun m r => do
    let part ← div_len (s * 10000) named.length
    pure (add_to m r part)) acc.data_credits
  let sk ← unwrap sketches[tx.txid]?
  let named_keys := tx.canonical_refs.filterMap (keys[·]?)
  let registry ← accrue_sketches sk named_keys acc.registry
  pure { registry, miner_weights := add_to acc.miner_weights tx.miner s, data_credits }

def accrue (led : ValueLedger) (block : Block) : Step ValueAccrual :=
  block.txs.foldlM
    (accrue_tx (effective_scores block.txs block.scores) led.weighted_hashes led.hash_to_key block.sketches)
    { registry := led.registry, miner_weights := ∅, data_credits := ∅ }

def check_provenance (led : ValueLedger) (block : Block) : Validation Unit :=
  forM block.txs fun tx => Check.require (∃ r ∈ tx.canonical_refs, r ∈ led.active_hashes)
    "delta names no staked/available data (provenance required)"

def reward_block (led : ValueLedger) (block : Block) (data_contributor : Option String) : Step ValueLedger := do
  let acc ← led.accrue block
  ({ led with registry := acc.registry }).apply_reward block.header.height (block.txs.map BackpropTx.miner)
    block.header.proposer data_contributor.toList acc.data_credits acc.miner_weights

def lock_tx_bond (height : UInt64) (led : ValueLedger) (tx : BackpropTx) : Step ValueLedger := do
  let (ok, led) ← led.lock_bond tx.txid (address tx.miner) tx.bond height
  reject_unless ok "miner cannot afford delta bond"
  pure led

def apply_account_tx (height : UInt64) (recent_proposers : StrSet) (led : ValueLedger) (tx : AccountTx) :
    Step ValueLedger := do
  let (ok, led) ← match tx with
    | .Transfer t => led.apply_transfer t
    | _ => led.apply_data_tx tx height recent_proposers
  reject_unless ok "invalid account tx (sig/nonce/balance/gating)"
  pure led

/-- The last part of `validate_inner`, from the checks of the block's sets on. -/
def token_transition (to_string : Value → Option String) (parent_ledger : ValueLedger) (block : Block)
    (data_contributor : Option String) (recent_proposers : StrSet) : Step ValueLedger := do
  let height := block.header.height
  lift_check (check_sets block)
  let led ← parent_ledger.resolve_expired_challenges height
  let led ← led.resolve_expired_bonds height
  lift_check (led.check_provenance block)
  let led ← led.reward_block block data_contributor
  let led ← block.txs.foldlM (lock_tx_bond height) led
  let led ← (account_txs block).foldlM (apply_account_tx height recent_proposers) led
  let r ← led.root to_string
  reject_unless (r = block.header.ledger_root) "ledger_root does not reproduce from block"
  pure led

end ValueLedger

end Sestrian
