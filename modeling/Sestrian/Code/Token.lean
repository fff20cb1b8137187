import Sestrian.Code.Json
import Sestrian.Code.Core

/-!
# The token ledger (`token.rs`)

`u64` is `UInt64`, so additions, products and casts wrap as they do in a release build.
`u128` values are `Nat`: they are sums and products of two `u64`, and stay below `2^128`.
`i128` values do reach their ends, so they wrap explicitly.
-/

namespace Sestrian

variable [Crypto]

def GRAIN : UInt64 := 1000000000
def BASE_REWARD : UInt64 := 50 * GRAIN
def HALVING_BLOCKS : UInt64 := 1000000
def TAIL_EPOCH : UInt64 := 9
def TAIL_REWARD : UInt64 := BASE_REWARD >>> TAIL_EPOCH
def SHARE_MINERS : UInt64 := 7000
def SHARE_PROPOSER : UInt64 := 1000
def SHARE_DATA : UInt64 := 2000
def FEE_SHARE_DATA : UInt64 := 2000
def FEE_SHARE_TRAIN : UInt64 := 2000
def CHALLENGE_WINDOW : UInt64 := 20
def PROPOSER_LOOKBACK : Nat := 32
def GENESIS_DATA_WEIGHT : UInt64 := 1000000
def CHALLENGE_QUORUM : Nat := 3
def BOND_WINDOW : UInt64 := 20

def emission (height : UInt64) : UInt64 :=
  if height < 1 then 0 else max (BASE_REWARD >>> min ((height - 1) / HALVING_BLOCKS) 62) TAIL_REWARD

/-! ## Account transactions -/

structure TransferTx where
  from_pub : String
  to_addr : String
  amount : UInt64
  nonce : UInt64
  sig : List UInt8

structure DataSubmitTx where
  owner_pub : String
  data_hash : String
  size_bytes : UInt64
  media_type : String
  stake : UInt64
  nonce : UInt64
  da_root : String
  sig : List UInt8

structure DataChallengeTx where
  challenger_pub : String
  data_id : String
  stake : UInt64
  reason : String
  nonce : UInt64
  sig : List UInt8

structure DataVoteTx where
  voter_pub : String
  challenge_id : String
  support : Bool
  nonce : UInt64
  sig : List UInt8

structure InferenceReceiptTx where
  payer_pub : String
  server_addr : String
  fee : UInt64
  output_hash : String
  head_root : String
  nonce : UInt64
  answer_sketch : List Int64
  sig : List UInt8

inductive AccountTx where
  | Transfer (t : TransferTx)
  | DataSubmit (t : DataSubmitTx)
  | DataChallenge (t : DataChallengeTx)
  | DataVote (t : DataVoteTx)
  | InferenceReceipt (t : InferenceReceiptTx)

def num_bytes (n : UInt64) : List UInt8 := as_bytes (toString n.toNat)

namespace AccountTx

def signing_parts : AccountTx → List (List UInt8)
  | Transfer t => [as_bytes "transfer", as_bytes t.from_pub, as_bytes t.to_addr, num_bytes t.amount,
      num_bytes t.nonce]
  | DataSubmit t => [as_bytes "data_submit", as_bytes t.owner_pub, as_bytes t.data_hash,
      num_bytes t.size_bytes, as_bytes t.media_type, num_bytes t.stake, num_bytes t.nonce,
      as_bytes t.da_root]
  | DataChallenge t => [as_bytes "data_challenge", as_bytes t.challenger_pub, as_bytes t.data_id,
      num_bytes t.stake, as_bytes t.reason, num_bytes t.nonce]
  | DataVote t => [as_bytes "data_vote", as_bytes t.voter_pub, as_bytes t.challenge_id,
      as_bytes (if t.support then "1" else "0"), num_bytes t.nonce]
  | InferenceReceipt t => [as_bytes "inference", as_bytes t.payer_pub, as_bytes t.server_addr,
      num_bytes t.fee, as_bytes t.output_hash, as_bytes t.head_root, num_bytes t.nonce,
      (Json.arr (t.answer_sketch.map fun x => .num x.toInt)).compact]

def signing_bytes (tx : AccountTx) : List UInt8 := frame tx.signing_parts

def txid (tx : AccountTx) : String := sha256_hex tx.signing_bytes

def sender_pub : AccountTx → String
  | Transfer t => t.from_pub
  | DataSubmit t => t.owner_pub
  | DataChallenge t => t.challenger_pub
  | DataVote t => t.voter_pub
  | InferenceReceipt t => t.payer_pub

def nonce : AccountTx → UInt64
  | Transfer t => t.nonce
  | DataSubmit t => t.nonce
  | DataChallenge t => t.nonce
  | DataVote t => t.nonce
  | InferenceReceipt t => t.nonce

def sig : AccountTx → List UInt8
  | Transfer t => t.sig
  | DataSubmit t => t.sig
  | DataChallenge t => t.sig
  | DataVote t => t.sig
  | InferenceReceipt t => t.sig

def verify (tx : AccountTx) : Bool := verify_sig tx.sender_pub tx.signing_bytes tx.sig

/-- The order of `(address, nonce, txid)`. -/
def key_le (a b : AccountTx) : Prop :=
  let ka := address a.sender_pub
  let kb := address b.sender_pub
  ka < kb ∨ ka = kb ∧ (a.nonce < b.nonce ∨ a.nonce = b.nonce ∧ a.txid ≤ b.txid)

instance : DecidableRel key_le := fun a b => by unfold key_le; infer_instance

end AccountTx

def canonical_account_txs (txs : List AccountTx) : List AccountTx := txs.insertionSort AccountTx.key_le

def transfer_root (transfers : List TransferTx) : String :=
  set_root (transfers.map fun t => (AccountTx.Transfer t).txid)

def data_root (data_txs : List AccountTx) : String := set_root (data_txs.map AccountTx.txid)

/-! ## The ledger -/

inductive EntryStatus where
  | active
  | revoked
  deriving DecidableEq

/-- A registry entry. The genesis entry has no `da_root`, and an entry has a `sketch` once a
delta has named it. -/
structure RegistryEntry where
  owner : String
  data_hash : String
  size : UInt64
  media_type : String
  stake : UInt64
  da_root : Option String
  weight : UInt64
  status : EntryStatus
  sketch : Option (List Int64)
  deriving DecidableEq

structure Challenge where
  data_id : String
  challenger : String
  stake : UInt64
  reason : String
  expiry : UInt64
  votes_for : List String
  votes_against : List String
  deriving DecidableEq

namespace Challenge

def upheld (ch : Challenge) : Bool :=
  ch.votes_for.length ≥ CHALLENGE_QUORUM && ch.votes_for.length > ch.votes_against.length

/-- The vote goes to the end of its list, which is then sorted. -/
def vote (ch : Challenge) (src : String) (support : Bool) : Challenge :=
  if support then { ch with votes_for := (ch.votes_for ++ [src]).insertionSort (· ≤ ·) }
  else { ch with votes_against := (ch.votes_against ++ [src]).insertionSort (· ≤ ·) }

end Challenge

structure Bond where
  miner : String
  amount : UInt64
  expiry : UInt64
  deriving DecidableEq

structure TokenLedger where
  balances : Dict UInt64
  nonces : Dict UInt64
  registry : Dict RegistryEntry
  challenges : Dict Challenge
  bonds : Dict Bond
  fee_data_pool : UInt64
  fee_train_pool : UInt64
  deriving DecidableEq

namespace TokenLedger

def new : TokenLedger := ⟨∅, ∅, ∅, ∅, ∅, 0, 0⟩

def seed_genesis_data (led : TokenLedger) (owner_addr : String) : TokenLedger :=
  let entry : RegistryEntry :=
    { owner := owner_addr, data_hash := "genesis", size := 0, media_type := "text", stake := 0,
      da_root := none, weight := GENESIS_DATA_WEIGHT, status := .active, sketch := none }
  { led with registry := led.registry.insert "genesis" entry }

def balance (led : TokenLedger) (addr : String) : UInt64 := led.balances[addr]?.getD 0

def nonce_of (led : TokenLedger) (addr : String) : UInt64 := led.nonces[addr]?.getD 0

def credit (led : TokenLedger) (addr : String) (amount : UInt64) : TokenLedger :=
  if amount > 0 then
    { led with balances := led.balances.insert addr (saturating_add (led.balance addr) amount) }
  else led

/-- `balances[addr] -= amount`, after a check that the balance covers it. -/
def debit (led : TokenLedger) (addr : String) (amount : UInt64) : TokenLedger :=
  { led with balances := led.balances.insert addr (led.balance addr - amount) }

def bump_nonce (led : TokenLedger) (addr : String) (nonce : UInt64) : TokenLedger :=
  { led with nonces := led.nonces.insert addr (nonce + 1) }

def credit_all (led : TokenLedger) (pays : List (String × UInt64)) : TokenLedger :=
  pays.foldl (fun led p => led.credit p.1 p.2) led

/-! ## The block reward -/

/-- A pool split in proportion to the weights, in `u128`. What the divisions leave is burned. -/
def weighted_shares (pool : UInt64) (items : List (String × UInt64)) : List (String × UInt64) :=
  let wsum := (items.map fun i => i.2.toNat).sum
  items.map fun i => (i.1, UInt64.ofNat (pool.toNat * i.2.toNat / wsum))

def equal_shares (pool : UInt64) (addrs : List String) : List (String × UInt64) :=
  addrs.map fun a => (a, pool / UInt64.ofNat addrs.length)

/-- The weight of each distinct miner of the block. -/
def weights_of (miner_pubs : List String) (miner_weights : Dict UInt64) : Dict UInt64 :=
  miner_pubs.foldl (fun m p => m.insert p (miner_weights[p]?.getD 0)) ∅

def miner_pays (pool : UInt64) (miner_pubs : List String) (miner_weights : Dict UInt64) :
    List (String × UInt64) :=
  let weights := weights_of miner_pubs miner_weights
  if 0 < (weights.toList.map fun w => w.2.toNat).sum then
    weighted_shares pool (weights.toList.map fun w => (address w.1, w.2))
  else equal_shares pool ((miner_pubs.insertionSort (· ≤ ·)).map address)

def pay_miners (led : TokenLedger) (miners_pool : UInt64) (miner_pubs : List String)
    (miner_weights : Dict UInt64) : TokenLedger :=
  if miner_pubs.isEmpty then led
  else
    let pool := saturating_add miners_pool led.fee_train_pool
    ({ led with fee_train_pool := 0 }).credit_all (miner_pays pool miner_pubs miner_weights)

def pay_proposer (led : TokenLedger) (proposer_pub : String) (proposer_cut : UInt64) : TokenLedger :=
  if proposer_pub ≠ "" ∧ proposer_pub ≠ "genesis" then led.credit (address proposer_pub) proposer_cut
  else led

/-- The owner of each data hash. Entries are read in key order, and a later one replaces an
earlier one. -/
def hash_to_owner (led : TokenLedger) : Dict String :=
  led.registry.toList.foldl
    (fun m e => if e.2.status = .active then m.insert e.2.data_hash e.2.owner else m) ∅

/-- The credited data hashes that an active entry backs, in key order. -/
def paid_hashes (led : TokenLedger) (data_credits : Dict UInt64) : List (String × UInt64) :=
  data_credits.toList.filter fun c => c.2 > 0 ∧ led.hash_to_owner.contains c.1

def pay_data (led : TokenLedger) (data_pool : UInt64) (legacy_data_addrs : List String)
    (data_credits : Dict UInt64) : TokenLedger :=
  let paid := led.paid_hashes data_credits
  if ¬ paid.isEmpty then
    let pool := saturating_add data_pool led.fee_data_pool
    let owners := paid.map fun c => (led.hash_to_owner[c.1]?.getD "", c.2)
    ({ led with fee_data_pool := 0 }).credit_all (weighted_shares pool owners)
  else if ¬ legacy_data_addrs.isEmpty then
    led.credit_all (equal_shares data_pool (legacy_data_addrs.insertionSort (· ≤ ·)))
  else led

def apply_reward (led : TokenLedger) (height : UInt64) (miner_pubs : List String) (proposer_pub : String)
    (legacy_data_addrs : List String) (data_credits miner_weights : Dict UInt64) : TokenLedger :=
  let total := emission height
  if total = 0 ∧ led.fee_train_pool = 0 ∧ led.fee_data_pool = 0 then led
  else
    let miners_pool := total * SHARE_MINERS / 10000
    let proposer_cut := total * SHARE_PROPOSER / 10000
    let data_pool := total * SHARE_DATA / 10000
    let led := led.pay_miners miners_pool miner_pubs miner_weights
    let led := led.pay_proposer proposer_pub proposer_cut
    led.pay_data data_pool legacy_data_addrs data_credits

/-! ## Bonds and challenges -/

def return_bond (height : UInt64) (led : TokenLedger) (b : String × Bond) : TokenLedger :=
  if b.2.expiry ≤ height then
    { led.credit b.2.miner b.2.amount with bonds := led.bonds.erase b.1 }
  else led

def resolve_expired_bonds (led : TokenLedger) (height : UInt64) : TokenLedger :=
  led.bonds.toList.foldl (return_bond height) led

/-- Like every ledger operation that can fail: whether it applied, and the ledger after it. -/
def lock_bond (led : TokenLedger) (delta_txid miner_addr : String) (amount height : UInt64) :
    Bool × TokenLedger :=
  if amount = 0 then (true, led)
  else if led.balance miner_addr < amount then (false, led)
  else
    let led := led.debit miner_addr amount
    let bond : Bond := { miner := miner_addr, amount, expiry := height + BOND_WINDOW }
    (true, { led with bonds := led.bonds.insert delta_txid bond })

/-- Pays out a challenge: to the challenger when it is upheld, to the owner when it is not. -/
def settle_challenge (led : TokenLedger) (ch : Challenge) : TokenLedger :=
  match led.registry[ch.data_id]? with
  | none => led
  | some entry =>
    if ch.upheld then
      let revoked := { entry with status := .revoked, stake := 0 }
      ({ led with registry := led.registry.insert ch.data_id revoked }).credit ch.challenger
        (saturating_add entry.stake ch.stake)
    else led.credit entry.owner ch.stake

def resolve_challenge (height : UInt64) (led : TokenLedger) (c : String × Challenge) : TokenLedger :=
  if c.2.expiry > height then led
  else
    let led := led.settle_challenge c.2
    { led with challenges := led.challenges.erase c.1 }

def resolve_expired_challenges (led : TokenLedger) (height : UInt64) : TokenLedger :=
  led.challenges.toList.foldl (resolve_challenge height) led

/-! ## Account transactions on the ledger -/

def apply_transfer (led : TokenLedger) (tx : TransferTx) : Bool × TokenLedger :=
  if !(AccountTx.Transfer tx).verify ∨ tx.amount = 0 then (false, led)
  else
    let src := address tx.from_pub
    if tx.nonce ≠ led.nonce_of src ∨ led.balance src < tx.amount then (false, led)
    else
      let led := led.debit src tx.amount
      let led := led.credit tx.to_addr tx.amount
      (true, led.bump_nonce src tx.nonce)

/-- 64 lower-case hex digits. -/
def well_formed_root (da_root : String) : Bool :=
  da_root.toList.length = 64 &&
    da_root.toList.all fun c => ('0' ≤ c ∧ c ≤ '9') ∨ ('a' ≤ c ∧ c ≤ 'f')

def apply_submit (led : TokenLedger) (src txid : String) (t : DataSubmitTx) : Bool × TokenLedger :=
  if t.stake = 0 ∨ led.balance src < t.stake ∨ led.registry.contains txid then (false, led)
  else if !well_formed_root t.da_root then (false, led)
  else if t.size_bytes = 0 then (false, led)
  else
    let led := led.debit src t.stake
    let entry : RegistryEntry :=
      { owner := src, data_hash := t.data_hash, size := t.size_bytes, media_type := t.media_type,
        stake := t.stake, da_root := some t.da_root, weight := t.stake, status := .active,
        sketch := none }
    (true, { led with registry := led.registry.insert txid entry })

def apply_challenge (led : TokenLedger) (src txid : String) (t : DataChallengeTx) (height : UInt64) :
    Bool × TokenLedger :=
  let ok : Bool := led.registry[t.data_id]?.map (·.status) = some .active
  let already := led.challenges.toList.any fun c => c.2.data_id = t.data_id
  if !ok ∨ already ∨ t.stake = 0 ∨ led.balance src < t.stake then (false, led)
  else
    let led := led.debit src t.stake
    let ch : Challenge :=
      { data_id := t.data_id, challenger := src, stake := t.stake, reason := t.reason,
        expiry := height + CHALLENGE_WINDOW, votes_for := [], votes_against := [] }
    (true, { led with challenges := led.challenges.insert txid ch })

def apply_vote (led : TokenLedger) (src : String) (t : DataVoteTx) (recent_proposers : StrSet) :
    Bool × TokenLedger :=
  if !recent_proposers.contains t.voter_pub then (false, led)
  else match led.challenges[t.challenge_id]? with
    | none => (false, led)
    | some ch =>
      if ch.votes_for.contains src ∨ ch.votes_against.contains src ∨ ch.challenger = src then (false, led)
      else if led.registry[ch.data_id]?.map (·.owner) = some src then (false, led)
      else (true, { led with challenges := led.challenges.insert t.challenge_id (ch.vote src t.support) })

/-! ### Inference receipts -/

/-- The wrapped value of an `i128` result. -/
def i128 (x : Int) : Int := Int.bmod x (2 ^ 128)

def i128_sum (xs : List Int) : Int := xs.foldl (fun acc x => i128 (acc + x)) 0

def sketch_dot (sk ans : List Int64) : Int :=
  i128_sum ((sk.zip ans).map fun ab => i128 (ab.1.toInt * ab.2.toInt))

/-- Adds the alignment of one entry to its owner, if the entry is active and aligned. -/
def align_entry (ans : List Int64) (aligns : Dict Int) (e : RegistryEntry) : Dict Int :=
  match e.status, e.sketch with
  | .active, some sk =>
    if ¬ sk.isEmpty ∧ sketch_dot sk ans > 0 then
      aligns.insert e.owner (i128 (aligns[e.owner]?.getD 0 + sketch_dot sk ans))
    else aligns
  | _, _ => aligns

def aligns (led : TokenLedger) (ans : List Int64) : Dict Int :=
  led.registry.toList.foldl (fun m e => align_entry ans m e.2) ∅

/-- `(data_cut as i128 * a / total) as u64`: a wrapping product, a division that truncates,
and a cast that keeps the low 64 bits. -/
def align_share (data_cut : UInt64) (total a : Int) : UInt64 :=
  UInt64.ofInt (Int.tdiv (i128 (data_cut.toNat * a)) total)

/-- The data slice of a fee: to the owners aligned with the answer, or to the pool. -/
def pay_data_cut (led : TokenLedger) (ans : List Int64) (data_cut : UInt64) : TokenLedger :=
  let aligned := (led.aligns ans).toList
  let total := i128_sum (aligned.map (·.2))
  if (ans.any fun x => x ≠ 0) ∧ total > 0 then
    led.credit_all (aligned.map fun a => (a.1, align_share data_cut total a.2))
  else { led with fee_data_pool := saturating_add led.fee_data_pool data_cut }

def fee_data_cut (fee : UInt64) : UInt64 := fee * FEE_SHARE_DATA / 10000

def fee_train_cut (fee : UInt64) : UInt64 := fee * FEE_SHARE_TRAIN / 10000

def apply_receipt (led : TokenLedger) (src : String) (t : InferenceReceiptTx) : Bool × TokenLedger :=
  if t.fee = 0 ∨ led.balance src < t.fee then (false, led)
  else
    let led := led.debit src t.fee
    let data_cut := fee_data_cut t.fee
    let train_cut := fee_train_cut t.fee
    let led := led.credit t.server_addr (t.fee - data_cut - train_cut)
    let led := { led with fee_train_pool := saturating_add led.fee_train_pool train_cut }
    (true, led.pay_data_cut t.answer_sketch data_cut)

def apply_data_kind (led : TokenLedger) (src : String) (tx : AccountTx) (height : UInt64)
    (recent_proposers : StrSet) : Bool × TokenLedger :=
  match tx with
  | .DataSubmit t => led.apply_submit src tx.txid t
  | .DataChallenge t => led.apply_challenge src tx.txid t height
  | .DataVote t => led.apply_vote src t recent_proposers
  | .InferenceReceipt t => led.apply_receipt src t
  | .Transfer _ => (false, led)

def apply_data_tx (led : TokenLedger) (tx : AccountTx) (height : UInt64) (recent_proposers : StrSet) :
    Bool × TokenLedger :=
  if !tx.verify then (false, led)
  else
    let src := address tx.sender_pub
    if tx.nonce ≠ led.nonce_of src then (false, led)
    else match led.apply_data_kind src tx height recent_proposers with
      | (true, led) => (true, led.bump_nonce src tx.nonce)
      | (false, led) => (false, led)

/-! ## Root and supply -/

def u64_json (n : UInt64) : Json := .num n.toNat

def entry_json (e : RegistryEntry) : Json :=
  .obj ((e.da_root.map fun r => ("da_root", Json.str r)).toList ++
    [("data_hash", .str e.data_hash), ("media_type", .str e.media_type), ("owner", .str e.owner),
     ("size", u64_json e.size)] ++
    (e.sketch.map fun sk => ("sketch", Json.arr (sk.map fun x => .num x.toInt))).toList ++
    [("stake", u64_json e.stake),
     ("status", .str (match e.status with | .active => "active" | .revoked => "revoked")),
     ("weight", u64_json e.weight)])

def challenge_json (c : Challenge) : Json :=
  .obj [("challenger", .str c.challenger), ("data_id", .str c.data_id), ("expiry", u64_json c.expiry),
    ("reason", .str c.reason), ("stake", u64_json c.stake),
    ("votes_against", .arr (c.votes_against.map .str)), ("votes_for", .arr (c.votes_for.map .str))]

def bond_json (b : Bond) : Json :=
  .obj [("amount", u64_json b.amount), ("expiry", u64_json b.expiry), ("miner", .str b.miner)]

def dict_json {ν : Type} (f : ν → Json) (m : Dict ν) : Json := .obj (m.toList.map fun e => (e.1, f e.2))

def root (led : TokenLedger) : String :=
  sha256_hex (Json.obj
    [("balances", dict_json u64_json led.balances), ("bonds", dict_json bond_json led.bonds),
     ("challenges", dict_json challenge_json led.challenges),
     ("fee_data_pool", u64_json led.fee_data_pool), ("fee_train_pool", u64_json led.fee_train_pool),
     ("nonces", dict_json u64_json led.nonces), ("registry", dict_json entry_json led.registry)]).compact

def supply (led : TokenLedger) : UInt64 :=
  (led.balances.toList.map (·.2)).sum + led.fee_data_pool + led.fee_train_pool

end TokenLedger

end Sestrian
