import Sestrian.Code.Bytes
import Sestrian.Code.Produce
import Sestrian.Code.Toy
import Sestrian.Ledger.Apply
import Sestrian.Lib.Orders

/-!
# The dry run of a producer

A producer tries each account transaction of its pool and keeps those that apply. What does not apply leaves the ledger
as it was, so the validator reaches the same ledger from the kept ones alone.
-/

open Check

namespace Sestrian

section Any

variable [Crypto]

/-! ## Rejections -/

/-- The operation applied, or the ledger after it is the ledger before it. -/
def Untouched (led : TokenLedger) (r : Bool × TokenLedger) : Prop := r.1 = false → r.2 = led

omit [Crypto] in
theorem untouched_reject (led : TokenLedger) : Untouched led (false, led) := fun _ => rfl

omit [Crypto] in
theorem untouched_done (led led' : TokenLedger) : Untouched led (true, led') := fun h => by cases h

namespace TokenLedger

omit [Crypto] in
theorem lock_bond_untouched (led : TokenLedger) (id addr : String) (amount height : UInt64) :
    Untouched led (led.lock_bond id addr amount height) := by
  unfold lock_bond
  split
  · exact untouched_done led led
  · split
    · exact untouched_reject led
    · exact untouched_done led _

theorem apply_transfer_untouched (led : TokenLedger) (t : TransferTx) : Untouched led (led.apply_transfer t) := by
  unfold apply_transfer
  split
  · exact untouched_reject led
  · dsimp only
    split
    · exact untouched_reject led
    · exact untouched_done led _

omit [Crypto] in
theorem apply_submit_untouched (led : TokenLedger) (src txid : String) (t : DataSubmitTx) :
    Untouched led (led.apply_submit src txid t) := by
  unfold apply_submit
  split
  · exact untouched_reject led
  · split
    · exact untouched_reject led
    · split
      · exact untouched_reject led
      · exact untouched_done led _

omit [Crypto] in
theorem apply_challenge_untouched (led : TokenLedger) (src txid : String) (t : DataChallengeTx) (height : UInt64) :
    Untouched led (led.apply_challenge src txid t height) := by
  unfold apply_challenge
  dsimp only
  split
  · exact untouched_reject led
  · exact untouched_done led _

omit [Crypto] in
theorem apply_vote_untouched (led : TokenLedger) (src : String) (t : DataVoteTx) (jurors : StrSet) :
    Untouched led (led.apply_vote src t jurors) := by
  unfold apply_vote
  split
  · exact untouched_reject led
  · split
    · exact untouched_reject led
    · split
      · exact untouched_reject led
      · split
        · exact untouched_reject led
        · exact untouched_done led _

omit [Crypto] in
theorem apply_receipt_untouched (led : TokenLedger) (src : String) (t : InferenceReceiptTx) :
    Untouched led (led.apply_receipt src t) := by
  unfold apply_receipt
  split
  · exact untouched_reject led
  · exact untouched_done led _

theorem apply_data_kind_untouched (led : TokenLedger) (src : String) (tx : AccountTx) (height : UInt64)
    (jurors : StrSet) : Untouched led (led.apply_data_kind src tx height jurors) := by
  cases tx with
  | Transfer t => exact untouched_reject led
  | DataSubmit t => exact apply_submit_untouched led src _ t
  | DataChallenge t => exact apply_challenge_untouched led src _ t height
  | DataVote t => exact apply_vote_untouched led src t jurors
  | InferenceReceipt t => exact apply_receipt_untouched led src t

theorem apply_data_tx_untouched (led : TokenLedger) (tx : AccountTx) (height : UInt64) (jurors : StrSet) :
    Untouched led (led.apply_data_tx tx height jurors) := by
  unfold apply_data_tx
  split
  · exact untouched_reject led
  · dsimp only
    split
    · exact untouched_reject led
    · have hkind := apply_data_kind_untouched led (address tx.sender_pub) tx height jurors
      split
      · exact untouched_done led _
      · rename_i led' he
        rw [he] at hkind
        exact hkind

end TokenLedger

/-! ## Account transactions travel as JSON -/

omit [Crypto] in
theorem as_u64_num (n : UInt64) : Json.as_u64 (some (.num n.toNat)) = some n := by
  have hlt := n.toNat_lt
  simp only [Json.as_u64]
  rw [if_pos ⟨by omega, by omega⟩, Int.toNat_natCast, UInt64.ofNat_toNat]

omit [Crypto] in
theorem as_i64_num (x : Int64) : Json.as_i64 (.num x.toInt) = some x := by
  simp only [Json.as_i64]
  rw [if_pos ⟨x.le_toInt, x.toInt_lt⟩, Int64.ofInt_toInt]

omit [Crypto] in
/-- What is written of a transaction reads back as that transaction. -/
theorem account_tx_round_trip (tx : AccountTx) : account_tx_from_json (account_tx_to_json tx) = some tx := by
  cases tx with
  | Transfer t =>
    simp [account_tx_to_json, account_tx_from_json, Json.get, Json.as_str, as_u64_num, hex_decode_encode, List.lookup]
  | DataSubmit t =>
    simp [account_tx_to_json, account_tx_from_json, Json.get, Json.as_str, as_u64_num, hex_decode_encode, List.lookup]
  | DataChallenge t =>
    simp [account_tx_to_json, account_tx_from_json, Json.get, Json.as_str, as_u64_num, hex_decode_encode, List.lookup]
  | DataVote t =>
    simp [account_tx_to_json, account_tx_from_json, Json.get, Json.as_str, Json.as_bool, as_u64_num, hex_decode_encode,
      List.lookup]
  | InferenceReceipt t =>
    simp [account_tx_to_json, account_tx_from_json, Json.get, Json.as_str, Json.items, as_u64_num, as_i64_num,
      hex_decode_encode, List.lookup]

/-! ## What is kept -/

def transfer_of : AccountTx → Option TransferTx
  | .Transfer t => some t
  | _ => none

/-- The transactions that apply, each on what the ones before it left. -/
def kept (height : UInt64) (jurors : StrSet) : TokenLedger → List AccountTx → List AccountTx
  | _, [] => []
  | led, tx :: txs =>
    match apply_account_tx height jurors led tx with
    | .ok led' => tx :: kept height jurors led' txs
    | .error _ => kept height jurors led txs

variable {height : UInt64} {jurors : StrSet}

theorem kept_sublist (txs : List AccountTx) (led : TokenLedger) : (kept height jurors led txs).Sublist txs := by
  induction txs generalizing led with
  | nil => exact List.Sublist.refl _
  | cons tx txs ih =>
    unfold kept
    split
    · exact (ih _).cons_cons tx
    · exact (ih led).cons tx

/-- A transaction that applied, in its lane. -/
def push (l : Node.Lanes) (led : TokenLedger) (tx : AccountTx) : Node.Lanes where
  led
  transfers := l.transfers ++ ((transfer_of tx).map fun t => account_tx_to_json (.Transfer t)).toList
  data_txs := l.data_txs ++ (if (transfer_of tx).isNone then [account_tx_to_json tx] else [])

/-- The ledger operation that a transaction calls. -/
def apply_lane (height : UInt64) (jurors : StrSet) (led : TokenLedger) : AccountTx → Bool × TokenLedger
  | .Transfer t => led.apply_transfer t
  | tx => led.apply_data_tx tx height jurors

theorem apply_lane_untouched (led : TokenLedger) (tx : AccountTx) : Untouched led (apply_lane height jurors led tx) := by
  cases tx with
  | Transfer t => exact TokenLedger.apply_transfer_untouched led t
  | DataSubmit t => exact TokenLedger.apply_data_tx_untouched led _ height jurors
  | DataChallenge t => exact TokenLedger.apply_data_tx_untouched led _ height jurors
  | DataVote t => exact TokenLedger.apply_data_tx_untouched led _ height jurors
  | InferenceReceipt t => exact TokenLedger.apply_data_tx_untouched led _ height jurors

theorem apply_account_tx_eq (led : TokenLedger) (tx : AccountTx) : apply_account_tx height jurors led tx =
    if (apply_lane height jurors led tx).1 then .ok (apply_lane height jurors led tx).2
    else .error "invalid account tx (sig/nonce/balance/gating)" := by
  have hread (r : Bool × TokenLedger) : (require (r.1 = true) "invalid account tx (sig/nonce/balance/gating)" >>= fun _ =>
      (pure r.2 : Validation TokenLedger)) =
      if r.1 then .ok r.2 else .error "invalid account tx (sig/nonce/balance/gating)" := by
    unfold require
    split <;> rfl
  cases tx <;> exact hread _

theorem try_account_tx_eq (l : Node.Lanes) (tx : AccountTx) : Node.try_account_tx height jurors l tx =
    if (apply_lane height jurors l.led tx).1 then push l (apply_lane height jurors l.led tx).2 tx
    else { l with led := (apply_lane height jurors l.led tx).2 } := by
  cases tx with
  | Transfer t =>
    unfold Node.try_account_tx apply_lane
    dsimp only
    split
    · rename_i led hrun
      simp [hrun, push, transfer_of]
    · rename_i led hrun
      simp [hrun]
  | DataSubmit t | DataChallenge t | DataVote t | InferenceReceipt t =>
    unfold Node.try_account_tx apply_lane
    dsimp only
    split
    · rename_i led hrun
      simp [hrun, push, transfer_of]
    · rename_i led hrun
      simp [hrun]

/-- A try that fails changes nothing, and one that applies does what the validator will do. -/
theorem try_account_tx_cases (l : Node.Lanes) (tx : AccountTx) :
    (∃ led', apply_account_tx height jurors l.led tx = .ok led' ∧ Node.try_account_tx height jurors l tx = push l led' tx) ∨
      (∃ e, apply_account_tx height jurors l.led tx = .error e) ∧ Node.try_account_tx height jurors l tx = l := by
  rw [apply_account_tx_eq, try_account_tx_eq]
  cases hok : (apply_lane height jurors l.led tx).1 with
  | true => exact .inl ⟨_, rfl, rfl⟩
  | false =>
    have hsame := apply_lane_untouched l.led tx hok
    refine .inr ⟨⟨_, rfl⟩, ?_⟩
    rw [if_neg (by decide), hsame]

/-- The dry run ends where the validator ends on the kept transactions. -/
theorem dry_run_kept (txs : List AccountTx) (l : Node.Lanes) :
    (kept height jurors l.led txs).foldlM (apply_account_tx height jurors) l.led =
        .ok (txs.foldl (Node.try_account_tx height jurors) l).led ∧
      (txs.foldl (Node.try_account_tx height jurors) l).transfers = l.transfers ++
        ((kept height jurors l.led txs).filterMap transfer_of).map (fun t => account_tx_to_json (.Transfer t)) ∧
      (txs.foldl (Node.try_account_tx height jurors) l).data_txs = l.data_txs ++
        ((kept height jurors l.led txs).filter fun tx => (transfer_of tx).isNone).map account_tx_to_json := by
  induction txs generalizing l with
  | nil => simp [kept]
  | cons tx txs ih =>
    rw [List.foldl_cons]
    unfold kept
    rcases try_account_tx_cases l tx with ⟨led', hok, htry⟩ | ⟨⟨e, herr⟩, htry⟩
    · obtain ⟨hrun, htransfers, hdata⟩ := ih (push l led' tx)
      rw [htry, hok]
      refine ⟨?_, ?_, ?_⟩
      · rw [List.foldlM_cons, hok]
        exact hrun
      · rw [htransfers]
        simp only [push]
        cases htx : transfer_of tx <;> simp [htx]
      · rw [hdata]
        simp only [push]
        cases htx : transfer_of tx <;> simp [htx]
    · obtain ⟨hrun, htransfers, hdata⟩ := ih l
      rw [htry, herr]
      exact ⟨hrun, htransfers, hdata⟩

/-! ## The order of the kept ones -/

instance : Std.Total AccountTx.key_le where
  total a b := by
    unfold AccountTx.key_le
    rcases lt_trichotomy (address a.sender_pub) (address b.sender_pub) with h | h | h
    · exact .inl (.inl h)
    · by_cases hn : a.nonce = b.nonce
      · rcases le_total a.txid b.txid with ht | ht
        · exact .inl (.inr ⟨h, .inr ⟨hn, ht⟩⟩)
        · exact .inr (.inr ⟨h.symm, .inr ⟨hn.symm, ht⟩⟩)
      · rcases UInt64.lt_or_lt_of_ne hn with hn | hn
        · exact .inl (.inr ⟨h, .inl hn⟩)
        · exact .inr (.inr ⟨h.symm, .inl hn⟩)
    · exact .inr (.inl h)

instance : IsTrans AccountTx AccountTx.key_le where
  trans a b c := by
    unfold AccountTx.key_le
    rintro (h | ⟨h, h'⟩) (g | ⟨g, g'⟩)
    · exact .inl (h.trans g)
    · exact .inl (g ▸ h)
    · exact .inl (h ▸ g)
    · refine .inr ⟨h.trans g, ?_⟩
      rcases h' with h' | ⟨h', ht⟩ <;> rcases g' with g' | ⟨g', gt⟩
      · exact .inl (UInt64.lt_trans h' g')
      · exact .inl (g' ▸ h')
      · exact .inl (h' ▸ g')
      · exact .inr ⟨h'.trans g', ht.trans gt⟩

/-- At most one transaction of an account can use a nonce, so the order of two that share one does not matter. -/
theorem swap_same_nonce {x y : AccountTx} (ha : address x.sender_pub = address y.sender_pub) (hn : x.nonce = y.nonce) :
    Swap (apply_account_tx height jurors) x y := by
  have hboth (x y : AccountTx) (ha : address x.sender_pub = address y.sender_pub) (hn : x.nonce = y.nonce)
      (led r : TokenLedger) : (apply_account_tx height jurors led x >>= fun led => apply_account_tx height jurors led y) ≠
        .ok r := by
    intro h
    obtain ⟨mid, hx, hy⟩ := (bind_eq_ok _ _ _).mp h
    obtain ⟨-, -, hnonces, -⟩ := apply_account_tx_cases hx
    obtain ⟨-, hnext, -, -⟩ := apply_account_tx_cases hy
    have hmid : mid.nonce_of (address y.sender_pub) = x.nonce + 1 := by
      unfold TokenLedger.nonce_of
      rw [hnonces, ha, Std.ExtTreeMap.getElem?_insert_self]
      rfl
    rw [hmid, hn] at hnext
    have := congrArg UInt64.toNat hnext
    have hlt := y.nonce.toNat_lt
    simp only [UInt64.toNat_add, UInt64.reduceToNat] at this
    omega
  exact fun led => Agree.of_never (hboth x y ha hn led) (hboth y x ha.symm hn.symm led)

theorem swap_of_tie {x y : AccountTx} (h : x.key_le y) (h' : y.key_le x) : Swap (apply_account_tx height jurors) x y := by
  have hkey : address x.sender_pub = address y.sender_pub ∧ x.nonce = y.nonce := by
    rcases h with h | ⟨h, hn⟩ <;> rcases h' with h' | ⟨h', hn'⟩
    · exact absurd h' h.asymm
    · exact absurd h (by rw [h']; exact lt_irrefl _)
    · exact absurd h' (by rw [h]; exact lt_irrefl _)
    · refine ⟨h, ?_⟩
      rcases hn with hn | ⟨hn, -⟩ <;> rcases hn' with hn' | ⟨hn', -⟩
      · exact absurd hn' (UInt64.lt_asymm hn)
      · exact hn'.symm
      · exact hn
      · exact hn
  exact swap_same_nonce hkey.1 hkey.2

/-- What a sorted list leads to is what the canonical order of its elements leads to. -/
theorem canonical_order_agree {txs txs' : List AccountTx} (hp : txs.Perm txs') (hs : txs'.Pairwise AccountTx.key_le)
    (led : TokenLedger) : Agree ((canonical_account_txs txs).foldlM (apply_account_tx height jurors) led)
      (txs'.foldlM (apply_account_tx height jurors) led) := by
  refine foldlM_sorted ((List.perm_insertionSort _ _).trans hp) (List.pairwise_insertionSort _ _) hs ?_ led
  exact fun x _ y _ => swap_of_tie

/-! ## The candidate -/

omit [Crypto] in
theorem filterMap_as_transfer (ts : List TransferTx) :
    (ts.map fun t => account_tx_to_json (.Transfer t)).filterMap StoredBlock.as_transfer = ts := by
  rw [List.filterMap_map]
  have hid : (StoredBlock.as_transfer ∘ fun t => account_tx_to_json (.Transfer t)) = some := by
    funext t
    simp only [Function.comp_apply, StoredBlock.as_transfer, account_tx_round_trip]
  rw [hid, List.filterMap_some]

omit [Crypto] in
theorem filterMap_from_json (txs : List AccountTx) : (txs.map account_tx_to_json).filterMap account_tx_from_json = txs := by
  rw [List.filterMap_map]
  have hid : account_tx_from_json ∘ account_tx_to_json = some := funext account_tx_round_trip
  rw [hid, List.filterMap_some]

omit [Crypto] in
theorem transfer_of_eq_some {tx : AccountTx} {t : TransferTx} (h : transfer_of tx = some t) : tx = .Transfer t := by
  unfold transfer_of at h
  split at h
  · rw [Option.some.inj h]
  · cases h

omit [Crypto] in
/-- The two lanes together hold every transaction. -/
theorem lanes_perm (txs : List AccountTx) :
    (txs.filter (fun tx => (transfer_of tx).isNone) ++ (txs.filterMap transfer_of).map AccountTx.Transfer).Perm txs := by
  have htransfers : (txs.filterMap transfer_of).map AccountTx.Transfer = txs.filter fun tx => !(transfer_of tx).isNone := by
    induction txs with
    | nil => rfl
    | cons tx txs ih =>
      cases htx : transfer_of tx with
      | none => rw [List.filterMap_cons_none htx, List.filter_cons_of_neg (by simp [htx]), ih]
      | some t =>
        rw [List.filterMap_cons_some htx, List.map_cons, List.filter_cons_of_pos (by simp [htx]), ih, transfer_of_eq_some htx]
  rw [htransfers]
  exact List.filter_append_perm (fun tx => (transfer_of tx).isNone) txs

/-- The ledger after a producer has tried its whole pool. -/
def Node.dry_run_ledger (s : Node) (led : TokenLedger) : TokenLedger :=
  ((canonical_account_txs s.account_pool.values).foldl
    (try_account_tx (s.head_height + 1) (s.tree.recent_proposers s.tree.head)) { led, transfers := [], data_txs := [] }).led

/-- The validator's pass over a candidate's account transactions ends on the ledger of the dry run. -/
theorem candidate_ledger (s : Node) (attempt : UInt64) (model : ModelState) (chosen : List BackpropTx) (led : TokenLedger) :
    (account_txs (s.candidate attempt model chosen led).2).foldlM
        (apply_account_tx (s.head_height + 1) (s.tree.recent_proposers s.tree.head)) led = .ok (s.dry_run_ledger led) ∧
      (s.dry_run_ledger led).root = (s.candidate attempt model chosen led).2.header.ledger_root := by
  obtain ⟨hrun, htransfers, hdata⟩ := @dry_run_kept _ (s.head_height + 1) (s.tree.recent_proposers s.tree.head)
    (canonical_account_txs s.account_pool.values) { led, transfers := [], data_txs := [] }
  rw [List.nil_append] at htransfers hdata
  have hsorted : (kept (s.head_height + 1) (s.tree.recent_proposers s.tree.head) led
      (canonical_account_txs s.account_pool.values)).Pairwise AccountTx.key_le :=
    (List.pairwise_insertionSort _ _).sublist (kept_sublist _ led)
  refine ⟨(canonical_order_agree ?_ hsorted led _).mpr hrun, rfl⟩
  change (List.filterMap account_tx_from_json _ ++ (List.filterMap StoredBlock.as_transfer _).map _).Perm _
  rw [htransfers, hdata, filterMap_as_transfer, filterMap_from_json]
  exact lanes_perm _

/-- An operation that rejects leaves the whole ledger as it was, so the validator reaches the ledger of the dry run from
the kept transactions alone, and a candidate commits to it. -/
theorem rejection_leaves_ledger (led : TokenLedger) (height : UInt64) (jurors : StrSet) :
    (∀ t : TransferTx, (led.apply_transfer t).1 = false → (led.apply_transfer t).2 = led) ∧
    (∀ tx : AccountTx, (led.apply_data_tx tx height jurors).1 = false → (led.apply_data_tx tx height jurors).2 = led) ∧
    (∀ (id addr : String) (amount : UInt64), (led.lock_bond id addr amount height).1 = false →
      (led.lock_bond id addr amount height).2 = led) ∧
    ∀ (s : Node) (attempt : UInt64) (model : ModelState) (chosen : List BackpropTx),
      (account_txs (s.candidate attempt model chosen led).2).foldlM
          (apply_account_tx (s.head_height + 1) (s.tree.recent_proposers s.tree.head)) led = .ok (s.dry_run_ledger led) ∧
        (s.dry_run_ledger led).root = (s.candidate attempt model chosen led).2.header.ledger_root :=
  ⟨led.apply_transfer_untouched, fun tx => led.apply_data_tx_untouched tx height jurors,
    fun id addr amount => led.lock_bond_untouched id addr amount height,
    fun s attempt model chosen => candidate_ledger s attempt model chosen led⟩

end Any

open scoped Toy

namespace Toy

/-- A transfer that nobody signed. -/
def forged_transfer : TransferTx := { from_pub := hex_encode (hash []).val, to_addr := "", amount := 1, nonce := 0, sig := [] }

def unsigned_vote : DataVoteTx :=
  { voter_pub := hex_encode (hash []).val, challenge_id := "", support := true, nonce := 0, sig := [] }

/-- A signed vote on a challenge that nobody made. -/
def stray_vote : AccountTx :=
  .DataVote { unsigned_vote with sig := (sign (hash []) (AccountTx.DataVote unsigned_vote).signing_bytes).val }

end Toy

theorem rejection_leaves_ledger_empty :
    (TokenLedger.new.apply_transfer Toy.forged_transfer).2 = TokenLedger.new ∧
    Toy.stray_vote.verify = true ∧ (TokenLedger.new.apply_data_tx Toy.stray_vote 1 ∅).2 = TokenLedger.new ∧
    (TokenLedger.new.lock_bond "delta" "miner" 1 1).2 = TokenLedger.new := by
  have hrejects : (TokenLedger.new.apply_transfer Toy.forged_transfer).1 = false ∧ Toy.stray_vote.verify = true ∧
      (TokenLedger.new.apply_data_tx Toy.stray_vote 1 ∅).1 = false ∧
      (TokenLedger.new.lock_bond "delta" "miner" 1 1).1 = false := by decide +kernel
  obtain ⟨hforged, hsigned, hstray, hpoor⟩ := hrejects
  obtain ⟨htransfer, hdata, hbond, -⟩ := rejection_leaves_ledger TokenLedger.new 1 ∅
  exact ⟨htransfer Toy.forged_transfer hforged, hsigned, hdata Toy.stray_vote hstray, hbond "delta" "miner" 1 hpoor⟩

end Sestrian
