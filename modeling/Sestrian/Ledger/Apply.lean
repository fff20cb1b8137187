import Sestrian.Code.Validate
import Sestrian.Lib.SumMap

/-!
# What a block does to the ledger's books

Nonces, entries and challenges change in few places. Everything else that a block does moves
balances, bonds and pools only.
-/

open Check

namespace Sestrian

variable [Crypto]

/-! ## Steps that leave the books alone -/

/-- Only balances, bonds and pools moved. -/
structure Moved (led led' : TokenLedger) : Prop where
  nonces : led'.nonces = led.nonces
  registry : led'.registry = led.registry
  challenges : led'.challenges = led.challenges

namespace Moved

variable {led led' led'' : TokenLedger}

omit [Crypto] in
theorem refl (led : TokenLedger) : Moved led led := ⟨rfl, rfl, rfl⟩

omit [Crypto] in
theorem trans (h : Moved led led') (h' : Moved led' led'') : Moved led led'' :=
  ⟨h'.nonces.trans h.nonces, h'.registry.trans h.registry, h'.challenges.trans h.challenges⟩

omit [Crypto] in
theorem foldl {α : Type} {f : TokenLedger → α → TokenLedger} (hf : ∀ led x, Moved led (f led x)) (xs : List α)
    (led : TokenLedger) : Moved led (xs.foldl f led) := by
  induction xs generalizing led with
  | nil => exact refl led
  | cons x xs ih => exact (hf led x).trans (ih _)

omit [Crypto] in
theorem credit (led : TokenLedger) (addr : String) (amount : UInt64) : Moved led (led.credit addr amount) := by
  unfold TokenLedger.credit
  split
  · exact ⟨rfl, rfl, rfl⟩
  · exact refl led

omit [Crypto] in
theorem credit_all (led : TokenLedger) (pays : List (String × UInt64)) : Moved led (led.credit_all pays) := by
  unfold TokenLedger.credit_all
  exact foldl (fun led p => credit led p.1 p.2) pays led

omit [Crypto] in
theorem pools (led : TokenLedger) (data train : UInt64) :
    Moved led { led with fee_data_pool := data, fee_train_pool := train } := ⟨rfl, rfl, rfl⟩

theorem apply_reward (led : TokenLedger) (height : UInt64) (miner_pubs : List String) (proposer_pub : String)
    (legacy : List String) (data_credits miner_weights : Dict UInt64) :
    Moved led (led.apply_reward height miner_pubs proposer_pub legacy data_credits miner_weights) := by
  have hminers (led : TokenLedger) (pool : UInt64) : Moved led (led.pay_miners pool miner_pubs miner_weights) := by
    unfold TokenLedger.pay_miners
    split
    · exact refl led
    · exact (pools led led.fee_data_pool 0).trans (credit_all _ _)
  have hproposer (led : TokenLedger) (cut : UInt64) : Moved led (led.pay_proposer proposer_pub cut) := by
    unfold TokenLedger.pay_proposer
    split
    · exact credit _ _ _
    · exact refl led
  have hdata (led : TokenLedger) (pool : UInt64) : Moved led (led.pay_data pool legacy data_credits) := by
    unfold TokenLedger.pay_data
    simp only
    split
    · exact (pools led 0 led.fee_train_pool).trans (credit_all _ _)
    · split
      · exact credit_all _ _
      · exact refl led
  unfold TokenLedger.apply_reward
  simp only
  split
  · exact refl led
  · exact (hminers _ _).trans ((hproposer _ _).trans (hdata _ _))

omit [Crypto] in
theorem resolve_expired_bonds (led : TokenLedger) (height : UInt64) : Moved led (led.resolve_expired_bonds height) := by
  refine foldl (fun led b => ?_) _ led
  unfold TokenLedger.return_bond
  split
  · have h := credit led b.2.miner b.2.amount
    exact ⟨h.nonces, h.registry, h.challenges⟩
  · exact refl led

theorem lock_bonds {txs : List BackpropTx} {height : UInt64} (h : txs.foldlM (lock_tx_bond height) led = .ok led') :
    Moved led led' := by
  induction txs generalizing led with
  | nil =>
    rw [List.foldlM_nil, pure_eq_ok] at h
    exact h ▸ refl led
  | cons tx txs ih =>
    rw [List.foldlM_cons, bind_eq_ok] at h
    obtain ⟨mid, hmid, h⟩ := h
    refine Moved.trans ?_ (ih h)
    simp only [lock_tx_bond, bind_eq_ok, pure_eq_ok, TokenLedger.lock_bond] at hmid
    obtain ⟨-, -, rfl⟩ := hmid
    split
    · exact refl led
    · split
      · exact refl led
      · exact ⟨rfl, rfl, rfl⟩

omit [Crypto] in
theorem pay_data_cut (led : TokenLedger) (ans : List Int64) (cut : UInt64) : Moved led (led.pay_data_cut ans cut) := by
  unfold TokenLedger.pay_data_cut
  simp only
  split
  · exact credit_all _ _
  · exact ⟨rfl, rfl, rfl⟩

omit [Crypto] in
theorem apply_receipt {src : String} {t : InferenceReceiptTx} (h : led.apply_receipt src t = (true, led')) :
    Moved led led' := by
  unfold TokenLedger.apply_receipt at h
  split at h
  · cases h
  · obtain rfl := (Prod.mk.inj h).2
    have hdebit : Moved led (led.debit src t.fee) := ⟨rfl, rfl, rfl⟩
    have hcredit := credit (led.debit src t.fee) t.server_addr
      (t.fee - TokenLedger.fee_data_cut t.fee - TokenLedger.fee_train_cut t.fee)
    refine (hdebit.trans hcredit).trans (Moved.trans ?_ (pay_data_cut _ _ _))
    exact ⟨rfl, rfl, rfl⟩

end Moved

/-! ## Sketches -/

/-- An entry without its sketch. -/
def bare (e : RegistryEntry) : RegistryEntry := { e with sketch := none }

/-- The same entries, up to their sketches. -/
def SameBare (r r' : Dict RegistryEntry) : Prop := ∀ k : String, r'[k]?.map bare = r[k]?.map bare

omit [Crypto] in
theorem sameBare_accrue_sketch (sk : List Int32) (n : Nat) (r : Dict RegistryEntry) (key : String) :
    SameBare r (accrue_sketch sk n r key) := by
  intro k
  unfold accrue_sketch
  split
  · rename_i e he
    rw [SumMap.get_insert]
    split
    · rename_i hk
      rw [← hk, he]
      rfl
    · rfl
  · rfl

omit [Crypto] in
theorem sameBare_foldl {α : Type} {f : Dict RegistryEntry → α → Dict RegistryEntry} (hf : ∀ r x, SameBare r (f r x))
    (xs : List α) (r : Dict RegistryEntry) : SameBare r (xs.foldl f r) := by
  induction xs generalizing r with
  | nil => exact fun _ => rfl
  | cons x xs ih => exact fun k => (ih (f r x) k).trans (hf r x k)

theorem sameBare_accrue (led : TokenLedger) (block : Block) : SameBare led.registry (accrue led block).registry := by
  have hstep (eff : Dict UInt64) (active : List String) (keys : Dict String) (sketches : Dict (List Int32))
      (txs : List BackpropTx) (acc : Accrual) :
      SameBare acc.registry (txs.foldl (accrue_tx eff active keys sketches) acc).registry := by
    induction txs generalizing acc with
    | nil => exact fun _ => rfl
    | cons tx txs ih =>
      refine fun k => (ih _ k).trans ?_
      simp only [accrue_tx]
      split
      · exact sameBare_foldl (fun r key => sameBare_accrue_sketch _ _ r key) _ _ k
      · rfl
  exact hstep _ _ _ _ _ _

/-! ## A block -/

theorem reward_block_spec (led : TokenLedger) (block : Block) (dc : Option String) :
    (reward_block led block dc).nonces = led.nonces ∧ (reward_block led block dc).challenges = led.challenges ∧
      SameBare led.registry (reward_block led block dc).registry := by
  have h := Moved.apply_reward { led with registry := (accrue led block).registry } block.header.height
    (block.txs.map BackpropTx.miner) block.header.proposer dc.toList (accrue led block).data_credits
    (accrue led block).miner_weights
  refine ⟨h.nonces, h.challenges, fun k => ?_⟩
  unfold reward_block
  rw [h.registry]
  exact sameBare_accrue led block k

/-- A block settles the expired challenges, moves money, and applies its account transactions. -/
theorem token_transition_cases {led led' : TokenLedger} {b : Block} {dc : Option String} {jurors : StrSet}
    (h : token_transition led b dc jurors = .ok led') :
    ∃ mid, mid.nonces = (led.resolve_expired_challenges b.header.height).nonces ∧
      mid.challenges = (led.resolve_expired_challenges b.header.height).challenges ∧
      SameBare (led.resolve_expired_challenges b.header.height).registry mid.registry ∧
      (account_txs b).foldlM (apply_account_tx b.header.height jurors) mid = .ok led' := by
  simp only [token_transition, bind_eq_ok] at h
  obtain ⟨-, -, mid, hmid, h⟩ := h
  have hbonds := Moved.resolve_expired_bonds (led.resolve_expired_challenges b.header.height) b.header.height
  obtain ⟨hn, hc, hr⟩ := reward_block_spec
    ((led.resolve_expired_challenges b.header.height).resolve_expired_bonds b.header.height) b dc
  have hlock := Moved.lock_bonds hmid
  refine ⟨mid, (hlock.nonces.trans hn).trans hbonds.nonces, (hlock.challenges.trans hc).trans hbonds.challenges,
    fun k => ?_, h⟩
  rw [hlock.registry, hr k, hbonds.registry]

/-! ## One account transaction -/

def entry_of (src : String) (t : DataSubmitTx) : RegistryEntry :=
  { owner := src, data_hash := t.data_hash, size := t.size_bytes, media_type := t.media_type, stake := t.stake,
    da_root := some t.da_root, weight := t.stake, status := .active, sketch := none }

def challenge_of (src : String) (t : DataChallengeTx) (height : UInt64) : Challenge :=
  { data_id := t.data_id, challenger := src, stake := t.stake, reason := t.reason, expiry := height + CHALLENGE_WINDOW,
    votes_for := [], votes_against := [] }

/-- What an applied transaction does to the entries and the challenges. -/
inductive Effect (height : UInt64) (jurors : StrSet) (led : TokenLedger) (led' : TokenLedger) : AccountTx → Prop where
  | transfer {t : TransferTx} : led'.registry = led.registry → led'.challenges = led.challenges →
      Effect height jurors led led' (.Transfer t)
  | receipt {t : InferenceReceiptTx} : led'.registry = led.registry → led'.challenges = led.challenges →
      Effect height jurors led led' (.InferenceReceipt t)
  | submit {t : DataSubmitTx} : (AccountTx.DataSubmit t).txid ∉ led.registry → TokenLedger.well_formed_root t.da_root →
      led'.registry = led.registry.insert (AccountTx.DataSubmit t).txid (entry_of (address t.owner_pub) t) →
      led'.challenges = led.challenges → Effect height jurors led led' (.DataSubmit t)
  | challenge {t : DataChallengeTx} : led.registry[t.data_id]?.map (·.status) = some .active →
      (∀ cid ch, led.challenges[(cid : String)]? = some ch → ch.data_id ≠ t.data_id) →
      led'.registry = led.registry →
      led'.challenges = led.challenges.insert (AccountTx.DataChallenge t).txid
        (challenge_of (address t.challenger_pub) t height) → Effect height jurors led led' (.DataChallenge t)
  | vote {t : DataVoteTx} {ch : Challenge} : t.voter_pub ∈ jurors → led.challenges[t.challenge_id]? = some ch →
      address t.voter_pub ∉ ch.votes_for → address t.voter_pub ∉ ch.votes_against → ch.challenger ≠ address t.voter_pub →
      led.registry[ch.data_id]?.map (·.owner) ≠ some (address t.voter_pub) → led'.registry = led.registry →
      led'.challenges = led.challenges.insert t.challenge_id (ch.vote (address t.voter_pub) t.support) →
      Effect height jurors led led' (.DataVote t)

variable {height : UInt64} {jurors : StrSet} {led led' mid : TokenLedger}

theorem apply_transfer_spec {t : TransferTx} (h : led.apply_transfer t = (true, led')) :
    (AccountTx.Transfer t).verify ∧ t.nonce = led.nonce_of (address t.from_pub) ∧
      led'.nonces = led.nonces.insert (address t.from_pub) (t.nonce + 1) ∧ Effect height jurors led led' (.Transfer t) := by
  unfold TokenLedger.apply_transfer at h
  split at h
  · cases h
  · rename_i hok
    simp only at h
    split at h
    · cases h
    · rename_i hnonce
      obtain rfl := (Prod.mk.inj h).2
      have hc := Moved.credit (led.debit (address t.from_pub) t.amount) t.to_addr t.amount
      simp only [not_or, Bool.not_eq_true', Bool.not_eq_false, ne_eq, not_not] at hok hnonce
      refine ⟨hok.1, hnonce.1, ?_, .transfer hc.registry hc.challenges⟩
      simp only [TokenLedger.bump_nonce, hc.nonces]
      rfl

/-- The kinds of `apply_data_tx`, before the nonce moves. -/
theorem apply_data_kind_spec {src : String} {tx : AccountTx} (hsrc : src = address tx.sender_pub)
    (h : led.apply_data_kind src tx height jurors = (true, mid)) :
    mid.nonces = led.nonces ∧ Effect height jurors led mid tx := by
  subst hsrc
  cases tx with
  | Transfer t => cases h
  | DataSubmit t =>
    simp only [TokenLedger.apply_data_kind, TokenLedger.apply_submit] at h
    split at h
    · cases h
    rename_i hfresh
    split at h
    · cases h
    rename_i hroot
    split at h
    · cases h
    obtain rfl := (Prod.mk.inj h).2
    simp only [not_or, Bool.not_eq_true', Bool.not_eq_false] at hfresh hroot
    refine ⟨rfl, .submit ?_ hroot rfl rfl⟩
    simpa using hfresh.2.2
  | DataChallenge t =>
    simp only [TokenLedger.apply_data_kind, TokenLedger.apply_challenge] at h
    split at h
    · cases h
    rename_i hok
    obtain rfl := (Prod.mk.inj h).2
    simp only [not_or, Bool.not_eq_true', Bool.not_eq_false, decide_eq_true_eq, Bool.not_eq_true] at hok
    obtain ⟨hactive, hnone, -, -⟩ := hok
    refine ⟨rfl, .challenge hactive (fun cid ch hget => ?_) rfl rfl⟩
    have hmem : (cid, ch) ∈ led.challenges.toList := Std.ExtTreeMap.mem_toList_iff_getElem?_eq_some.mpr hget
    have := List.any_eq_false.mp hnone _ hmem
    simpa using this
  | DataVote t =>
    simp only [TokenLedger.apply_data_kind, TokenLedger.apply_vote] at h
    split at h
    · cases h
    rename_i hjuror
    split at h
    · cases h
    rename_i ch hch
    split at h
    · cases h
    rename_i hvoted
    split at h
    · cases h
    rename_i howner
    obtain rfl := (Prod.mk.inj h).2
    simp only [not_or, Bool.not_eq_true', Bool.not_eq_false, List.contains_eq_mem, decide_eq_true_eq] at hjuror hvoted
    have hmem : t.voter_pub ∈ jurors := Std.ExtTreeSet.mem_iff_contains.mpr hjuror
    exact ⟨rfl, .vote hmem hch hvoted.1 hvoted.2.1 hvoted.2.2 howner rfl rfl⟩
  | InferenceReceipt t =>
    have hp : Moved led mid := Moved.apply_receipt h
    exact ⟨hp.nonces, .receipt hp.registry hp.challenges⟩

/-- An applied transaction is signed, carries the next nonce, and moves it on by one. -/
theorem apply_account_tx_cases {tx : AccountTx} (h : apply_account_tx height jurors led tx = .ok led') :
    tx.verify ∧ tx.nonce = led.nonce_of (address tx.sender_pub) ∧
      led'.nonces = led.nonces.insert (address tx.sender_pub) (tx.nonce + 1) ∧ Effect height jurors led led' tx := by
  have hdata (hd : led.apply_data_tx tx height jurors = (true, led')) :
      tx.verify ∧ tx.nonce = led.nonce_of (address tx.sender_pub) ∧
        led'.nonces = led.nonces.insert (address tx.sender_pub) (tx.nonce + 1) ∧ Effect height jurors led led' tx := by
    unfold TokenLedger.apply_data_tx at hd
    split at hd
    · cases hd
    rename_i hverify
    simp only at hd
    split at hd
    · cases hd
    rename_i hnonce
    simp only [Bool.not_eq_true', Bool.not_eq_false, ne_eq, not_not] at hverify hnonce
    split at hd
    · rename_i mid hkind
      obtain rfl := (Prod.mk.inj hd).2
      obtain ⟨hn, heff⟩ := apply_data_kind_spec rfl hkind
      refine ⟨hverify, hnonce, by rw [← hn]; rfl, ?_⟩
      cases heff with
      | transfer h₁ h₂ => exact .transfer h₁ h₂
      | receipt h₁ h₂ => exact .receipt h₁ h₂
      | submit h₁ h₂ h₃ h₄ => exact .submit h₁ h₂ h₃ h₄
      | challenge h₁ h₂ h₃ h₄ => exact .challenge h₁ h₂ h₃ h₄
      | vote h₁ h₂ h₃ h₄ h₅ h₆ h₇ h₈ => exact .vote h₁ h₂ h₃ h₄ h₅ h₆ h₇ h₈
    · cases hd
  unfold apply_account_tx at h
  simp only [bind_eq_ok, require_eq_ok, pure_eq_ok, exists_unit] at h
  cases tx with
  | Transfer t => exact apply_transfer_spec (Prod.ext h.1 h.2)
  | DataSubmit t => exact hdata (Prod.ext h.1 h.2)
  | DataChallenge t => exact hdata (Prod.ext h.1 h.2)
  | DataVote t => exact hdata (Prod.ext h.1 h.2)
  | InferenceReceipt t => exact hdata (Prod.ext h.1 h.2)

/-- What each applied transaction keeps, with the transactions so far in hand, the whole list keeps. -/
theorem apply_in_turn {P : List AccountTx → TokenLedger → Prop} {more : List AccountTx}
    (hstep : ∀ txs led tx led', tx ∈ more → P txs led → apply_account_tx height jurors led tx = .ok led' →
      P (txs ++ [tx]) led') {txs : List AccountTx} (h : P txs led)
    (ha : more.foldlM (apply_account_tx height jurors) led = .ok led') : P (txs ++ more) led' := by
  induction more generalizing txs led with
  | nil =>
    rw [List.foldlM_nil, pure_eq_ok] at ha
    rw [List.append_nil, ← ha]
    exact h
  | cons tx more ih =>
    rw [List.foldlM_cons, bind_eq_ok] at ha
    obtain ⟨mid, hmid, ha⟩ := ha
    rw [List.append_cons]
    refine ih (fun txs led t led' ht => ?_) (hstep _ _ _ _ List.mem_cons_self h hmid) ha
    exact hstep txs led t led' (List.mem_cons_of_mem _ ht)

end Sestrian
