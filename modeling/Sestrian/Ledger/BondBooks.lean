import Sestrian.Ledger.Settle

/-!
# What moves the bonds

A block takes the bonds that are due off the books and puts those of its deltas on them. Nothing else touches
them.
-/

open Check

namespace Sestrian

variable [Crypto]

def bond_of (height : UInt64) (tx : BackpropTx) : Bond :=
  { miner := address tx.miner, amount := tx.bond, expiry := height + BOND_WINDOW }

/-- The deltas that lock a bond. -/
def bonded_txs (txs : List BackpropTx) : List BackpropTx := txs.filter fun tx => 0 < tx.bond

def lock_of (height : UInt64) (tx : BackpropTx) : String × Bond := (tx.txid, bond_of height tx)

/-- The bonds that a block locks, in its order. -/
def locks (b : Block) : List (String × Bond) := (bonded_txs b.txs).map (lock_of b.header.height)

def locked (chain : List Block) : List (String × Bond) := chain.flatMap locks

/-- The bonds that a block of this height gives back. -/
def due_bonds (led : TokenLedger) (height : UInt64) : List (String × Bond) :=
  led.bonds.toList.filter fun b => b.2.expiry ≤ height

/-! ## What leaves the bonds alone -/

namespace TokenLedger

omit [Crypto] in
theorem credit_bonds (led : TokenLedger) (addr : String) (amount : UInt64) : (led.credit addr amount).bonds = led.bonds := by
  unfold credit
  split <;> rfl

omit [Crypto] in
theorem credit_all_bonds (led : TokenLedger) (pays : List (String × UInt64)) : (led.credit_all pays).bonds = led.bonds := by
  unfold credit_all
  induction pays generalizing led with
  | nil => rfl
  | cons p pays ih => exact (ih _).trans (credit_bonds led p.1 p.2)

theorem apply_reward_bonds (led : TokenLedger) (height : UInt64) (miner_pubs : List String) (proposer_pub : String)
    (legacy : List String) (data_credits miner_weights : Dict UInt64) :
    (led.apply_reward height miner_pubs proposer_pub legacy data_credits miner_weights).bonds = led.bonds := by
  have hminers (led : TokenLedger) (pool : UInt64) : (led.pay_miners pool miner_pubs miner_weights).bonds = led.bonds := by
    unfold pay_miners
    split
    · rfl
    · exact credit_all_bonds _ _
  have hproposer (led : TokenLedger) (cut : UInt64) : (led.pay_proposer proposer_pub cut).bonds = led.bonds := by
    unfold pay_proposer
    split
    · exact credit_bonds _ _ _
    · rfl
  have hdata (led : TokenLedger) (pool : UInt64) : (led.pay_data pool legacy data_credits).bonds = led.bonds := by
    unfold pay_data
    simp only
    split
    · exact credit_all_bonds _ _
    · split
      · exact credit_all_bonds _ _
      · rfl
  unfold apply_reward
  simp only
  split
  · rfl
  · rw [hdata, hproposer, hminers]

omit [Crypto] in
theorem resolve_expired_challenges_bonds (led : TokenLedger) (height : UInt64) :
    (led.resolve_expired_challenges height).bonds = led.bonds := by
  have hone (led : TokenLedger) (c : String × Challenge) : (led.resolve_challenge height c).bonds = led.bonds := by
    unfold resolve_challenge settle_challenge
    split
    · rfl
    · simp only
      split
      · rfl
      · split
        · exact credit_bonds _ _ _
        · exact credit_bonds _ _ _
  unfold resolve_expired_challenges
  generalize led.challenges.toList = cs
  induction cs generalizing led with
  | nil => rfl
  | cons c cs ih => exact (ih _).trans (hone led c)

theorem apply_data_kind_bonds {led led' : TokenLedger} {src : String} {tx : AccountTx} {height : UInt64} {jurors : StrSet}
    (h : led.apply_data_kind src tx height jurors = (true, led')) : led'.bonds = led.bonds := by
  cases tx with
  | Transfer t => cases h
  | DataSubmit t =>
    simp only [apply_data_kind, apply_submit] at h
    split at h
    · cases h
    split at h
    · cases h
    split at h
    · cases h
    rw [← (Prod.mk.inj h).2]
    rfl
  | DataChallenge t =>
    simp only [apply_data_kind, apply_challenge] at h
    split at h
    · cases h
    rw [← (Prod.mk.inj h).2]
    rfl
  | DataVote t =>
    simp only [apply_data_kind, apply_vote] at h
    split at h
    · cases h
    split at h
    · cases h
    split at h
    · cases h
    split at h
    · cases h
    rw [← (Prod.mk.inj h).2]
  | InferenceReceipt t =>
    simp only [apply_data_kind, apply_receipt] at h
    split at h
    · cases h
    rw [← (Prod.mk.inj h).2]
    unfold pay_data_cut
    simp only
    split
    · rw [credit_all_bonds, credit_bonds]
      rfl
    · rw [credit_bonds]
      rfl

end TokenLedger

theorem apply_account_tx_bonds {led led' : TokenLedger} {height : UInt64} {jurors : StrSet} {tx : AccountTx}
    (h : apply_account_tx height jurors led tx = .ok led') : led'.bonds = led.bonds := by
  have htransfer {t : TransferTx} (ht : led.apply_transfer t = (true, led')) : led'.bonds = led.bonds := by
    unfold TokenLedger.apply_transfer at ht
    split at ht
    · cases ht
    simp only at ht
    split at ht
    · cases ht
    rw [← (Prod.mk.inj ht).2]
    exact TokenLedger.credit_bonds _ _ _
  have hdata (hd : led.apply_data_tx tx height jurors = (true, led')) : led'.bonds = led.bonds := by
    unfold TokenLedger.apply_data_tx at hd
    split at hd
    · cases hd
    simp only at hd
    split at hd
    · cases hd
    split at hd
    · rename_i mid hkind
      rw [← (Prod.mk.inj hd).2]
      have hkept := TokenLedger.apply_data_kind_bonds hkind
      exact hkept
    · cases hd
  unfold apply_account_tx at h
  simp only [bind_eq_ok, require_eq_ok, pure_eq_ok, exists_unit] at h
  cases tx with
  | Transfer t => exact htransfer (Prod.ext h.1 h.2)
  | DataSubmit t => exact hdata (Prod.ext h.1 h.2)
  | DataChallenge t => exact hdata (Prod.ext h.1 h.2)
  | DataVote t => exact hdata (Prod.ext h.1 h.2)
  | InferenceReceipt t => exact hdata (Prod.ext h.1 h.2)

/-! ## What leaves the books -/

/-- One of the bonds leaves the books. -/
def gives_back (height : UInt64) (bs : List (String × Bond)) (k : String) : Bool :=
  bs.any fun b => decide (b.1 = k) && decide (b.2.expiry ≤ height)

omit [Crypto] in
theorem return_bonds_get (height : UInt64) (bs : List (String × Bond)) (led : TokenLedger) (k : String) :
    (bs.foldl (TokenLedger.return_bond height) led).bonds[k]? =
      if gives_back height bs k then none else led.bonds[k]? := by
  induction bs generalizing led with
  | nil => rfl
  | cons b bs ih =>
    have hcons : gives_back height (b :: bs) k =
      (decide (b.1 = k) && decide (b.2.expiry ≤ height) || gives_back height bs k) := List.any_cons
    rw [List.foldl_cons, ih, hcons]
    unfold TokenLedger.return_bond
    by_cases hdue : b.2.expiry ≤ height
    · rw [if_pos hdue]
      simp only [SumMap.get_erase]
      by_cases hk : b.1 = k <;> simp [hk, hdue]
    · rw [if_neg hdue]
      simp [hdue]

omit [Crypto] in
theorem resolve_expired_bonds_get (led : TokenLedger) (height : UInt64) (k : String) :
    (led.resolve_expired_bonds height).bonds[k]? = led.bonds[k]?.filter fun b => height < b.expiry := by
  have hback : gives_back height led.bonds.toList k ↔ ∃ b, led.bonds[k]? = some b ∧ b.expiry ≤ height := by
    simp [gives_back, Std.ExtTreeMap.mem_toList_iff_getElem?_eq_some]
  unfold TokenLedger.resolve_expired_bonds
  rw [return_bonds_get]
  split
  · rename_i h
    obtain ⟨b, hb, hdue⟩ := hback.mp h
    rw [hb]
    exact (Option.filter_eq_none_iff.mpr fun b' hb' => by
      rw [← Option.some.inj hb']
      simpa using hdue).symm
  · rename_i h
    cases hb : led.bonds[k]? with
    | none => rfl
    | some b =>
      have hlate : ¬ b.expiry ≤ height := fun hdue => h (hback.mpr ⟨b, hb, hdue⟩)
      symm
      rw [Option.filter_eq_some_iff]
      exact ⟨rfl, by simpa using hlate⟩

omit [Crypto] in
/-- A sweep splits the bonds into those it gives back and those it keeps. -/
theorem resolve_expired_bonds_perm (led : TokenLedger) (height : UInt64) :
    led.bonds.toList.Perm (due_bonds led height ++ (led.resolve_expired_bonds height).bonds.toList) := by
  have hkept : (led.resolve_expired_bonds height).bonds.toList.Perm
      (led.bonds.toList.filter fun b => height < b.2.expiry) := by
    refine (List.perm_ext_iff_of_nodup (SumMap.toList_nodup _) ((SumMap.toList_nodup _).filter _)).mpr ?_
    rintro ⟨k, b⟩
    rw [List.mem_filter, Std.ExtTreeMap.mem_toList_iff_getElem?_eq_some, Std.ExtTreeMap.mem_toList_iff_getElem?_eq_some,
      resolve_expired_bonds_get, Option.filter_eq_some_iff]
  refine List.Perm.trans ?_ (hkept.symm.append_left _)
  have hsplit := List.filter_append_perm (fun b : String × Bond => decide (b.2.expiry ≤ height)) led.bonds.toList
  simpa only [due_bonds, ← decide_not, UInt64.not_le] using hsplit.symm

omit [Crypto] in
/-- Each bond that is due is paid in full to its miner. -/
theorem resolve_expired_bonds_pays (led : TokenLedger) (height : UInt64) :
    (led.resolve_expired_bonds height).balances =
      (led.credit_all ((due_bonds led height).map fun b => (b.2.miner, b.2.amount))).balances := by
  have hfold (bs : List (String × Bond)) (led led' : TokenLedger) (hsame : led.balances = led'.balances) :
      (bs.foldl (TokenLedger.return_bond height) led).balances =
        (led'.credit_all ((bs.filter fun b => b.2.expiry ≤ height).map fun b => (b.2.miner, b.2.amount))).balances := by
    induction bs generalizing led led' with
    | nil => exact hsame
    | cons b bs ih =>
      rw [List.foldl_cons]
      unfold TokenLedger.return_bond
      by_cases hdue : b.2.expiry ≤ height
      · rw [if_pos hdue, List.filter_cons_of_pos (by simpa using hdue)]
        exact ih _ _ (TokenLedger.credit_balances hsame _ _)
      · rw [if_neg hdue, List.filter_cons_of_neg (by simpa using hdue)]
        exact ih _ _ hsame
  exact hfold _ led led rfl

/-! ## What enters the books -/

theorem lock_tx_bond_spec {led led' : TokenLedger} {height : UInt64} {tx : BackpropTx}
    (h : lock_tx_bond height led tx = .ok led') :
    tx.bond = 0 ∧ led' = led ∨ 0 < tx.bond ∧ tx.bond ≤ led.balance (address tx.miner) ∧
      led' = { led.debit (address tx.miner) tx.bond with bonds := led.bonds.insert tx.txid (bond_of height tx) } := by
  simp only [lock_tx_bond, bind_eq_ok, pure_eq_ok, require_eq_ok, exists_unit, TokenLedger.lock_bond] at h
  by_cases h0 : tx.bond = 0
  · simp only [if_pos h0] at h
    exact .inl ⟨h0, h.2.symm⟩
  · rw [if_neg h0] at h
    by_cases hlow : led.balance (address tx.miner) < tx.bond
    · simp [hlow] at h
    · rw [if_neg hlow] at h
      exact .inr ⟨UInt64.pos_iff_ne_zero.mpr h0, UInt64.not_lt.mp hlow, h.2.symm⟩

/-- Bonds under new ids enter one by one. -/
theorem lock_bonds_perm {txs : List BackpropTx} {height : UInt64} {led led' : TokenLedger}
    (h : txs.foldlM (lock_tx_bond height) led = .ok led') (hnodup : (txs.map BackpropTx.txid).Nodup)
    (hfresh : ∀ tx ∈ bonded_txs txs, tx.txid ∉ led.bonds) :
    led'.bonds.toList.Perm ((bonded_txs txs).map (lock_of height) ++ led.bonds.toList) := by
  induction txs generalizing led with
  | nil =>
    rw [List.foldlM_nil, pure_eq_ok] at h
    rw [h]
    exact List.Perm.refl _
  | cons tx txs ih =>
    rw [List.foldlM_cons, bind_eq_ok] at h
    obtain ⟨mid, hmid, h⟩ := h
    rw [List.map_cons, List.nodup_cons] at hnodup
    rcases lock_tx_bond_spec hmid with ⟨h0, rfl⟩ | ⟨hpos, -, rfl⟩
    · have hskip : bonded_txs (tx :: txs) = bonded_txs txs := List.filter_cons_of_neg (by simp [h0])
      rw [hskip] at hfresh ⊢
      exact ih h hnodup.2 hfresh
    · have htake : bonded_txs (tx :: txs) = tx :: bonded_txs txs := List.filter_cons_of_pos (by simpa using hpos)
      rw [htake] at hfresh ⊢
      have hnew : tx.txid ∉ led.bonds := hfresh tx List.mem_cons_self
      have hrest := ih h hnodup.2 fun u hu hmem => by
        rw [Std.ExtTreeMap.mem_insert] at hmem
        rcases hmem with he | hmem
        · refine hnodup.1 ?_
          rw [Std.LawfulEqCmp.eq_of_compare he]
          exact List.mem_map_of_mem (List.mem_of_mem_filter hu)
        · exact hfresh u (List.mem_cons_of_mem _ hu) hmem
      refine hrest.trans ?_
      have herase : led.bonds.erase tx.txid = led.bonds := by
        apply Std.ExtTreeMap.ext_getElem?
        intro k
        rw [SumMap.get_erase]
        split
        · rename_i hk
          rw [← hk, Std.ExtTreeMap.getElem?_eq_none hnew]
        · rfl
      have hone := SumMap.toList_insert_perm led.bonds tx.txid (bond_of height tx)
      rw [herase] at hone
      exact (hone.append_left _).trans List.perm_middle

end Sestrian
