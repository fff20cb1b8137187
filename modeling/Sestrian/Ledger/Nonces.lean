import Sestrian.Ledger.Apply
import Sestrian.Ledger.Booked
import Sestrian.Ledger.Signing
import Sestrian.Ledger.Traded

/-!
# Nonces along a chain

An account's nonce counts what it has sent. A transaction carries the count before it, so the
same transaction does not apply a second time.
-/

open Check

namespace Sestrian

open BlockTree

section Any

variable [Crypto]

/-- The account transactions of a chain, in the order in which they were applied. -/
def applied (chain : List Block) : List AccountTx := chain.flatMap account_txs

/-- Those that one address sent. -/
def sent (a : String) (txs : List AccountTx) : List AccountTx := txs.filter fun t => address t.sender_pub = a

structure Counted (txs : List AccountTx) (led : TokenLedger) : Prop where
  nonce : ∀ a, led.nonce_of a = UInt64.ofNat (sent a txs).length
  order : ∀ a, (sent a txs).map AccountTx.nonce = (List.range (sent a txs).length).map UInt64.ofNat
  good : ∀ t ∈ txs, t.verify ∧ t.root_ok

/-! ## One block -/

theorem sent_append (a : String) (txs : List AccountTx) (tx : AccountTx) :
    sent a (txs ++ [tx]) = if address tx.sender_pub = a then sent a txs ++ [tx] else sent a txs := by
  unfold sent
  rw [List.filter_append]
  split <;> rename_i ha <;> simp [ha]

theorem Effect.root_ok {height : UInt64} {jurors : StrSet} {led led' : TokenLedger} {tx : AccountTx}
    (h : Effect height jurors led led' tx) : tx.root_ok := by
  cases h with
  | submit _ hroot _ _ => exact hroot
  | transfer _ _ => trivial
  | receipt _ _ => trivial
  | challenge _ _ _ _ => trivial
  | vote _ _ _ _ _ _ _ _ => trivial

theorem Counted.apply {txs : List AccountTx} {height : UInt64} {jurors : StrSet} {led led' : TokenLedger} {tx : AccountTx}
    (h : Counted txs led) (ha : apply_account_tx height jurors led tx = .ok led') : Counted (txs ++ [tx]) led' := by
  obtain ⟨hverify, hnonce, hnonces, heff⟩ := apply_account_tx_cases ha
  refine ⟨fun a => ?_, fun a => ?_, fun t ht => ?_⟩
  · unfold TokenLedger.nonce_of
    rw [sent_append, hnonces, SumMap.get_insert]
    split
    · rename_i hx
      subst hx
      rw [Option.getD_some, hnonce, h.nonce, List.length_append, List.length_singleton, UInt64.ofNat_add]
      rfl
    · exact h.nonce a
  · rw [sent_append]
    split
    · rename_i hx
      subst hx
      rw [List.map_append, h.order, List.length_append, List.length_singleton, List.range_succ, List.map_append,
        List.map_singleton, List.map_singleton, hnonce, h.nonce]
    · exact h.order a
  · rcases List.mem_append.mp ht with ht | ht
    · exact h.good t ht
    · obtain rfl := List.mem_singleton.mp ht
      exact ⟨hverify, heff.root_ok⟩

omit [Crypto] in
theorem resolve_expired_challenges_nonces (led : TokenLedger) (height : UInt64) :
    (led.resolve_expired_challenges height).nonces = led.nonces := by
  unfold TokenLedger.resolve_expired_challenges
  generalize led.challenges.toList = cs
  induction cs generalizing led with
  | nil => rfl
  | cons c cs ih =>
    rw [List.foldl_cons, ih]
    unfold TokenLedger.resolve_challenge TokenLedger.settle_challenge
    split
    · rfl
    · split
      · rfl
      · split <;> exact (Moved.credit _ _ _).nonces

/-! ## A chain -/

theorem Counted.of_nonces {txs : List AccountTx} {led led' : TokenLedger} (h : Counted txs led)
    (he : led'.nonces = led.nonces) : Counted txs led' := by
  refine ⟨fun a => ?_, h.order, h.good⟩
  rw [← h.nonce a, TokenLedger.nonce_of, he, TokenLedger.nonce_of]

theorem Booked.counted {dc : Option String} {chain : List Block} {led : TokenLedger} (h : Booked dc chain led) :
    Counted (applied chain) led := by
  induction h with
  | genesis =>
    refine ⟨fun a => ?_, fun a => rfl, fun t ht => absurd ht List.not_mem_nil⟩
    cases dc <;> rfl
  | @block chain led led' b _ hstep ih =>
    obtain ⟨mid, hmid, -, -, hfold⟩ := token_transition_cases hstep
    have hcount : Counted (applied chain) mid :=
      ih.of_nonces (hmid.trans (resolve_expired_challenges_nonces led _))
    rw [applied, List.flatMap_append, List.flatMap_singleton]
    exact apply_in_turn (fun txs led tx led' _ h ha => h.apply ha) hcount hfold

/-- No two of the transactions collide under SHA-256. -/
def NoCollision (txs : List AccountTx) : Prop :=
  ∀ t ∈ txs, ∀ u ∈ txs, t.txid = u.txid → t.signing_bytes = u.signing_bytes

theorem Counted.nodup {txs : List AccountTx} {led : TokenLedger} (h : Counted txs led) (hcol : NoCollision txs)
    (hlen : ∀ a, (sent a txs).length ≤ 2 ^ 64) : (txs.map AccountTx.txid).Nodup := by
  unfold List.Nodup
  rw [List.pairwise_map, List.pairwise_iff_forall_sublist]
  intro t u hsub he
  have ht : t ∈ txs := hsub.subset (by simp)
  have hu : u ∈ txs := hsub.subset (by simp)
  have hbytes := hcol t ht u hu he
  obtain ⟨htag, hsender⟩ := AccountTx.same_sender (h.good t ht).1 (h.good u hu).1 hbytes
  have hnonce := AccountTx.same_nonce htag (h.good t ht).2 (h.good u hu).2 hbytes
  -- both stand in the list of their sender, where no nonce comes twice
  have hsent : [t, u].Sublist (sent (address t.sender_pub) txs) := by
    have := hsub.filter fun x => address x.sender_pub = address t.sender_pub
    simpa [sent, hsender] using this
  have hnodup : ((sent (address t.sender_pub) txs).map AccountTx.nonce).Nodup := by
    rw [h.order]
    refine List.Nodup.map_on (fun i hi j hj hij => ?_) List.nodup_range
    have hb := hlen (address t.sender_pub)
    have := congrArg UInt64.toNat hij
    rwa [UInt64.toNat_ofNat_of_lt' (lt_of_lt_of_le (List.mem_range.mp hi) hb),
      UInt64.toNat_ofNat_of_lt' (lt_of_lt_of_le (List.mem_range.mp hj) hb)] at this
  have hpair := (hsent.map AccountTx.nonce).nodup hnodup
  simp [hnonce] at hpair

/-- In every run, on the chain of every block: the nonce of an address is the number of account
transactions it sent, these carry 0, 1, 2, … in order, and no account transaction is applied twice. -/
theorem replay_protection {genesis_w : List Int64} {params : GenesisParams}
    (hw : genesis_w.length = (ModelState.genesis params.spec).dim) (dc : Option String) (ops : List Op)
    {h : String} {led : TokenLedger} {chain : List Block}
    (hled : ((Logged.new genesis_w dc params).run ops).tree.ledger[h]? = some led)
    (hch : Chain ((Logged.new genesis_w dc params).run ops).log
      ((Logged.new genesis_w dc params).run ops).tree.genesis_hash h chain)
    (hcol : NoCollision (applied chain)) :
    (∀ a, led.nonce_of a = UInt64.ofNat (sent a (applied chain)).length) ∧
      (∀ a, (sent a (applied chain)).map AccountTx.nonce =
        (List.range (sent a (applied chain)).length).map UInt64.ofNat) ∧
      ((∀ a, (sent a (applied chain)).length ≤ 2 ^ 64) → ((applied chain).map AccountTx.txid).Nodup) := by
  have hcount := (run_books hw dc ops hled hch).counted
  exact ⟨hcount.nonce, hcount.order, hcount.nodup hcol⟩

end Any

open Toy

/-- No two transactions of the small market collide. -/
theorem Toy.market_no_collision : NoCollision (applied [opening_trade, voting_trade]) := by
  unfold NoCollision
  decide +kernel

theorem replay_protection_market :
    traded_ledger.nonce_of (address (hex_encode (key 4).val)) = 3 ∧
      ((applied [opening_trade, voting_trade]).map AccountTx.txid).Nodup := by
  have h := replay_protection (by decide) none [.add_block opening_trade, .add_block voting_trade] market_ledger market_chain
    market_no_collision
  have hthree : (sent (address (hex_encode (key 4).val)) (applied [opening_trade, voting_trade])).length = 3 := by
    decide +kernel
  refine ⟨?_, h.2.2 fun a => ?_⟩
  · rw [h.1, hthree]
    rfl
  · have hfew : (applied [opening_trade, voting_trade]).length ≤ 2 ^ 64 := by decide +kernel
    exact (List.length_filter_le _ _).trans hfew

end Sestrian
