import Sestrian.Ledger.Values

/-!
# Blocks on a checked ledger

No block makes the node panic on a ledger that passed the checks, and the ledger after it passes them too.
-/

namespace Sestrian

open Panic serde_json

namespace ValueLedger

section Steps

variable [Crypto] {X : Value → Prop} {led : ValueLedger}

/-! ## The block reward -/

omit [Crypto] in
theorem safe_div_len (x : UInt64) {n : Nat} (h : n ≠ 0) : Safe (div_len x n) fun _ => True := by
  unfold div_len
  rw [if_neg h]
  trivial

omit [Crypto] in
theorem safe_equal_shares (pool : UInt64) {addrs : List String} (h : addrs ≠ []) :
    Safe (equal_shares pool addrs) fun _ => True := by
  unfold equal_shares
  exact safe_bind (safe_div_len pool fun h0 => h (List.length_eq_zero_iff.mp h0)) fun _ _ => trivial

omit [Crypto] in
theorem safe_weighted_shares (pool : UInt64) {items : List (String × UInt64)}
    (h : items ≠ [] → 0 < (items.map fun i => i.2.toNat).sum) : Safe (weighted_shares pool items) fun _ => True := by
  unfold weighted_shares
  simp only
  refine safe_mono (safe_mapM (P := fun _ => True) fun i hi => ?_) fun _ _ => trivial
  have hpos := h (List.ne_nil_of_mem hi)
  refine safe_bind (P := fun _ => True) ?_ fun _ _ => trivial
  unfold div_u128
  rw [if_neg hpos.ne']
  trivial

theorem safe_pay_miners (h : Checked X led) (pool : UInt64) (miner_pubs : List String) (miner_weights : Dict UInt64) :
    Safe (led.pay_miners pool miner_pubs miner_weights) (Checked X) := by
  unfold pay_miners
  split
  · exact safe_pure h
  rename_i hne
  refine safe_bind (P := fun _ => True) ?_ fun pays _ => safe_pure (Checked.credit_all ?_ pays)
  · unfold miner_pays
    simp only
    split
    · rename_i hpos
      refine safe_weighted_shares _ fun _ => ?_
      rwa [List.map_map]
    · refine safe_equal_shares _ fun hnil => hne ?_
      rw [List.map_eq_nil_iff] at hnil
      have hlen := List.length_insertionSort (· ≤ ·) miner_pubs
      rw [hnil] at hlen
      exact List.isEmpty_iff.mpr (List.length_eq_zero_iff.mp hlen.symm)
  · exact { h with }

omit [Crypto] in
/-- Only hashes with an owner are paid, and their credits are positive. -/
theorem safe_pay_data (h : Checked X led) (pool : UInt64) (legacy : List String) (data_credits : Dict UInt64) :
    Safe (led.pay_data pool legacy data_credits) (Checked X) := by
  have hpaid : ∀ c ∈ led.paid_hashes data_credits, 0 < c.2 ∧ ∃ owner, led.hash_to_owner[c.1]? = some owner := by
    intro c hc
    have hcond := (List.mem_filter.mp hc).2
    rw [decide_eq_true_eq] at hcond
    exact ⟨hcond.1, Option.isSome_iff_exists.mp (by rw [Std.ExtTreeMap.isSome_getElem?_eq_contains]; exact hcond.2)⟩
  unfold pay_data
  simp only
  split
  · refine safe_bind (P := fun owners => ∀ o ∈ owners, 0 < o.2) ?_ fun owners howners => ?_
    · refine safe_mapM fun c hc => ?_
      obtain ⟨hpos, owner, howner⟩ := hpaid c hc
      exact safe_bind (P := fun _ => True) (safe_unwrap howner trivial) fun _ _ => safe_pure hpos
    · refine safe_bind (safe_weighted_shares _ fun hne => ?_) fun pays _ => safe_pure (Checked.credit_all ?_ pays)
      · obtain ⟨o, os, rfl⟩ := List.exists_cons_of_ne_nil hne
        have hpos : 0 < o.2.toNat := UInt64.lt_iff_toNat_lt.mp (howners o List.mem_cons_self)
        rw [List.map_cons, List.sum_cons]
        omega
      · exact { h with }
  · split
    · rename_i hne
      refine safe_bind (safe_equal_shares _ fun hnil => ?_) fun pays _ => safe_pure (h.credit_all pays)
      have hlen := List.length_insertionSort (· ≤ ·) legacy
      rw [hnil] at hlen
      exact hne (by simp [List.length_eq_zero_iff.mp hlen.symm])
    · exact safe_pure h

theorem safe_apply_reward (h : Checked X led) (height : UInt64) (miner_pubs : List String) (proposer_pub : String)
    (legacy : List String) (data_credits miner_weights : Dict UInt64) :
    Safe (led.apply_reward height miner_pubs proposer_pub legacy data_credits miner_weights) (Checked X) := by
  unfold apply_reward
  simp only
  split
  · exact safe_pure h
  · refine safe_bind (safe_pay_miners h _ _ _) fun led' hled' => ?_
    have hproposer : Checked X (led'.pay_proposer proposer_pub (emission height * SHARE_PROPOSER / 10000)) := by
      unfold pay_proposer
      split
      · exact hled'.credit _ _
      · exact hled'
    exact safe_pay_data hproposer _ _ _

/-! ## Account transactions -/

theorem safe_apply_transfer (h : Checked X led) (t : TransferTx) :
    Safe (led.apply_transfer t) fun r => Checked X r.2 := by
  unfold apply_transfer
  split
  · exact safe_pure h
  rename_i hok
  simp only
  split
  · exact safe_pure h
  rename_i hfunds
  simp only [not_or] at hok hfunds
  refine safe_bind (safe_debit h hok.2 hfunds.2) fun led' hled' => safe_pure ?_
  exact { hled'.credit t.to_addr t.amount with }

omit [Crypto] in
theorem entry_value_good (hX : Kept X) (owner : String) (t : DataSubmitTx) :
    valid_registry_entry (entry_value owner t) = true ∧ X (entry_value owner t) := by
  refine ⟨rfl, hX.object _ ?_ ?_⟩
  · simp only [List.map_cons, List.map_nil]
    decide
  · simp only [List.forall_mem_cons]
    exact ⟨trivial, trivial, trivial, trivial, trivial, trivial, trivial, trivial, List.forall_mem_nil _⟩

omit [Crypto] in
theorem safe_apply_submit (hX : Kept X) (h : Checked X led) (src txid : String) (t : DataSubmitTx) :
    Safe (led.apply_submit src txid t) fun r => Checked X r.2 := by
  unfold apply_submit
  split
  · exact safe_pure h
  rename_i hok
  split
  · exact safe_pure h
  split
  · exact safe_pure h
  simp only [not_or] at hok
  refine safe_bind (safe_debit h hok.1 hok.2.1) fun led' hled' => safe_pure ?_
  exact { hled' with registry := hled'.registry.insert (entry_value_good hX src t) txid }

omit [Crypto] in
theorem challenge_value_good (hX : Kept X) (challenger : String) (t : DataChallengeTx) (expiry : UInt64) :
    valid_challenge (challenge_value challenger t expiry) = true ∧ X (challenge_value challenger t expiry) := by
  refine ⟨rfl, hX.object _ ?_ ?_⟩
  · simp only [List.map_cons, List.map_nil]
    decide
  · simp only [List.forall_mem_cons]
    exact ⟨trivial, trivial, trivial, trivial, trivial, List.forall_mem_nil _, List.forall_mem_nil _, List.forall_mem_nil _⟩

omit [Crypto] in
theorem safe_apply_challenge (hX : Kept X) (h : Checked X led) (src txid : String) (t : DataChallengeTx) (height : UInt64) :
    Safe (led.apply_challenge src txid t height) fun r => Checked X r.2 := by
  unfold apply_challenge
  simp only
  split
  · exact safe_pure h
  rename_i hok
  simp only [not_or] at hok
  refine safe_bind (safe_debit h hok.2.2.1 hok.2.2.2) fun led' hled' => safe_pure ?_
  exact { hled' with challenges := hled'.challenges.insert (challenge_value_good hX _ _ _) txid }

omit [Crypto] in
theorem safe_has_voted {ch : Value} (hf : ChallengeFields ch) (src : String) : Safe (has_voted ch src) fun _ => True := by
  unfold has_voted
  refine safe_bind (safe_read_votes hf.votes_for) fun votes_for _ => ?_
  split
  · trivial
  · exact safe_bind (safe_read_votes hf.votes_against) fun _ _ => trivial

omit [Crypto] in
theorem str_array_insert {items : List Value} (h : ∀ x ∈ items, x.is_string = true) (src : String) :
    ∀ x ∈ (items ++ [Value.string src]).insertionSort vote_le, x.is_string = true := by
  intro x hx
  rw [List.mem_insertionSort, List.mem_append, List.mem_singleton] at hx
  rcases hx with hx | rfl
  · exact h x hx
  · rfl

omit [Crypto] in
theorem leaf_of_strings {items : List Value} (h : ∀ x ∈ items, x.is_string = true) : Leaf (.array items) := by
  intro x hx
  obtain ⟨s, rfl⟩ := Value.eq_string_of (h x hx)
  trivial

omit [Crypto] in
theorem ChallengeFields.set {c c' : Value} {items : List Value} {k : String} (h : ChallengeFields c)
    (hk : k = "votes_for" ∨ k = "votes_against") (hitems : ∀ x ∈ items, x.is_string = true)
    (hs : c.set k (.array items) = some c') : ChallengeFields c' := by
  have hget := Value.index_set hs
  have hvotes : str_array (.array items) = true := (str_array_iff _).mpr ⟨items, rfl, hitems⟩
  rcases hk with rfl | rfl
  · constructor <;> rw [hget]
    · exact h.data_id
    · exact h.challenger
    · exact h.stake
    · exact h.reason
    · exact h.expiry
    · exact hvotes
    · exact h.votes_against
  · constructor <;> rw [hget]
    · exact h.data_id
    · exact h.challenger
    · exact h.stake
    · exact h.reason
    · exact h.expiry
    · exact h.votes_for
    · exact hvotes

omit [Crypto] in
theorem ChallengeFields.not_null {c : Value} (h : ChallengeFields c) : c.index "data_id" ≠ .null := by
  intro hn
  have hid := h.data_id
  rw [hn] at hid
  cases hid

omit [Crypto] in
theorem safe_add_vote (hX : Kept X) {ch : Value} (hc : valid_challenge ch = true ∧ X ch) (src : String) (support : Bool) :
    Safe (add_vote ch src support) fun c' => valid_challenge c' = true ∧ X c' := by
  have hf := (valid_challenge_iff ch).mp hc.1
  have hside : ∃ k, (if support then "votes_for" else "votes_against") = k ∧ (k = "votes_for" ∨ k = "votes_against") ∧
      str_array (ch.index k) = true := by
    cases support
    · exact ⟨"votes_against", rfl, .inr rfl, hf.votes_against⟩
    · exact ⟨"votes_for", rfl, .inl rfl, hf.votes_for⟩
  obtain ⟨k, hk, hside, hvotes⟩ := hside
  unfold add_vote
  simp only [hk]
  refine safe_bind (safe_read_votes hvotes) fun items hitems => ?_
  have hnew := str_array_insert hitems src
  obtain ⟨c', hc'⟩ := Value.set_of_index hf.not_null k (.array ((items ++ [Value.string src]).insertionSort vote_le))
  exact safe_unwrap hc' ⟨(valid_challenge_iff c').mpr (hf.set hside hnew hc'),
    hX.set ch c' _ k hc.2 (leaf_of_strings hnew) hc'⟩

omit [Crypto] in
theorem safe_apply_vote (hX : Kept X) (h : Checked X led) (src : String) (t : DataVoteTx) (jurors : StrSet) :
    Safe (led.apply_vote src t jurors) fun r => Checked X r.2 := by
  unfold apply_vote
  split
  · exact safe_pure h
  split
  · exact safe_pure h
  rename_i ch hch
  have hgood := h.challenges _ ch hch
  have hf := (valid_challenge_iff ch).mp hgood.1
  refine safe_bind (safe_has_voted hf src) fun voted _ => ?_
  simp only
  refine safe_bind (safe_read_str hf.data_id (Q := fun _ => True) fun _ => trivial) fun data_id _ => ?_
  split
  · exact safe_pure h
  split
  · exact safe_pure h
  · refine safe_bind (safe_add_vote hX hgood src t.support) fun c' hc' => safe_pure ?_
    exact { h with challenges := h.challenges.insert hc' t.challenge_id }

omit [Crypto] in
theorem safe_pay_data_cut (h : Checked X led) (ans : List Int64) (cut : UInt64) :
    Safe (led.pay_data_cut ans cut) (Checked X) := by
  unfold pay_data_cut
  simp only
  split
  · rename_i hpos
    refine safe_bind (P := fun _ => True) ?_ fun pays _ => safe_pure (h.credit_all pays)
    refine safe_mono (safe_mapM (P := fun _ => True) fun a _ => ?_) fun _ _ => trivial
    refine safe_bind (P := fun _ => True) ?_ fun _ _ => trivial
    unfold align_share
    rw [if_neg hpos.2.ne']
    trivial
  · exact safe_pure { h with }

omit [Crypto] in
theorem safe_apply_receipt (h : Checked X led) (src : String) (t : InferenceReceiptTx) :
    Safe (led.apply_receipt src t) fun r => Checked X r.2 := by
  unfold apply_receipt
  split
  · exact safe_pure h
  rename_i hok
  simp only [not_or] at hok
  refine safe_bind (safe_debit h hok.1 hok.2) fun led' hled' => ?_
  simp only
  refine safe_bind (safe_pay_data_cut ?_ _ _) fun led'' hled'' => safe_pure hled''
  exact { hled'.credit t.server_addr (t.fee - TokenLedger.fee_data_cut t.fee - TokenLedger.fee_train_cut t.fee) with }

theorem safe_apply_data_tx (hX : Kept X) (h : Checked X led) (tx : AccountTx) (height : UInt64) (jurors : StrSet) :
    Safe (led.apply_data_tx tx height jurors) fun r => Checked X r.2 := by
  have hkind : Safe (led.apply_data_kind (address tx.sender_pub) tx height jurors) fun r => Checked X r.2 := by
    cases tx with
    | Transfer t => exact safe_pure h
    | DataSubmit t => exact safe_apply_submit hX h _ _ t
    | DataChallenge t => exact safe_apply_challenge hX h _ _ t height
    | DataVote t => exact safe_apply_vote hX h _ t jurors
    | InferenceReceipt t => exact safe_apply_receipt h _ t
  unfold apply_data_tx
  split
  · exact safe_pure h
  simp only
  split
  · exact safe_pure h
  refine safe_bind hkind ?_
  rintro ⟨ok, led'⟩ hled'
  refine safe_pure ?_
  simp only
  split
  · exact { hled' with }
  · exact hled'

omit [Crypto] in
theorem safe_accept (h : Checked X led) (ok : Bool) (why : String) :
    Safe (reject_unless ok why >>= fun _ => (pure led : Step ValueLedger)) (Checked X) :=
  safe_bind (P := fun _ => True) (safe_reject_unless fun _ => trivial) fun _ _ => safe_pure h

theorem safe_apply_account_tx (hX : Kept X) (h : Checked X led) (tx : AccountTx) (height : UInt64) (jurors : StrSet) :
    Safe (apply_account_tx height jurors led tx) (Checked X) := by
  unfold apply_account_tx
  cases tx with
  | Transfer t => exact safe_bind (safe_apply_transfer h t) fun r hr => safe_accept hr r.1 _
  | DataSubmit t => exact safe_bind (safe_apply_data_tx hX h _ height jurors) fun r hr => safe_accept hr r.1 _
  | DataChallenge t => exact safe_bind (safe_apply_data_tx hX h _ height jurors) fun r hr => safe_accept hr r.1 _
  | DataVote t => exact safe_bind (safe_apply_data_tx hX h _ height jurors) fun r hr => safe_accept hr r.1 _
  | InferenceReceipt t => exact safe_bind (safe_apply_data_tx hX h _ height jurors) fun r hr => safe_accept hr r.1 _

theorem safe_lock_tx_bond (hX : Kept X) (h : Checked X led) (height : UInt64) (tx : BackpropTx) :
    Safe (lock_tx_bond height led tx) (Checked X) := by
  unfold lock_tx_bond
  exact safe_bind (safe_lock_bond hX h _ _ _ _) fun r hr => safe_accept hr r.1 _

/-! ## Sketches -/

/-- A registry that only loses nothing: its values are good, and it has the keys it had. -/
structure Grown (X : Value → Prop) (keys : List String) (registry : Dict Value) : Prop where
  good : All (fun e => valid_registry_entry e = true ∧ X e) registry
  mem : ∀ k ∈ keys, k ∈ registry

omit [Crypto] in
theorem safe_accrue_sketch (hX : Kept X) {keys : List String} {registry : Dict Value} (h : Grown X keys registry)
    (sk : List Int32) {n : Nat} (hn : n ≠ 0) {key : String} (hk : key ∈ keys) :
    Safe (accrue_sketch sk n registry key) (Grown X keys) := by
  obtain ⟨e, he⟩ := Option.isSome_iff_exists.mp (Std.ExtTreeMap.isSome_getElem?_iff_mem.mpr (h.mem key hk))
  unfold accrue_sketch
  refine safe_bind (P := fun e' => e' = e) (safe_unwrap he rfl) ?_
  rintro e rfl
  refine safe_bind (P := fun w => EntryWrite "sketch" w) ?_ fun w hw => ?_
  · unfold add_sketch
    rw [if_neg hn]
    exact safe_pure (.sketch _)
  · refine safe_bind (safe_set_entry hX (h.good key e he) hw) fun e' he' => safe_pure ?_
    refine ⟨h.good.insert he' key, fun k hk' => ?_⟩
    exact Std.ExtTreeMap.mem_insert.mpr (.inr (h.mem k hk'))

omit [Crypto] in
/-- The keys that deltas accrue to are keys of the registry. -/
theorem hash_to_key_mem {k key : String} (h : led.hash_to_key[k]? = some key) : key ∈ led.registry := by
  have hfold (es : List (String × Value)) (hes : ∀ e ∈ es, e.1 ∈ led.registry) (m : Dict String)
      (hm : ∀ k key, m[(k : String)]? = some key → key ∈ led.registry) :
      ∀ k key, (es.foldl add_key m)[(k : String)]? = some key → key ∈ led.registry := by
    induction es generalizing m with
    | nil => exact hm
    | cons e es ih =>
      obtain ⟨he, hes⟩ := List.forall_mem_cons.mp hes
      refine ih hes _ fun k key hget => ?_
      unfold add_key at hget
      split at hget
      · rw [SumMap.get_insert] at hget
        split at hget
        · rw [← Option.some.inj hget]
          exact he
        · exact hm k key hget
      · exact hm k key hget
  refine hfold led.registry.toList ?_ ∅ (fun k key hget => by simp at hget) k key h
  intro e he
  have hget := Std.ExtTreeMap.mem_toList_iff_getElem?_eq_some.mp (show (e.1, e.2) ∈ led.registry.toList from he)
  exact Std.ExtTreeMap.isSome_getElem?_iff_mem.mp (by rw [hget]; rfl)

theorem effective_scores_mem {txs : List BackpropTx} (scores : Dict UInt64) {tx : BackpropTx} (htx : tx ∈ txs) :
    ∃ s, (effective_scores txs scores)[tx.txid]? = some s := by
  have hfold (val : BackpropTx → UInt64) (txs : List BackpropTx) (m : Dict UInt64) {k : String}
      (h : k ∈ m ∨ ∃ t ∈ txs, t.txid = k) : k ∈ txs.foldl (fun m t => m.insert t.txid (val t)) m := by
    induction txs generalizing m with
    | nil =>
      rcases h with h | ⟨t, ht, -⟩
      · exact h
      · exact absurd ht List.not_mem_nil
    | cons t txs ih =>
      refine ih _ ?_
      rcases h with h | ⟨u, hu, rfl⟩
      · exact .inl (Std.ExtTreeMap.mem_insert.mpr (.inr h))
      · rcases List.mem_cons.mp hu with rfl | hu
        · exact .inl Std.ExtTreeMap.mem_insert_self
        · exact .inr ⟨u, hu, rfl⟩
  refine Option.isSome_iff_exists.mp (Std.ExtTreeMap.isSome_getElem?_iff_mem.mpr ?_)
  unfold effective_scores
  simp only
  split
  · exact hfold _ txs ∅ (.inr ⟨tx, htx, rfl⟩)
  · exact hfold _ txs ∅ (.inr ⟨tx, htx, rfl⟩)

/-- The commitments of a block cover its transactions. -/
theorem check_sets_sketches {b : Block} (h : check_sets b = .ok ()) {tx : BackpropTx} (htx : tx ∈ b.txs) :
    ∃ sk, b.sketches[tx.txid]? = some sk := by
  simp only [check_sets, Check.bind_eq_ok, Check.require_eq_ok, Check.exists_unit] at h
  obtain ⟨-, -, -, -, ⟨-, hsk⟩, -⟩ := h
  have hkey := hsk tx.txid (List.mem_map.mpr ⟨tx, htx, rfl⟩)
  exact Option.isSome_iff_exists.mp (Std.ExtTreeMap.isSome_getElem?_iff_mem.mpr (Std.ExtTreeMap.mem_keys.mp hkey))

theorem safe_accrue_tx (hX : Kept X) {keys : Dict String} {all : List String} {acc : ValueAccrual}
    (h : Grown X all acc.registry) (hkeys : ∀ k key, keys[(k : String)]? = some key → key ∈ all) {eff : Dict UInt64}
    {sketches : Dict (List Int32)} {tx : BackpropTx} (heff : ∃ s, eff[tx.txid]? = some s)
    (hsk : ∃ sk, sketches[tx.txid]? = some sk) (active_set : List String) :
    Safe (accrue_tx eff active_set keys sketches acc tx) fun acc' => Grown X all acc'.registry := by
  obtain ⟨s, hs⟩ := heff
  obtain ⟨sk, hsk⟩ := hsk
  unfold accrue_tx
  refine safe_bind (P := fun _ => True) (safe_unwrap hs trivial) fun s _ => ?_
  simp only
  refine safe_bind (P := fun _ => True) ?_ fun data_credits _ => ?_
  · generalize hnamed : tx.canonical_refs.filter (active_set.contains ·) = named
    refine safe_mono (safe_foldlM (fun rest _ => rest ⊆ named) (List.Subset.refl named) fun r rest m hsub => ?_)
      fun _ _ => trivial
    have hr : r ∈ named := hsub List.mem_cons_self
    have hne : named.length ≠ 0 := fun h0 => by
      rw [List.length_eq_zero_iff.mp h0] at hr
      exact List.not_mem_nil hr
    exact safe_bind (safe_div_len _ hne) fun _ _ => safe_pure fun x hx => hsub (List.mem_cons_of_mem _ hx)
  refine safe_bind (P := fun _ => True) (safe_unwrap hsk trivial) fun sk _ => ?_
  refine safe_bind (P := Grown X all) ?_ fun registry hr => safe_pure hr
  unfold accrue_sketches
  split
  · generalize hnamed : tx.canonical_refs.filterMap (keys[·]?) = named
    have hmem : ∀ key ∈ named, key ∈ all := by
      intro key hkey
      rw [← hnamed, List.mem_filterMap] at hkey
      obtain ⟨k, -, hget⟩ := hkey
      exact hkeys k key hget
    refine safe_mono (safe_foldlM (fun rest r => rest ⊆ named ∧ Grown X all r) ⟨List.Subset.refl named, h⟩ ?_)
      fun r hr => hr.2
    rintro key rest r ⟨hsub, hr⟩
    have hk : key ∈ named := hsub List.mem_cons_self
    have hne : named.length ≠ 0 := fun h0 => by
      rw [List.length_eq_zero_iff.mp h0] at hk
      exact List.not_mem_nil hk
    refine safe_mono (safe_accrue_sketch hX hr sk hne (hmem key hk)) fun r' hr' => ⟨fun x hx => ?_, hr'⟩
    exact hsub (List.mem_cons_of_mem _ hx)
  · exact safe_pure h

theorem safe_accrue (hX : Kept X) (h : Checked X led) {b : Block} (hb : check_sets b = .ok ()) :
    Safe (led.accrue b) fun acc => All (fun e => valid_registry_entry e = true ∧ X e) acc.registry := by
  unfold accrue
  refine safe_mono (safe_foldlM (fun rest acc => rest ⊆ b.txs ∧ Grown X led.registry.keys acc.registry) ?_ ?_)
    fun acc hacc => hacc.2.good
  · exact ⟨List.Subset.refl _, ⟨h.registry, fun k hk => Std.ExtTreeMap.mem_keys.mp hk⟩⟩
  · rintro tx rest acc ⟨hsub, hacc⟩
    have htx : tx ∈ b.txs := hsub List.mem_cons_self
    refine safe_mono (safe_accrue_tx hX hacc (fun k key hget => Std.ExtTreeMap.mem_keys.mpr (hash_to_key_mem hget))
      (effective_scores_mem b.scores htx) (check_sets_sketches hb htx) _) fun acc' hacc' => ⟨fun x hx => ?_, hacc'⟩
    exact hsub (List.mem_cons_of_mem _ hx)

/-! ## A block -/

/-- No block makes the node panic on a checked ledger, and the ledger after an accepted one is checked. -/
theorem safe_token_transition (hX : Kept X) (h : Checked X led) {to_string : Value → Option String}
    (hs : ∀ v, (to_string v).isSome) (b : Block) (dc : Option String) (jurors : StrSet) :
    Safe (led.token_transition to_string b dc jurors) (Checked X) := by
  unfold token_transition
  simp only
  refine safe_bind (P := fun _ => check_sets b = .ok ()) (safe_lift_check fun _ hb => hb) fun _ hb => ?_
  refine safe_bind (safe_resolve_expired_challenges hX h _) fun led₁ h₁ => ?_
  refine safe_bind (safe_resolve_expired_bonds h₁ _) fun led₂ h₂ => ?_
  refine safe_bind (P := fun _ => True) (safe_lift_check fun _ _ => trivial) fun _ _ => ?_
  have hreward : Safe (led₂.reward_block b dc) (Checked X) := by
    unfold reward_block
    refine safe_bind (safe_accrue hX h₂ hb) fun acc hacc => safe_apply_reward ?_ _ _ _ _ _ _
    exact { h₂ with registry := hacc }
  refine safe_bind hreward fun led₃ h₃ => ?_
  refine safe_bind (safe_foldlM (fun _ led => Checked X led) h₃ fun tx _ led hled =>
    safe_lock_tx_bond hX hled _ tx) fun led₄ h₄ => ?_
  refine safe_bind (safe_foldlM (fun _ led => Checked X led) h₄ fun tx _ led hled =>
    safe_apply_account_tx hX hled tx _ jurors) fun led₅ h₅ => ?_
  have hroot : Safe (led₅.root to_string) fun _ => True := by
    obtain ⟨text, htext⟩ := Option.isSome_iff_exists.mp (hs led₅.to_value)
    exact safe_bind (P := fun _ => True) (safe_unwrap htext trivial) fun _ _ => trivial
  refine safe_bind hroot fun r _ => ?_
  exact safe_bind (P := fun _ => True) (safe_reject_unless fun _ => trivial) fun _ _ => safe_pure h₅

end Steps

end ValueLedger

end Sestrian
