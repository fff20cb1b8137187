import Sestrian.Ledger.Owners
import Sestrian.Ledger.RootBytes

/-!
# The texts of the ledger over a run

Addresses and ids are hex, so a character past `~` comes only from a text that a sender chose.
-/

namespace Sestrian

open Check TokenLedger

/-! ## Plain dictionaries -/

/-- Every key is plain, and every value is `Q`. -/
def PlainDict {ν : Type} (Q : ν → Prop) (m : Dict ν) : Prop :=
  ∀ k v, m[(k : String)]? = some v → PlainText k ∧ Q v

section Dict

variable {ν : Type} {Q : ν → Prop} {m : Dict ν}

theorem plainDict_empty : PlainDict Q (∅ : Dict ν) := by
  intro k v h
  simp at h

theorem PlainDict.insert (h : PlainDict Q m) {k : String} {v : ν} (hk : PlainText k) (hv : Q v) :
    PlainDict Q (m.insert k v) := by
  intro k' v' h'
  rw [SumMap.get_insert] at h'
  split at h'
  · rename_i he
    obtain rfl := he
    obtain rfl := Option.some.inj h'
    exact ⟨hk, hv⟩
  · exact h k' v' h'

theorem PlainDict.erase (h : PlainDict Q m) (k : String) : PlainDict Q (m.erase k) := by
  intro k' v' h'
  rw [SumMap.get_erase] at h'
  split at h'
  · cases h'
  · exact h k' v' h'

theorem plainJson_dict {g : ν → Json} : PlainJson (dict_json g m) ↔ PlainDict (fun v => PlainJson (g v)) m := by
  rw [dict_json, PlainJson, plainFields_iff]
  constructor
  · intro h k v hget
    exact h (k, g v) (List.mem_map.mpr ⟨(k, v), Std.ExtTreeMap.mem_toList_iff_getElem?_eq_some.mpr hget, rfl⟩)
  · intro h f hf
    obtain ⟨e, he, rfl⟩ := List.mem_map.mp hf
    exact h e.1 e.2 (Std.ExtTreeMap.mem_toList_iff_getElem?_eq_some.mp he)

end Dict

/-! ## Plain ledgers -/

structure PlainEntry (e : RegistryEntry) : Prop where
  owner : PlainText e.owner
  data_hash : PlainText e.data_hash
  media_type : PlainText e.media_type
  da_root : ∀ r, e.da_root = some r → PlainText r

structure PlainChallenge (c : Challenge) : Prop where
  data_id : PlainText c.data_id
  challenger : PlainText c.challenger
  reason : PlainText c.reason
  votes_for : ∀ v ∈ c.votes_for, PlainText v
  votes_against : ∀ v ∈ c.votes_against, PlainText v

/-- No key and no text of the ledger has a character past `~`. -/
structure PlainLedger (led : TokenLedger) : Prop where
  balances : PlainDict (fun _ => True) led.balances
  nonces : PlainDict (fun _ => True) led.nonces
  registry : PlainDict PlainEntry led.registry
  challenges : PlainDict PlainChallenge led.challenges
  bonds : PlainDict (fun b => PlainText b.miner) led.bonds

theorem plainJson_u64 (n : UInt64) : PlainJson (u64_json n) := by
  rw [u64_json, PlainJson]
  trivial

theorem plainJson_texts {xs : List String} : PlainJson (.arr (xs.map .str)) ↔ ∀ x ∈ xs, PlainText x := by
  rw [PlainJson, plainItems_iff, List.forall_mem_map]
  simp only [PlainJson]

theorem plainText_of_all {s : String} (h : s.toList.all (fun c => c.toNat < 127) = true) : PlainText s := by
  intro c hc
  simpa using List.all_eq_true.mp h c hc

theorem plainJson_entry {e : RegistryEntry} : PlainJson (entry_json e) ↔ PlainEntry e := by
  rw [entry_json, PlainJson, plainFields_iff]
  simp only [List.forall_mem_append, List.forall_mem_cons]
  constructor
  · rintro ⟨⟨⟨hroot, ⟨-, hhash⟩, ⟨-, htype⟩, ⟨-, howner⟩, -⟩, -⟩, -⟩
    refine ⟨howner, hhash, htype, fun r hr => ?_⟩
    rw [hr] at hroot
    exact (hroot ("da_root", .str r) (List.mem_singleton_self _)).2
  · intro h
    refine ⟨⟨⟨?_, ⟨plainText_of_all rfl, h.data_hash⟩, ⟨plainText_of_all rfl, h.media_type⟩,
      ⟨plainText_of_all rfl, h.owner⟩, ⟨plainText_of_all rfl, plainJson_u64 _⟩, List.forall_mem_nil _⟩, ?_⟩,
      ⟨plainText_of_all rfl, plainJson_u64 _⟩, ⟨plainText_of_all rfl, ?_⟩, ⟨plainText_of_all rfl, plainJson_u64 _⟩, List.forall_mem_nil _⟩
    · intro f hf
      obtain ⟨r, hr, rfl⟩ := Option.map_eq_some_iff.mp (Option.mem_toList.mp hf)
      exact ⟨show PlainText "da_root" from plainText_of_all rfl, h.da_root r hr⟩
    · intro f hf
      obtain ⟨sk, -, rfl⟩ := Option.map_eq_some_iff.mp (Option.mem_toList.mp hf)
      refine ⟨show PlainText "sketch" from plainText_of_all rfl, ?_⟩
      rw [PlainJson, plainItems_iff, List.forall_mem_map]
      intro x _
      rw [PlainJson]
      trivial
    · rw [PlainJson]
      cases e.status
      · exact plainText_of_all rfl
      · exact plainText_of_all rfl

theorem plainJson_challenge {c : Challenge} : PlainJson (challenge_json c) ↔ PlainChallenge c := by
  rw [challenge_json, PlainJson, plainFields_iff]
  simp only [List.forall_mem_cons]
  constructor
  · rintro ⟨⟨-, hchallenger⟩, ⟨-, hid⟩, -, ⟨-, hreason⟩, -, ⟨-, hagainst⟩, ⟨-, hfor⟩, -⟩
    exact ⟨hid, hchallenger, hreason, plainJson_texts.mp hfor, plainJson_texts.mp hagainst⟩
  · intro h
    exact ⟨⟨plainText_of_all rfl, h.challenger⟩, ⟨plainText_of_all rfl, h.data_id⟩, ⟨plainText_of_all rfl,
      plainJson_u64 _⟩,
      ⟨plainText_of_all rfl, h.reason⟩, ⟨plainText_of_all rfl, plainJson_u64 _⟩,
      ⟨plainText_of_all rfl, plainJson_texts.mpr h.votes_against⟩, ⟨plainText_of_all rfl,
        plainJson_texts.mpr h.votes_for⟩, List.forall_mem_nil _⟩

theorem plainJson_bond {b : Bond} : PlainJson (bond_json b) ↔ PlainText b.miner := by
  rw [bond_json, PlainJson, plainFields_iff]
  simp only [List.forall_mem_cons]
  constructor
  · rintro ⟨-, -, ⟨-, h⟩, -⟩
    exact h
  · intro h
    exact ⟨⟨plainText_of_all rfl, plainJson_u64 _⟩, ⟨plainText_of_all rfl, plainJson_u64 _⟩, ⟨plainText_of_all rfl, h⟩,
      List.forall_mem_nil _⟩

theorem plainJson_state (led : TokenLedger) : PlainJson (state_json led) ↔ PlainLedger led := by
  rw [state_json, PlainJson, plainFields_iff]
  simp only [List.forall_mem_cons, plainJson_dict, plainJson_entry, plainJson_challenge, plainJson_bond, plainJson_u64,
    and_true]
  constructor
  · rintro ⟨⟨-, hbalances⟩, ⟨-, hbonds⟩, ⟨-, hchallenges⟩, -, -, ⟨-, hnonces⟩, ⟨-, hregistry⟩, -⟩
    exact ⟨hbalances, hnonces, hregistry, hchallenges, hbonds⟩
  · intro h
    exact ⟨⟨plainText_of_all rfl, h.balances⟩, ⟨plainText_of_all rfl, h.bonds⟩, ⟨plainText_of_all rfl, h.challenges⟩,
      plainText_of_all rfl, plainText_of_all rfl, ⟨plainText_of_all rfl, h.nonces⟩, ⟨plainText_of_all rfl, h.registry⟩,
        List.forall_mem_nil _⟩

/-! ## What the steps keep -/

theorem plainText_hex (b : List UInt8) : PlainText (hex_encode b) := by
  have hdigit : ∀ k : Nat, (Char.ofUInt8 (hex_digit (k % 16))).toNat < 127 := by
    have : ∀ k : Fin 16, (Char.ofUInt8 (hex_digit k.val)).toNat < 127 := by decide
    exact fun k => this ⟨k % 16, Nat.mod_lt _ (by decide)⟩
  intro c hc
  rw [hex_encode, String.toList_ofList] at hc
  obtain ⟨x, -, hx⟩ := List.mem_flatMap.mp hc
  have hlt : x.toNat < 256 := x.toNat_lt
  simp only [List.mem_cons, List.not_mem_nil, or_false] at hx
  rcases hx with rfl | rfl
  · rw [← Nat.mod_eq_of_lt (show x.toNat / 16 < 16 by omega)]
    exact hdigit _
  · exact hdigit _

namespace PlainLedger

variable {led led' : TokenLedger}

theorem credit (h : PlainLedger led) {addr : String} (ha : PlainText addr) (amount : UInt64) :
    PlainLedger (led.credit addr amount) := by
  unfold TokenLedger.credit
  split
  · exact { h with balances := h.balances.insert ha trivial }
  · exact h

theorem debit (h : PlainLedger led) {addr : String} (ha : PlainText addr) (amount : UInt64) :
    PlainLedger (led.debit addr amount) :=
  { h with balances := h.balances.insert ha trivial }

theorem bump_nonce (h : PlainLedger led) {addr : String} (ha : PlainText addr) (nonce : UInt64) :
    PlainLedger (led.bump_nonce addr nonce) :=
  { h with nonces := h.nonces.insert ha trivial }

theorem credit_all (h : PlainLedger led) {pays : List (String × UInt64)} (hp : ∀ p ∈ pays, PlainText p.1) :
    PlainLedger (led.credit_all pays) := by
  unfold TokenLedger.credit_all
  induction pays generalizing led with
  | nil => exact h
  | cons p pays ih =>
    obtain ⟨hp, hpays⟩ := List.forall_mem_cons.mp hp
    exact ih (h.credit hp p.2) hpays

/-- The texts of an entry stay when its sketch changes. -/
theorem with_registry (h : PlainLedger led) {r : Dict RegistryEntry} (hr : SameBare led.registry r) :
    PlainLedger { led with registry := r } := by
  refine { h with registry := fun k e he => ?_ }
  have hsame := hr k
  rw [show r[k]? = some e from he] at hsame
  obtain ⟨e₀, he₀, hbare⟩ := Option.map_eq_some_iff.mp hsame.symm
  obtain ⟨hk, hentry⟩ := h.registry k e₀ he₀
  unfold bare at hbare
  cases e₀
  cases e
  cases hbare
  exact ⟨hk, ⟨hentry.owner, hentry.data_hash, hentry.media_type, hentry.da_root⟩⟩

/-- Whoever a challenge pays is named in the ledger. -/
theorem resolve_challenge (h : PlainLedger led) {c : String × Challenge} (hc : PlainChallenge c.2) (height : UInt64) :
    PlainLedger (led.resolve_challenge height c) := by
  unfold TokenLedger.resolve_challenge
  split
  · exact h
  have hsettle : PlainLedger (led.settle_challenge c.2) := by
    unfold TokenLedger.settle_challenge
    split
    · exact h
    rename_i entry hget
    obtain ⟨hk, hentry⟩ := h.registry _ _ hget
    split
    · refine PlainLedger.credit ?_ hc.challenger _
      exact { h with registry := h.registry.insert hk ⟨hentry.owner, hentry.data_hash, hentry.media_type, hentry.da_root⟩ }
    · exact h.credit hentry.owner _
  exact { hsettle with challenges := hsettle.challenges.erase c.1 }

theorem resolve_expired_challenges (h : PlainLedger led) (height : UInt64) :
    PlainLedger (led.resolve_expired_challenges height) := by
  unfold TokenLedger.resolve_expired_challenges
  have hall : ∀ c ∈ led.challenges.toList, PlainChallenge c.2 := fun c hc =>
    (h.challenges c.1 c.2 (Std.ExtTreeMap.mem_toList_iff_getElem?_eq_some.mp hc)).2
  generalize led.challenges.toList = cs at hall
  induction cs generalizing led with
  | nil => exact h
  | cons c cs ih =>
    obtain ⟨hc, hcs⟩ := List.forall_mem_cons.mp hall
    exact ih (h.resolve_challenge hc height) hcs

theorem resolve_expired_bonds (h : PlainLedger led) (height : UInt64) : PlainLedger (led.resolve_expired_bonds height) := by
  unfold TokenLedger.resolve_expired_bonds
  have hall : ∀ b ∈ led.bonds.toList, PlainText b.2.miner := fun b hb =>
    (h.bonds b.1 b.2 (Std.ExtTreeMap.mem_toList_iff_getElem?_eq_some.mp hb)).2
  generalize led.bonds.toList = bs at hall
  induction bs generalizing led with
  | nil => exact h
  | cons b bs ih =>
    obtain ⟨hb, hbs⟩ := List.forall_mem_cons.mp hall
    refine ih ?_ hbs
    unfold return_bond
    split
    · exact { h.credit hb b.2.amount with bonds := h.bonds.erase b.1 }
    · exact h

variable [Crypto]

theorem plainText_address (pub_hex : String) : PlainText (address pub_hex) := plainText_hex _

theorem pay_miners (h : PlainLedger led) (pool : UInt64) (miner_pubs : List String) (miner_weights : Dict UInt64) :
    PlainLedger (led.pay_miners pool miner_pubs miner_weights) := by
  unfold TokenLedger.pay_miners
  split
  · exact h
  · refine PlainLedger.credit_all ?_ fun p hp => ?_
    · exact { h with }
    unfold miner_pays weighted_shares equal_shares at hp
    simp only at hp
    split at hp
    · simp only [List.map_map, List.mem_map] at hp
      obtain ⟨w, -, rfl⟩ := hp
      exact plainText_address w.1
    · simp only [List.map_map, List.mem_map] at hp
      obtain ⟨w, -, rfl⟩ := hp
      exact plainText_address w

omit [Crypto] in
theorem hash_to_owner (h : PlainLedger led) {k owner : String} (ho : led.hash_to_owner[k]? = some owner) :
    PlainText owner := by
  have hfold (es : List (String × RegistryEntry)) (hes : ∀ e ∈ es, PlainEntry e.2) (m : Dict String)
      (hm : ∀ k o, m[(k : String)]? = some o → PlainText o) :
      ∀ k o, (es.foldl (fun m e => if e.2.status = .active then m.insert e.2.data_hash e.2.owner else m) m)[(k : String)]? =
        some o → PlainText o := by
    induction es generalizing m with
    | nil => exact hm
    | cons e es ih =>
      obtain ⟨he, hes⟩ := List.forall_mem_cons.mp hes
      refine ih hes _ fun k o hget => ?_
      beta_reduce at hget
      split at hget
      · rw [SumMap.get_insert] at hget
        split at hget
        · rw [← Option.some.inj hget]
          exact he.owner
        · exact hm k o hget
      · exact hm k o hget
  refine hfold _ (fun e he => ?_) ∅ (fun k o hget => by simp at hget) k owner ho
  exact (h.registry e.1 e.2 (Std.ExtTreeMap.mem_toList_iff_getElem?_eq_some.mp he)).2

omit [Crypto] in
theorem pay_data (h : PlainLedger led) (pool : UInt64) {legacy : List String} (hl : ∀ a ∈ legacy, PlainText a)
    (data_credits : Dict UInt64) : PlainLedger (led.pay_data pool legacy data_credits) := by
  unfold TokenLedger.pay_data
  simp only
  split
  · refine PlainLedger.credit_all ?_ fun p hp => ?_
    · exact { h with }
    simp only [weighted_shares, List.map_map, List.mem_map] at hp
    obtain ⟨c, -, rfl⟩ := hp
    simp only [Function.comp_apply]
    cases ho : led.hash_to_owner[c.1]? with
    | none => exact plainText_of_all rfl
    | some owner => exact h.hash_to_owner ho
  · split
    · refine h.credit_all fun p hp => ?_
      simp only [equal_shares, List.mem_map] at hp
      obtain ⟨a, ha, rfl⟩ := hp
      exact hl a (List.mem_insertionSort _ |>.mp ha)
    · exact h

theorem reward_block (h : PlainLedger led) (b : Block) {dc : Option String} (hdc : ∀ a ∈ dc, PlainText a) :
    PlainLedger (reward_block led b dc) := by
  have hproposer {led : TokenLedger} (h : PlainLedger led) (pub : String) (cut : UInt64) :
      PlainLedger (led.pay_proposer pub cut) := by
    unfold TokenLedger.pay_proposer
    split
    · exact h.credit (plainText_address pub) cut
    · exact h
  have hacc := h.with_registry (sameBare_accrue led b)
  unfold Sestrian.reward_block TokenLedger.apply_reward
  simp only
  split
  · exact hacc
  · exact (hproposer (hacc.pay_miners _ _ _) _ _).pay_data _ (fun a ha => hdc a (Option.mem_toList.mp ha)) _

theorem lock_bonds (h : PlainLedger led) {txs : List BackpropTx} {height : UInt64}
    (hl : txs.foldlM (lock_tx_bond height) led = .ok led') : PlainLedger led' := by
  induction txs generalizing led with
  | nil =>
    rw [List.foldlM_nil, pure_eq_ok] at hl
    rw [← hl]
    exact h
  | cons tx txs ih =>
    rw [List.foldlM_cons, bind_eq_ok] at hl
    obtain ⟨mid, hmid, hl⟩ := hl
    refine ih ?_ hl
    rcases lock_tx_bond_spec hmid with ⟨-, rfl⟩ | ⟨-, -, rfl⟩
    · exact h
    · have hminer := plainText_address tx.miner
      exact { h.debit hminer tx.bond with bonds := h.bonds.insert (plainText_hex _) hminer }

theorem apply_transfer (h : PlainLedger led) {t : TransferTx} (ht : PlainText t.to_addr) :
    PlainLedger (led.apply_transfer t).2 := by
  unfold TokenLedger.apply_transfer
  split
  · exact h
  simp only
  split
  · exact h
  · have hsrc := plainText_address t.from_pub
    exact ((h.debit hsrc _).credit ht _).bump_nonce hsrc _

theorem apply_submit (h : PlainLedger led) {src : String} (hs : PlainText src) (tx : AccountTx) {t : DataSubmitTx}
    (hhash : PlainText t.data_hash) (htype : PlainText t.media_type) : PlainLedger (led.apply_submit src tx.txid t).2 := by
  unfold TokenLedger.apply_submit
  split
  · exact h
  split
  · exact h
  rename_i hroot
  split
  · exact h
  have hda : PlainText t.da_root := by
    simp only [Bool.not_eq_true', Bool.not_eq_false, well_formed_root, Bool.and_eq_true, List.all_eq_true] at hroot
    intro c hc
    have hdigit := hroot.2 c hc
    rw [decide_eq_true_eq] at hdigit
    rcases hdigit with ⟨-, hle⟩ | ⟨-, hle⟩
    · exact lt_of_le_of_lt (Char.le_def.mp hle) (by decide)
    · exact lt_of_le_of_lt (Char.le_def.mp hle) (by decide)
  refine { h.debit hs t.stake with registry := h.registry.insert (plainText_hex _) ⟨hs, hhash, htype, fun r hr => ?_⟩ }
  obtain rfl := Option.some.inj hr
  exact hda

theorem apply_challenge (h : PlainLedger led) {src : String} (hs : PlainText src) (tx : AccountTx) {t : DataChallengeTx}
    (hreason : PlainText t.reason) (height : UInt64) : PlainLedger (led.apply_challenge src tx.txid t height).2 := by
  unfold TokenLedger.apply_challenge
  simp only
  split
  · exact h
  rename_i hok
  have hid : PlainText t.data_id := by
    simp only [not_or, Bool.not_eq_true', Bool.not_eq_false, decide_eq_true_eq] at hok
    obtain ⟨e, he, -⟩ := Option.map_eq_some_iff.mp hok.1
    exact (h.registry _ _ he).1
  exact { h.debit hs t.stake with
    challenges := h.challenges.insert (plainText_hex _) ⟨hid, hs, hreason, nofun, nofun⟩ }

omit [Crypto] in
theorem apply_vote (h : PlainLedger led) {src : String} (hs : PlainText src) (t : DataVoteTx) (jurors : StrSet) :
    PlainLedger (led.apply_vote src t jurors).2 := by
  unfold TokenLedger.apply_vote
  split
  · exact h
  split
  · exact h
  rename_i ch hget
  obtain ⟨hk, hch⟩ := h.challenges _ _ hget
  split
  · exact h
  split
  · exact h
  · have hvote {votes : List String} (hv : ∀ v ∈ votes, PlainText v) :
        ∀ v ∈ (votes ++ [src]).insertionSort (· ≤ ·), PlainText v := by
      intro v hmem
      rw [List.mem_insertionSort, List.mem_append, List.mem_singleton] at hmem
      rcases hmem with hmem | rfl
      · exact hv v hmem
      · exact hs
    refine { h with challenges := h.challenges.insert hk ?_ }
    unfold Challenge.vote
    split
    · exact { hch with votes_for := hvote hch.votes_for }
    · exact { hch with votes_against := hvote hch.votes_against }

omit [Crypto] in
theorem aligns (h : PlainLedger led) (ans : List Int64) : ∀ a ∈ (led.aligns ans).toList, PlainText a.1 := by
  have hfold (es : List (String × RegistryEntry)) (hes : ∀ e ∈ es, PlainEntry e.2) (m : Dict Int)
      (hm : PlainDict (fun _ => True) m) : PlainDict (fun _ => True) (es.foldl (fun m e => align_entry ans m e.2) m) := by
    induction es generalizing m with
    | nil => exact hm
    | cons e es ih =>
      obtain ⟨he, hes⟩ := List.forall_mem_cons.mp hes
      refine ih hes _ ?_
      beta_reduce
      unfold align_entry
      split
      · split
        · exact hm.insert he.owner trivial
        · exact hm
      · exact hm
  intro a ha
  refine (hfold _ (fun e he => ?_) ∅ plainDict_empty a.1 a.2 (Std.ExtTreeMap.mem_toList_iff_getElem?_eq_some.mp ha)).1
  exact (h.registry e.1 e.2 (Std.ExtTreeMap.mem_toList_iff_getElem?_eq_some.mp he)).2

omit [Crypto] in
theorem pay_data_cut (h : PlainLedger led) (ans : List Int64) (cut : UInt64) : PlainLedger (led.pay_data_cut ans cut) := by
  unfold TokenLedger.pay_data_cut
  simp only
  split
  · refine h.credit_all fun p hp => ?_
    obtain ⟨a, ha, rfl⟩ := List.mem_map.mp hp
    exact h.aligns ans a ha
  · exact { h with }

omit [Crypto] in
theorem apply_receipt (h : PlainLedger led) {src : String} (hs : PlainText src) {t : InferenceReceiptTx}
    (ht : PlainText t.server_addr) : PlainLedger (led.apply_receipt src t).2 := by
  unfold TokenLedger.apply_receipt
  split
  · exact h
  simp only
  have hpaid : PlainLedger ((led.debit src t.fee).credit t.server_addr (t.fee - fee_data_cut t.fee - fee_train_cut t.fee)) :=
    (h.debit hs _).credit ht _
  refine PlainLedger.pay_data_cut ?_ _ _
  exact { hpaid with }

end PlainLedger

section Runs

variable [Crypto]

/-- The texts that a sender writes into the ledger are plain. -/
def PlainTx : AccountTx → Prop
  | .Transfer t => PlainText t.to_addr
  | .DataSubmit t => PlainText t.data_hash ∧ PlainText t.media_type
  | .DataChallenge t => PlainText t.reason
  | .DataVote _ => True
  | .InferenceReceipt t => PlainText t.server_addr

def PlainBlock (b : Block) : Prop := ∀ tx ∈ account_txs b, PlainTx tx

variable {led led' : TokenLedger}

theorem PlainLedger.apply_data_kind (h : PlainLedger led) {tx : AccountTx} (htx : PlainTx tx) (height : UInt64)
    (jurors : StrSet) : PlainLedger (led.apply_data_kind (address tx.sender_pub) tx height jurors).2 := by
  have hsrc := plainText_address tx.sender_pub
  cases tx with
  | Transfer t => exact h
  | DataSubmit t => exact h.apply_submit hsrc _ htx.1 htx.2
  | DataChallenge t => exact h.apply_challenge hsrc _ htx height
  | DataVote t => exact h.apply_vote hsrc t jurors
  | InferenceReceipt t => exact h.apply_receipt hsrc htx

theorem PlainLedger.apply_data_tx (h : PlainLedger led) {tx : AccountTx} (htx : PlainTx tx) (height : UInt64)
    (jurors : StrSet) : PlainLedger (led.apply_data_tx tx height jurors).2 := by
  unfold TokenLedger.apply_data_tx
  split
  · exact h
  simp only
  split
  · exact h
  have hkind := h.apply_data_kind htx height jurors
  split
  · rename_i mid heq
    rw [heq] at hkind
    exact hkind.bump_nonce (plainText_address _) _
  · rename_i mid heq
    rw [heq] at hkind
    exact hkind

theorem PlainLedger.apply_account_tx (h : PlainLedger led) {tx : AccountTx} (htx : PlainTx tx) {height : UInt64}
    {jurors : StrSet} (ha : apply_account_tx height jurors led tx = .ok led') : PlainLedger led' := by
  simp only [Sestrian.apply_account_tx, bind_eq_ok, require_eq_ok, pure_eq_ok, exists_unit] at ha
  rw [← ha.2]
  cases tx with
  | Transfer t => exact h.apply_transfer htx
  | DataSubmit t => exact h.apply_data_tx htx height jurors
  | DataChallenge t => exact h.apply_data_tx htx height jurors
  | DataVote t => exact h.apply_data_tx htx height jurors
  | InferenceReceipt t => exact h.apply_data_tx htx height jurors

theorem PlainLedger.token_transition (h : PlainLedger led) {b : Block} (hb : PlainBlock b) {dc : Option String}
    (hdc : ∀ a ∈ dc, PlainText a) {jurors : StrSet} (ht : token_transition led b dc jurors = .ok led') :
    PlainLedger led' := by
  simp only [Sestrian.token_transition, bind_eq_ok] at ht
  obtain ⟨-, -, mid, hmid, ht⟩ := ht
  have hrewarded := ((h.resolve_expired_challenges b.header.height).resolve_expired_bonds b.header.height).reward_block b hdc
  have hlocked := hrewarded.lock_bonds hmid
  have hstep : ∀ (_ : List AccountTx) (led : TokenLedger) (tx : AccountTx) (led' : TokenLedger), tx ∈ account_txs b →
      PlainLedger led → Sestrian.apply_account_tx b.header.height jurors led tx = .ok led' → PlainLedger led' :=
    fun _ _ tx _ htx hled hone => hled.apply_account_tx (hb tx htx) hone
  exact @apply_in_turn _ _ _ _ _ (fun _ led => PlainLedger led) _ hstep [] hlocked ht

/-! ## Over a run -/

omit [Crypto] in
theorem plainLedger_genesis {dc : Option String} (hdc : ∀ a ∈ dc, PlainText a) : PlainLedger (genesis_ledger dc) := by
  have hnew : PlainLedger TokenLedger.new :=
    ⟨plainDict_empty, plainDict_empty, plainDict_empty, plainDict_empty, plainDict_empty⟩
  cases dc with
  | none => exact hnew
  | some a =>
    refine { hnew with registry := plainDict_empty.insert (plainText_of_all rfl) ⟨hdc a rfl, ?_, ?_, nofun⟩ }
    · exact show PlainText "genesis" from plainText_of_all rfl
    · exact show PlainText "text" from plainText_of_all rfl

theorem Booked.plain {chain : List Block} {dc : Option String} (h : Booked dc chain led) (hdc : ∀ a ∈ dc, PlainText a)
    (hchain : ∀ b ∈ chain, PlainBlock b) : PlainLedger led := by
  induction h with
  | genesis => exact plainLedger_genesis hdc
  | block _ hb ih =>
    rw [List.forall_mem_append] at hchain
    exact (ih hchain.1).token_transition (hchain.2 _ (List.mem_singleton_self _)) hdc hb

def RootBytesAgree (led : TokenLedger) : Prop := rig.root_bytes led = (state_json led).compact

omit [Crypto] in
theorem rootBytesAgree_iff (led : TokenLedger) : RootBytesAgree led ↔ PlainLedger led :=
  (root_bytes_iff led).trans (plainJson_state led)

/-- In every run, on the chain of every block: the bytes under the ledger's root are the same in both languages if and
only if no text in the ledger has a character past `~`; and they are the same as long as no transaction of the chain
brings in such a text. -/
theorem root_bytes_agree_iff {genesis_w : List Int64} {params : GenesisParams}
    (hw : genesis_w.length = (ModelState.genesis params.spec).dim) (dc : Option String) (ops : List Op)
    {h : String} {led : TokenLedger} {chain : List Block}
    (hled : ((Logged.new genesis_w dc params).run ops).tree.ledger[h]? = some led)
    (hch : Chain ((Logged.new genesis_w dc params).run ops).log
      ((Logged.new genesis_w dc params).run ops).tree.genesis_hash h chain) :
    (RootBytesAgree led ↔ PlainLedger led) ∧
      ((∀ a ∈ dc, PlainText a) → (∀ b ∈ chain, PlainBlock b) → RootBytesAgree led) := by
  refine ⟨rootBytesAgree_iff led, fun hdc hchain => (rootBytesAgree_iff led).mpr ?_⟩
  exact (run_books hw dc ops hled hch).plain hdc hchain

end Runs

open Toy

theorem Toy.market_plain : ∀ b ∈ [opening_trade, voting_trade], PlainBlock b := by
  have hmem (b : Block) (tx : AccountTx) : tx ∈ account_txs b ↔ tx ∈ b.data_txs ++ b.transfers.map .Transfer :=
    (List.perm_insertionSort _ _).mem_iff
  have hpay (pk pk' : ByteArr 32) (nonce : UInt64) : PlainTx (.Transfer (payment pk pk' nonce)) := PlainLedger.plainText_address _
  have htexts : PlainText "corpus" ∧ PlainText "text" ∧ PlainText "copied" := by
    unfold PlainText
    simp
  intro b hb tx htx
  rw [hmem] at htx
  rcases List.mem_cons.mp hb with rfl | hb
  · have htxs : opening_trade.data_txs ++ opening_trade.transfers.map .Transfer =
        [corpus, challenge, .Transfer (payment (key 4) (key 3) 0), .Transfer (payment (key 4) (key 2) 1)] := rfl
    simp only [htxs, List.mem_cons, List.not_mem_nil, or_false] at htx
    rcases htx with rfl | rfl | rfl | rfl
    · exact ⟨htexts.1, htexts.2.1⟩
    · exact htexts.2.2
    · exact hpay _ _ _
    · exact hpay _ _ _
  · obtain rfl := List.mem_singleton.mp hb
    have htxs : voting_trade.data_txs ++ voting_trade.transfers.map .Transfer = [vote] := rfl
    rw [htxs, List.mem_singleton] at htx
    subst htx
    trivial

theorem root_bytes_agree_market : RootBytesAgree traded_ledger ∧ PlainLedger traded_ledger := by
  have h := root_bytes_agree_iff (by decide) none [.add_block opening_trade, .add_block voting_trade] market_ledger
    market_chain
  have hagree := h.2 (fun a ha => absurd ha (by simp)) market_plain
  exact ⟨hagree, h.1.mp hagree⟩

namespace Toy

def letter_unsigned (pk : ByteArr 32) : TransferTx :=
  { from_pub := hex_encode pk.val, to_addr := "é", amount := 1, nonce := 0, sig := [] }

def letter (pk : ByteArr 32) : TransferTx :=
  { letter_unsigned pk with sig := (sign pk (AccountTx.Transfer (letter_unsigned pk)).signing_bytes).val }

/-- Block 1 by the owner of one key, who pays a name that is not in ASCII. -/
def letter_draft (pk : ByteArr 32) : Block :=
  let prev_hash := (genesis_header [5] params).block_hash
  let proof := vrf_prove pk prev_hash 1 lottery.ATTEMPT_MAX
  let d := draft_block 1 (expected_version_at 1 params) prev_hash (hex_encode pk.val) (hex_encode proof)
    lottery.ATTEMPT_MAX (lottery.attempt_work proof lottery.ATTEMPT_MAX)
  { d with transfers := [letter pk], header := { d.header with transfer_root := transfer_root [letter pk] } }

def letter_block : Block := seal_full TokenLedger.new [5] (ModelState.genesis spec) params none ∅ (letter_draft (key 4))

theorem letter_transition : (token_transition TokenLedger.new (letter_draft (key 4)) none ∅).toOption.map
    (fun led => led.balances["é"]?) = some (some 1) := by
  decide +kernel

theorem letter_header (pk : ByteArr 32) (led : TokenLedger) : check_header (letter_draft pk) 0 led params = .ok () := by
  simp only [check_header, bind_eq_ok, require_eq_ok, exists_unit]
  exact ⟨rfl, rfl, rfl, lottery_last _ pk (hex_decode_encode pk.val) (hex_ne_genesis pk.val) rfl rfl rfl⟩

theorem letter_sets (pk : ByteArr 32) : check_sets (letter_draft pk) = .ok () := by
  have hkeys {ν : Type} : (∅ : Dict ν).keys = [] := Std.ExtTreeMap.keys_eq_nil_iff.mpr rfl
  have hvals {ν : Type} : (∅ : Dict ν).values = [] := rfl
  have htxs : (letter_draft pk).txs = [] := rfl
  simp [check_sets, htxs, show (letter_draft pk).scores = ∅ from rfl, show (letter_draft pk).sketches = ∅ from rfl,
    hkeys, hvals]
  exact ⟨rfl, rfl, rfl⟩

theorem letter_accepted {led : TokenLedger} (hled : token_transition TokenLedger.new (letter_draft (key 4)) none ∅ = .ok led) :
    ∃ v, v.ledger = led ∧ validate_inner letter_block (some [5]) 0 TokenLedger.new none ∅ (ModelState.genesis spec) params =
      .ok v :=
  seal_full_accepted (letter_header _ _) (fun _ htx => absurd htx List.not_mem_nil) (letter_sets _) rfl rfl hled

end Toy

/-- The block is accepted, and the two roots of its ledger are hashed from different bytes. -/
theorem root_bytes_differ : ∃ v,
    validate_inner Toy.letter_block (some [5]) 0 (genesis_ledger none) none ∅ (ModelState.genesis Toy.spec) Toy.params = .ok v ∧
      Booked none [Toy.letter_block] v.ledger ∧ rig.root_bytes v.ledger ≠ (state_json v.ledger).compact := by
  have hrun := Toy.letter_transition
  cases hled : token_transition TokenLedger.new (Toy.letter_draft (Toy.key 4)) none ∅ with
  | error e =>
    rw [hled] at hrun
    cases hrun
  | ok led =>
    rw [hled] at hrun
    obtain ⟨v, rfl, hv⟩ := Toy.letter_accepted hled
    simp only [Except.toOption, Option.map_some, Option.some.injEq] at hrun
    refine ⟨v, hv, .block .genesis hled, fun hsame => ?_⟩
    have hplain := ((rootBytesAgree_iff v.ledger).mp hsame).balances "é" 1 hrun
    exact absurd (hplain.1 'é' (by decide)) (by decide)

end Sestrian
