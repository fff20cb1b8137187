import Sestrian.Ledger.Market
import Sestrian.Ledger.Nonces

/-!
# Entries and escrow along a chain

An entry keeps its stake until a challenge against it is upheld. The stake of a challenge is held
while the challenge is open, and the sweep that closes it pays it out.
-/

open Check

namespace Sestrian

open BlockTree TokenLedger

section Any

variable [Crypto]

/-! ## Entries -/

/-- A challenge that expired on the chain with enough votes ended the entry. -/
def EndedBy (dc : Option String) (chain : List Block) (k : String) : Prop :=
  ∃ (before : List Block) (b : Block) (after : List Block) (led : TokenLedger) (cid : String) (ch : Challenge),
    chain = before ++ b :: after ∧ Booked dc before led ∧ led.challenges[cid]? = some ch ∧ ch.data_id = k ∧
    ch.expiry ≤ b.header.height ∧ CHALLENGE_QUORUM ≤ ch.votes_for.length ∧
    ch.votes_against.length < ch.votes_for.length

/-- The entry holds what its owner put up for it. -/
def Staked (dc : Option String) (txs : List AccountTx) (k : String) (e : RegistryEntry) : Prop :=
  (k = "genesis" ∧ e.stake = 0 ∧ dc = some e.owner) ∨
    ∃ t, AccountTx.DataSubmit t ∈ txs ∧ (AccountTx.DataSubmit t).txid = k ∧ e.stake = t.stake ∧
      e.owner = address t.owner_pub

/-- An entry is active with its stake, or was ended by a challenge. -/
def Accounted (dc : Option String) (chain : List Block) (txs : List AccountTx) (k : String) (e : RegistryEntry) : Prop :=
  (e.status = .active ∧ Staked dc txs k e) ∨ (e.status = .revoked ∧ e.stake = 0 ∧ EndedBy dc chain k)

structure Entries (dc : Option String) (chain : List Block) (txs : List AccountTx) (led : TokenLedger) : Prop where
  accounted : ∀ (k : String) (e : RegistryEntry), led.registry[k]? = some e → Accounted dc chain txs k e
  kept : ∀ t, AccountTx.DataSubmit t ∈ txs → (AccountTx.DataSubmit t).txid ∈ led.registry

variable {dc : Option String} {chain : List Block} {txs : List AccountTx} {led led' : TokenLedger}

theorem EndedBy.extend {k : String} (h : EndedBy dc chain k) (b : Block) : EndedBy dc (chain ++ [b]) k := by
  obtain ⟨before, x, after, led, cid, ch, rfl, h⟩ := h
  exact ⟨before, x, after ++ [b], led, cid, ch, by simp, h⟩

theorem Accounted.extend {k : String} {e : RegistryEntry} (h : Accounted dc chain txs k e) (b : Block) :
    Accounted dc (chain ++ [b]) txs k e :=
  h.imp_right fun ⟨hs, hz, hend⟩ => ⟨hs, hz, hend.extend b⟩

theorem Accounted.more {k : String} {e : RegistryEntry} (h : Accounted dc chain txs k e) (tx : AccountTx) :
    Accounted dc chain (txs ++ [tx]) k e := by
  refine h.imp_left fun ⟨hs, hst⟩ => ⟨hs, hst.imp_right ?_⟩
  rintro ⟨t, ht, h⟩
  exact ⟨t, List.mem_append_left _ ht, h⟩

theorem Accounted.of_bare {k : String} {e e' : RegistryEntry} (h : Accounted dc chain txs k e) (hb : bare e' = bare e) :
    Accounted dc chain txs k e' := by
  have hstatus : e'.status = e.status := show (bare e').status = (bare e).status by rw [hb]
  have hstake : e'.stake = e.stake := show (bare e').stake = (bare e).stake by rw [hb]
  have howner : e'.owner = e.owner := show (bare e').owner = (bare e).owner by rw [hb]
  unfold Accounted Staked at *
  rw [hstatus, hstake, howner]
  exact h

omit [Crypto] in
theorem of_sameBare {r r' : Dict RegistryEntry} (h : SameBare r r') {k : String} {e' : RegistryEntry} (hget : r'[k]? = some e') :
    ∃ e, r[k]? = some e ∧ bare e' = bare e := by
  have hk := h k
  rw [hget, Option.map_some] at hk
  cases hr : r[k]? with
  | none =>
    rw [hr] at hk
    cases hk
  | some e =>
    rw [hr, Option.map_some] at hk
    exact ⟨e, rfl, Option.some.inj hk⟩

omit [Crypto] in
theorem mem_of_sameBare {r r' : Dict RegistryEntry} (h : SameBare r r') {k : String} : k ∈ r' ↔ k ∈ r := by
  have hk := congrArg Option.isSome (h k)
  rw [Option.isSome_map, Option.isSome_map] at hk
  rw [Std.ExtTreeMap.mem_iff_isSome_getElem?, Std.ExtTreeMap.mem_iff_isSome_getElem?, hk]

omit [Crypto] in
theorem mem_swept_registry (led : TokenLedger) (height : UInt64) (k : String) :
    k ∈ (led.resolve_expired_challenges height).registry ↔ k ∈ led.registry := by
  rw [Std.ExtTreeMap.mem_iff_isSome_getElem?, Std.ExtTreeMap.mem_iff_isSome_getElem?, resolve_expired_challenges,
    sweep_registry]
  split
  · rw [Option.isSome_map]
  · rfl

theorem Entries.sweep (h : Entries dc chain txs led) (hb : Booked dc chain led) {mid : TokenLedger} {b : Block}
    (hr : SameBare (led.resolve_expired_challenges b.header.height).registry mid.registry) :
    Entries dc (chain ++ [b]) txs mid := by
  refine ⟨fun k e' hget => ?_, fun t ht => ?_⟩
  · obtain ⟨e, he, hbare⟩ := of_sameBare hr hget
    refine Accounted.of_bare ?_ hbare
    rw [resolve_expired_challenges, sweep_registry] at he
    split at he
    · rename_i hend
      obtain ⟨c, hc, hcond⟩ := List.any_eq_true.mp hend
      simp only [Bool.and_eq_true, decide_eq_true_eq] at hcond
      obtain ⟨⟨hid, hup⟩, hexp⟩ := hcond
      simp only [Challenge.upheld, Bool.and_eq_true, decide_eq_true_eq] at hup
      have hcget := Std.ExtTreeMap.mem_toList_iff_getElem?_eq_some.mp hc
      obtain ⟨e₀, -, rfl⟩ := Option.map_eq_some_iff.mp he
      exact .inr ⟨rfl, rfl, chain, b, [], led, c.1, c.2, rfl, hb, hcget, hid, by simpa [is_expired] using hexp, hup⟩
    · exact (h.accounted k e he).extend b
  · rw [mem_of_sameBare hr, mem_swept_registry]
    exact h.kept t ht

theorem Entries.apply {height : UInt64} {jurors : StrSet} {tx : AccountTx} (h : Entries dc chain txs led)
    (ha : apply_account_tx height jurors led tx = .ok led') : Entries dc chain (txs ++ [tx]) led' := by
  obtain ⟨-, -, -, heff⟩ := apply_account_tx_cases ha
  have hsame (hr : led'.registry = led.registry) (hno : ∀ t, tx ≠ .DataSubmit t) :
      Entries dc chain (txs ++ [tx]) led' := by
    refine ⟨fun k e hget => ?_, fun t ht => ?_⟩
    · rw [hr] at hget
      exact (h.accounted k e hget).more tx
    · rw [hr]
      rcases List.mem_append.mp ht with ht | ht
      · exact h.kept t ht
      · exact absurd (List.mem_singleton.mp ht).symm (hno t)
  cases heff with
  | transfer hr _ => exact hsame hr fun t => AccountTx.noConfusion
  | receipt hr _ => exact hsame hr fun t => AccountTx.noConfusion
  | challenge _ _ hr _ => exact hsame hr fun t => AccountTx.noConfusion
  | vote _ _ _ _ _ _ hr _ => exact hsame hr fun t => AccountTx.noConfusion
  | @submit t _ _ hr _ =>
    refine ⟨fun k e hget => ?_, fun u hu => ?_⟩
    · rw [hr, SumMap.get_insert] at hget
      split at hget
      · rename_i hk
        obtain rfl := Option.some.inj hget
        exact .inl ⟨rfl, .inr ⟨t, List.mem_append_right _ List.mem_cons_self, hk, rfl, rfl⟩⟩
      · exact (h.accounted k e hget).more _
    · rw [hr, mem_insert_iff]
      rcases List.mem_append.mp hu with hu | hu
      · exact .inr (h.kept u hu)
      · exact .inl (by rw [List.mem_singleton.mp hu])

theorem Booked.entries (h : Booked dc chain led) : Entries dc chain (applied chain) led := by
  induction h with
  | genesis =>
    refine ⟨fun k e hget => ?_, fun t ht => absurd ht List.not_mem_nil⟩
    cases dc with
    | none => simp [genesis_ledger, TokenLedger.new] at hget
    | some dc =>
      simp only [genesis_ledger, seed_genesis_data, SumMap.get_insert] at hget
      split at hget
      · rename_i hk
        obtain rfl := Option.some.inj hget
        exact .inl ⟨rfl, .inl ⟨hk.symm, rfl, rfl⟩⟩
      · simp [TokenLedger.new] at hget
  | @block chain led led' b hb hstep ih =>
    obtain ⟨mid, -, -, hr, hfold⟩ := token_transition_cases hstep
    rw [applied, List.flatMap_append, List.flatMap_singleton]
    exact apply_in_turn (fun txs led tx led' _ h ha => h.apply ha) (ih.sweep hb hr) hfold

/-! ## Escrow -/

/-- The stake of a challenge. -/
structure Escrow where
  cid : String
  data_id : String
  challenger : String
  stake : UInt64

def escrow_of (c : String × Challenge) : Escrow := ⟨c.1, c.2.data_id, c.2.challenger, c.2.stake⟩

/-- What the applied transactions put into escrow. -/
def escrowed (txs : List AccountTx) : List Escrow :=
  txs.filterMap fun
    | tx@(.DataChallenge t) => some ⟨tx.txid, t.data_id, address t.challenger_pub, t.stake⟩
    | _ => none

/-- What the ledger still holds. -/
def in_escrow (led : TokenLedger) : List Escrow := led.challenges.toList.map escrow_of

structure Settlement where
  escrow : Escrow
  receiver : String
  amount : UInt64

/-- What the sweep at a height pays out. -/
def settlements (led : TokenLedger) (height : UInt64) : List Settlement :=
  (led.challenges.toList.filter (is_expired height)).filterMap fun c =>
    (payout led.registry c.2).map fun p => ⟨escrow_of c, p.1, p.2⟩

/-- A chain of accepted blocks, the ledger after it, and what its sweeps paid out. -/
inductive Audited (dc : Option String) : List Block → TokenLedger → List Settlement → Prop where
  | genesis : Audited dc [] (genesis_ledger dc) []
  | block {chain : List Block} {led led' : TokenLedger} {pays : List Settlement} {b : Block} :
      Audited dc chain led pays → token_transition led b dc (jurors_of chain) = .ok led' →
      Audited dc (chain ++ [b]) led' (pays ++ settlements led b.header.height)

structure Balanced (txs : List AccountTx) (pays : List Settlement) (led : TokenLedger) : Prop where
  verified : ∀ t ∈ txs, t.verify
  keys : ∀ k ∈ led.registry, (as_bytes k).length < 2 ^ 32
  perm : (escrowed txs).Perm (pays.map (·.escrow) ++ in_escrow led)

/-- Every challenge that the sweep closes has its payout. -/
theorem Market.settlements_escrow (h : Market chain led) (height : UInt64) :
    (settlements led height).map (·.escrow) = (led.challenges.toList.filter (is_expired height)).map escrow_of := by
  unfold settlements
  rw [List.map_filterMap, ← List.filterMap_eq_map]
  refine List.filterMap_congr fun c hc => ?_
  have hget := Std.ExtTreeMap.mem_toList_iff_getElem?_eq_some.mp (List.mem_of_mem_filter hc)
  obtain ⟨e, he, -⟩ := Option.map_eq_some_iff.mp (h.each c.1 c.2 hget).active
  simp [payout, he]

omit [Crypto] in
theorem swept_toList (led : TokenLedger) (height : UInt64) :
    (led.resolve_expired_challenges height).challenges.toList.Perm
      (led.challenges.toList.filter fun c => !is_expired height c) := by
  refine (List.perm_ext_iff_of_nodup (SumMap.toList_nodup _) ((SumMap.toList_nodup _).filter _)).mpr ?_
  rintro ⟨cid, ch⟩
  rw [Std.ExtTreeMap.mem_toList_iff_getElem?_eq_some, List.mem_filter, Std.ExtTreeMap.mem_toList_iff_getElem?_eq_some,
    resolve_expired_challenges, sweep_challenges]
  by_cases hs : swept height led.challenges.toList cid = true
  · rw [if_pos hs]
    obtain ⟨c, hc, hcond⟩ := List.any_eq_true.mp hs
    simp only [Bool.and_eq_true, decide_eq_true_eq] at hcond
    obtain ⟨rfl, hexp⟩ := hcond
    have hget := Std.ExtTreeMap.mem_toList_iff_getElem?_eq_some.mp hc
    constructor
    · exact fun h => by cases h
    · rintro ⟨hch, hopen⟩
      obtain rfl := Option.some.inj (hget.symm.trans hch)
      simp [hexp] at hopen
  · rw [if_neg hs]
    refine ⟨fun hget => ⟨hget, ?_⟩, And.left⟩
    simp only [Bool.not_eq_true', ← Bool.not_eq_true]
    intro hexp
    refine hs (List.any_eq_true.mpr ⟨(cid, ch), Std.ExtTreeMap.mem_toList_iff_getElem?_eq_some.mpr hget, ?_⟩)
    simp [hexp]

theorem Market.settle_perm (h : Market chain led) (height : UInt64) :
    (in_escrow led).Perm ((settlements led height).map (·.escrow) ++ in_escrow (led.resolve_expired_challenges height)) := by
  rw [h.settlements_escrow]
  unfold in_escrow
  have hsplit := List.filter_append_perm (is_expired height) led.challenges.toList
  rw [← List.map_append]
  exact (hsplit.symm.trans ((swept_toList led height).symm.append_left _)).map escrow_of

theorem Balanced.sweep {pays : List Settlement} (h : Balanced txs pays led) (hm : Market chain led) {mid : TokenLedger}
    {height : UInt64} (hc : mid.challenges = (led.resolve_expired_challenges height).challenges)
    (hr : SameBare (led.resolve_expired_challenges height).registry mid.registry) :
    Balanced txs (pays ++ settlements led height) mid := by
  refine ⟨h.verified, fun k hk => ?_, h.perm.trans ?_⟩
  · rw [mem_of_sameBare hr, mem_swept_registry] at hk
    exact h.keys k hk
  · have hheld : in_escrow mid = in_escrow (led.resolve_expired_challenges height) := by rw [in_escrow, hc, in_escrow]
    rw [hheld, List.map_append, List.append_assoc]
    exact (hm.settle_perm height).append_left _

/-! ### Account transactions -/

theorem mem_escrowed {e : Escrow} : e ∈ escrowed txs ↔ ∃ t, AccountTx.DataChallenge t ∈ txs ∧
    e = ⟨(AccountTx.DataChallenge t).txid, t.data_id, address t.challenger_pub, t.stake⟩ := by
  unfold escrowed
  rw [List.mem_filterMap]
  constructor
  · rintro ⟨tx, htx, he⟩
    cases tx <;> simp only [Option.some.injEq, reduceCtorEq] at he
    exact ⟨_, htx, he.symm⟩
  · rintro ⟨t, ht, rfl⟩
    exact ⟨_, ht, rfl⟩

theorem escrowed_append (txs : List AccountTx) (tx : AccountTx) : escrowed (txs ++ [tx]) = escrowed txs ++ escrowed [tx] :=
  List.filterMap_append

theorem length_txid (tx : AccountTx) : (as_bytes tx.txid).length = 64 := by
  have h := hex_pairs_length (hex_decode_encode (Crypto.sha256 tx.signing_bytes).val)
  rw [(Crypto.sha256 tx.signing_bytes).2] at h
  exact h

omit [Crypto] in
theorem active_mem {k : String} (h : led.registry[k]?.map (·.status) = some .active) : k ∈ led.registry := by
  obtain ⟨e, he, -⟩ := Option.map_eq_some_iff.mp h
  exact Std.ExtTreeMap.mem_iff_isSome_getElem?.mpr (by rw [he]; rfl)

/-- A new challenge does not take the place of an open one. -/
theorem Balanced.fresh {pays : List Settlement} {all : List AccountTx} {t : DataChallengeTx} (h : Balanced txs pays led)
    (hm : Market chain led) (hcol : NoCollision all) (hsub : ∀ u ∈ txs, u ∈ all) (ht : AccountTx.DataChallenge t ∈ all)
    (hverify : (AccountTx.DataChallenge t).verify) (hactive : led.registry[t.data_id]?.map (·.status) = some .active)
    (hnone : ∀ cid ch, led.challenges[(cid : String)]? = some ch → ch.data_id ≠ t.data_id) :
    led.challenges[(AccountTx.DataChallenge t).txid]? = none := by
  cases hget : led.challenges[(AccountTx.DataChallenge t).txid]? with
  | none => rfl
  | some ch =>
    have hheld : escrow_of ((AccountTx.DataChallenge t).txid, ch) ∈ in_escrow led :=
      List.mem_map_of_mem (Std.ExtTreeMap.mem_toList_iff_getElem?_eq_some.mpr hget)
    obtain ⟨u, hu, he⟩ := mem_escrowed.mp (h.perm.mem_iff.mpr (List.mem_append_right _ hheld))
    obtain ⟨hid, hdata, -, -⟩ := Escrow.mk.inj he
    have hbytes := hcol _ ht _ (hsub _ hu) hid
    have hlen := h.keys _ (active_mem (hm.each _ ch hget).active)
    rw [show ch.data_id = u.data_id from hdata] at hlen
    have hsame := AccountTx.same_data_id hverify (h.verified _ hu) (h.keys _ (active_mem hactive)) hlen hbytes
    exact absurd (hdata.trans hsame.symm) (hnone _ ch hget)

theorem Balanced.apply {height : UInt64} {jurors : StrSet} {tx : AccountTx} {pays : List Settlement} {all : List AccountTx}
    (h : Balanced txs pays led) (hm : Market chain led) (hcol : NoCollision all) (hsub : ∀ u ∈ txs, u ∈ all)
    (htx : tx ∈ all) (ha : apply_account_tx height jurors led tx = .ok led') : Balanced (txs ++ [tx]) pays led' := by
  obtain ⟨hverify, -, -, heff⟩ := apply_account_tx_cases ha
  have hverified : ∀ u ∈ txs ++ [tx], u.verify := by
    intro u hu
    rcases List.mem_append.mp hu with hu | hu
    · exact h.verified u hu
    · exact List.mem_singleton.mp hu ▸ hverify
  have hkeys (hr : led'.registry = led.registry) : ∀ k ∈ led'.registry, (as_bytes k).length < 2 ^ 32 := by
    rw [hr]
    exact h.keys
  have hperm (hno : escrowed [tx] = []) (hh : (in_escrow led).Perm (in_escrow led')) :
      (escrowed (txs ++ [tx])).Perm (pays.map (·.escrow) ++ in_escrow led') := by
    rw [escrowed_append, hno, List.append_nil]
    exact h.perm.trans (hh.append_left _)
  have hheld (hc : led'.challenges = led.challenges) : (in_escrow led).Perm (in_escrow led') := by
    unfold in_escrow
    rw [hc]
  cases heff with
  | transfer hr hc => exact ⟨hverified, hkeys hr, hperm rfl (hheld hc)⟩
  | receipt hr hc => exact ⟨hverified, hkeys hr, hperm rfl (hheld hc)⟩
  | submit _ _ hr hc =>
    refine ⟨hverified, fun k hk => ?_, hperm rfl (hheld hc)⟩
    rw [hr, mem_insert_iff] at hk
    rcases hk with rfl | hk
    · rw [length_txid]
      norm_num
    · exact h.keys k hk
  | @challenge t hactive hnone hr hc =>
    refine ⟨hverified, hkeys hr, ?_⟩
    have hfresh := h.fresh hm hcol hsub htx hverify hactive hnone
    have herase : led.challenges.erase (AccountTx.DataChallenge t).txid = led.challenges := by
      refine Std.ExtTreeMap.ext_getElem? fun k => ?_
      rw [SumMap.get_erase]
      split
      · rename_i hk
        rw [← hk, hfresh]
      · rfl
    have hnew := (SumMap.toList_insert_perm led.challenges (AccountTx.DataChallenge t).txid
      (challenge_of (address t.challenger_pub) t height)).map escrow_of
    rw [herase, List.map_cons, ← hc] at hnew
    have hone : escrowed [.DataChallenge t] =
      [escrow_of ((AccountTx.DataChallenge t).txid, challenge_of (address t.challenger_pub) t height)] := rfl
    rw [escrowed_append, hone]
    have hmove := (List.perm_append_singleton
      (escrow_of ((AccountTx.DataChallenge t).txid, challenge_of (address t.challenger_pub) t height))
      (escrowed txs)).trans (h.perm.cons _)
    exact (hmove.trans List.perm_middle.symm).trans (hnew.symm.append_left _)
  | @vote t ch _ hget _ _ _ _ hr hc =>
    refine ⟨hverified, hkeys hr, hperm rfl ?_⟩
    have hold := (SumMap.toList_perm_of_get led.challenges t.challenge_id ch hget).map escrow_of
    have hnew := (SumMap.toList_insert_perm led.challenges t.challenge_id (ch.vote (address t.voter_pub) t.support)).map
      escrow_of
    have hsame : escrow_of (t.challenge_id, ch.vote (address t.voter_pub) t.support) = escrow_of (t.challenge_id, ch) := by
      unfold Challenge.vote escrow_of
      split <;> rfl
    rw [List.map_cons, hsame, ← hc] at hnew
    exact hold.trans hnew.symm

/-! ### A chain -/

theorem Audited.booked {pays : List Settlement} (h : Audited dc chain led pays) : Booked dc chain led := by
  induction h with
  | genesis => exact .genesis
  | block _ hstep ih => exact .block ih hstep

theorem Booked.audited (h : Booked dc chain led) : ∃ pays, Audited dc chain led pays := by
  induction h with
  | genesis => exact ⟨[], .genesis⟩
  | block _ hstep ih =>
    obtain ⟨pays, hpays⟩ := ih
    exact ⟨_, .block hpays hstep⟩

theorem Audited.balanced {pays : List Settlement} (h : Audited dc chain led pays) (hcol : NoCollision (applied chain)) :
    Balanced (applied chain) pays led := by
  induction h with
  | genesis =>
    refine ⟨fun t ht => absurd ht List.not_mem_nil, fun k hk => ?_, ?_⟩
    · cases dc with
      | none => simp [genesis_ledger, TokenLedger.new] at hk
      | some dc =>
        simp only [genesis_ledger, seed_genesis_data, mem_insert_iff] at hk
        rcases hk with rfl | hk
        · decide
        · simp [TokenLedger.new] at hk
    · have hnone : in_escrow (genesis_ledger dc) = [] := by
        cases dc <;> rfl
      rw [hnone]
      exact List.Perm.nil
  | @block chain led led' pays b ha hstep ih =>
    have happ : applied (chain ++ [b]) = applied chain ++ account_txs b := by
      rw [applied, List.flatMap_append, List.flatMap_singleton, applied]
    rw [happ] at hcol ⊢
    have hbal := ih fun t ht u hu => hcol t (List.mem_append_left _ ht) u (List.mem_append_left _ hu)
    obtain ⟨mid, -, hc, hr, hfold⟩ := token_transition_cases hstep
    -- the market holds beside the balance, transaction by transaction
    have hboth := apply_in_turn
      (P := fun txs cur => Balanced txs (pays ++ settlements led b.header.height) cur ∧ Market (chain ++ [b]) cur ∧
        ∀ u ∈ txs, u ∈ applied chain ++ account_txs b)
      (fun txs cur tx next htx h hap => ?_)
      ⟨hbal.sweep ha.booked.market hc hr, ha.booked.market.sweep hc hr, fun u hu => List.mem_append_left _ hu⟩ hfold
    · exact hboth.1
    · obtain ⟨hb, hm, hsub⟩ := h
      have htx' := List.mem_append_right (applied chain) htx
      refine ⟨hb.apply hm hcol hsub htx' hap, hm.apply htx hap, fun u hu => ?_⟩
      rcases List.mem_append.mp hu with hu | hu
      · exact hsub u hu
      · exact List.mem_singleton.mp hu ▸ htx'

/-- A stake goes to the challenger, with the stake of the entry, or to the owner. -/
def ToParty (dc : Option String) (chain : List Block) (s : Settlement) : Prop :=
  ∃ (before : List Block) (b : Block) (after : List Block) (led : TokenLedger) (ch : Challenge) (e : RegistryEntry),
    chain = before ++ b :: after ∧ Booked dc before led ∧ led.challenges[s.escrow.cid]? = some ch ∧
    escrow_of (s.escrow.cid, ch) = s.escrow ∧ led.registry[s.escrow.data_id]? = some e ∧ ch.expiry ≤ b.header.height ∧
    ((ch.upheld ∧ s.receiver = s.escrow.challenger ∧ s.amount = saturating_add e.stake s.escrow.stake) ∨
      (¬ ch.upheld ∧ s.receiver = e.owner ∧ s.amount = s.escrow.stake))

theorem ToParty.extend {s : Settlement} (h : ToParty dc chain s) (b : Block) : ToParty dc (chain ++ [b]) s := by
  obtain ⟨before, x, after, led, ch, e, rfl, h⟩ := h
  exact ⟨before, x, after ++ [b], led, ch, e, by simp, h⟩

theorem Audited.to_party {pays : List Settlement} (h : Audited dc chain led pays) : ∀ s ∈ pays, ToParty dc chain s := by
  induction h with
  | genesis => simp
  | @block chain led led' pays b ha hstep ih =>
    intro s hs
    rcases List.mem_append.mp hs with hs | hs
    · exact (ih s hs).extend b
    · obtain ⟨c, hc, hpay⟩ := List.mem_filterMap.mp hs
      obtain ⟨hmem, hexp⟩ := List.mem_filter.mp hc
      obtain ⟨p, hp, rfl⟩ := Option.map_eq_some_iff.mp hpay
      obtain ⟨e, he, hpe⟩ := Option.map_eq_some_iff.mp hp
      refine ⟨chain, b, [], led, c.2, e, rfl, ha.booked, Std.ExtTreeMap.mem_toList_iff_getElem?_eq_some.mp hmem, rfl, he,
        by simpa [is_expired] using hexp, ?_⟩
      split at hpe
      · rename_i hup
        exact .inl ⟨hup, congrArg Prod.fst hpe.symm, congrArg Prod.snd hpe.symm⟩
      · rename_i hup
        exact .inr ⟨hup, congrArg Prod.fst hpe.symm, congrArg Prod.snd hpe.symm⟩

/-- The sweep credits its settlements, and nothing else. -/
theorem Market.sweep_pays (h : Market chain led) (height : UInt64) :
    (led.resolve_expired_challenges height).balances =
      (led.credit_all ((settlements led height).map fun s => (s.receiver, s.amount))).balances := by
  have hapart : Apart led.challenges.toList := by
    refine List.Pairwise.imp_of_mem ?_ (Std.ExtTreeMap.distinct_keys_toList (t := led.challenges))
    intro c d hc hd hne hid
    have hkey := h.one c.1 c.2 d.1 d.2 (Std.ExtTreeMap.mem_toList_iff_getElem?_eq_some.mp hc)
      (Std.ExtTreeMap.mem_toList_iff_getElem?_eq_some.mp hd) hid
    exact hne (by rw [hkey]; simp)
  have hpays : payouts led.registry height led.challenges.toList =
      (settlements led height).map fun s => (s.receiver, s.amount) := by
    unfold payouts settlements
    rw [List.map_filterMap]
    refine List.filterMap_congr fun c _ => ?_
    cases payout led.registry c.2 <;> rfl
  rw [resolve_expired_challenges, sweep_balances _ _ hapart, hpays]

/-- In every run, on the chain of every block: the open challenges are in order, an entry keeps its
stake until a challenge with a quorum ends it, and each escrowed stake is either still held or was
paid out once, to the challenger or to the owner. -/
theorem challenge_market {genesis_w : List Int64} {params : GenesisParams}
    (hw : genesis_w.length = (ModelState.genesis params.spec).dim) (dc : Option String) (ops : List Op)
    {h : String} {led : TokenLedger} {chain : List Block}
    (hled : ((Logged.new genesis_w dc params).run ops).tree.ledger[h]? = some led)
    (hch : Chain ((Logged.new genesis_w dc params).run ops).log
      ((Logged.new genesis_w dc params).run ops).tree.genesis_hash h chain)
    (hcol : NoCollision (applied chain)) :
    Market chain led ∧ Entries dc chain (applied chain) led ∧
      ∃ pays, Audited dc chain led pays ∧ (escrowed (applied chain)).Perm (pays.map (·.escrow) ++ in_escrow led) ∧
        (∀ s ∈ pays, ToParty dc chain s) ∧
        ∀ before b after led₀, chain = before ++ b :: after → Booked dc before led₀ →
          (led₀.resolve_expired_challenges b.header.height).balances =
            (led₀.credit_all ((settlements led₀ b.header.height).map fun s => (s.receiver, s.amount))).balances := by
  have hb := run_books hw dc ops hled hch
  obtain ⟨pays, hpays⟩ := hb.audited
  refine ⟨hb.market, hb.entries, pays, hpays, (hpays.balanced hcol).perm, hpays.to_party, ?_⟩
  intro before b after led₀ _ hb₀
  exact hb₀.market.sweep_pays _

end Any

open Toy

/-- In the small market a challenge is open, with one vote, and its stake is the one in escrow. -/
theorem challenge_market_open :
    Entries none [opening_trade, voting_trade] (applied [opening_trade, voting_trade]) traded_ledger ∧
      (traded_ledger.challenges[challenge.txid]?.map (·.votes_for),
        traded_ledger.registry[corpus.txid]?.map fun e => (e.stake, e.status)) =
          (some [address (hex_encode (key 4).val)], some (3, .active)) ∧
      ∃ pays, Audited none [opening_trade, voting_trade] traded_ledger pays ∧
        (escrowed (applied [opening_trade, voting_trade])).Perm (pays.map (·.escrow) ++ in_escrow traded_ledger) := by
  obtain ⟨-, hentries, pays, haudited, hperm, -⟩ := challenge_market (by decide) none
    [.add_block opening_trade, .add_block voting_trade] market_ledger market_chain market_no_collision
  exact ⟨hentries, by decide +kernel, pays, haudited, hperm⟩

end Sestrian
