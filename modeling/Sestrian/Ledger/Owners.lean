import Sestrian.Ledger.Bonds
import Sestrian.Ledger.Escrow

/-!
# Who a data hash pays

Payouts go by data hash, and the books keep one name for each. It is the name of the entry that was there first
as long as nobody submits a hash that an active entry has.
-/

open Check

namespace Sestrian

open TokenLedger

section Any

variable [Crypto]

/-- The entry under this key is active and has this data hash. -/
def Carries (r : Dict RegistryEntry) (k h : String) : Prop :=
  ∃ e, r[k]? = some e ∧ e.status = .active ∧ e.data_hash = h

def UniqueHash (r : Dict RegistryEntry) : Prop := ∀ k k' h, Carries r k h → Carries r k' h → k = k'

def submit_of : AccountTx → Option DataSubmitTx
  | .DataSubmit t => some t
  | _ => none

def submits (txs : List AccountTx) : List DataSubmitTx := txs.filterMap submit_of

/-- The data hashes that the transactions submit are new and pairwise different. -/
def FreshHashes (r : Dict RegistryEntry) (txs : List AccountTx) : Prop :=
  ((submits txs).map (·.data_hash)).Nodup ∧ ∀ t ∈ submits txs, ∀ k, ¬ Carries r k t.data_hash

/-! ## The steps of a block -/

omit [Crypto] in
theorem carries_sameBare {r r' : Dict RegistryEntry} (h : SameBare r r') {k d : String} :
    Carries r' k d ↔ Carries r k d := by
  have hkind := map_of_bare (f := fun e => (e.status, e.data_hash)) (fun _ => rfl) (h k)
  have hread (r : Dict RegistryEntry) : Carries r k d ↔ r[k]?.map (fun e => (e.status, e.data_hash)) = some (.active, d) := by
    unfold Carries
    cases r[k]? with
    | none => simp
    | some e => simp
  rw [hread, hread, hkind]

omit [Crypto] in
theorem carries_sweep (led : TokenLedger) (height : UInt64) {k d : String}
    (h : Carries (led.resolve_expired_challenges height).registry k d) : Carries led.registry k d := by
  obtain ⟨e, he, hactive, hd⟩ := h
  rw [resolve_expired_challenges, sweep_registry] at he
  split at he
  · rw [Option.map_eq_some_iff] at he
    obtain ⟨e₀, -, rfl⟩ := he
    cases hactive
  · exact ⟨e, he, hactive, hd⟩

omit [Crypto] in
theorem carries_insert {r : Dict RegistryEntry} {txid src : String} (hfresh : txid ∉ r) (t : DataSubmitTx) {k d : String} :
    Carries (r.insert txid (entry_of src t)) k d ↔ k = txid ∧ d = t.data_hash ∨ Carries r k d := by
  unfold Carries
  simp only [SumMap.get_insert]
  by_cases hk : txid = k
  · subst hk
    have hnone : r[txid]? = none := Std.ExtTreeMap.getElem?_eq_none hfresh
    simp [hnone, entry_of, eq_comm]
  · simp [hk, Ne.symm hk]

omit [Crypto] in
theorem submits_cons (tx : AccountTx) (txs : List AccountTx) : submits (tx :: txs) =
    (submit_of tx).toList ++ submits txs := by
  unfold submits
  rw [List.filterMap_cons]
  cases submit_of tx <;> rfl

/-- What an applied transaction does to the entries: a submission adds one, nothing else adds any. -/
theorem apply_registry {height : UInt64} {jurors : StrSet} {led led' : TokenLedger} {tx : AccountTx}
    (h : apply_account_tx height jurors led tx = .ok led') :
    submit_of tx = none ∧ led'.registry = led.registry ∨ ∃ t, submit_of tx = some t ∧ tx.txid ∉ led.registry ∧
      led'.registry = led.registry.insert tx.txid (entry_of (address t.owner_pub) t) := by
  obtain ⟨-, -, -, heff⟩ := apply_account_tx_cases h
  cases heff with
  | transfer hr _ => exact .inl ⟨rfl, hr⟩
  | receipt hr _ => exact .inl ⟨rfl, hr⟩
  | submit hfresh _ hr _ => exact .inr ⟨_, rfl, hfresh, hr⟩
  | challenge _ _ hr _ => exact .inl ⟨rfl, hr⟩
  | vote _ _ _ _ _ _ hr _ => exact .inl ⟨rfl, hr⟩

/-- One name for each hash is kept if and only if the submitted hashes are new. -/
theorem apply_unique_iff {height : UInt64} {jurors : StrSet} {txs : List AccountTx} {led led' : TokenLedger}
    (h : txs.foldlM (apply_account_tx height jurors) led = .ok led') :
    UniqueHash led'.registry ↔ UniqueHash led.registry ∧ FreshHashes led.registry txs := by
  induction txs generalizing led with
  | nil =>
    rw [List.foldlM_nil, pure_eq_ok] at h
    rw [h]
    exact ⟨fun hu => ⟨hu, List.nodup_nil, nofun⟩, And.left⟩
  | cons tx txs ih =>
    rw [List.foldlM_cons, bind_eq_ok] at h
    obtain ⟨mid, hmid, h⟩ := h
    rw [ih h]
    unfold FreshHashes
    rw [submits_cons]
    rcases apply_registry hmid with ⟨hnone, hr⟩ | ⟨t, ht, hfresh, hr⟩
    · rw [hnone, hr]
      rfl
    · rw [ht, hr]
      have hself : Carries (led.registry.insert tx.txid (entry_of (address t.owner_pub) t)) tx.txid t.data_hash :=
        (carries_insert hfresh t).mpr (.inl ⟨rfl, rfl⟩)
      have hkey {k d : String} (hc : Carries led.registry k d) : k ≠ tx.txid := by
        rintro rfl
        obtain ⟨e, he, -⟩ := hc
        exact hfresh (Std.ExtTreeMap.mem_iff_isSome_getElem?.mpr (by rw [he]; rfl))
      simp only [Option.toList_some, List.singleton_append, List.map_cons, List.nodup_cons, List.forall_mem_cons]
      constructor
      · rintro ⟨hu, hnodup, hnew⟩
        refine ⟨fun k k' d hk hk' => hu k k' d ((carries_insert hfresh t).mpr (.inr hk)) ((carries_insert hfresh t).mpr (.inr hk')),
          ⟨?_, hnodup⟩, fun k hk => ?_, fun u hmem k hk => hnew u hmem k ((carries_insert hfresh t).mpr (.inr hk))⟩
        · intro hmem
          obtain ⟨u, hu', he⟩ := List.mem_map.mp hmem
          exact hnew u hu' tx.txid (he ▸ hself)
        · exact hkey hk (hu k tx.txid t.data_hash ((carries_insert hfresh t).mpr (.inr hk)) hself)
      · rintro ⟨hu, ⟨hnot, hnodup⟩, hnone, hnew⟩
        refine ⟨fun k k' d hk hk' => ?_, hnodup, fun u hmem k hk => ?_⟩
        · rcases (carries_insert hfresh t).mp hk with ⟨rfl, rfl⟩ | hk
          · rcases (carries_insert hfresh t).mp hk' with ⟨rfl, -⟩ | hk'
            · rfl
            · exact absurd hk' (hnone k')
          · rcases (carries_insert hfresh t).mp hk' with ⟨rfl, rfl⟩ | hk'
            · exact absurd hk (hnone k)
            · exact hu k k' d hk hk'
        · rcases (carries_insert hfresh t).mp hk with ⟨-, he⟩ | hk
          · exact hnot (List.mem_map.mpr ⟨u, hmem, he⟩)
          · exact hnew u hmem k hk

/-! ## The maps by data hash -/

omit [Crypto] in
/-- Where all that a loop writes under a key is one value, the key has it. -/
theorem get_written {ν : Type} {xs : List (String × RegistryEntry)} {val : String × RegistryEntry → ν} {d : String} {v : ν}
    (hsome : ∃ x ∈ xs, x.2.status = .active ∧ x.2.data_hash = d)
    (hall : ∀ x ∈ xs, x.2.status = .active → x.2.data_hash = d → val x = v) :
    (xs.foldl (fun m x => if x.2.status = .active then m.insert x.2.data_hash (val x) else m) (∅ : Dict ν))[d]? = some v := by
  induction xs using List.reverseRecOn with
  | nil =>
    obtain ⟨x, hx, -⟩ := hsome
    cases hx
  | append_singleton xs x ih =>
    rw [List.foldl_append, List.foldl_cons, List.foldl_nil]
    have hrest (hsome' : ∃ x ∈ xs, x.2.status = .active ∧ x.2.data_hash = d) :=
      ih hsome' fun y hy => hall y (List.mem_append_left _ hy)
    have hlast := hall x (List.mem_append_right _ (List.mem_singleton_self _))
    by_cases hx : x.2.status = .active ∧ x.2.data_hash = d
    · rw [if_pos hx.1, SumMap.get_insert, if_pos hx.2, hlast hx.1 hx.2]
    · obtain ⟨y, hy, hyp⟩ := hsome
      have hy : y ∈ xs := (List.mem_append.mp hy).resolve_right fun h => hx (List.mem_singleton.mp h ▸ hyp)
      by_cases hactive : x.2.status = .active
      · rw [if_pos hactive, SumMap.get_insert, if_neg fun h => hx ⟨hactive, h⟩]
        exact hrest ⟨y, hy, hyp⟩
      · rw [if_neg hactive]
        exact hrest ⟨y, hy, hyp⟩

omit [Crypto] in
/-- Where each hash has one name, both maps give it. -/
theorem paid_of_unique {led : TokenLedger} (hu : UniqueHash led.registry) {k : String} {e : RegistryEntry}
    (he : led.registry[k]? = some e) (hactive : e.status = .active) :
    (hash_to_key led)[e.data_hash]? = some k ∧ led.hash_to_owner[e.data_hash]? = some e.owner := by
  have hmem : (k, e) ∈ led.registry.toList := Std.ExtTreeMap.mem_toList_iff_getElem?_eq_some.mpr he
  have hone (x : String × RegistryEntry) (hx : x ∈ led.registry.toList) (hx' : x.2.status = .active)
      (hd : x.2.data_hash = e.data_hash) : x = (k, e) := by
    have hget := Std.ExtTreeMap.mem_toList_iff_getElem?_eq_some.mp hx
    have hk : x.1 = k := hu x.1 k e.data_hash ⟨x.2, hget, hx', hd⟩ ⟨e, he, hactive, rfl⟩
    rw [hk, he] at hget
    exact Prod.ext hk (Option.some.inj hget).symm
  constructor
  · exact get_written (v := k) ⟨_, hmem, hactive, rfl⟩ fun x hx hx' hd => congrArg Prod.fst (hone x hx hx' hd)
  · exact get_written (v := e.owner) ⟨_, hmem, hactive, rfl⟩ fun x hx hx' hd =>
      congrArg (fun x => x.2.owner) (hone x hx hx' hd)

/-! ## Chains -/

variable {dc : Option String} {chain : List Block} {led led' : TokenLedger}

/-- An entry keeps its owner and its hash, and once revoked it stays so. -/
structure Lasts (r r' : Dict RegistryEntry) : Prop where
  kept : ∀ (k : String) e, r[k]? = some e → ∃ e', r'[k]? = some e' ∧ e'.owner = e.owner ∧ e'.data_hash = e.data_hash ∧
    (e'.status = .active → e.status = .active)

omit [Crypto] in
theorem Lasts.refl (r : Dict RegistryEntry) : Lasts r r := ⟨fun _ e he => ⟨e, he, rfl, rfl, id⟩⟩

omit [Crypto] in
theorem Lasts.trans {r r' r'' : Dict RegistryEntry} (h : Lasts r r') (h' : Lasts r' r'') : Lasts r r'' := by
  refine ⟨fun k e he => ?_⟩
  obtain ⟨e', he', howner, hhash, hstatus⟩ := h.kept k e he
  obtain ⟨e'', he'', howner', hhash', hstatus'⟩ := h'.kept k e' he'
  exact ⟨e'', he'', howner'.trans howner, hhash'.trans hhash, fun ha => hstatus (hstatus' ha)⟩

omit [Crypto] in
theorem lasts_sweep (led : TokenLedger) (height : UInt64) :
    Lasts led.registry (led.resolve_expired_challenges height).registry := by
  refine ⟨fun k e he => ?_⟩
  rw [resolve_expired_challenges, sweep_registry, he]
  split
  · exact ⟨revoke e, rfl, rfl, rfl, fun h => by cases h⟩
  · exact ⟨e, rfl, rfl, rfl, id⟩

omit [Crypto] in
theorem lasts_sameBare {r r' : Dict RegistryEntry} (h : SameBare r r') : Lasts r r' := by
  refine ⟨fun k e he => ?_⟩
  have hkind := map_of_bare (f := fun e => (e.owner, e.data_hash, e.status)) (fun _ => rfl) (h k)
  rw [he, Option.map_some, Option.map_eq_some_iff] at hkind
  obtain ⟨e', he', heq⟩ := hkind
  simp only [Prod.mk.injEq] at heq
  exact ⟨e', he', heq.1, heq.2.1, fun ha => heq.2.2 ▸ ha⟩

theorem lasts_apply {height : UInt64} {jurors : StrSet} {txs : List AccountTx}
    (h : txs.foldlM (apply_account_tx height jurors) led = .ok led') : Lasts led.registry led'.registry := by
  refine foldlM_inv (fun l : TokenLedger => Lasts led.registry l.registry) _ _ (fun l l' tx _ hl ht => ?_) _ _ (.refl _) h
  rcases apply_registry ht with ⟨-, hr⟩ | ⟨t, -, hfresh, hr⟩
  · rw [hr]
    exact hl
  · refine hl.trans ⟨fun k e he => ⟨e, ?_, rfl, rfl, id⟩⟩
    rw [hr, SumMap.get_insert, if_neg]
    · exact he
    · rintro rfl
      exact hfresh (Std.ExtTreeMap.mem_iff_isSome_getElem?.mpr (by rw [he]; rfl))

/-- What a block does to the names: the sweep takes some, the submissions add theirs. -/
theorem block_unique_iff {b : Block} {jurors : StrSet} (h : token_transition led b dc jurors = .ok led') :
    (UniqueHash led'.registry ↔ UniqueHash (led.resolve_expired_challenges b.header.height).registry ∧
      FreshHashes (led.resolve_expired_challenges b.header.height).registry (account_txs b)) ∧
    Lasts led.registry led'.registry := by
  obtain ⟨mid, -, -, hr, hfold⟩ := token_transition_cases h
  refine ⟨?_, (lasts_sweep led _).trans ((lasts_sameBare hr).trans (lasts_apply hfold))⟩
  rw [apply_unique_iff hfold]
  unfold UniqueHash FreshHashes
  simp only [carries_sameBare hr]

/-- Each hash has one name, and what the hash earns goes by that name, in a block's own reward too. -/
structure OneOwner (led : TokenLedger) : Prop where
  unique : UniqueHash led.registry
  paid : ∀ height led', SameBare (led.resolve_expired_challenges height).registry led'.registry → ∀ (k : String) e,
    led'.registry[k]? = some e → e.status = .active →
    (hash_to_key led')[e.data_hash]? = some k ∧ led'.hash_to_owner[e.data_hash]? = some e.owner

omit [Crypto] in
theorem UniqueHash.sweep (hu : UniqueHash led.registry) (height : UInt64) :
    UniqueHash (led.resolve_expired_challenges height).registry :=
  fun _ _ _ h h' => hu _ _ _ (carries_sweep led height h) (carries_sweep led height h')

omit [Crypto] in
theorem UniqueHash.oneOwner (hu : UniqueHash led.registry) : OneOwner led := by
  refine ⟨hu, fun height led' hr k e he hactive => paid_of_unique (fun k k' d h h' => ?_) he hactive⟩
  exact hu.sweep height k k' d ((carries_sameBare hr).mp h) ((carries_sameBare hr).mp h')

/-- The entries of an earlier ledger keep what their hashes earn for as long as they are active. -/
def FirstComes (led₀ led : TokenLedger) : Prop :=
  ∀ (k : String) e, led₀.registry[k]? = some e → ∃ e', led.registry[k]? = some e' ∧ e'.owner = e.owner ∧
    e'.data_hash = e.data_hash ∧ (e'.status = .active → e.status = .active ∧
      (hash_to_key led)[e.data_hash]? = some k ∧ led.hash_to_owner[e.data_hash]? = some e.owner)

omit [Crypto] in
theorem firstComes_of_lasts {led₀ : TokenLedger} (h : Lasts led₀.registry led.registry) (hu : UniqueHash led.registry) :
    FirstComes led₀ led := by
  intro k e he
  obtain ⟨e', he', howner, hhash, hstatus⟩ := h.kept k e he
  refine ⟨e', he', howner, hhash, fun hactive => ⟨hstatus hactive, ?_⟩⟩
  rw [← howner, ← hhash]
  exact paid_of_unique hu he' hactive

theorem booked_snoc {b : Block} (h : Booked dc (chain ++ [b]) led) :
    ∃ led₀, Booked dc chain led₀ ∧ token_transition led₀ b dc (jurors_of chain) = .ok led := by
  generalize hc : chain ++ [b] = c at h
  cases h with
  | genesis => simp at hc
  | block h ht =>
    obtain ⟨rfl, hb⟩ := List.append_inj' hc rfl
    obtain rfl := List.singleton_inj.mp hb
    exact ⟨_, h, ht⟩

theorem booked_nil (h : Booked dc [] led) : led = genesis_ledger dc := by
  generalize hc : ([] : List Block) = c at h
  cases h with
  | genesis => rfl
  | block h ht => simp at hc

theorem booked_unique (h : Booked dc chain led) (h' : Booked dc chain led') : led = led' := by
  induction h generalizing led' with
  | genesis => exact (booked_nil h').symm
  | block _ ht ih =>
    obtain ⟨led₀, h₀, ht'⟩ := booked_snoc h'
    rw [← ih h₀, ht] at ht'
    exact Except.ok.inj ht'

theorem booked_before {pre post : List Block} (h : Booked dc (pre ++ post) led) : ∃ led₀, Booked dc pre led₀ := by
  induction post using List.reverseRecOn generalizing led with
  | nil => exact ⟨led, by simpa using h⟩
  | append_singleton post b ih =>
    rw [← List.append_assoc] at h
    obtain ⟨led₀, h₀, -⟩ := booked_snoc h
    exact ih h₀

/-- Every block of the chain submits new hashes only. -/
def SubmitsFresh (dc : Option String) (chain : List Block) : Prop :=
  ∀ pre b post led₀, chain = pre ++ b :: post → Booked dc pre led₀ →
    FreshHashes (led₀.resolve_expired_challenges b.header.height).registry (account_txs b)

/-- In every ledger of the chain each hash has one owner, the first one. -/
def OwnersKept (dc : Option String) (chain : List Block) (led : TokenLedger) : Prop :=
  ∀ pre post led₀, chain = pre ++ post → Booked dc pre led₀ → OneOwner led₀ ∧ FirstComes led₀ led

omit [Crypto] in
theorem genesis_unique (dc : Option String) : UniqueHash (genesis_ledger dc).registry := by
  have hone (k d : String) (h : Carries (genesis_ledger dc).registry k d) : k = "genesis" := by
    obtain ⟨e, he, -⟩ := h
    cases dc with
    | none => simp [genesis_ledger, TokenLedger.new] at he
    | some dc =>
      simp only [genesis_ledger, seed_genesis_data, SumMap.get_insert] at he
      split at he
      · rename_i hk
        exact hk.symm
      · simp [TokenLedger.new] at he
  exact fun k k' d h h' => (hone k d h).trans (hone k' d h').symm

theorem SubmitsFresh.before {b : Block} (h : SubmitsFresh dc (chain ++ [b])) : SubmitsFresh dc chain :=
  fun pre c post led₀ hchain h₀ => h pre c (post ++ [b]) led₀ (by simp [hchain]) h₀

theorem unique_of_fresh (h : Booked dc chain led) (hf : SubmitsFresh dc chain) : UniqueHash led.registry := by
  induction h with
  | genesis => exact genesis_unique dc
  | @block chain led led' b h ht ih =>
    exact (block_unique_iff ht).1.mpr ⟨(ih hf.before).sweep _, hf chain b [] led rfl h⟩

theorem lasts_booked {pre post : List Block} {led₀ : TokenLedger} (h : Booked dc (pre ++ post) led) (h₀ : Booked dc pre led₀) :
    Lasts led₀.registry led.registry := by
  induction post using List.reverseRecOn generalizing led with
  | nil =>
    rw [List.append_nil] at h
    rw [booked_unique h₀ h]
    exact .refl _
  | append_singleton post b ih =>
    rw [← List.append_assoc] at h
    obtain ⟨led₁, h₁, ht⟩ := booked_snoc h
    exact (ih h₁).trans (block_unique_iff ht).2

/-- Along a chain each hash has one owner, who was there first and keeps what the hash earns, if and only if no
block submits a hash that an active entry or another of its submissions has. -/
theorem owners_kept_iff (h : Booked dc chain led) : OwnersKept dc chain led ↔ SubmitsFresh dc chain := by
  constructor
  · intro hk pre b post led₀ hchain h₀
    obtain ⟨led₁, h₁⟩ := booked_before (show Booked dc ((pre ++ [b]) ++ post) led by simpa [hchain] using h)
    obtain ⟨led₀', h₀', ht⟩ := booked_snoc h₁
    rw [booked_unique h₀ h₀']
    have hone := (hk (pre ++ [b]) post led₁ (by simp [hchain]) h₁).1
    exact ((block_unique_iff ht).1.mp hone.unique).2
  · rintro hfresh pre post led₀ rfl h₀
    have hpre : SubmitsFresh dc pre := fun pre' b post' led' hchain h' =>
      hfresh pre' b (post' ++ post) led' (by simp [hchain]) h'
    exact ⟨(unique_of_fresh h₀ hpre).oneOwner, firstComes_of_lasts (lasts_booked h h₀) (unique_of_fresh h hfresh)⟩

/-- In every run, on the chain of every block: each data hash has one owner, who was there first and keeps what the
hash earns, if and only if no block submits a hash that an active entry or another of its submissions has. -/
theorem one_owner_iff {genesis_w : List Int64} {params : GenesisParams}
    (hw : genesis_w.length = (ModelState.genesis params.spec).dim) (dc : Option String) (ops : List Op)
    {h : String} {led : TokenLedger} {chain : List Block}
    (hled : ((Logged.new genesis_w dc params).run ops).tree.ledger[h]? = some led)
    (hch : Chain ((Logged.new genesis_w dc params).run ops).log
      ((Logged.new genesis_w dc params).run ops).tree.genesis_hash h chain) :
    OwnersKept dc chain led ↔ SubmitsFresh dc chain :=
  owners_kept_iff (run_books hw dc ops hled hch)

end Any

open Toy

/-- The small market submits one corpus, and nobody submits it again. -/
theorem Toy.market_fresh : SubmitsFresh none [opening_trade, voting_trade] := by
  rintro pre b post led₀ hchain h₀
  rcases pre with - | ⟨c, pre⟩
  · rw [List.nil_append, List.cons.injEq] at hchain
    obtain ⟨rfl, -⟩ := hchain
    rw [booked_unique h₀ .genesis]
    refine ⟨by decide +kernel, fun t _ k hk => ?_⟩
    obtain ⟨e, he, -⟩ := hk
    have hnone : ((genesis_ledger none).resolve_expired_challenges opening_trade.header.height).registry = ∅ := rfl
    simp [hnone] at he
  · rw [List.cons_append, List.cons.injEq] at hchain
    obtain ⟨rfl, hchain⟩ := hchain
    obtain ⟨rfl, rfl, -⟩ : pre = [] ∧ b = voting_trade ∧ post = [] := by
      rcases pre with - | ⟨d, pre⟩ <;> simp_all
    have hnone : submits (account_txs voting_trade) = [] := rfl
    refine ⟨by rw [hnone]; exact List.nodup_nil, fun t ht => ?_⟩
    rw [hnone] at ht
    exact absurd ht List.not_mem_nil

theorem one_owner_market : OwnersKept none [opening_trade, voting_trade] traded_ledger :=
  (one_owner_iff (by decide) none [.add_block opening_trade, .add_block voting_trade] market_ledger market_chain).mpr
    market_fresh

namespace Toy

def submit_unsigned (pk : ByteArr 32) (nonce : UInt64) : DataSubmitTx :=
  { owner_pub := hex_encode pk.val, data_hash := "corpus", size_bytes := 1, media_type := "text", stake := 1, nonce,
    da_root := String.ofList (List.replicate 64 '0'), sig := [] }

def submit_by (pk : ByteArr 32) (nonce : UInt64) : DataSubmitTx :=
  { submit_unsigned pk nonce with sig := (sign pk (AccountTx.DataSubmit (submit_unsigned pk nonce)).signing_bytes).val }

def gift_unsigned (pk pk' : ByteArr 32) : TransferTx :=
  { from_pub := hex_encode pk.val, to_addr := address (hex_encode pk'.val), amount := 1, nonce := 0, sig := [] }

def gift (pk pk' : ByteArr 32) : TransferTx :=
  { gift_unsigned pk pk' with sig := (sign pk (AccountTx.Transfer (gift_unsigned pk pk')).signing_bytes).val }

/-- Block 1 by the owner of one key, who submits a corpus. The owner of another key submits it after that, with
money from the first. -/
def rival_draft (pk pk' : ByteArr 32) : Block :=
  let prev_hash := (genesis_header [5] params).block_hash
  let proof := vrf_prove pk prev_hash 1 lottery.ATTEMPT_MAX
  let d := draft_block 1 (expected_version_at 1 params) prev_hash (hex_encode pk.val) (hex_encode proof)
    lottery.ATTEMPT_MAX (lottery.attempt_work proof lottery.ATTEMPT_MAX)
  let transfers := [gift pk pk']
  let data_txs := [.DataSubmit (submit_by pk 1), .DataSubmit (submit_by pk' 0)]
  { d with
    transfers
    data_txs
    header := { d.header with transfer_root := transfer_root transfers, data_root := data_root data_txs } }

def rival_block : Block :=
  seal_full TokenLedger.new [5] (ModelState.genesis spec) params none ∅ (rival_draft (key 4) (key 1))

theorem rival_transition : (token_transition TokenLedger.new (rival_draft (key 4) (key 1)) none ∅).toOption.map
    (fun led => (led.registry[(AccountTx.DataSubmit (submit_by (key 4) 1)).txid]?.map (fun e => (e.status, e.data_hash)),
      led.registry[(AccountTx.DataSubmit (submit_by (key 1) 0)).txid]?.map (fun e => (e.status, e.data_hash)),
      led.hash_to_owner["corpus"]?)) =
    some (some (.active, "corpus"), some (.active, "corpus"), some (address (hex_encode (key 1).val))) := by
  decide +kernel

theorem rival_header (pk pk' : ByteArr 32) (led : TokenLedger) : check_header (rival_draft pk pk') 0 led params = .ok () := by
  simp only [check_header, bind_eq_ok, require_eq_ok, exists_unit]
  exact ⟨rfl, rfl, rfl, lottery_last _ pk (hex_decode_encode pk.val) (hex_ne_genesis pk.val) rfl rfl rfl⟩

theorem rival_sets (pk pk' : ByteArr 32) : check_sets (rival_draft pk pk') = .ok () := by
  have hkeys {ν : Type} : (∅ : Dict ν).keys = [] := Std.ExtTreeMap.keys_eq_nil_iff.mpr rfl
  have hvals {ν : Type} : (∅ : Dict ν).values = [] := rfl
  have htxs : (rival_draft pk pk').txs = [] := rfl
  simp [check_sets, htxs, show (rival_draft pk pk').scores = ∅ from rfl, show (rival_draft pk pk').sketches = ∅ from rfl,
    hkeys, hvals]
  exact ⟨rfl, rfl, rfl⟩

theorem rival_accepted {led : TokenLedger}
    (hled : token_transition TokenLedger.new (rival_draft (key 4) (key 1)) none ∅ = .ok led) :
    ∃ v, v.ledger = led ∧ validate_inner rival_block (some [5]) 0 TokenLedger.new none ∅ (ModelState.genesis spec) params =
      .ok v :=
  seal_full_accepted (rival_header _ _ _) (fun _ htx => absurd htx List.not_mem_nil) (rival_sets _ _) rfl rfl hled

end Toy

/-- The block is accepted. Two active entries have the hash, and what it earns goes to the later one. -/
theorem corpus_redirected : ∃ v,
    validate_inner Toy.rival_block (some [5]) 0 (genesis_ledger none) none ∅ (ModelState.genesis Toy.spec) Toy.params = .ok v ∧
      Booked none [Toy.rival_block] v.ledger ∧
      (account_txs Toy.rival_block).map AccountTx.sender_pub =
        [hex_encode (Toy.key 4).val, hex_encode (Toy.key 4).val, hex_encode (Toy.key 1).val] ∧
      ¬ UniqueHash v.ledger.registry ∧
      v.ledger.hash_to_owner["corpus"]? = some (address (hex_encode (Toy.key 1).val)) := by
  have hrun := Toy.rival_transition
  cases hled : token_transition TokenLedger.new (Toy.rival_draft (Toy.key 4) (Toy.key 1)) none ∅ with
  | error e =>
    rw [hled] at hrun
    cases hrun
  | ok led =>
    rw [hled] at hrun
    obtain ⟨v, rfl, hv⟩ := Toy.rival_accepted hled
    simp only [Except.toOption, Option.map_some, Option.some.injEq, Prod.mk.injEq, Option.map_eq_some_iff] at hrun
    obtain ⟨⟨e, he, hactive, hhash⟩, ⟨e', he', hactive', hhash'⟩, howner⟩ := hrun
    refine ⟨v, hv, .block .genesis hled, ?_, fun hu => ?_, howner⟩
    · decide +kernel
    · have hkeys := hu _ _ "corpus" ⟨e, he, hactive, hhash⟩ ⟨e', he', hactive', hhash'⟩
      revert hkeys
      decide +kernel

end Sestrian
