import Sestrian.Ledger.BondBooks
import Sestrian.Ledger.Signing
import Sestrian.Tree.Empty

/-!
# Bonds along a chain

A delta's bond leaves its miner's balance and comes back when it expires. The books keep one bond
for each delta id, so what a block may list decides whether every bond comes back.
-/

open Check

namespace Sestrian

section Any

variable [Crypto]

/-! ## One block -/

theorem reward_block_bonds (led : TokenLedger) (block : Block) (dc : Option String) :
    (reward_block led block dc).bonds = led.bonds := by
  unfold reward_block
  exact TokenLedger.apply_reward_bonds _ _ _ _ _ _ _

/-- A block gives back what is due and locks the bonds of its deltas. Nothing else touches the bonds. -/
theorem token_transition_bonds {led led' : TokenLedger} {b : Block} {dc : Option String} {jurors : StrSet}
    (h : token_transition led b dc jurors = .ok led') :
    ∃ swept before after : TokenLedger, swept.bonds = led.bonds ∧
      before.bonds = (swept.resolve_expired_bonds b.header.height).bonds ∧
      b.txs.foldlM (lock_tx_bond b.header.height) before = .ok after ∧ led'.bonds = after.bonds := by
  simp only [token_transition, bind_eq_ok] at h
  obtain ⟨-, -, after, hlock, happly⟩ := h
  refine ⟨led.resolve_expired_challenges b.header.height, _, after, ?_, ?_, hlock, ?_⟩
  · exact TokenLedger.resolve_expired_challenges_bonds led _
  · exact reward_block_bonds _ _ _
  · exact foldlM_inv (fun l : TokenLedger => l.bonds = after.bonds) _ _ (fun l tx l' _ hl ht =>
      (apply_account_tx_bonds ht).trans hl) _ _ rfl happly

/-- What the validator has checked of a block. -/
structure Checked (height : UInt64) (b : Block) : Prop where
  height : b.header.height = height
  signed : ∀ tx ∈ b.txs, tx.verify = true
  base : ∀ tx ∈ b.txs, tx.base_height = b.header.height - 1

theorem validate_inner_checked {b : Block} {w : Option (List Int64)} {parent_height : UInt64} {led : TokenLedger}
    {dc : Option String} {jurors : StrSet} {model : ModelState} {params : GenesisParams} {v : Validated}
    (h : validate_inner b w parent_height led dc jurors model params = .ok v) :
    Checked (parent_height + 1) b ∧ token_transition led b dc jurors = .ok v.ledger := by
  simp only [validate_inner, bind_eq_ok, pure_eq_ok, require_eq_ok, exists_unit, forM_eq_ok] at h
  obtain ⟨hheader, htxs, -, -, -, -, -, -, led', hled, -, rfl⟩ := h
  simp only [check_header, bind_eq_ok, require_eq_ok, exists_unit] at hheader
  have htx (tx : BackpropTx) (hmem : tx ∈ b.txs) : tx.verify = true ∧ tx.base_height = b.header.height - 1 := by
    have := htxs tx hmem
    simp only [check_tx, bind_eq_ok, require_eq_ok, exists_unit] at this
    exact ⟨this.1, this.2.1⟩
  exact ⟨⟨hheader.2.1, fun tx hmem => (htx tx hmem).1, fun tx hmem => (htx tx hmem).2⟩, hled⟩

/-! ## Chains -/

/-- A chain of blocks that the validator accepts, each on its parent, the ledger after it and the bonds given back. -/
inductive Bonded (dc : Option String) (params : GenesisParams) :
    List Block → TokenLedger → List (String × Bond) → Prop where
  | genesis : Bonded dc params [] (genesis_ledger dc) []
  | block {chain : List Block} {led : TokenLedger} {back : List (String × Bond)} {b : Block} {w : Option (List Int64)}
      {jurors : StrSet} {model : ModelState} {v : Validated} : Bonded dc params chain led back →
      validate_inner b w (UInt64.ofNat chain.length) led dc jurors model params = .ok v →
      Bonded dc params (chain ++ [b]) v.ledger (back ++ due_bonds led b.header.height)

/-- No two deltas of the chain collide under SHA-256. -/
def NoDeltaCollision (chain : List Block) : Prop :=
  ∀ t ∈ chain.flatMap (·.txs), ∀ u ∈ chain.flatMap (·.txs), t.txid = u.txid → t.signing_bytes = u.signing_bytes

/-- Every delta counts once: its bond stands in the books under its id until it expires, and then
comes back. What was locked is what came back and what is in the books, each bond once. -/
structure BondsKept (chain : List Block) (back : List (String × Bond)) (led : TokenLedger) : Prop where
  distinct : ∀ b ∈ chain, (b.txs.map BackpropTx.txid).Nodup
  once : (back ++ led.bonds.toList).Perm (locked chain)
  recorded : ∀ pre b post, chain = pre ++ b :: post → ∀ l ∈ locks b,
    (∀ b' ∈ post, ¬ l.2.expiry ≤ b'.header.height) → led.bonds[l.1]? = some l.2
  returned : ∀ pre b post, chain = pre ++ b :: post → ∀ l ∈ locks b,
    (∃ b' ∈ post, l.2.expiry ≤ b'.header.height) → l ∈ back

variable {dc : Option String} {params : GenesisParams} {chain : List Block} {led led' : TokenLedger}
  {back : List (String × Bond)}

omit [Crypto] in
theorem split_snoc {pre post : List Block} {b c : Block} (h : chain ++ [b] = pre ++ c :: post) :
    post = [] ∧ pre = chain ∧ c = b ∨ ∃ post', post = post' ++ [b] ∧ chain = pre ++ c :: post' := by
  rcases List.eq_nil_or_concat post with rfl | ⟨post', b', rfl⟩
  · obtain ⟨hpre, hc⟩ := List.append_inj' h rfl
    exact .inl ⟨rfl, hpre.symm, (List.singleton_inj.mp hc).symm⟩
  · rw [List.concat_eq_append, ← List.cons_append, ← List.append_assoc] at h
    obtain ⟨hchain, hb⟩ := List.append_inj' h rfl
    exact .inr ⟨post', by rw [List.concat_eq_append, List.singleton_inj.mp hb], hchain⟩

theorem Bonded.checked (h : Bonded dc params chain led back) {pre post : List Block} {b : Block}
    (hsplit : chain = pre ++ b :: post) : Checked (UInt64.ofNat (pre.length + 1)) b := by
  induction h generalizing pre post b with
  | genesis => simp at hsplit
  | block _ hv ih =>
    rcases split_snoc hsplit with ⟨-, rfl, rfl⟩ | ⟨post', -, hchain⟩
    · rw [UInt64.ofNat_add]
      exact (validate_inner_checked hv).1
    · exact ih hchain

theorem lock_bonds_get {txs : List BackpropTx} {height : UInt64} {k : String} {bd : Bond}
    (h : txs.foldlM (lock_tx_bond height) led = .ok led') (hget : led'.bonds[k]? = some bd) :
    (k, bd) ∈ (bonded_txs txs).map (lock_of height) ∨ led.bonds[k]? = some bd := by
  induction txs generalizing led with
  | nil =>
    rw [List.foldlM_nil, pure_eq_ok] at h
    exact .inr (h ▸ hget)
  | cons tx txs ih =>
    rw [List.foldlM_cons, bind_eq_ok] at h
    obtain ⟨mid, hmid, h⟩ := h
    rcases lock_tx_bond_spec hmid with ⟨h0, rfl⟩ | ⟨hpos, -, rfl⟩
    · rw [show bonded_txs (tx :: txs) = bonded_txs txs from List.filter_cons_of_neg (by simp [h0])]
      exact ih h
    · rw [show bonded_txs (tx :: txs) = tx :: bonded_txs txs from List.filter_cons_of_pos (by simpa using hpos),
        List.map_cons]
      rcases ih h with hmem | hmem
      · exact .inl (List.mem_cons_of_mem _ hmem)
      · rw [SumMap.get_insert] at hmem
        split at hmem
        · rename_i hk
          rw [← hk, ← Option.some.inj hmem]
          exact .inl List.mem_cons_self
        · exact .inr hmem

/-- A bond in the books was locked by a block, and no block since has reached its expiry. -/
theorem Bonded.live (h : Bonded dc params chain led back) {k : String} {bd : Bond} (hget : led.bonds[k]? = some bd) :
    ∃ pre b post, chain = pre ++ b :: post ∧ (k, bd) ∈ locks b ∧ ∀ b' ∈ post, ¬ bd.expiry ≤ b'.header.height := by
  induction h generalizing k bd with
  | genesis =>
    have hnone : (genesis_ledger dc).bonds = ∅ := by cases dc <;> rfl
    rw [hnone] at hget
    simp at hget
  | @block chain led back b w jurors model v _ hv ih =>
    obtain ⟨swept, before, after, hswept, hbefore, hlock, hafter⟩ := token_transition_bonds (validate_inner_checked hv).2
    rw [hafter] at hget
    rcases lock_bonds_get hlock hget with hmem | hmem
    · exact ⟨chain, b, [], rfl, hmem, nofun⟩
    · rw [hbefore, resolve_expired_bonds_get, hswept, Option.filter_eq_some_iff, decide_eq_true_eq] at hmem
      obtain ⟨pre, c, post, hchain, hlocks, hlate⟩ := ih hmem.1
      refine ⟨pre, c, post ++ [b], by rw [hchain, List.append_assoc]; rfl, hlocks, fun b' hb' => ?_⟩
      rcases List.mem_append.mp hb' with hb' | hb'
      · exact hlate b' hb'
      · rw [List.mem_singleton.mp hb', UInt64.not_le]
        exact hmem.2

/-! ## Ids of different heights -/

/-- The signed bytes of a delta tell the height it builds on. -/
theorem same_base_height {t u : BackpropTx} (ht : t.verify = true) (hu : u.verify = true)
    (h : t.signing_bytes = u.signing_bytes) : t.base_height = u.base_height := by
  have hframe (tx : BackpropTx) : ∃ rest, tx.signing_bytes = framed (as_bytes "backprop") ++
      (framed (as_bytes tx.miner) ++ (framed (num_bytes tx.base_height) ++ rest)) := by
    unfold BackpropTx.signing_bytes BackpropTx.signing_parts frame framed num_bytes
    simp only [List.cons_append, List.flatMap_cons, List.append_assoc]
    exact ⟨_, rfl⟩
  obtain ⟨r, hr⟩ := hframe t
  obtain ⟨r', hr'⟩ := hframe u
  rw [hr, hr', List.append_cancel_left_eq] at h
  have hminer := framed_front (verified_length ht ▸ by norm_num) (verified_length hu ▸ by norm_num) h
  rw [hminer, List.append_cancel_left_eq] at h
  have hshort (n : UInt64) : (num_bytes n).length < 2 ^ 32 := (length_num_bytes n).trans_lt (by norm_num)
  exact num_bytes_inj (framed_front (hshort _) (hshort _) h)

theorem mem_locks {b : Block} {l : String × Bond} (h : l ∈ locks b) :
    ∃ tx ∈ b.txs, 0 < tx.bond ∧ l = (tx.txid, bond_of b.header.height tx) := by
  obtain ⟨tx, htx, rfl⟩ := List.mem_map.mp h
  obtain ⟨hmem, hpos⟩ := List.mem_filter.mp htx
  exact ⟨tx, hmem, by simpa using hpos, rfl⟩

/-- A bond is given back within `BOND_WINDOW` blocks, also where the height wraps. -/
theorem live_young {pre post : List Block} {b : Block} {l : String × Bond} (h : Bonded dc params chain led back)
    (hsplit : chain = pre ++ b :: post) (hl : l ∈ locks b) (hlate : ∀ b' ∈ post, ¬ l.2.expiry ≤ b'.header.height) :
    post.length < 20 := by
  by_contra hlong
  have hlt : 19 < post.length := by omega
  obtain ⟨tx, -, -, rfl⟩ := mem_locks hl
  have hdue : chain = (pre ++ b :: post.take 19) ++ post[19] :: post.drop 20 := by
    rw [hsplit, List.append_assoc, List.cons_append]
    congr 2
    rw [← List.drop_eq_getElem_cons hlt, List.take_append_drop]
  have hheight := (h.checked hdue).height
  have hlen : (pre ++ b :: post.take 19).length + 1 = pre.length + 1 + 20 := by
    rw [List.length_append, List.length_cons, List.length_take_of_le hlt.le]
  have hexpiry : post[19].header.height = b.header.height + BOND_WINDOW := by
    rw [hheight, hlen, UInt64.ofNat_add, ← (h.checked hsplit).height]
    rfl
  refine hlate post[19] (List.getElem_mem hlt) ?_
  rw [hexpiry]
  exact UInt64.le_refl _

/-- No delta of the next block has the id of a bond in the books. -/
theorem Bonded.fresh (h : Bonded dc params chain led back) {b : Block}
    (hb : Checked (UInt64.ofNat (chain.length + 1)) b) (hcol : NoDeltaCollision (chain ++ [b])) {tx : BackpropTx}
    (htx : tx ∈ b.txs) : tx.txid ∉ led.bonds := by
  intro hmem
  obtain ⟨bd, hbd⟩ := Option.isSome_iff_exists.mp (Std.ExtTreeMap.mem_iff_isSome_getElem?.mp hmem)
  obtain ⟨pre, c, post, hchain, hlocks, hlate⟩ := h.live hbd
  obtain ⟨u, hu, -, he⟩ := mem_locks hlocks
  have hyoung := live_young h hchain hlocks hlate
  have hc := h.checked hchain
  have hbytes : tx.signing_bytes = u.signing_bytes := by
    refine hcol tx ?_ u ?_ (congrArg Prod.fst he)
    · exact List.mem_flatMap.mpr ⟨b, List.mem_append_right _ (List.mem_singleton_self _), htx⟩
    · exact List.mem_flatMap.mpr ⟨c, List.mem_append_left _ (hchain ▸ List.mem_append_right _ List.mem_cons_self), hu⟩
  have hbase := same_base_height (hb.signed tx htx) (hc.signed u hu) hbytes
  rw [hb.base tx htx, hc.base u hu, hb.height, hc.height] at hbase
  have hlen : chain.length = pre.length + 1 + post.length := by
    rw [hchain, List.length_append, List.length_cons]
    omega
  rw [UInt64.ofNat_add, UInt64.ofNat_add, show UInt64.ofNat 1 = 1 from rfl, UInt64.add_sub_cancel,
    UInt64.add_sub_cancel] at hbase
  have hnat := congrArg UInt64.toNat hbase
  rw [UInt64.toNat_ofNat', UInt64.toNat_ofNat', hlen] at hnat
  omega

theorem txids_nodup {txs : List BackpropTx} (hcol : ∀ t ∈ txs, ∀ u ∈ txs, t.txid = u.txid → t.signing_bytes = u.signing_bytes)
    (h : (txs.map BackpropTx.signing_bytes).Nodup) : (txs.map BackpropTx.txid).Nodup := by
  unfold List.Nodup at h ⊢
  rw [List.pairwise_map] at h ⊢
  exact h.imp_of_mem fun ht hu hne he => hne (hcol _ ht _ hu he)

omit [Crypto] in
theorem due_bonds_congr {led led' : TokenLedger} (h : led.bonds = led'.bonds) (height : UInt64) :
    due_bonds led height = due_bonds led' height := by
  unfold due_bonds
  rw [h]

open scoped List in
/-- What a block that lists no delta twice does to the books. -/
theorem Bonded.step (h : Bonded dc params chain led back) {b : Block} {jurors : StrSet}
    (hb : Checked (UInt64.ofNat (chain.length + 1)) b) (ht : token_transition led b dc jurors = .ok led')
    (hcol : NoDeltaCollision (chain ++ [b])) (hnodup : (b.txs.map BackpropTx.txid).Nodup) :
    (due_bonds led b.header.height ++ led'.bonds.toList).Perm (led.bonds.toList ++ locks b) := by
  obtain ⟨swept, before, after, hswept, hbefore, hlock, hafter⟩ := token_transition_bonds ht
  have hsplit := resolve_expired_bonds_perm swept b.header.height
  rw [hswept, due_bonds_congr hswept, ← hbefore] at hsplit
  have hnew := lock_bonds_perm hlock hnodup fun tx htx hmem => by
    refine h.fresh hb hcol (List.mem_of_mem_filter htx) ?_
    rw [hbefore, Std.ExtTreeMap.mem_iff_isSome_getElem?, resolve_expired_bonds_get, hswept] at hmem
    obtain ⟨bd, hbd⟩ := Option.isSome_iff_exists.mp hmem
    rw [Std.ExtTreeMap.mem_iff_isSome_getElem?, (Option.filter_eq_some_iff.mp hbd).1]
    rfl
  rw [hafter]
  calc due_bonds led b.header.height ++ after.bonds.toList
      _ ~ due_bonds led b.header.height ++ (locks b ++ before.bonds.toList) := hnew.append_left _
      _ ~ due_bonds led b.header.height ++ before.bonds.toList ++ locks b := by
        rw [List.append_assoc]
        exact List.perm_append_comm.append_left _
      _ ~ led.bonds.toList ++ locks b := hsplit.symm.append_right _

theorem NoDeltaCollision.before {b : Block} (h : NoDeltaCollision (chain ++ [b])) : NoDeltaCollision chain := by
  have hsub : chain.flatMap (·.txs) ⊆ (chain ++ [b]).flatMap (·.txs) := by
    rw [List.flatMap_append]
    exact List.subset_append_left _ _
  exact fun t ht u hu => h t (hsub ht) u (hsub hu)

open scoped List in
theorem BondsKept.step (hk : BondsKept chain back led) {b : Block} (hnodup : (b.txs.map BackpropTx.txid).Nodup)
    (hfresh : ∀ tx ∈ b.txs, tx.txid ∉ led.bonds)
    (hstep : (due_bonds led b.header.height ++ led'.bonds.toList).Perm (led.bonds.toList ++ locks b)) :
    BondsKept (chain ++ [b]) (back ++ due_bonds led b.header.height) led' := by
  have hin {l : String × Bond} (hl : l ∈ led.bonds.toList ++ locks b) :
      l ∈ due_bonds led b.header.height ∨ led'.bonds[l.1]? = some l.2 := by
    rcases List.mem_append.mp (hstep.mem_iff.mpr hl) with hdue | hmem
    · exact .inl hdue
    · exact .inr (Std.ExtTreeMap.mem_toList_iff_getElem?_eq_some.mp hmem)
  refine ⟨fun c hc => ?_, ?_, fun pre c post hsplit l hl hlate => ?_, fun pre c post hsplit l hl hdue => ?_⟩
  · rcases List.mem_append.mp hc with hc | hc
    · exact hk.distinct c hc
    · exact List.mem_singleton.mp hc ▸ hnodup
  · calc back ++ due_bonds led b.header.height ++ led'.bonds.toList
        _ = back ++ (due_bonds led b.header.height ++ led'.bonds.toList) := List.append_assoc ..
        _ ~ back ++ (led.bonds.toList ++ locks b) := hstep.append_left _
        _ = back ++ led.bonds.toList ++ locks b := (List.append_assoc ..).symm
        _ ~ locked chain ++ locks b := hk.once.append_right _
        _ = locked (chain ++ [b]) := by
          unfold locked
          rw [List.flatMap_append, List.flatMap_singleton]
  · rcases split_snoc hsplit with ⟨-, rfl, rfl⟩ | ⟨post', rfl, hchain⟩
    · refine (hin (List.mem_append_right _ hl)).resolve_left fun hdue => ?_
      obtain ⟨tx, htx, -, rfl⟩ := mem_locks hl
      have hget := Std.ExtTreeMap.mem_toList_iff_getElem?_eq_some.mp (List.mem_of_mem_filter hdue)
      exact hfresh tx htx (Std.ExtTreeMap.mem_iff_isSome_getElem?.mpr (by rw [hget]; rfl))
    · have hold := hk.recorded pre c post' hchain l hl fun b' hb' => hlate b' (List.mem_append_left _ hb')
      have hmem : l ∈ led.bonds.toList := Std.ExtTreeMap.mem_toList_iff_getElem?_eq_some.mpr hold
      refine (hin (List.mem_append_left _ hmem)).resolve_left fun hdue => ?_
      exact hlate b (List.mem_append_right _ (List.mem_singleton_self _)) (of_decide_eq_true (List.mem_filter.mp hdue).2)
  · rcases split_snoc hsplit with ⟨rfl, -, -⟩ | ⟨post', rfl, hchain⟩
    · obtain ⟨b', hb', -⟩ := hdue
      cases hb'
    · by_cases hbefore : ∃ b' ∈ post', l.2.expiry ≤ b'.header.height
      · exact List.mem_append_left _ (hk.returned pre c post' hchain l hl hbefore)
      · have hold := hk.recorded pre c post' hchain l hl fun b' hb' hle => hbefore ⟨b', hb', hle⟩
        obtain ⟨b', hb', hle⟩ := hdue
        obtain rfl := List.mem_singleton.mp ((List.mem_append.mp hb').resolve_left fun hb' => hbefore ⟨b', hb', hle⟩)
        refine List.mem_append_right _ (List.mem_filter.mpr ⟨?_, decide_eq_true hle⟩)
        exact Std.ExtTreeMap.mem_toList_iff_getElem?_eq_some.mpr hold

/-- Along a chain of accepted blocks every delta counts once, and every bond is recorded until it expires and comes
back once, if and only if no block lists one delta twice. -/
theorem bonds_kept_iff (h : Bonded dc params chain led back) (hcol : NoDeltaCollision chain) :
    BondsKept chain back led ↔ ∀ b ∈ chain, (b.txs.map BackpropTx.signing_bytes).Nodup := by
  constructor
  · intro hk b hb
    have hids := hk.distinct b hb
    rw [show BackpropTx.txid = sha256_hex ∘ BackpropTx.signing_bytes from rfl, ← List.map_map] at hids
    exact List.Nodup.of_map _ hids
  · intro honce
    induction h with
    | genesis =>
      have hnone : (genesis_ledger dc).bonds.toList = [] := by cases dc <;> rfl
      exact ⟨nofun, by rw [hnone]; exact List.Perm.refl _, fun pre b post h => by simp at h, fun pre b post h => by simp at h⟩
    | @block chain led back b w jurors model v h hv ih =>
      obtain ⟨hb, ht⟩ := validate_inner_checked hv
      have hb : Checked (UInt64.ofNat (chain.length + 1)) b := by
        rw [UInt64.ofNat_add]
        exact hb
      have hnodup : (b.txs.map BackpropTx.txid).Nodup := by
        have hmem : ∀ t ∈ b.txs, t ∈ (chain ++ [b]).flatMap (·.txs) := fun t ht =>
          List.mem_flatMap.mpr ⟨b, List.mem_append_right _ (List.mem_singleton_self _), ht⟩
        exact txids_nodup (fun t ht u hu => hcol t (hmem t ht) u (hmem u hu))
          (honce b (List.mem_append_right _ (List.mem_singleton_self _)))
      exact (ih hcol.before fun c hc => honce c (List.mem_append_left _ hc)).step hnodup
        (fun tx htx => h.fresh hb hcol htx) (h.step hb ht hcol hnodup)

/-! ## Sealed blocks -/

/-- The block with the roots that the validator computes from it. -/
def seal_full (led : TokenLedger) (w : List Int64) (model : ModelState) (params : GenesisParams) (dc : Option String)
    (jurors : StrSet) (d : Block) : Block :=
  let post := fold_block d model params
  { d with header := { d.header with
      state_root := page_state_root (dense_post d w model params post.2) post.1
      model_root := post.1.model_root
      ledger_root := match token_transition led d dc jurors with
        | .ok led' => led'.root
        | .error _ => "" } }

theorem seal_full_accepted {d : Block} {w : List Int64} {height : UInt64} {led led' : TokenLedger} {dc : Option String}
    {jurors : StrSet} {model : ModelState} {params : GenesisParams} (hheader : check_header d height led params = .ok ())
    (htxs : ∀ tx ∈ d.txs, check_tx d (some w) w.length model params tx = .ok ()) (hsets : check_sets d = .ok ())
    (htransfer : transfer_root d.transfers = d.header.transfer_root) (hdata : data_root d.data_txs = d.header.data_root)
    (htoken : token_transition led d dc jurors = .ok led') :
    ∃ v, v.ledger = led' ∧
      validate_inner (seal_full led w model params dc jurors d) (some w) height led dc jurors model params = .ok v := by
  have hfold : fold_block (seal_full led w model params dc jurors d) model params = fold_block d model params := rfl
  have htoken' : token_transition led (seal_full led w model params dc jurors d) dc jurors = .ok led' := htoken
  have hroot : led'.root = (seal_full led w model params dc jurors d).header.ledger_root := by
    unfold seal_full
    simp only [htoken]
  have hweights : check_weights (seal_full led w model params dc jurors d) w model params (fold_block d model params).1
      (fold_block d model params).2 = .ok (dense_post d w model params (fold_block d model params).2) := by
    unfold check_weights
    simp only [bind_eq_ok, require_eq_ok, pure_eq_ok, exists_unit]
    exact ⟨rfl, rfl⟩
  refine ⟨{ weights := some (dense_post d w model params (fold_block d model params).2), ledger := led'
            model := (fold_block d model params).1, activations := (fold_block d model params).2 }, rfl, ?_⟩
  simp only [validate_inner, bind_eq_ok, require_eq_ok, pure_eq_ok, exists_unit, forM_eq_ok, mapM_some_eq_ok, htoken', hfold]
  exact ⟨hheader, htxs, hsets, _, ⟨_, hweights, rfl⟩, rfl, htransfer, hdata, led', rfl, hroot, rfl⟩

end Any

open scoped Toy
namespace Toy

def bonded_unsigned : BackpropTx :=
  { miner := hex_encode (key 7).val, base_height := 0, delta_hash := delta_hash (int64_bytes [1]), da_pointer := "body",
    bond := 1, pages := [0], data_refs := ["genesis"], sig := [] }

def bonded_tx : BackpropTx :=
  { bonded_unsigned with sig := (sign (key 7) bonded_unsigned.signing_bytes).val }

theorem one_weight_addressable (i : Nat) (hi : ([1] : List Int64).getD i 0 ≠ 0) : i < 2 ^ 32 := by
  cases i with
  | zero => norm_num
  | succ i => exact absurd (by simp) hi

def one_weight : DenseBody := { vals := [1], addressable := one_weight_addressable }

/-- Block 1 by the owner of the key, which lists its delta `n` times. -/
def listing_draft (n : Nat) : Block :=
  let scores : Dict UInt64 := (∅ : Dict UInt64).insert bonded_tx.txid 1
  let sketches : Dict (List Int32) := (∅ : Dict (List Int32)).insert bonded_tx.txid (List.replicate SKETCH_DIM 0)
  let prev_hash := (genesis_header [5] params).block_hash
  let proof := vrf_prove (key 7) prev_hash 1 lottery.ATTEMPT_MAX
  { header :=
      { height := 1, prev_hash, state_root := "", txset_root := txset_root (List.replicate n bonded_tx.txid)
        n_txs := UInt64.ofNat n, work := lottery.attempt_work proof lottery.ATTEMPT_MAX, proposer := hex_encode (key 7).val
        transfer_root := transfer_root [], ledger_root := "", data_root := data_root [], vrf_proof := hex_encode proof
        score_root := scores_root scores, sketch_root := sketch_root sketches, model_root := ""
        vrf_attempt := lottery.ATTEMPT_MAX, version := expected_version_at 1 params }
    txs := List.replicate n bonded_tx
    bodies := (∅ : Dict DenseBody).insert "body" one_weight
    sparse := ∅
    transfers := []
    data_txs := []
    scores
    sketches
    witness_leaves := [] }

def owner_ledger : TokenLedger := genesis_ledger (some "owner")

def listing (n : Nat) : Block :=
  seal_full owner_ledger [5] (ModelState.genesis spec) params (some "owner") ∅ (listing_draft n)

theorem bonded_tx_signed : bonded_tx.verify = true :=
  verify_sign (hex_decode_encode (key 7).val) bonded_unsigned.signing_bytes

theorem listing_header (n : Nat) (hn : n < 2 ^ 64) : check_header (listing_draft n) 0 owner_ledger params = .ok () := by
  simp only [check_header, bind_eq_ok, require_eq_ok, exists_unit]
  refine ⟨rfl, rfl, ?_, lottery_last _ (key 7) (hex_decode_encode (key 7).val) (hex_ne_genesis (key 7).val) rfl rfl rfl⟩
  change (UInt64.ofNat n).toNat = (List.replicate n bonded_tx).length
  rw [List.length_replicate, UInt64.toNat_ofNat_of_lt' hn]

theorem bonded_sets {n : Nat} (hn : n ≠ 0) {b : Block} {score : UInt64} {sketch : List Int32}
    (htxs : b.txs.map (·.txid) = List.replicate n bonded_tx.txid)
    (hscores : b.scores = (∅ : Dict UInt64).insert bonded_tx.txid score) (hcap : score ≤ SCORE_CAP)
    (hsketches : b.sketches = (∅ : Dict (List Int32)).insert bonded_tx.txid sketch) (hlen : sketch.length = SKETCH_DIM)
    (hroots : txset_root (List.replicate n bonded_tx.txid) = b.header.txset_root ∧ scores_root b.scores = b.header.score_root ∧
      sketch_root b.sketches = b.header.sketch_root) : check_sets b = .ok () := by
  have hkeys {ν : Type} (v : ν) (k : String) : k ∈ ((∅ : Dict ν).insert bonded_tx.txid v).keys ↔ k = bonded_tx.txid := by
    rw [Std.ExtTreeMap.mem_keys, mem_insert_iff]
    simp
  have hvals {ν : Type} (v x : ν) (hx : x ∈ ((∅ : Dict ν).insert bonded_tx.txid v).values) : x = v := by
    obtain ⟨k, hk⟩ := SumMap.mem_values.mp hx
    rw [SumMap.get_insert] at hk
    split at hk
    · exact (Option.some.inj hk).symm
    · simp at hk
  have hmem (k : String) : k ∈ List.replicate n bonded_tx.txid ↔ k = bonded_tx.txid := by
    rw [List.mem_replicate]
    exact ⟨And.right, fun h => ⟨hn, h⟩⟩
  obtain ⟨htxset, hscore, hsketch⟩ := hroots
  simp only [check_sets, bind_eq_ok, require_eq_ok, exists_unit, htxs]
  rw [hscores] at hscore ⊢
  rw [hsketches] at hsketch ⊢
  refine ⟨htxset, ⟨fun k hk => ?_, fun k hk => ?_⟩, fun v hv => ?_, hscore, ⟨fun k hk => ?_, fun k hk => ?_⟩,
    fun v hv => ?_, hsketch⟩
  · exact (hmem k).mpr ((hkeys _ k).mp hk)
  · exact (hkeys _ k).mpr ((hmem k).mp hk)
  · rw [hvals _ v hv]
    exact hcap
  · exact (hmem k).mpr ((hkeys _ k).mp hk)
  · exact (hkeys _ k).mpr ((hmem k).mp hk)
  · rw [hvals _ v hv, hlen]

theorem listing_sets {n : Nat} (hn : n ≠ 0) : check_sets (listing_draft n) = .ok () :=
  bonded_sets hn List.map_replicate rfl (by decide) rfl List.length_replicate ⟨rfl, rfl, rfl⟩

theorem listing_tx (n : Nat) : check_tx (listing_draft n) (some [5]) 1 (ModelState.genesis spec) params bonded_tx = .ok () := by
  have hbody : (listing_draft n).bodies[bonded_tx.da_pointer]? = some one_weight := Std.ExtTreeMap.getElem?_insert_self
  have hmask : body_of (listing_draft n) bonded_tx = [1] := by
    rw [body_of, hbody]
    rfl
  simp only [check_tx, check_body, check_mask, hbody, hmask, ok_or, Option.isSome_some, if_true, bind_eq_ok, require_eq_ok,
    exists_unit]
  refine ⟨bonded_tx_signed, show (0 : UInt64) = 1 - 1 by decide, ⟨one_weight, rfl, rfl, rfl⟩, ?_, ?_, ?_, ?_⟩
  · rfl
  · rfl
  · decide +kernel
  · decide +kernel

theorem listing_accepted {n : Nat} (hn : n ≠ 0) (hsmall : n < 2 ^ 64) {led : TokenLedger}
    (hled : token_transition owner_ledger (listing_draft n) (some "owner") ∅ = .ok led) :
    ∃ v, v.ledger = led ∧ validate_inner (listing n) (some [5]) 0 owner_ledger (some "owner") ∅ (ModelState.genesis spec)
      params = .ok v := by
  refine seal_full_accepted (listing_header n hsmall) (fun tx htx => ?_) (listing_sets hn) rfl rfl hled
  obtain rfl : tx = bonded_tx := List.eq_of_mem_replicate (show tx ∈ List.replicate n bonded_tx from htx)
  exact listing_tx n

theorem listing_bonded {n : Nat} (hn : n ≠ 0) (hsmall : n < 2 ^ 64)
    (hok : (token_transition owner_ledger (listing_draft n) (some "owner") ∅).isOk = true) :
    ∃ v, validate_inner (listing n) (some [5]) 0 owner_ledger (some "owner") ∅ (ModelState.genesis spec) params = .ok v ∧
      Bonded (some "owner") params [listing n] v.ledger [] := by
  cases hled : token_transition owner_ledger (listing_draft n) (some "owner") ∅ with
  | error e =>
    rw [hled] at hok
    cases hok
  | ok led =>
    obtain ⟨v, -, hv⟩ := listing_accepted hn hsmall hled
    exact ⟨v, hv, Bonded.block .genesis hv⟩

theorem listing_txs (n : Nat) : (listing n).txs = List.replicate n bonded_tx := rfl

theorem listing_locks (n : Nat) : locked [listing n] = List.replicate n (lock_of 1 bonded_tx) := by
  have hpos : decide (0 < bonded_tx.bond) = true := show decide ((0 : UInt64) < 1) = true by decide
  rw [locked, List.flatMap_singleton, locks, listing_txs, bonded_txs,
    List.filter_eq_self.mpr fun tx htx => by rw [List.eq_of_mem_replicate htx]; exact hpos, List.map_replicate]
  rfl

theorem listed_once : (token_transition owner_ledger (listing_draft 1) (some "owner") ∅).isOk = true := by decide +kernel

theorem listed_twice : (token_transition owner_ledger (listing_draft 2) (some "owner") ∅).isOk = true := by decide +kernel

end Toy

theorem bonds_kept_once : ∃ led, Bonded (some "owner") Toy.params [Toy.listing 1] led [] ∧
    BondsKept [Toy.listing 1] [] led := by
  obtain ⟨v, -, h⟩ := Toy.listing_bonded (by decide) (by norm_num) Toy.listed_once
  refine ⟨v.ledger, h, (bonds_kept_iff h fun t ht u hu _ => ?_).mpr fun b hb => ?_⟩
  · rw [List.flatMap_singleton, Toy.listing_txs] at ht hu
    rw [List.eq_of_mem_replicate ht, List.eq_of_mem_replicate hu]
  · rw [List.mem_singleton.mp hb, Toy.listing_txs]
    exact List.nodup_singleton _

/-- A block that lists one delta twice is accepted. Two bonds are taken and at most one is in the books. -/
theorem delta_counts_twice : ∃ v,
    validate_inner (Toy.listing 2) (some [5]) 0 Toy.owner_ledger (some "owner") ∅ (ModelState.genesis Toy.spec) Toy.params = .ok v ∧
      Bonded (some "owner") Toy.params [Toy.listing 2] v.ledger [] ∧
      ¬ ((Toy.listing 2).txs.map BackpropTx.txid).Nodup ∧ ¬ v.ledger.bonds.toList.Perm (locked [Toy.listing 2]) := by
  obtain ⟨v, hv, h⟩ := Toy.listing_bonded (by decide) (by norm_num) Toy.listed_twice
  refine ⟨v, hv, h, fun hnodup => ?_, fun hperm => ?_⟩
  · rw [Toy.listing_txs, List.map_replicate] at hnodup
    exact absurd hnodup (by simp [List.replicate])
  · have hnodup := hperm.nodup_iff.mp (SumMap.toList_nodup v.ledger.bonds)
    rw [Toy.listing_locks] at hnodup
    exact absurd hnodup (by simp [List.replicate])

end Sestrian
