import Sestrian.Tree.Step

/-!
# The ledger of a chain

What the tree keeps as the ledger of a block is the token transition of every block of its
chain, in order, from the genesis ledger. The jurors of each are the proposers before it.
-/

open Walk Check

namespace Sestrian

open Aggregate Pages BlockTree

variable [Crypto]

/-- The proposers of the last blocks of a chain. -/
def jurors_of (chain : List Block) : StrSet :=
  ((chain.reverse.take PROPOSER_LOOKBACK).map (·.header.proposer)).foldl (fun s p => s.insert p) ∅

/-- A chain of accepted blocks, and the ledger after it. -/
inductive Booked (dc : Option String) : List Block → TokenLedger → Prop where
  | genesis : Booked dc [] (genesis_ledger dc)
  | block {chain : List Block} {led led' : TokenLedger} {b : Block} : Booked dc chain led →
      token_transition led b dc (jurors_of chain) = .ok led' → Booked dc (chain ++ [b]) led'

/-! ## Chains in a growing log -/

omit [Crypto] in
theorem Chain.mono {log : Dict Block} {g h k : String} {c : List Block} (hc : Chain log g h c) (hk : k ∉ log) (b : Block) :
    Chain (log.insert k b) g h c := by
  induction hc with
  | genesis => exact .genesis
  | block hne hget _ ih =>
    refine .block hne ?_ ih
    rw [SumMap.get_insert, if_neg]
    · exact hget
    · rintro rfl
      exact hk (Std.ExtTreeMap.mem_iff_isSome_getElem?.mpr (by rw [hget]; rfl))

variable {genesis_w : List Int64} {params : GenesisParams} {n : Logged} {S : String → List Int64 × ModelState}

/-- The walk back from a block passes the blocks of its chain. -/
theorem Coherent.walk_chain (hc : Coherent genesis_w params n S) {h : String} {c : List Block}
    (hch : Chain n.log n.tree.genesis_hash h c) (fuel : Nat) :
    ((walk n.tree.parent (· = n.tree.genesis_hash) fuel h).1.filterMap fun cur =>
      n.tree.blocks[cur]?.map (·.proposer)) = (c.reverse.take fuel).map (·.header.proposer) := by
  induction hch generalizing fuel with
  | genesis => cases fuel <;> simp [walk]
  | @block h b c hne hb _ ih =>
    cases fuel with
    | zero => simp [walk]
    | succ fuel =>
      obtain ⟨-, -, hblocks, -⟩ := hc.logged h b hb
      have hparent : n.tree.parent h = some b.header.prev_hash := by simp [parent, hblocks]
      simp only [walk, hne, decide_false, Bool.false_eq_true, if_false, hparent]
      rw [List.filterMap_cons, hblocks, Option.map_some, ih, List.reverse_append, List.reverse_singleton,
        List.singleton_append, List.take_succ_cons, List.map_cons]

theorem Coherent.jurors_eq (hc : Coherent genesis_w params n S) {h : String} {c : List Block}
    (hch : Chain n.log n.tree.genesis_hash h c) : n.tree.recent_proposers h = jurors_of c := by
  unfold recent_proposers jurors_of
  simp only
  rw [hc.walk_chain hch]

/-! ## Facts about chains -/

/-- A block taken on top of a chain, with the entries of its parent and what it staged. -/
structure Taken (dc : Option String) (params : GenesisParams) (chain : List Block) (led : TokenLedger) (model : ModelState)
    (b : Block) (staged : Staged) : Prop where
  valid : ∃ (t : BlockTree) (p : Parent), t.data_contributor = dc ∧ t.params = params ∧ p.ledger = led ∧ p.model = model ∧
    p.jurors = jurors_of chain ∧ t.validate_at_base b p = .ok staged

/-- A fact about each block's chain and entries. -/
structure OnChains (dc : Option String) (P : List Block → TokenLedger → ModelState → Prop) (n : Logged) : Prop where
  contributor : n.tree.data_contributor = dc
  only_known : ∀ h ∈ n.tree.ledger, h ∈ n.tree.blocks
  holds : ∀ h led model chain, n.tree.ledger[h]? = some led → n.tree.model[h]? = some model →
    Chain n.log n.tree.genesis_hash h chain → P chain led model

variable {dc : Option String} {P : List Block → TokenLedger → ModelState → Prop}

theorem onChains_new (h₀ : P [] (genesis_ledger dc) (ModelState.genesis params.spec)) : OnChains dc P (.new genesis_w dc params) := by
  refine ⟨rfl, fun h hh => hh, fun h led model chain hled hmodel hch => ?_⟩
  have hgen : genesis_ledger dc = led ∧ ModelState.genesis params.spec = model ∧
      (BlockTree.new genesis_w dc params).genesis_hash = h := by
    simp only [Logged.new, BlockTree.new, SumMap.get_insert] at hled hmodel ⊢
    split at hled
    · next hx =>
      rw [if_pos hx] at hmodel
      exact ⟨Option.some.inj hled, Option.some.inj hmodel, hx⟩
    · simp at hled
  obtain ⟨rfl, rfl, rfl⟩ := hgen
  cases hch with
  | genesis => exact h₀
  | block hne _ _ => exact absurd rfl hne

theorem OnChains.connect (h : OnChains dc P n) (hc : Coherent genesis_w params n S) {b : Block} {p : Parent} {staged : Staged}
    (hstep : ∀ chain, P chain p.ledger p.model → Taken dc params chain p.ledger p.model b staged →
      P (chain ++ [b]) staged.led staged.post_model) (ha : n.tree.Accepts S b p staged) :
    OnChains dc P { tree := (n.tree.connected S b p staged).prune_deep, log := n.log.insert b.hash b } := by
  have hfresh : b.hash ∉ n.log := fun hmem => by
    obtain ⟨b', hb'⟩ := Option.isSome_iff_exists.mp (Std.ExtTreeMap.mem_iff_isSome_getElem?.mp hmem)
    refine ha.fresh (Std.ExtTreeMap.mem_iff_isSome_getElem?.mpr ?_)
    rw [(hc.logged _ _ hb').2.2.1]
    rfl
  have hgen : (n.tree.connected S b p staged).prune_deep.genesis_hash = n.tree.genesis_hash := by
    simp only [prune_deep_frame, connected_frame]
  have hled : (n.tree.connected S b p staged).prune_deep.ledger = n.tree.ledger.insert b.hash staged.led := by
    simp only [prune_deep_frame, connected_frame]
  have hmod : (n.tree.connected S b p staged).prune_deep.model = n.tree.model.insert b.hash staged.post_model := by
    simp only [prune_deep_frame, connected_frame]
  refine ⟨?_, fun x hx => ?_, fun x led model chain hget hgetm hch => ?_⟩
  · obtain ⟨doomed, pin, hp⟩ := (n.tree.connected S b p staged).prune_deep_cases
    simp only [hp]
    unfold connected
    split <;> exact h.contributor
  · simp only [prune_deep_frame, connected_frame, mem_insert_iff] at hx ⊢
    exact hx.imp_right (h.only_known x)
  · simp only [hled, SumMap.get_insert] at hget
    simp only [hmod, SumMap.get_insert] at hgetm
    rw [hgen] at hch
    split at hget
    · rename_i hx
      rw [if_pos hx] at hgetm
      subst hx
      obtain ⟨c, hcp⟩ := hc.chain ha.parent_known
      have hnew : Chain (n.log.insert b.hash b) n.tree.genesis_hash b.hash (c ++ [b]) := by
        refine .block (fun he => ha.fresh (he ▸ hc.shape.genesis_known)) ?_ (hcp.mono hfresh b)
        rw [SumMap.get_insert, if_pos rfl]
      obtain rfl := hch.unique hnew
      obtain rfl := Option.some.inj hget
      obtain rfl := Option.some.inj hgetm
      obtain ⟨hpm, hpl, -, -, hjurors⟩ := parent_entries_spec ha.entries
      refine hstep c (h.holds _ _ _ _ hpl hpm hcp) ⟨_, p, ?_, ?_, rfl, rfl, hjurors.trans (hc.jurors_eq hcp), ha.valid⟩
      · exact h.contributor
      · exact hc.same_params
    · rename_i hx
      rw [if_neg hx] at hgetm
      have hmem : x ∈ n.tree.ledger := Std.ExtTreeMap.mem_iff_isSome_getElem?.mpr (by rw [hget]; rfl)
      obtain ⟨c, hcx⟩ := hc.chain (h.only_known x hmem)
      obtain rfl := hch.unique (hcx.mono hfresh b)
      exact h.holds x led model chain hget hgetm hcx

theorem OnChains.step (h : OnChains dc P n) (hc : Coherent genesis_w params n S)
    (hstep : ∀ chain led model b staged, P chain led model → Taken dc params chain led model b staged →
      P (chain ++ [b]) staged.led staged.post_model) (op : Op) : OnChains dc P (n.step op) := by
  have hframe {t : BlockTree} (hs : SameEntries n.tree t) (hdc : t.data_contributor = n.tree.data_contributor) :
      OnChains dc P { n with tree := t } := by
    refine ⟨hdc.trans h.contributor, ?_, ?_⟩
    · rw [hs.ledger, hs.blocks]
      exact h.only_known
    · rw [hs.ledger, hs.model, hs.genesis_hash]
      exact h.holds
  cases op with
  | add_block b =>
    rcases hc.add_block_cases b with ⟨e, he⟩ | ⟨-, he⟩ | ⟨p, staged, ha, he⟩
    · simpa [Logged.step, BlockTree.step, he] using h
    · simpa [Logged.step, BlockTree.step, he] using h
    · have hmem : b.hash ∈ (n.tree.connected S b p staged).blocks := by
        simp only [connected_frame, mem_insert_iff, true_or]
      simpa [Logged.step, BlockTree.step, he, ha.fresh, prune_deep_frame, hmem] using
        h.connect hc (fun chain => hstep chain _ _ b staged) ha
  | with_state_at target =>
    rcases hc.with_state_at_cases target (id : List Int64 → List Int64) with ⟨e, he⟩ | ⟨-, he⟩ <;>
      simpa [Logged.step, BlockTree.step, he] using h
  | convict x =>
    rcases hc.convict_cases x with he | ⟨target, up, down, -, -, -, -, -, he⟩
    · simpa [Logged.step, BlockTree.step, he] using
        hframe (t := { n.tree with convicted := n.tree.convicted.insert x }) ⟨rfl, rfl, rfl, rfl, rfl⟩ rfl
    · simpa [Logged.step, BlockTree.step, he] using
        hframe (t := n.tree.moved_off S (n.tree.convicted.insert x) target up down) ⟨rfl, rfl, rfl, rfl, rfl⟩ rfl
  | set_prune_depth depth => exact hframe (t := { n.tree with prune_depth := depth }) ⟨rfl, rfl, rfl, rfl, rfl⟩ rfl
  | mark_verified txid =>
    exact hframe (t := { n.tree with hash_verified := n.tree.hash_verified.insert txid }) ⟨rfl, rfl, rfl, rfl, rfl⟩ rfl

theorem OnChains.run (h : OnChains dc P n) (hc : Coherent genesis_w params n S)
    (hstep : ∀ chain led model b staged, P chain led model → Taken dc params chain led model b staged →
      P (chain ++ [b]) staged.led staged.post_model) (ops : List Op) : OnChains dc P (n.run ops) := by
  induction ops generalizing n S with
  | nil => exact h
  | cons op ops ih =>
    obtain ⟨S', hc', -⟩ := hc.step op
    exact ih (h.step hc hstep op) hc'

/-- What holds at genesis and passes from a chain to the next block, holds in every run. -/
theorem run_onChains (hw : genesis_w.length = (ModelState.genesis params.spec).dim)
    (h₀ : P [] (genesis_ledger dc) (ModelState.genesis params.spec))
    (hstep : ∀ chain led model b staged, P chain led model → Taken dc params chain led model b staged →
      P (chain ++ [b]) staged.led staged.post_model) (ops : List Op) :
    OnChains dc P ((Logged.new genesis_w dc params).run ops) :=
  (onChains_new h₀).run (coherent_new hw dc) hstep ops

/-! ## The ledger -/

theorem Taken.books {chain : List Block} {led : TokenLedger} {model : ModelState} {b : Block} {staged : Staged}
    (h : Taken dc params chain led model b staged) : token_transition led b dc (jurors_of chain) = .ok staged.led := by
  obtain ⟨t, p, rfl, -, rfl, -, hj, h⟩ := h.valid
  simp only [validate_at_base, validate_inner, bind_eq_ok, pure_eq_ok] at h
  obtain ⟨-, -, v, ⟨-, -, -, -, -, -, -, -, -, -, -, -, -, -, led, hled, -, -, rfl⟩, -, -, rfl⟩ := h
  rw [← hj]
  exact hled

/-- In every run, the ledger of a block is the one its chain books. -/
theorem run_books (hw : genesis_w.length = (ModelState.genesis params.spec).dim) (dc : Option String) (ops : List Op)
    {h : String} {led : TokenLedger} {chain : List Block}
    (hled : ((Logged.new genesis_w dc params).run ops).tree.ledger[h]? = some led)
    (hch : Chain ((Logged.new genesis_w dc params).run ops).log
      ((Logged.new genesis_w dc params).run ops).tree.genesis_hash h chain) : Booked dc chain led := by
  have hon := run_onChains (P := fun chain led _ => Booked dc chain led) hw .genesis
    (fun chain led model b staged hb ht => .block hb ht.books) ops
  obtain ⟨S, hc⟩ := coherent_run hw dc ops
  have hmem := hon.only_known h (Std.ExtTreeMap.mem_iff_isSome_getElem?.mpr (by rw [hled]; rfl))
  exact hon.holds h led _ chain hled (hc.model h hmem) hch

end Sestrian
