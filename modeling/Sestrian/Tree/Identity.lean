import Sestrian.Ledger.Booked
import Sestrian.Tree.Delta
import Sestrian.Tree.Slot
import Sestrian.Tree.Tip

/-!
# Keys and the names they go by

A key proposes and mines under the hex of its bytes, which has more than one spelling. The fold
and the lanes read the text, the signatures read the bytes.
-/

open Check

namespace Sestrian

open BlockTree

section Any

variable [Crypto]

/-! ## Names -/

/-- The texts under which a block's proposer and miners appear. -/
def names (b : Block) : List String := b.header.proposer :: b.txs.map BackpropTx.miner

/-- The text is the lower-case hex of some bytes. -/
def Canonical (s : String) : Prop := ∃ k, s = hex_encode k

/-- Every name of the block is in lower case, and none is the exempt one. -/
def Plain (b : Block) : Prop := ∀ s ∈ names b, Canonical s

omit [Crypto] in
theorem Canonical.unique {s s' : String} (h : Canonical s) (h' : Canonical s') (he : hex_decode s = hex_decode s') :
    s = s' := by
  obtain ⟨k, rfl⟩ := h
  obtain ⟨k', rfl⟩ := h'
  rw [hex_decode_encode, hex_decode_encode] at he
  rw [Option.some.inj he]

/-! ## The model of a chain -/

def model_of (params : GenesisParams) (chain : List Block) : ModelState :=
  chain.foldl (fun m b => (fold_block b m params).1) (ModelState.genesis params.spec)

theorem model_of_snoc (params : GenesisParams) (chain : List Block) (b : Block) :
    model_of params (chain ++ [b]) = (fold_block b (model_of params chain) params).1 := by
  unfold model_of
  rw [List.foldl_append]
  rfl

/-! ## Scorers of a window -/

/-- The block ends a retarget window. -/
def closes (params : GenesisParams) (b : Block) : Bool :=
  b.header.height > 0 ∧ b.header.height % params.retarget_window = 0

/-- The blocks since the last window ended. -/
def window (params : GenesisParams) (chain : List Block) : List Block :=
  chain.foldl (fun w b => if closes params b then [] else w ++ [b]) []

omit [Crypto] in
theorem window_snoc (params : GenesisParams) (chain : List Block) (b : Block) :
    window params (chain ++ [b]) = if closes params b then [] else window params chain ++ [b] := by
  unfold window
  rw [List.foldl_append]
  rfl

/-- Scores of the block count toward its proposer. -/
def scored (b : Block) : Prop := b.scores.values.sum > 0

/-- The counters after the block, before its window is decided. -/
def counted_model (params : GenesisParams) (m : ModelState) (b : Block) : ModelState :=
  fold_counters m params b.header.height (UInt64.ofNat b.txs.length) (zero_scored b) b.scores.values.sum b.header.proposer

/-- The scorers are distinct names of proposers that scored in these blocks. -/
structure Scorers (blocks : List Block) (names : List String) : Prop where
  nodup : names.Nodup
  proposed : ∀ s ∈ names, ∃ b ∈ blocks, b.header.proposer = s ∧ scored b

omit [Crypto] in
/-- The fold records a proposer that is not there yet, if the block has a score. -/
theorem fold_counters_scorers (m : ModelState) (params : GenesisParams) (height n_txs zero_scored score_sum : UInt64)
    (proposer : String) :
    (fold_counters m params height n_txs zero_scored score_sum proposer).win_scorers = m.win_scorers ∨
      ((fold_counters m params height n_txs zero_scored score_sum proposer).win_scorers = m.win_scorers ++ [proposer] ∧
        score_sum > 0 ∧ proposer ∉ m.win_scorers) := by
  unfold fold_counters
  dsimp only
  generalize (if height ≥ params.v4_height then 4 else if height ≥ params.v3_height then 3 else m.rev) = rev
  split
  · rename_i hcounts
    simp only [Bool.and_eq_true, decide_eq_true_eq, Bool.not_eq_true', List.contains_eq_mem, decide_eq_false_iff_not]
      at hcounts
    exact .inr ⟨rfl, hcounts.1.1.1.2, hcounts.1.2⟩
  · exact .inl rfl

theorem Scorers.count {blocks : List Block} {m : ModelState} (params : GenesisParams) (h : Scorers blocks m.win_scorers)
    (b : Block) : Scorers (blocks ++ [b]) (counted_model params m b).win_scorers := by
  have hold : ∀ s ∈ m.win_scorers, ∃ x ∈ blocks ++ [b], x.header.proposer = s ∧ scored x := by
    intro s hs
    obtain ⟨x, hx, h⟩ := h.proposed s hs
    exact ⟨x, List.mem_append_left _ hx, h⟩
  unfold counted_model
  rcases fold_counters_scorers m params b.header.height (UInt64.ofNat b.txs.length) (zero_scored b) b.scores.values.sum
    b.header.proposer with he | ⟨he, hscore, hnew⟩
  · rw [he]
    exact ⟨h.nodup, hold⟩
  · rw [he]
    refine ⟨?_, fun s hs => ?_⟩
    · rw [List.nodup_append]
      refine ⟨h.nodup, List.nodup_singleton _, fun s hs t ht he => hnew ?_⟩
      rw [← List.mem_singleton.mp ht, ← he]
      exact hs
    · rcases List.mem_append.mp hs with hs | hs
      · exact hold s hs
      · exact ⟨b, List.mem_append_right _ List.mem_cons_self, (List.mem_singleton.mp hs).symm, hscore⟩

theorem scorers_of_chain (params : GenesisParams) (chain : List Block) :
    Scorers (window params chain) (model_of params chain).win_scorers := by
  induction chain using List.reverseRecOn with
  | nil => exact ⟨List.nodup_nil, fun s hs => absurd hs List.not_mem_nil⟩
  | append_singleton chain b ih =>
    rw [model_of_snoc, window_snoc]
    unfold fold_block fold
    by_cases hc : b.header.height > 0 ∧ b.header.height % params.retarget_window = 0
    · have hcloses : closes params b = true := by simpa [closes] using hc
      simp only [hcloses, hc, and_self, if_true]
      exact ⟨List.nodup_nil, fun s hs => absurd hs List.not_mem_nil⟩
    · have hcloses : closes params b = false := by simpa [closes] using hc
      simp only [hcloses, hc, Bool.false_eq_true, if_false]
      exact ih.count params b

/-! ## Lanes -/

/-- The active pages of a kind. -/
def active_of (m : ModelState) (kind : PageKind) : List Nat :=
  (List.range m.pages.length).filter fun i => m.pages[i]?.map (·.kind) = some kind ∧ m.is_active i

/-- The expert pages of one of `n` lanes. -/
def lane_pages (m : ModelState) (n lane : Nat) : List Nat :=
  if n ≤ 1 then active_of m .expert
  else ((active_of m .expert).zipIdx.filter fun e => e.2 % n = lane).map (·.1)

def lanes_of (m : ModelState) (lane_width : Nat) : Nat := lanes.n_lanes (active_of m .expert).length lane_width

theorem claimable_eq (epoch : UInt64) (miner : String) (m : ModelState) (lane_width : Nat) :
    lanes.claimable_pages epoch miner m lane_width =
      (lane_pages m (lanes_of m lane_width) (lanes.lane_of_miner epoch miner (lanes_of m lane_width)) ++
        active_of m .backbone).map UInt32.ofNat := rfl

/-! ## What acceptance checks of a block's names -/

structure Judged (params : GenesisParams) (m : ModelState) (b : Block) : Prop where
  deltas : ∀ tx ∈ b.txs, tx.verify
  lanes : ∀ tx ∈ b.txs, check_lane b.header.height m params tx = .ok ()

theorem Taken.judged {dc : Option String} {params : GenesisParams} {chain : List Block} {led : TokenLedger} {m : ModelState}
    {b : Block} {staged : Staged} (h : Taken dc params chain led m b staged) :
    Judged params m b ∧ staged.post_model = (fold_block b m params).1 := by
  obtain ⟨t, p, -, rfl, -, rfl, -, h⟩ := h.valid
  simp only [validate_at_base, validate_inner, check_tx, bind_eq_ok, require_eq_ok, pure_eq_ok, exists_unit, forM_eq_ok]
    at h
  obtain ⟨-, -, v, ⟨-, htxs, -, -, -, -, -, -, -, -, -, rfl⟩, -, rfl⟩ := h
  refine ⟨⟨fun tx htx => (htxs tx htx).1, fun tx htx => ?_⟩, rfl⟩
  have h := (htxs tx htx).2.2
  simp only [Option.isSome_none, Bool.false_eq_true, if_false, bind_eq_ok, exists_unit] at h
  exact h.2.1

/-! ## A run -/

/-- Every block of the chain was judged at the model before it. -/
def JudgedChain (params : GenesisParams) (chain : List Block) : Prop :=
  ∀ before b after, chain = before ++ b :: after → Judged params (model_of params before) b

theorem JudgedChain.snoc {params : GenesisParams} {chain : List Block} {b : Block} (h : JudgedChain params chain)
    (hb : Judged params (model_of params chain) b) : JudgedChain params (chain ++ [b]) := by
  intro before x after he
  rcases List.eq_nil_or_concat after with rfl | ⟨as, y, rfl⟩
  · obtain ⟨rfl, hx⟩ := List.append_inj' he rfl
    obtain rfl := (List.cons.inj hx).1
    exact hb
  · rw [List.concat_eq_append, ← List.cons_append, ← List.append_assoc] at he
    exact h before x as (List.append_inj' he rfl).1

omit [Crypto] in
theorem mem_window {params : GenesisParams} {chain : List Block} {b : Block} (h : b ∈ window params chain) : b ∈ chain := by
  induction chain using List.reverseRecOn with
  | nil => exact h
  | append_singleton chain x ih =>
    rw [window_snoc] at h
    split at h
    · cases h
    · exact List.mem_append.mpr ((List.mem_append.mp h).imp_left ih)

omit [Crypto] in
theorem Chain.logged {log : Dict Block} {g h : String} {chain : List Block} (hc : Chain log g h chain) :
    ∀ b ∈ chain, ∃ k : String, log[k]? = some b := by
  induction hc with
  | genesis => exact fun b hb => absurd hb List.not_mem_nil
  | block _ hget _ ih =>
    intro b hb
    rcases List.mem_append.mp hb with hb | hb
    · exact ih b hb
    · exact ⟨_, List.mem_singleton.mp hb ▸ hget⟩

/-- At least the quorum of distinct keys scored in these blocks. -/
def KeysScored (quorum : Nat) (blocks : List Block) : Prop :=
  ∃ ks : List (List UInt8), ks.Nodup ∧ quorum ≤ ks.length ∧
    ∀ k ∈ ks, ∃ b ∈ blocks, hex_decode b.header.proposer = some k ∧ scored b

omit [Crypto] in
theorem Scorers.keys {blocks : List Block} {scorers : List String} (h : Scorers blocks scorers)
    (hplain : ∀ b ∈ blocks, Plain b) : KeysScored scorers.length blocks := by
  have hname (s : String) (hs : s ∈ scorers) :
      Canonical s ∧ ∃ b ∈ blocks, hex_decode b.header.proposer = some ((hex_decode s).getD []) ∧ scored b := by
    obtain ⟨b, hb, rfl, hscored⟩ := h.proposed s hs
    obtain ⟨k, hk⟩ := hplain b hb _ List.mem_cons_self
    refine ⟨⟨k, hk⟩, b, hb, ?_, hscored⟩
    rw [hk, hex_decode_encode]
    rfl
  refine ⟨scorers.map fun s => (hex_decode s).getD [], h.nodup.map_on fun s hs t ht he => ?_, ?_, fun k hk => ?_⟩
  · obtain ⟨hcs, -⟩ := hname s hs
    obtain ⟨hct, -⟩ := hname t ht
    obtain ⟨ks, rfl⟩ := hcs
    obtain ⟨kt, rfl⟩ := hct
    rw [hex_decode_encode, hex_decode_encode, Option.getD_some, Option.getD_some] at he
    rw [he]
  · rw [List.length_map]
  · obtain ⟨s, hs, rfl⟩ := List.mem_map.mp hk
    exact (hname s hs).2

omit [Crypto] in
theorem quorum_of_open {params : GenesisParams} {m : ModelState} (hrev : m.rev ≥ 4) (h : window_staleness params m = 0) :
    params.growth_quorum ≤ m.win_scorers.length := by
  unfold window_staleness at h
  rw [if_pos hrev] at h
  by_contra hlt
  rw [if_neg hlt] at h
  exact absurd h (by decide)

/-- A block at a v5 height of this epoch has a delta of the key. -/
structure ClaimsIn (params : GenesisParams) (key : List UInt8) (epoch : UInt64) (b : Block) (tx : BackpropTx) : Prop where
  mem : tx ∈ b.txs
  lanes_on : params.v5_height ≠ 0 ∧ b.header.height ≥ params.v5_height
  epoch : b.header.height / params.lane_epoch_len = epoch
  key : hex_decode tx.miner = some key

/-- The number of lanes is the same wherever one key claims in one epoch. -/
def SameLanes (params : GenesisParams) (chain : List Block) : Prop :=
  ∀ key epoch before b after tx before' b' after' tx', chain = before ++ b :: after → chain = before' ++ b' :: after' →
    ClaimsIn params key epoch b tx → ClaimsIn params key epoch b' tx' →
    lanes_of (model_of params before) params.lane_width = lanes_of (model_of params before') params.lane_width

/-- All expert pages that the key claims in the epoch lie in one lane. -/
def OneLane (params : GenesisParams) (chain : List Block) (key : List UInt8) (epoch : UInt64) : Prop :=
  ∃ lane : Nat, ∀ before b after tx, chain = before ++ b :: after → ClaimsIn params key epoch b tx →
    ∀ page ∈ tx.canonical_pages,
      let m := model_of params before
      page ∈ (lane_pages m (lanes_of m params.lane_width) lane).map UInt32.ofNat ∨
        page ∈ (active_of m .backbone).map UInt32.ofNat

theorem JudgedChain.claimed {params : GenesisParams} {chain : List Block} (h : JudgedChain params chain)
    (hplain : ∀ b ∈ chain, Plain b) {key : List UInt8} {epoch : UInt64} {before after : List Block} {b : Block} {tx : BackpropTx}
    (he : chain = before ++ b :: after) (hc : ClaimsIn params key epoch b tx) {page : UInt32} (hpage : page ∈ tx.canonical_pages) :
    let m := model_of params before
    let n := lanes_of m params.lane_width
    page ∈ (lane_pages m n (lanes.lane_of_miner epoch (hex_encode key) n)).map UInt32.ofNat ∨
      page ∈ (active_of m .backbone).map UInt32.ofNat := by
  have hlane := (h before b after he).lanes tx hc.mem
  obtain ⟨k, hk⟩ := hplain b (by simp [he]) tx.miner (List.mem_cons_of_mem _ (List.mem_map_of_mem hc.mem))
  have hkey := hc.key
  rw [hk, hex_decode_encode] at hkey
  obtain rfl := Option.some.inj hkey
  unfold check_lane at hlane
  rw [if_pos hc.lanes_on, require_eq_ok] at hlane
  have hin := hlane page hpage
  rw [hc.epoch, hk, claimable_eq, List.map_append, List.mem_append] at hin
  exact hin

theorem JudgedChain.one_lane {params : GenesisParams} {chain : List Block} (h : JudgedChain params chain)
    (hplain : ∀ b ∈ chain, Plain b) (hlanes : SameLanes params chain) (key : List UInt8) (epoch : UInt64) :
    OneLane params chain key epoch := by
  by_cases hany : ∃ before b after tx, chain = before ++ b :: after ∧ ClaimsIn params key epoch b tx
  · obtain ⟨before₀, b₀, after₀, tx₀, he₀, hc₀⟩ := hany
    refine ⟨lanes.lane_of_miner epoch (hex_encode key) (lanes_of (model_of params before₀) params.lane_width), ?_⟩
    intro before b after tx he hc page hpage
    rw [hlanes key epoch before₀ b₀ after₀ tx₀ before b after tx he₀ he hc₀ hc]
    exact h.claimed hplain he hc hpage
  · exact ⟨0, fun before b after tx he hc => absurd ⟨before, b, after, tx, he, hc⟩ hany⟩

/-- In every run, every chain was judged block by block. -/
theorem judged_run {genesis_w : List Int64} {params : GenesisParams}
    (hw : genesis_w.length = (ModelState.genesis params.spec).dim) (dc : Option String) (ops : List Op) (h : String)
    (chain : List Block) (hch : Chain ((Logged.new genesis_w dc params).run ops).log
      ((Logged.new genesis_w dc params).run ops).tree.genesis_hash h chain) : JudgedChain params chain := by
  obtain ⟨S, hc⟩ := coherent_run hw dc ops
  have hon : OnChains dc (fun chain _ m => m = model_of params chain ∧ JudgedChain params chain)
      ((Logged.new genesis_w dc params).run ops) := run_onChains hw
    ⟨rfl, fun before b after he => by simp at he⟩
    (fun chain led m b staged hp ht => by
      obtain ⟨rfl, hj⟩ := hp
      obtain ⟨hb, hpost⟩ := ht.judged
      exact ⟨hpost.trans (model_of_snoc params chain b).symm, hj.snoc hb⟩) ops
  have hmem : h ∈ ((Logged.new genesis_w dc params).run ops).tree.blocks := by
    cases hch with
    | genesis => exact hc.shape.genesis_known
    | block _ hget _ =>
      exact Std.ExtTreeMap.mem_iff_isSome_getElem?.mpr (by rw [(hc.logged _ _ hget).2.2.1]; rfl)
  obtain ⟨led, hled⟩ := Option.isSome_iff_exists.mp (Std.ExtTreeMap.mem_iff_isSome_getElem?.mp (hc.entries h hmem).1)
  exact (hon.holds h led _ chain hled (hc.model h hmem) hch).2

/-- In every run whose blocks spell all names in lower case, and where the number of lanes does not
change between two blocks of an epoch that hold deltas of one key: a key has one name, the growth gate of
revision 4 opens only for a quorum of keys, and a key stays in one lane for an epoch. -/
theorem one_key_one_name {genesis_w : List Int64} {params : GenesisParams}
    (hw : genesis_w.length = (ModelState.genesis params.spec).dim) (dc : Option String) (ops : List Op)
    (hplain : ∀ (h : String) b, ((Logged.new genesis_w dc params).run ops).log[h]? = some b → Plain b)
    (hlanes : ∀ h chain, Chain ((Logged.new genesis_w dc params).run ops).log
      ((Logged.new genesis_w dc params).run ops).tree.genesis_hash h chain → SameLanes params chain) :
    (∀ (h h' : String) b b', ((Logged.new genesis_w dc params).run ops).log[h]? = some b →
      ((Logged.new genesis_w dc params).run ops).log[h']? = some b' → ∀ s ∈ names b, ∀ s' ∈ names b',
      hex_decode s = hex_decode s' → s = s') ∧
    ∀ h chain, Chain ((Logged.new genesis_w dc params).run ops).log
        ((Logged.new genesis_w dc params).run ops).tree.genesis_hash h chain →
      (∀ before b after, chain = before ++ b :: after → closes params b →
        (counted_model params (model_of params before) b).rev ≥ 4 →
        window_staleness params (counted_model params (model_of params before) b) = 0 →
        KeysScored params.growth_quorum (window params before ++ [b])) ∧
      ∀ key epoch, OneLane params chain key epoch := by
  refine ⟨fun h h' b b' hb hb' s hs s' hs' he => (hplain h b hb s hs).unique (hplain h' b' hb' s' hs') he, ?_⟩
  intro h chain hch
  have hall : ∀ b ∈ chain, Plain b := fun b hb => by
    obtain ⟨k, hk⟩ := hch.logged b hb
    exact hplain k b hk
  have hjudged : JudgedChain params chain := judged_run hw dc ops h chain hch
  refine ⟨fun before b after he hcl hrev hopen => ?_, hjudged.one_lane hall (hlanes h chain hch)⟩
  have hscorers := (scorers_of_chain params before).count params b
  have hin : ∀ x ∈ window params before ++ [b], Plain x := fun x hx => by
    refine hall x ?_
    rw [he]
    rcases List.mem_append.mp hx with hx | hx
    · exact List.mem_append_left _ (mem_window hx)
    · exact List.mem_append_right _ (List.mem_singleton.mp hx ▸ List.mem_cons_self)
  obtain ⟨ks, hnodup, hlen, hks⟩ := hscorers.keys hin
  exact ⟨ks, hnodup, (quorum_of_open hrev hopen).trans hlen, hks⟩

end Any

open scoped Toy

namespace Toy

/-- An empty block by the holder of a key, under some name. -/
def block_as (t : BlockTree) (p : Parent) (prev_hash name : String) (pk : ByteArr 32) : Block :=
  let proof := vrf_prove pk prev_hash (p.height + 1) lottery.ATTEMPT_MAX
  empty_block t p prev_hash name (hex_encode proof) lottery.ATTEMPT_MAX (lottery.attempt_work proof lottery.ATTEMPT_MAX)

theorem block_as_lottery (t : BlockTree) (p : Parent) (prev_hash : String) {name : String} {pk : ByteArr 32}
    (hn : hex_decode name = some pk.val) (hne : name ≠ "genesis") (led : TokenLedger) :
    check_lottery (block_as t p prev_hash name pk).header led = .ok () :=
  lottery_last led pk hn hne rfl rfl rfl

theorem block_as_valid (t : BlockTree) (p : Parent) (prev_hash : String) {name : String} {pk : ByteArr 32}
    (hn : hex_decode name = some pk.val) (hne : name ≠ "genesis") (jurors : StrSet) :
    t.validate_at_base (block_as t p prev_hash name pk) { p with jurors } =
      .ok (empty_staged t p (block_as t p prev_hash name pk)) :=
  validate_empty t { p with jurors } prev_hash name _ _ _ (block_as_lottery t p prev_hash hn hne p.ledger)

theorem block_as_header (t : BlockTree) (p : Parent) (prev_hash name : String) (pk : ByteArr 32) :
    (block_as t p prev_hash name pk).header.prev_hash = prev_hash ∧ (block_as t p prev_hash name pk).header.proposer = name ∧
      (block_as t p prev_hash name pk).txs = [] := ⟨rfl, rfl, rfl⟩

def low_name : String := hex_encode (key 171).val

def high_name : String := hex_encode_upper (key 171).val

def low_block : Block := block_as start genesis_parent start.head low_name (key 171)

def low_staged : Staged := empty_staged start genesis_parent low_block

def low_work : UInt64 := saturating_add genesis_parent.work (max low_block.header.work 1)

def low_tree : BlockTree := start.commit_staged low_block.hash low_block.header low_staged low_work

def low_parent : Parent :=
  { model := low_staged.post_model, ledger := low_staged.led, height := low_block.header.height, work := low_work,
    jurors := ∅ }

/-- The next block of the same key, under the other spelling. -/
def high_block : Block := block_as low_tree low_parent low_block.hash high_name (key 171)

theorem high_ne : (high_block.hash ≠ low_block.hash ∧ high_block.hash ≠ start.head) ∧ low_block.hash ≠ start.head := by
  decide +kernel

theorem low_step : (Logged.new [5] none params).step (.add_block low_block) =
    { tree := low_tree, log := (∅ : Dict Block).insert low_block.hash low_block } := by
  have hnew : low_block.hash ∉ [start.head] := by simpa using high_ne.2
  obtain ⟨hprev, -⟩ := block_as_header start genesis_parent start.head low_name (key 171)
  exact start_tip.step_add (n := .new [5] none params) hnew hprev
    (block_as_valid start genesis_parent start.head (hex_decode_encode _) (hex_ne_genesis _))

theorem low_tip : Tip low_tree low_parent [low_block.hash, start.head] := start_tip.commit low_work

theorem low_head : low_tree.head = low_block.hash := by
  unfold low_tree
  rw [start_tip.commit_eq]

theorem high_step : (Logged.mk low_tree ((∅ : Dict Block).insert low_block.hash low_block)).step (.add_block high_block) =
    { tree := low_tree.commit_staged high_block.hash high_block.header (empty_staged low_tree low_parent high_block)
        (saturating_add low_parent.work (max high_block.header.work 1))
      log := ((∅ : Dict Block).insert low_block.hash low_block).insert high_block.hash high_block } := by
  have hnew : high_block.hash ∉ [low_block.hash, start.head] := by simpa using high_ne.1
  obtain ⟨hprev, -⟩ := block_as_header low_tree low_parent low_block.hash high_name (key 171)
  exact low_tip.step_add (n := ⟨low_tree, _⟩) hnew (hprev.trans low_head.symm)
    (block_as_valid low_tree low_parent low_block.hash (hex_decode_upper _) (by decide))

end Toy

/-- One key proposes under two names on one chain. -/
theorem key_with_two_names : ∃ b b' : Block,
    ((Logged.new [5] none Toy.params).run [.add_block Toy.low_block, .add_block Toy.high_block]).log[b.hash]? = some b ∧
    ((Logged.new [5] none Toy.params).run [.add_block Toy.low_block, .add_block Toy.high_block]).log[b'.hash]? = some b' ∧
    b'.header.prev_hash = b.hash ∧
    hex_decode b.header.proposer = hex_decode b'.header.proposer ∧ b.header.proposer ≠ b'.header.proposer := by
  have hrun : ((Logged.new [5] none Toy.params).run [.add_block Toy.low_block, .add_block Toy.high_block]).log =
      ((∅ : Dict Block).insert Toy.low_block.hash Toy.low_block).insert Toy.high_block.hash Toy.high_block := by
    simp only [Logged.run, List.foldl_cons, List.foldl_nil, Toy.low_step, Toy.high_step]
  obtain ⟨-, hlow, -⟩ := Toy.block_as_header Toy.start Toy.genesis_parent Toy.start.head Toy.low_name (Toy.key 171)
  obtain ⟨hprev, hhigh, -⟩ := Toy.block_as_header Toy.low_tree Toy.low_parent Toy.low_block.hash Toy.high_name (Toy.key 171)
  refine ⟨Toy.low_block, Toy.high_block, ?_, ?_, hprev, ?_, ?_⟩
  · rw [hrun, SumMap.get_insert, if_neg Toy.high_ne.1.1, SumMap.get_insert, if_pos rfl]
  · rw [hrun, SumMap.get_insert, if_pos rfl]
  · rw [Toy.low_block, Toy.high_block, hlow, hhigh, Toy.low_name, Toy.high_name, hex_decode_encode, hex_decode_upper]
  · rw [Toy.low_block, Toy.high_block, hlow, hhigh]
    decide

namespace Toy

/-! ## A claim in one of two lanes -/

/-- Two expert pages, each a lane of its own. -/
def striped_params : GenesisParams :=
  { spec := { spec with n_experts_initial := 2, e_max := 2 }, v5_height := 1, lane_width := 1 }

def striped_w : List Int64 := List.replicate 9 5

def striped_start : BlockTree := BlockTree.new striped_w (some "owner") striped_params

def striped_parent : Parent :=
  { model := ModelState.genesis striped_params.spec, ledger := genesis_ledger (some "owner"), height := 0, work := 0,
    jurors := striped_start.recent_proposers striped_start.head }

theorem striped_entries : striped_start.parent_entries striped_start.head = .ok striped_parent := by
  simp [parent_entries, striped_start, BlockTree.new, ok_or, genesis_header, striped_parent]

theorem striped_tip : Tip striped_start striped_parent [striped_start.head] where
  full := rfl
  innocent _ := Std.ExtTreeSet.not_mem_empty
  unpruned := rfl
  only := fun h hh => List.mem_singleton.mpr (by
    simp only [striped_start, BlockTree.new, mem_insert_iff] at hh
    exact hh.resolve_right (by simp))
  entries := ⟨_, striped_entries⟩

/-- The page that the key may claim in the first epoch. -/
def striped_page : UInt32 := UInt32.ofNat (1 + lanes.lane_of_miner 0 low_name 2)

/-- A delta that claims it and moves nothing. -/
def striped_unsigned : BackpropTx :=
  { miner := low_name, base_height := 0, delta_hash := delta_hash_sparse 9 [], da_pointer := "body", bond := 0,
    pages := [striped_page], data_refs := ["genesis"], sig := [] }

def striped_tx : BackpropTx := { striped_unsigned with sig := (sign (key 171) striped_unsigned.signing_bytes).val }

theorem striped_tx_signed : striped_tx.verify = true := verify_sign (hex_decode_encode (key 171).val) striped_unsigned.signing_bytes

theorem striped_sorted : ([] : List (UInt32 × Int64)).Pairwise fun a b => a.1 < b.1 := List.Pairwise.nil

theorem striped_nonzero : ∀ c ∈ ([] : List (UInt32 × Int64)), c.2 ≠ 0 := fun _ h => absurd h List.not_mem_nil

theorem striped_in_range : ∀ c ∈ ([] : List (UInt32 × Int64)), c.1.toNat < 9 := fun _ h => absurd h List.not_mem_nil

def striped_body : SparseBody :=
  { n := 9, coords := [], sorted := striped_sorted, nonzero := striped_nonzero, in_range := striped_in_range }

def striped_draft : Block :=
  let proof := vrf_prove (key 171) striped_start.head 1 lottery.ATTEMPT_MAX
  delta_draft 1 5 striped_start.head low_name (hex_encode proof) lottery.ATTEMPT_MAX
    (lottery.attempt_work proof lottery.ATTEMPT_MAX) striped_tx striped_body

/-- What the rules ask of the model and the ledger. -/
theorem striped_admits : striped_parent.model.is_active striped_page.toNat = true ∧
    (∀ p ∈ [striped_page], p ∈ lanes.claimable_pages (1 / striped_params.lane_epoch_len) striped_tx.miner striped_parent.model
      striped_params.lane_width) ∧
    (striped_parent.model.required_nnz [striped_page]).toNat ≤ 0 ∧
    "genesis" ∈ active_hashes ((striped_parent.ledger.resolve_expired_challenges 1).resolve_expired_bonds 1) ∧
    lanes_of (model_of striped_params []) striped_params.lane_width = 2 := by
  decide +kernel

theorem striped_pages_canonical : striped_tx.canonical_pages = [striped_page] ∧ striped_tx.pages = [striped_page] := ⟨rfl, rfl⟩

theorem striped_claims : check_claims striped_parent.model striped_tx = .ok () := by
  simp only [check_claims, striped_pages_canonical, bind_eq_ok, require_eq_ok, exists_unit, forM_eq_ok, List.mem_singleton,
    forall_eq]
  exact ⟨⟨List.cons_ne_nil _ _, trivial⟩, striped_admits.1⟩

theorem striped_allowed : check_lane 1 striped_parent.model striped_params striped_tx = .ok () := by
  unfold check_lane
  rw [if_pos (by decide), require_eq_ok, striped_pages_canonical.1]
  exact striped_admits.2.1

theorem striped_ready : DeltaReady striped_parent striped_start.params striped_draft striped_tx where
  version := rfl
  height := rfl
  lottery := lottery_last _ (key 171) (hex_decode_encode (key 171).val) (hex_ne_genesis (key 171).val) rfl rfl rfl
  signed := striped_tx_signed
  base := show (0 : UInt64) = 1 - 1 by decide
  claims := striped_claims
  lane := striped_allowed
  bond := rfl
  provenance := ⟨"genesis", List.mem_singleton_self _, striped_admits.2.2.2.1⟩

theorem striped_body_rules : striped_start.check_sparse_tx striped_draft striped_parent.model striped_tx = .ok striped_body.coords := by
  have hbody : body_coords striped_draft striped_tx = .ok (9, []) := by
    have : striped_draft.sparse[striped_tx.da_pointer]? = some striped_body := Std.ExtTreeMap.getElem?_insert_self
    rw [body_coords, this]
    rfl
  simp only [check_sparse_tx, hbody, bind_eq_ok, require_eq_ok, exists_unit, pure_eq_ok]
  refine ⟨(9, []), rfl, rfl, .inr rfl, striped_claims, by simp, ?_, rfl⟩
  unfold check_quota
  simp only [bind_eq_ok, require_eq_ok, exists_unit, striped_pages_canonical]
  exact ⟨striped_admits.2.2.1, Nat.zero_le _⟩

def striped_block : Block := full_block striped_start striped_parent striped_draft striped_body.coords

theorem striped_valid (jurors : StrSet) : striped_start.validate_at_base striped_block { striped_parent with jurors } =
    .ok (delta_staged striped_start striped_parent striped_draft striped_body.coords) :=
  validate_delta_jurors jurors striped_ready striped_body_rules

theorem striped_ne : striped_block.hash ≠ striped_start.head := by decide +kernel

def striped_tree : BlockTree := striped_start.commit_staged striped_block.hash striped_block.header
  (delta_staged striped_start striped_parent striped_draft striped_body.coords)
  (saturating_add striped_parent.work (max striped_block.header.work 1))

theorem striped_prev : striped_block.header.prev_hash = striped_start.head := by
  unfold striped_block full_block seal_delta striped_draft
  rfl

theorem striped_txs : striped_block.txs = [striped_tx] ∧ striped_block.header.height = 1 ∧ striped_block.header.proposer = low_name := by
  unfold striped_block full_block seal_delta striped_draft
  exact ⟨rfl, rfl, rfl⟩

theorem striped_run : (Logged.new striped_w (some "owner") striped_params).run [.add_block striped_block] =
    { tree := striped_tree, log := (∅ : Dict Block).insert striped_block.hash striped_block } := by
  have hnew : striped_block.hash ∉ [striped_start.head] := by simpa using striped_ne
  exact striped_tip.step_add (n := .new striped_w (some "owner") striped_params) hnew striped_prev striped_valid

theorem striped_plain : Plain striped_block := by
  obtain ⟨htxs, -, hname⟩ := striped_txs
  intro s hs
  unfold names at hs
  rw [hname, htxs, List.map_singleton] at hs
  have hlow : s = low_name := by simpa [striped_tx, striped_unsigned] using hs
  exact ⟨_, hlow⟩

theorem striped_claims_in : ClaimsIn striped_params (key 171).val 0 striped_block striped_tx := by
  obtain ⟨htxs, hheight, -⟩ := striped_txs
  refine ⟨htxs ▸ List.mem_singleton_self _, ?_, ?_, hex_decode_encode _⟩
  · rw [hheight]
    decide
  · rw [hheight]
    decide

theorem striped_root : striped_tree.genesis_hash = striped_start.head := by
  unfold striped_tree
  rw [striped_tip.commit_eq]
  rfl

/-- A chain of the run has the one block at most. -/
theorem striped_chains {h : String} {chain : List Block}
    (hch : Chain ((∅ : Dict Block).insert striped_block.hash striped_block) striped_start.head h chain) :
    chain = [] ∨ chain = [striped_block] := by
  cases hch with
  | genesis => exact .inl rfl
  | block _ hget hrest =>
    rw [SumMap.get_insert] at hget
    split at hget
    · obtain rfl := Option.some.inj hget
      rw [striped_prev] at hrest
      rw [hrest.unique .genesis]
      exact .inr rfl
    · simp at hget

end Toy

/-- A run whose one block claims an expert page at a v5 height, with two lanes. -/
theorem one_key_one_name_lane :
    Plain Toy.striped_block ∧ ClaimsIn Toy.striped_params (Toy.key 171).val 0 Toy.striped_block Toy.striped_tx ∧
    lanes_of (model_of Toy.striped_params []) Toy.striped_params.lane_width = 2 ∧
    OneLane Toy.striped_params [Toy.striped_block] (Toy.key 171).val 0 := by
  have hlog : ∀ (h : String) b,
      ((Logged.new Toy.striped_w (some "owner") Toy.striped_params).run [.add_block Toy.striped_block]).log[h]? = some b → Plain b := by
    intro h b hb
    rw [Toy.striped_run, SumMap.get_insert] at hb
    split at hb
    · exact Option.some.inj hb ▸ Toy.striped_plain
    · simp at hb
  have hlanes : ∀ h chain, Chain ((Logged.new Toy.striped_w (some "owner") Toy.striped_params).run [.add_block Toy.striped_block]).log
      ((Logged.new Toy.striped_w (some "owner") Toy.striped_params).run [.add_block Toy.striped_block]).tree.genesis_hash h chain →
      SameLanes Toy.striped_params chain := by
    intro h chain hch
    rw [Toy.striped_run, Toy.striped_root] at hch
    intro key epoch before b after tx before' b' after' tx' he he' _ _
    -- nothing stands before the one block
    have hnil : ∀ (before : List Block) b after, chain = before ++ b :: after → before = [] := by
      rintro (- | ⟨c, before⟩) b after he
      · rfl
      · rcases Toy.striped_chains hch with rfl | rfl <;> simp at he
    rw [hnil before b after he, hnil before' b' after' he']
  have hchain : Chain ((Logged.new Toy.striped_w (some "owner") Toy.striped_params).run [.add_block Toy.striped_block]).log
      ((Logged.new Toy.striped_w (some "owner") Toy.striped_params).run [.add_block Toy.striped_block]).tree.genesis_hash
      Toy.striped_block.hash ([] ++ [Toy.striped_block]) := by
    rw [Toy.striped_run, Toy.striped_root]
    refine .block Toy.striped_ne (by rw [SumMap.get_insert, if_pos rfl]) ?_
    rw [Toy.striped_prev]
    exact .genesis
  exact ⟨Toy.striped_plain, Toy.striped_claims_in, Toy.striped_admits.2.2.2.2,
    ((one_key_one_name (by decide) (some "owner") [.add_block Toy.striped_block] hlog hlanes).2 _ _ hchain).2 _ _⟩

end Sestrian
