import Sestrian.Paged.Whole
import Sestrian.Tree.Delta

/-!
# What a paged node does not ask of a body

The paged path shares the rules that need no weights. The body rules of the full path are
not among them.
-/

open Check Walk

namespace Sestrian

open Aggregate Pages BlockTree

section Any

variable [Crypto]

/-- The body rules of a full node: length, hash, claims, quota and envelope. -/
def BodyRules (t : BlockTree) (b : Block) (m : ModelState) (tx : BackpropTx) : Prop :=
  ∃ n coords, body_coords b tx = .ok (n, coords) ∧ n = t.canon.length ∧
    (tx.txid ∈ t.hash_verified ∨ delta_hash_sparse n coords = tx.delta_hash) ∧
    (∀ c ∈ coords, c.2 ≠ 0 → in_claims m tx.canonical_pages c.1.toNat) ∧
    (m.required_nnz tx.canonical_pages).toNat ≤ (coords.filter fun c => c.2 ≠ 0).length ∧
    (coords.filter fun c => c.2 ≠ 0).length ≤ t.params.delta_max_nnz.toNat

variable {t : BlockTree} {b : Block} {m : ModelState} {tx : BackpropTx} {ss : List (Nat × Nat)} {k : Nat}
  {W : String → List Int64}

theorem check_sparse_tx_iff (hclaims : check_claims m tx = .ok ()) :
    (∃ coords, t.check_sparse_tx b m tx = .ok coords) ↔ BodyRules t b m tx := by
  simp only [check_sparse_tx, bind_eq_ok, require_eq_ok, exists_unit, pure_eq_ok, hclaims, check_quota, BodyRules]
  constructor
  · rintro ⟨coords, ⟨n, cs⟩, hb, hn, hh, -, hc, ⟨hq, he⟩, rfl⟩
    exact ⟨n, cs, hb, hn, hh, hc, hq, he⟩
  · rintro ⟨n, cs, hb, hn, hh, hc, hq, he⟩
    exact ⟨cs, (n, cs), hb, hn, hh, trivial, hc, ⟨hq, he⟩, rfl⟩

/-- With every page held, the leaves of the two paths are the same. -/
theorem paged_leaves_full {p : Parent} {v : Validated} {agg : Coords} (hs : StandsAt t t.canon p.model)
    (hdim : t.canon.length < 2 ^ 32) :
    (t.unheld.state_root_with p.model.spans agg (init_pages t.params v.activations)).2 =
      (paged_staged t t.canon p.model v agg).2.2.1 := by
  have hlen := length_apply_redo t.canon agg.toList
  have hfull := state_root_with_leaves t.unheld p.model agg (init_pages t.params v.activations) hs.describes
    hs.leaves fun _ => hdim
  rw [hfull, List.map_append, paged_staged, leaves_for_eq]
  congr 1
  · refine List.map_congr_left fun s hs' => ?_
    unfold span_leaf
    rw [slice_append_left]
    · rfl
    · have := hs.describes.tiled.stop_le hs'
      exact this.trans hlen.ge
  · have := grown_leaves (apply_redo t.canon agg.toList) (init_pages t.params v.activations)
    rwa [hlen] at this

/-- A block that the paged node takes: the full node asks for the body rules besides. -/
theorem Whole.full_takes_iff (h : Whole ss k t W) {p : Parent}
    {r : Validated × Coords × List Hash × List (UInt32 × Int64) × List Int64}
    (hp : t.parent_entries t.head = .ok p) (hr : t.stage_paged b p = .ok r) :
    (∃ staged, t.unheld.validate_at_base b p = .ok staged) ↔ ∀ tx ∈ b.txs, BodyRules t b p.model tx := by
  obtain ⟨hspans, hstands, v, agg, hv, hagg, hroot, rfl⟩ := h.take hp hr
  have hdim : t.canon.length < 2 ^ 32 := h.canon_length ▸ h.narrow
  have hclaims := validate_inner_claims hv
  have hall : (∃ cs, b.txs.mapM (t.unheld.check_sparse_tx b p.model) = .ok cs) ↔
      ∀ tx ∈ b.txs, BodyRules t b p.model tx := by
    rw [mapM_ok_iff]
    refine forall₂_congr fun tx htx => ?_
    exact check_sparse_tx_iff (t := t.unheld) (hclaims tx htx)
  constructor
  · rintro ⟨staged, hstaged⟩
    simp only [validate_at_base, bind_eq_ok] at hstaged
    obtain ⟨cs, hcs, -⟩ := hstaged
    exact hall.mp ⟨cs, hcs⟩
  · intro hrules
    obtain ⟨cs, hcs⟩ := hall.mpr hrules
    have hcs' : AggregateOf b ss (page_aggregate b p.model.spans cs) := by
      refine ⟨cs.map fun c => (t.canon.length, c), ?_, ?_⟩
      · refine (mapM_eq_ok _ _ _).mpr (List.forall₂_map_right_iff.mpr ?_)
        exact ((mapM_eq_ok _ _ _).mp hcs).imp fun tx c hc => check_sparse_tx_coords hc
      · rw [hspans, List.map_map]
        congr 1
        exact (List.map_id _).symm
    have heq := hcs'.unique hagg
    have hok : ∃ staged, t.unheld.validate_at_base b p = .ok staged := by
      simp only [validate_at_base, bind_eq_ok, require_eq_ok, exists_unit, pure_eq_ok]
      refine ⟨_, cs, hcs, v, hv, ?_, rfl⟩
      rw [heq, ← hroot, ← paged_leaves_full hstands hdim]
      rfl
    exact hok

theorem unheld_add_block (hnew : b.hash ∉ t.blocks) (hprev : b.header.prev_hash = t.head)
    (hconv : b.hash ∉ t.convicted ∧ b.header.prev_hash ∉ t.convicted) {p : Parent}
    (hp : t.parent_entries t.head = .ok p) :
    (∃ r, (t.unheld.add_block b).1 = .ok r) ↔ ∃ staged, t.unheld.validate_at_base b p = .ok staged := by
  have hstep : t.unheld.add_block b = t.unheld.connect_extend b := by
    simp [add_block, unheld, hnew, hconv.1, hprev ▸ hconv.2, hprev]
  have hp' : t.unheld.parent_entries t.unheld.head = .ok p := hp
  rw [hstep, connect_extend, hp']
  cases hv : t.unheld.validate_at_base b p with
  | error e => simp [hv]
  | ok staged => simp [hv]

/-! ## What no operation changes -/

/-- The bases, and a page table that only grows. -/
structure Backed (bases : List (Option Nat)) (n : Nat) (t : BlockTree) : Prop where
  page_base : t.page_base = bases
  paged : t.held.isSome
  pages : ∀ (h : String) m, t.model[h]? = some m → n ≤ m.pages.length

variable {bases : List (Option Nat)} {n : Nat}

theorem rewind_frame (t : BlockTree) (target : String) :
    ∃ canon leaves, (t.rewind_to target).2 = { t with canon := canon, page_leaves := leaves } := by
  unfold rewind_to
  split
  · exact ⟨t.canon, t.page_leaves, rfl⟩
  · split
    · exact ⟨t.canon, t.page_leaves, rfl⟩
    · split
      · exact ⟨t.canon, t.page_leaves, rfl⟩
      · exact ⟨_, _, rfl⟩

theorem length_fold_block (b : Block) (m : ModelState) (params : GenesisParams) :
    m.pages.length ≤ (fold_block b m params).1.pages.length := by
  have := congrArg List.length (spans_fold_block b m params)
  rw [spans_eq, spans_eq, List.length_append, List.length_map, List.length_map] at this
  omega

theorem Backed.step (h : Backed bases n t) (op : Op) : Backed bases n (t.step op) := by
  cases op with
  | add_block b =>
    rcases paged_add_block_cases h.paged b with ⟨e, he⟩ | ⟨-, he⟩ | ⟨p, r, -, -, hp, -, hr, he⟩
    · rw [BlockTree.step, he]
      exact h
    · rw [BlockTree.step, he]
      exact h
    · obtain ⟨doomed, pin, hpr⟩ := (t.paged_after b p r).prune_deep_cases
      rw [BlockTree.step, he, hpr]
      refine ⟨h.page_base, h.paged, fun x m hm => ?_⟩
      rw [show (t.paged_after b p r).model = t.model.insert b.hash r.1.model from rfl, SumMap.get_insert] at hm
      split at hm
      · obtain rfl := Option.some.inj hm
        simp only [stage_paged, bind_eq_ok, pure_eq_ok] at hr
        obtain ⟨-, -, v, hv, -, -, -, -, -, -, -, -, rfl⟩ := hr
        rw [(validate_inner_fold hv).1]
        exact (h.pages _ _ (parent_entries_spec hp).1).trans (length_fold_block _ _ _)
      · exact h.pages x m hm
  | with_state_at target =>
    obtain ⟨canon, leaves, hr⟩ := rewind_frame t target
    unfold BlockTree.step BlockTree.with_state_at
    rcases hres : t.rewind_to target with ⟨e | plan, t'⟩
    all_goals
      rw [hres] at hr
      obtain rfl := hr
      simp only [hres]
      exact ⟨h.page_base, h.paged, h.pages⟩
  | convict x =>
    obtain ⟨canon, leaves, hr⟩ := rewind_frame ({ t with convicted := t.convicted.insert x })
      ({ t with convicted := t.convicted.insert x }).best_head
    unfold BlockTree.step BlockTree.convict
    simp only
    split
    · exact ⟨h.page_base, h.paged, h.pages⟩
    split
    · exact ⟨h.page_base, h.paged, h.pages⟩
    split
    · exact ⟨h.page_base, h.paged, h.pages⟩
    rcases hres : ({ t with convicted := t.convicted.insert x }).rewind_to
      ({ t with convicted := t.convicted.insert x }).best_head with ⟨e | plan, t'⟩
    all_goals
      rw [hres] at hr
      obtain rfl := hr
      simp only [hres]
      exact ⟨h.page_base, h.paged, h.pages⟩
  | set_prune_depth depth => exact ⟨h.page_base, h.paged, h.pages⟩
  | mark_verified txid => exact ⟨h.page_base, h.paged, h.pages⟩

theorem Backed.run (h : Backed bases n t) (ops : List Op) : Backed bases n (t.run ops) := by
  induction ops generalizing t with
  | nil => exact h
  | cons op ops ih => exact ih (h.step op)

/-- A node that holds every page accepts what a full node accepts, and also bodies that break its rules. -/
theorem paged_accepts_full_iff (genesis_w : List Int64) (held : List Nat) (dc : Option String) (params : GenesisParams)
    (hw : genesis_w.length = (ModelState.genesis params.spec).dim) (hdim : genesis_w.length < 2 ^ 32)
    (ops : List Op) (b : Block) (m : ModelState) :
    let t := (BlockTree.new_paged genesis_w held dc params).run ops
    t.model[t.head]? = some m → (∀ pid < m.pages.length, ∃ base, t.page_base[pid]? = some (some base)) →
    b.header.prev_hash = t.head → (∃ r, (t.add_block b).1 = .ok r) →
      ((∃ r, (t.unheld.add_block b).1 = .ok r) ↔ b.hash ∈ t.blocks ∨ ∀ tx ∈ b.txs, BodyRules t b m tx) := by
  intro t hm hheld hprev hok
  obtain ⟨bases, heq, -, -, hun⟩ := new_paged_eq genesis_w held dc params hw
  have hbacked : Backed bases (ModelState.genesis params.spec).pages.length t := by
    refine Backed.run ⟨by rw [heq], by rw [heq]; rfl, fun h m' hm' => ?_⟩ ops
    rw [heq] at hm'
    have hm' := (SumMap.get_insert (∅ : Dict ModelState) _ _ _).symm.trans hm'
    split at hm'
    · rw [Option.some.inj hm']
    · simp at hm'
  -- every genesis page is held, since the table of the head has all of them
  have hcov : ∀ pid page, (ModelState.genesis params.spec).pages[pid]? = some page → page.start < page.stop →
      pid ∈ 0 :: held := by
    intro pid page hpage _
    have hpid := (List.getElem?_eq_some_iff.mp hpage).1
    obtain ⟨base, hbase⟩ := hheld pid (hpid.trans_le (hbacked.pages _ _ hm))
    by_contra hno
    rw [hbacked.page_base, (hun pid hpid).mpr hno] at hbase
    cases hbase
  obtain ⟨W, hwhole⟩ := (whole_new genesis_w held dc params hw hdim hcov).run ops
  rcases paged_add_block_cases hwhole.paged b with ⟨e, he⟩ | ⟨hk, -⟩ | ⟨p, r, hnew, -, hp, hconv, hr, -⟩
  · obtain ⟨r, hr⟩ := hok
    rw [show t.add_block b = _ from he] at hr
    cases hr
  · refine ⟨fun _ => .inl hk, fun _ => ⟨false, ?_⟩⟩
    have : t.unheld.blocks.contains b.hash := Std.ExtTreeMap.contains_iff_mem.mpr hk
    simp [add_block, this]
  · obtain rfl := Option.some.inj ((parent_entries_spec hp).1.symm.trans hm)
    rw [unheld_add_block hnew hprev hconv hp, hwhole.full_takes_iff hp hr]
    exact ⟨.inr, fun h => h.resolve_left hnew⟩

/-- A block with one delta that commits to the leaves a paged node computes. -/
def paged_block (t : BlockTree) (p : Parent) (d : Block) (coords : List (UInt32 × Int64)) : Block :=
  let agg := page_aggregate d p.model.spans [coords]
  let leaves := leaves_for (apply_redo t.canon agg.toList) p.model ++
    (init_pages t.params (fold_block d p.model t.params).2).map fun ip => merkle.leaf_hash (int64_bytes ip)
  { seal_delta p t.data_contributor t.params (hex_encode (merkle.root_from_hashes leaves).val) d with
    witness_leaves := t.page_leaves }

/-- The paged node takes it, whatever its body is. -/
theorem Whole.takes_delta (h : Whole ss k t W) {p : Parent} (hp : t.parent_entries t.head = .ok p)
    (hspans : p.model.spans = ss) {height version : UInt64} {prev_hash proposer vrf_proof : String}
    {vrf_attempt work : UInt64} {body : SparseBody}
    (hd : DeltaReady p t.params (delta_draft height version prev_hash proposer vrf_proof vrf_attempt work tx body) tx) :
    ∃ r, t.stage_paged (paged_block t p
      (delta_draft height version prev_hash proposer vrf_proof vrf_attempt work tx body) body.coords) p = .ok r := by
  set d := delta_draft height version prev_hash proposer vrf_proof vrf_attempt work tx body with hdef
  have hm := (parent_entries_spec hp).1
  have hstands := h.standsAt hm hspans
  have hv := validate_inner_delta t.data_contributor p.jurors
    (hex_encode (merkle.root_from_hashes (leaves_for (apply_redo t.canon
      (page_aggregate d p.model.spans [body.coords]).toList) p.model ++
      (init_pages t.params (fold_block d p.model t.params).2).map fun ip => merkle.leaf_hash (int64_bytes ip))).val)
    t.page_leaves hd
  have hbody : body_coords (paged_block t p d body.coords) tx = .ok (body.n, body.coords) := by
    have : (paged_block t p d body.coords).sparse[tx.da_pointer]? = some body := Std.ExtTreeMap.getElem?_insert_self
    rw [body_coords, this]
    rfl
  have hagg : AggregateOf (paged_block t p d body.coords) p.model.spans
      (page_aggregate d p.model.spans [body.coords]) := by
    refine ⟨[(body.n, body.coords)], ?_, rfl⟩
    change [tx].mapM (body_coords (paged_block t p d body.coords)) = _
    simp [hbody, pure, Except.pure, bind, Except.bind]
  have hwit : ∀ agg, AggregateOf (paged_block t p d body.coords) p.model.spans agg →
      WitnessRight t p.model.spans agg t.page_leaves (apply_redo t.canon agg.toList) := by
    intro agg _ pid s hbase hs htouched
    exact absurd (h.covers.untouched hbase (hspans ▸ hs) agg) htouched
  refine ⟨_, (stage_paged_iff hstands (fun _ => h.canon_length ▸ h.narrow) hwit _).mpr ⟨_, _, ?_, hv, hagg, rfl, rfl⟩⟩
  exact h.leaf_count p.model hm

end Any

open scoped Toy

namespace Toy

/-- A delta that names a hash no body has. -/
def unsigned_tx (pk : ByteArr 32) : BackpropTx :=
  { miner := hex_encode pk.val, base_height := 0, delta_hash := "genesis", da_pointer := "body", bond := 0,
    pages := [0], data_refs := ["genesis"], sig := [] }

def unbound_tx (pk : ByteArr 32) : BackpropTx :=
  { unsigned_tx pk with sig := (sign pk (unsigned_tx pk).signing_bytes).val }

theorem unbound_tx_signed (pk : ByteArr 32) : (unbound_tx pk).verify = true :=
  verify_sign (hex_decode_encode pk.val) (unsigned_tx pk).signing_bytes

def one_body : SparseBody :=
  { n := 1, coords := [(0, 1)], sorted := by simp, nonzero := by simp, in_range := by simp }

def paged_start : BlockTree := BlockTree.new_paged [5] [] (some "owner") params

def seeded_parent : Parent :=
  { model := ModelState.genesis params.spec, ledger := genesis_ledger (some "owner"), height := 0, work := 0,
    jurors := paged_start.recent_proposers paged_start.head }

/-- Block 1 by the owner of the key, with its delta. -/
def delta_by (prev_hash : String) (pk : ByteArr 32) (tx : BackpropTx) (body : SparseBody) : Block :=
  let proof := vrf_prove pk prev_hash 1 lottery.ATTEMPT_MAX
  delta_draft 1 (expected_version_at 1 params) prev_hash (hex_encode pk.val) (hex_encode proof) lottery.ATTEMPT_MAX
    (lottery.attempt_work proof lottery.ATTEMPT_MAX) tx body

theorem start_whole : Whole (ModelState.genesis params.spec).spans 1 paged_start fun _ => [5] := by
  refine whole_new [5] [] (some "owner") params rfl (by decide) fun pid page hpage _ => ?_
  have : pid < 1 := (List.getElem?_eq_some_iff.mp hpage).1
  simp only [List.mem_singleton]
  omega

theorem paged_start_entries : paged_start.parent_entries paged_start.head = .ok seeded_parent := by
  simp [parent_entries, paged_start, BlockTree.new_paged, BlockTree.new, ok_or, genesis_header, seeded_parent]

theorem seeded_active : "genesis" ∈ active_hashes
    ((seeded_parent.ledger.resolve_expired_challenges 1).resolve_expired_bonds 1) := by
  decide +kernel

theorem delta_ready (prev_hash : String) (pk : ByteArr 32) (body : SparseBody) :
    DeltaReady seeded_parent params (delta_by prev_hash pk (unbound_tx pk) body) (unbound_tx pk) where
  version := rfl
  height := rfl
  lottery := lottery_last _ pk (hex_decode_encode pk.val) (hex_ne_genesis pk.val) rfl rfl rfl
  signed := unbound_tx_signed pk
  base := show (0 : UInt64) = 1 - 1 by decide
  claims := rfl
  lane := rfl
  bond := rfl
  provenance := ⟨"genesis", List.mem_singleton_self _, seeded_active⟩

/-- The block whose delta commits to no body. -/
def unbound_block : Block :=
  paged_block paged_start seeded_parent (delta_by paged_start.head (key 7) (unbound_tx (key 7)) one_body) one_body.coords

theorem unbound_ne_head : unbound_block.hash ≠ paged_start.head := by decide +kernel

theorem unbound_fresh : unbound_block.hash ∉ paged_start.blocks := by
  intro h
  rw [show paged_start.blocks = (∅ : Dict Header).insert paged_start.head (genesis_header [5] params) from rfl,
    mem_insert_iff] at h
  exact h.elim unbound_ne_head Std.ExtTreeMap.not_mem_empty

theorem paged_start_held : ∀ pid < (ModelState.genesis params.spec).pages.length,
    ∃ base, paged_start.page_base[pid]? = some (some base) := by
  intro pid hpid
  obtain rfl : pid = 0 := Nat.lt_one_iff.mp hpid
  exact ⟨0, rfl⟩

theorem paged_start_takes : ∃ r, paged_start.stage_paged unbound_block seeded_parent = .ok r :=
  start_whole.takes_delta paged_start_entries rfl (delta_ready paged_start.head (key 7) one_body)

theorem paged_start_accepts : (paged_start.add_block unbound_block).1 = .ok true := by
  obtain ⟨r, hr⟩ := paged_start_takes
  rw [add_block_paged rfl unbound_fresh (fun _ => Std.ExtTreeSet.not_mem_empty) rfl,
    connect_extend_paged_ok paged_start_entries hr]

/-- The full node compares the body with the hash that the delta commits to. -/
theorem unbound_breaks_rules : ¬ ∀ tx ∈ unbound_block.txs, BodyRules paged_start unbound_block seeded_parent.model tx := by
  intro h
  obtain ⟨n, coords, -, -, hhash, -⟩ := h (unbound_tx (key 7)) (List.mem_singleton_self _)
  rcases hhash with hv | hh
  · exact Std.ExtTreeSet.not_mem_empty hv
  · exact hex_ne_genesis _ hh

end Toy

theorem paged_accepts_full_start :
    (∃ r, (Toy.paged_start.add_block Toy.unbound_block).1 = .ok r) ∧
      ((∃ r, (Toy.paged_start.unheld.add_block Toy.unbound_block).1 = .ok r) ↔
        Toy.unbound_block.hash ∈ Toy.paged_start.blocks ∨
          ∀ tx ∈ Toy.unbound_block.txs, BodyRules Toy.paged_start Toy.unbound_block (ModelState.genesis Toy.params.spec) tx) :=
  ⟨⟨true, Toy.paged_start_accepts⟩,
    paged_accepts_full_iff [5] [] (some "owner") Toy.params rfl (by decide) [] Toy.unbound_block
      (ModelState.genesis Toy.params.spec) (parent_entries_spec Toy.paged_start_entries).1 Toy.paged_start_held rfl
      ⟨true, Toy.paged_start_accepts⟩⟩

/-- The node holds every page and accepts a body that nobody committed to. -/
theorem paged_accepts_unbound_body :
    (∀ pid < (ModelState.genesis Toy.params.spec).pages.length, ∃ base, Toy.paged_start.page_base[pid]? = some (some base)) ∧
      (Toy.paged_start.add_block Toy.unbound_block).1 = .ok true ∧
      ¬ ∃ r, (Toy.paged_start.unheld.add_block Toy.unbound_block).1 = .ok r := by
  refine ⟨Toy.paged_start_held, Toy.paged_start_accepts, fun h => Toy.unbound_breaks_rules ?_⟩
  obtain ⟨r, hr⟩ := Toy.paged_start_takes
  have hnone : ∀ x, x ∉ Toy.paged_start.convicted := fun _ => Std.ExtTreeSet.not_mem_empty
  rw [unheld_add_block Toy.unbound_fresh rfl ⟨hnone _, hnone _⟩ Toy.paged_start_entries] at h
  exact (Toy.start_whole.full_takes_iff Toy.paged_start_entries hr).mp h

end Sestrian
