import Sestrian.Tree.Delta
import Sestrian.Tree.Leaves

/-!
# Incremental validation is dense validation

`validate_at_base` checks sparse bodies against canon and its cached leaves. It accepts the
blocks that `validate_block` accepts on the whole vectors, with the same result.
-/

open Check

namespace Sestrian

open Aggregate Pages

section Any

variable [Crypto]

/-! ## Bodies -/

omit [Crypto] in
theorem sparse_image_skip (n pos : Nat) (cs : List (UInt32 × Int64)) (hn : pos < n)
    (hcs : ∀ c ∈ cs.head?, pos < c.1.toNat) :
    sparse_image n pos cs = List.replicate 8 0 ++ sparse_image n (pos + 1) cs := by
  cases cs with
  | nil =>
    simp only [sparse_image, List.replicate_append_replicate]
    congr 1
    omega
  | cons c cs =>
    obtain ⟨i, v⟩ := c
    have hi : pos < i.toNat := hcs (i, v) rfl
    simp only [sparse_image, ← List.append_assoc, List.replicate_append_replicate]
    congr 3
    omega

/-- The nonzero entries, counted from `k`. -/
def coords_from (k : Nat) (vals : List Int64) : List (UInt32 × Int64) :=
  ((vals.zipIdx k).filter fun x => x.1 ≠ 0).map fun x => (UInt32.ofNat x.2, x.1)

omit [Crypto] in
theorem coords_from_cons (k : Nat) (x : Int64) (vals : List Int64) :
    coords_from k (x :: vals) =
      if x ≠ 0 then (UInt32.ofNat k, x) :: coords_from (k + 1) vals else coords_from (k + 1) vals := by
  by_cases hx : x = 0 <;> simp [coords_from, hx]

omit [Crypto] in
theorem le_of_mem_coords_from {k : Nat} {vals : List Int64} (hk : k + vals.length < 2 ^ 32)
    {c : UInt32 × Int64} (hc : c ∈ coords_from k vals) : k ≤ c.1.toNat := by
  obtain ⟨x, hx, rfl⟩ := List.mem_map.mp hc
  obtain ⟨hle, hlt, -⟩ := List.mem_zipIdx (List.mem_filter.mp hx).1
  rw [toNat_ofNat (by omega)]
  exact hle

omit [Crypto] in
/-- The streamed image of the nonzero entries is the image of the whole vector. -/
theorem sparse_image_from (k : Nat) (vals : List Int64) (hk : k + vals.length < 2 ^ 32) :
    sparse_image (k + vals.length) k (coords_from k vals) = int64_bytes vals := by
  induction vals generalizing k with
  | nil => simp [coords_from, sparse_image, int64_bytes]
  | cons x vals ih =>
    have ih := ih (k + 1) (by simp at hk; omega)
    rw [show k + 1 + vals.length = k + (x :: vals).length by simp; omega] at ih
    rw [coords_from_cons]
    split
    · have hx : (UInt32.ofNat k).toNat = k := toNat_ofNat (by omega)
      simp only [sparse_image, hx, ih]
      simp [int64_bytes]
    · next hx =>
      obtain rfl := not_not.mp hx
      rw [sparse_image_skip _ _ _ (by simp), ih]
      · rfl
      · intro c hc
        exact le_of_mem_coords_from (by simp at hk; omega) (List.mem_of_mem_head? hc)

theorem delta_hash_dense (vals : List Int64) (h : vals.length < 2 ^ 32) :
    delta_hash_sparse vals.length (dense_coords vals) = delta_hash (int64_bytes vals) := by
  have := sparse_image_from 0 vals (by simpa using h)
  rw [Nat.zero_add] at this
  exact congrArg sha256_hex this

/-- Every sparse body of the block is the nonzero coordinates of its dense body. -/
def SparseIsDense (block : Block) : Prop :=
  ∀ (ptr : String) (s : SparseBody), block.sparse[ptr]? = some s →
    ∃ body : DenseBody, block.bodies[ptr]? = some body ∧ s.n = body.vals.length ∧ s.coords = dense_coords body.vals

omit [Crypto] in
theorem SparseIsDense.body_coords_iff {block : Block} (h : SparseIsDense block) (tx : BackpropTx)
    (r : Nat × List (UInt32 × Int64)) :
    body_coords block tx = .ok r ↔ ∃ body, block.bodies[tx.da_pointer]? = some body ∧
      r = (body.vals.length, dense_coords body.vals) := by
  unfold body_coords
  split
  · next s hs =>
    obtain ⟨body, hb, hn, hc⟩ := h _ s hs
    simp [hb, hn, hc, @eq_comm _ r]
  · simp only [bind_eq_ok, ok_or_eq_ok, pure_eq_ok, @eq_comm _ _ r]

omit [Crypto] in
theorem SparseIsDense.dense_body_eq {block : Block} (h : SparseIsDense block) (tx : BackpropTx)
    {body : DenseBody} (hb : block.bodies[tx.da_pointer]? = some body) :
    dense_body block tx = body_of block tx := by
  obtain ⟨hr, hl⟩ := body_coords_spec ((h.body_coords_iff tx _).mpr ⟨body, hb, rfl⟩)
  have hbody : body_of block tx = body.vals := by simp [body_of, hb]
  have hr' := represents_dense body
  rw [hbody]
  apply List.ext_getElem hl
  intro j h₁ h₂
  have := (hr.values j).trans (hr'.values j).symm
  simpa [List.getD_eq_getElem?_getD, h₁, h₂] using this

/-! ## One delta -/

theorem check_tx_some (block : Block) (w : List Int64) (dim dim' : Nat) (m : ModelState)
    (params : GenesisParams) (tx : BackpropTx) :
    check_tx block (some w) dim m params tx = .ok () ↔
      check_tx block none dim' m params tx = .ok () ∧ check_body block dim tx = .ok () ∧
        check_mask block m params tx = .ok () := by
  simp only [check_tx, Option.isSome_some, Option.isSome_none, if_true, Bool.false_eq_true, if_false,
    bind_eq_ok, pure_eq_ok, exists_unit]
  tauto

theorem check_tx_claims {block : Block} {w : Option (List Int64)} {dim : Nat} {m : ModelState}
    {params : GenesisParams} {tx : BackpropTx} (h : check_tx block w dim m params tx = .ok ()) :
    check_claims m tx = .ok () := by
  cases w with
  | none =>
    simp only [check_tx, Option.isSome_none, Bool.false_eq_true, if_false, bind_eq_ok, exists_unit] at h
    exact h.2.2.1
  | some w =>
    simp only [check_tx, Option.isSome_some, if_true, bind_eq_ok, exists_unit] at h
    exact h.2.2.2.1

omit [Crypto] in
theorem mask_dense_iff (body : DenseBody) (P : Nat → Bool) :
    (∀ c ∈ dense_coords body.vals, c.2 ≠ 0 → P c.1.toNat) ↔
      ∀ xi ∈ body.vals.zipIdx, xi.1 ≠ 0 → P xi.2 := by
  have haddr {xi : Int64 × Nat} (hxi : xi ∈ body.vals.zipIdx) (hne : xi.1 ≠ 0) :
      (UInt32.ofNat xi.2).toNat = xi.2 := by
    refine toNat_ofNat (body.addressable xi.2 ?_)
    simpa [List.getD_eq_getElem?_getD, List.mem_zipIdx_iff_getElem?.mp hxi] using hne
  constructor
  · intro h xi hxi hne
    have := h (UInt32.ofNat xi.2, xi.1) (List.mem_map.mpr ⟨xi, List.mem_filter.mpr ⟨hxi, by simpa using hne⟩, rfl⟩) hne
    rwa [haddr hxi hne] at this
  · intro h c hc hne
    obtain ⟨xi, hxi, rfl⟩ := List.mem_map.mp hc
    have hmem := (List.mem_filter.mp hxi).1
    simp only [haddr hmem hne]
    exact h xi hmem hne

omit [Crypto] in
theorem nnz_dense (vals : List Int64) :
    ((dense_coords vals).filter fun c => c.2 ≠ 0).length = (vals.filter (· ≠ 0)).length := by
  have : (dense_coords vals).filter (fun c => c.2 ≠ 0) = dense_coords vals := by
    refine List.filter_eq_self.mpr fun c hc => ?_
    obtain ⟨xi, hxi, rfl⟩ := List.mem_map.mp hc
    exact (List.mem_filter.mp hxi).2
  have hmap : vals.filter (· ≠ 0) = (vals.zipIdx.filter fun x => x.1 ≠ 0).map (·.1) := by
    conv_lhs => rw [← List.zipIdx_map_fst 0 vals, List.filter_map]
    rfl
  rw [this, hmap]
  simp [dense_coords]

/-- The marks and the sparse bodies of the block say the truth about its dense bodies. -/
structure Truthful (verified : StrSet) (block : Block) : Prop where
  verified : ∀ tx ∈ block.txs, tx.txid ∈ verified → ∀ body, block.bodies[tx.da_pointer]? = some body →
    delta_hash (int64_bytes body.vals) = tx.delta_hash
  sparse : SparseIsDense block

/-- What the two paths are compared on: canon is the parent weights and its leaves are cached
right. -/
structure Ready (t : BlockTree) (block : Block) (p : BlockTree.Parent) : Prop
    extends Truthful t.hash_verified block where
  describes : Describes p.model t.canon.length
  leaves : t.page_leaves = leaves_for t.canon p.model
  dim : t.canon.length < 2 ^ 32

variable {t : BlockTree} {block : Block} {p : BlockTree.Parent}

/-- The sparse body rules are the dense ones. -/
theorem Ready.check_sparse_tx_iff (h : Ready t block p) {tx : BackpropTx} (htx : tx ∈ block.txs) :
    (∃ coords, t.check_sparse_tx block p.model tx = .ok coords) ↔
      check_claims p.model tx = .ok () ∧ check_body block t.canon.length tx = .ok () ∧
        check_mask block p.model t.params tx = .ok () := by
  simp only [BlockTree.check_sparse_tx, check_body, check_mask, bind_eq_ok, require_eq_ok, pure_eq_ok,
    ok_or_eq_ok, exists_unit, h.sparse.body_coords_iff]
  constructor
  · rintro ⟨coords, r, ⟨body, hb, rfl⟩, hn, hh, hc, hmask, hq, -⟩
    simp only at hn hh hmask hq
    have hhash : delta_hash (int64_bytes body.vals) = tx.delta_hash := by
      rcases hh with hv | hh
      · exact h.verified tx htx hv body hb
      · rwa [delta_hash_dense _ (hn ▸ h.dim)] at hh
    have hbody : body_of block tx = body.vals := by simp [body_of, hb]
    refine ⟨hc, ⟨body, hb, hn, hhash⟩, ?_, ?_⟩
    · rw [hbody]
      exact (mask_dense_iff body _).mp hmask
    · rw [hbody, ← nnz_dense]
      exact hq
  · rintro ⟨hc, ⟨body, hb, hn, hhash⟩, hmask, hq⟩
    have hbody : body_of block tx = body.vals := by simp [body_of, hb]
    rw [hbody] at hmask hq
    rw [← nnz_dense] at hq
    refine ⟨_, _, ⟨body, hb, rfl⟩, hn, .inr ?_, hc, ?_, hq, rfl⟩
    · rw [delta_hash_dense _ (hn ▸ h.dim), hhash]
    · exact (mask_dense_iff body _).mpr hmask

/-! ## The whole block -/

/-- The dense validator is the body-free one, the body rules, and the root of the weights. -/
theorem validate_block_iff (block : Block) (w : List Int64) (height : UInt64) (led : TokenLedger)
    (dc : Option String) (jurors : StrSet) (m : ModelState) (params : GenesisParams)
    (r : List Int64 × TokenLedger × ModelState) :
    validate_block block w height led dc jurors m params = .ok r ↔
      ∃ v, validate_inner block none height led dc jurors m params = .ok v ∧
        (∀ tx ∈ block.txs, check_body block w.length tx = .ok () ∧ check_mask block m params tx = .ok ()) ∧
        page_state_root (dense_post block w m params v.activations) v.model = block.header.state_root ∧
        r = (dense_post block w m params v.activations, v.ledger, v.model) := by
  simp only [validate_block, validate_inner, check_weights, bind_eq_ok, require_eq_ok, pure_eq_ok,
    exists_unit, forM_eq_ok, mapM_some_eq_ok, mapM_none_eq_ok, Option.map_some, Option.getD_some]
  have htx (tx : BackpropTx) := check_tx_some block w w.length m.dim m params tx
  constructor
  · rintro ⟨v, ⟨hh, htxs, hsets, -, ⟨_, ⟨hroot, rfl⟩, rfl⟩, hmodel, htr, hdr, led', hled, hlr, rfl⟩, rfl⟩
    exact ⟨_, ⟨hh, fun tx h => ((htx tx).mp (htxs tx h)).1, hsets, none, rfl, hmodel, htr, hdr, led', hled,
      hlr, rfl⟩, fun tx h => ((htx tx).mp (htxs tx h)).2, hroot, rfl⟩
  · rintro ⟨v, ⟨hh, htxs, hsets, -, rfl, hmodel, htr, hdr, led', hled, hlr, rfl⟩, hbodies, hroot, rfl⟩
    exact ⟨_, ⟨hh, fun tx h => (htx tx).mpr ⟨htxs tx h, hbodies tx h⟩, hsets, _, ⟨_, ⟨hroot, rfl⟩, rfl⟩,
      hmodel, htr, hdr, led', hled, hlr, rfl⟩, rfl⟩

theorem validate_inner_claims {block : Block} {w : Option (List Int64)} {height : UInt64} {led : TokenLedger}
    {dc : Option String} {jurors : StrSet} {m : ModelState} {params : GenesisParams} {v : Validated}
    (h : validate_inner block w height led dc jurors m params = .ok v) :
    ∀ tx ∈ block.txs, check_claims m tx = .ok () := by
  simp only [validate_inner, bind_eq_ok, exists_unit, forM_eq_ok] at h
  exact fun tx htx => check_tx_claims (h.2.1 tx htx)

/-- `mapM` succeeds when every item does. -/
theorem Ready.all_coords (h : Ready t block p) (hc : ∀ tx ∈ block.txs, check_claims p.model tx = .ok ()) :
    (∃ tx_coords, block.txs.mapM (t.check_sparse_tx block p.model) = .ok tx_coords) ↔
      ∀ tx ∈ block.txs, check_body block t.canon.length tx = .ok () ∧
        check_mask block p.model t.params tx = .ok () := by
  rw [mapM_ok_iff]
  refine forall₂_congr fun tx htx => ?_
  rw [h.check_sparse_tx_iff htx]
  simp [hc tx htx]

/-- The staged weights are the dense weights, and the staged leaves are theirs. -/
theorem Ready.staged_weights (h : Ready t block p) {v : Validated} {tx_coords : List (List (UInt32 × Int64))}
    (hv : validate_inner block none p.height p.ledger t.data_contributor p.jurors p.model t.params = .ok v)
    (hcoords : block.txs.mapM (t.check_sparse_tx block p.model) = .ok tx_coords) :
    let agg := page_aggregate block p.model.spans tx_coords
    let ips := init_pages t.params v.activations
    let w := dense_post block t.canon p.model t.params v.activations
    apply_redo t.canon agg.toList ++ ips.flatten = w ∧
      (t.state_root_with p.model.spans agg ips).2 = leaves_for w v.model ∧
      (t.state_root_with p.model.spans agg ips).1 = page_state_root w v.model := by
  intro agg ips w
  have hall := (mapM_eq_ok _ _ _).mp hcoords
  have hbody : ∀ tx ∈ block.txs, dense_body block tx = body_of block tx ∧
      (dense_body block tx).length = t.canon.length := by
    intro tx htx
    obtain ⟨coords, hc⟩ := (mapM_ok_iff _ _).mp ⟨_, hcoords⟩ tx htx
    have hbc := BlockTree.check_sparse_tx_coords hc
    obtain ⟨body, hb, -⟩ := (h.sparse.body_coords_iff tx _).mp hbc
    exact ⟨h.sparse.dense_body_eq tx hb, (body_coords_spec hbc).2⟩
  have hrep : List.Forall₂ Represents tx_coords (block.txs.map (dense_body block)) :=
    List.forall₂_map_right_iff.mpr (hall.imp fun tx cs hc =>
      (body_coords_spec (BlockTree.check_sparse_tx_coords hc)).1).flip
  have hw : apply_redo t.canon agg.toList ++ ips.flatten = w := by
    have := apply_redo_aggregate t.canon block p.model.spans tx_coords _ h.describes.tiled hrep hall.length_eq
      fun b hb => by
        obtain ⟨tx, htx, rfl⟩ := List.mem_map.mp hb
        exact (hbody tx htx).2.ge
    rw [List.map_congr_left fun tx htx => (hbody tx htx).1] at this
    simp only [agg, ips, w, dense_post, this]
  have hspans : v.model.spans = p.model.spans ++ spans_from t.canon.length ips := by
    obtain ⟨hm, ha⟩ := validate_inner_fold hv
    rw [hm, spans_fold_block, tiled_table_end h.describes.tiled h.describes.pages_ne, ← ha]
  have hleaves : (t.state_root_with p.model.spans agg ips).2 = leaves_for w v.model := by
    rw [state_root_with_leaves t p.model agg ips h.describes h.leaves (fun _ => h.dim), hw, ← hspans, leaves_for_eq]
  refine ⟨hw, hleaves, ?_⟩
  rw [page_state_root_eq, ← hleaves]
  rfl

/-- The dense validator, on the weights that canon holds. -/
def BlockTree.validate_dense (t : BlockTree) (block : Block) (p : Parent) :
    Validation (List Int64 × TokenLedger × ModelState) :=
  validate_block block t.canon p.height p.ledger t.data_contributor p.jurors p.model t.params

/-- What committing a staged block leaves is what the dense validator returns. -/
structure SameResult (t : BlockTree) (block : Block) (staged : Staged) (work : UInt64)
    (r : List Int64 × TokenLedger × ModelState) : Prop where
  canon : (t.commit_staged block.hash block.header staged work).canon = r.1
  ledger : staged.led = r.2.1
  model : staged.post_model = r.2.2
  leaves : (t.commit_staged block.hash block.header staged work).page_leaves = leaves_for r.1 r.2.2

omit [Crypto] in
theorem prune_deep_canon (t : BlockTree) : t.prune_deep.canon = t.canon ∧ t.prune_deep.page_leaves = t.page_leaves := by
  obtain ⟨doomed, pin, h⟩ := t.prune_deep_cases
  rw [h]
  exact ⟨rfl, rfl⟩

theorem Ready.same_result (h : Ready t block p) (work : UInt64) :
    (∀ staged, t.validate_at_base block p = .ok staged →
      ∃ r, t.validate_dense block p = .ok r ∧ SameResult t block staged work r) ∧
    ∀ r, t.validate_dense block p = .ok r → ∃ staged, t.validate_at_base block p = .ok staged := by
  simp only [BlockTree.validate_dense, validate_block_iff, BlockTree.validate_at_base, bind_eq_ok,
    require_eq_ok, pure_eq_ok, exists_unit]
  constructor
  · rintro staged ⟨tx_coords, hcoords, v, hv, hroot, rfl⟩
    obtain ⟨hw, hleaves, hsr⟩ := h.staged_weights hv hcoords
    refine ⟨_, ⟨v, hv, (h.all_coords (validate_inner_claims hv)).mp ⟨_, hcoords⟩, hsr ▸ hroot, rfl⟩, ?_⟩
    exact ⟨(prune_deep_canon _).1.trans hw, rfl, rfl, (prune_deep_canon _).2.trans hleaves⟩
  · rintro r ⟨v, hv, hbodies, hroot, rfl⟩
    obtain ⟨tx_coords, hcoords⟩ := (h.all_coords (validate_inner_claims hv)).mpr hbodies
    obtain ⟨-, -, hsr⟩ := h.staged_weights hv hcoords
    exact ⟨_, tx_coords, hcoords, v, hv, hsr ▸ hroot, rfl⟩

theorem Ready.accepts_iff (h : Ready t block p) :
    (∃ staged, t.validate_at_base block p = .ok staged) ↔ ∃ r, t.validate_dense block p = .ok r := by
  obtain ⟨h₁, h₂⟩ := h.same_result 0
  refine ⟨fun ⟨staged, hs⟩ => ?_, fun ⟨r, hr⟩ => h₂ r hr⟩
  obtain ⟨r, hr, -⟩ := h₁ staged hs
  exact ⟨r, hr⟩

/-- The incremental path accepts what the dense path accepts, and leaves the same state. -/
theorem incremental_eq_dense (t : BlockTree) (block : Block) (p : BlockTree.Parent) (work : UInt64)
    (h : Ready t block p) :
    ((∃ staged, t.validate_at_base block p = .ok staged) ↔ ∃ r, t.validate_dense block p = .ok r) ∧
    ∀ staged r, t.validate_at_base block p = .ok staged → t.validate_dense block p = .ok r →
      SameResult t block staged work r := by
  refine ⟨h.accepts_iff, fun staged r hs hr => ?_⟩
  obtain ⟨r', hr', hsame⟩ := (h.same_result work).1 staged hs
  obtain rfl := Except.ok.inj (hr.symm.trans hr')
  exact hsame

/-! ## A block with a delta -/

theorem validate_inner_dense (b : Block) (bodies : Dict DenseBody) (sparse : Dict SparseBody) (height : UInt64)
    (led : TokenLedger) (dc : Option String) (jurors : StrSet) (model : ModelState) (params : GenesisParams) :
    validate_inner { b with bodies, sparse } none height led dc jurors model params =
      validate_inner b none height led dc jurors model params := by
  have htx (dim : Nat) : check_tx { b with bodies, sparse } none dim model params = check_tx b none dim model params := by
    funext tx
    unfold check_tx
    simp only [Option.isSome_none, Bool.false_eq_true, if_false]
  have hheader : check_header { b with bodies, sparse } height led params = check_header b height led params := rfl
  have hsets : check_sets { b with bodies, sparse } = check_sets b := rfl
  have hfold : fold_block { b with bodies, sparse } model params = fold_block b model params := rfl
  have htoken : token_transition led { b with bodies, sparse } dc jurors = token_transition led b dc jurors := rfl
  unfold validate_inner
  simp only [htx, hheader, hsets, hfold, htoken, Option.mapM_none]

/-- Where the body stands as coordinates, the dense form of it is not read. -/
theorem BlockTree.validate_at_base_bodies (t : BlockTree) (b : Block) (p : BlockTree.Parent) (bodies : Dict DenseBody)
    {tx : BackpropTx} (htxs : b.txs = [tx]) {s : SparseBody} (hs : b.sparse[tx.da_pointer]? = some s) :
    t.validate_at_base { b with bodies } p = t.validate_at_base b p := by
  have hcoords : t.check_sparse_tx { b with bodies } p.model tx = t.check_sparse_tx b p.model tx := by
    unfold check_sparse_tx body_coords
    simp only [hs]
  have hone (f : BackpropTx → Validation (List (UInt32 × Int64))) : b.txs.mapM f = (do pure [← f tx]) :=
    congrArg (List.mapM f) htxs
  have hall : b.txs.mapM (t.check_sparse_tx { b with bodies } p.model) = b.txs.mapM (t.check_sparse_tx b p.model) := by
    rw [hone, hone, hcoords]
  have hinner := validate_inner_dense b bodies b.sparse p.height p.ledger t.data_contributor p.jurors p.model t.params
  unfold validate_at_base
  rw [hinner]
  change (b.txs.mapM (t.check_sparse_tx { b with bodies } p.model) >>= _) = _
  rw [hall]
  rfl

end Any

open scoped Toy

namespace Toy

theorem one_addressable (i : Nat) (hi : ([1] : List Int64).getD i 0 ≠ 0) : i < 2 ^ 32 := by
  cases i with
  | zero => norm_num
  | succ i => exact absurd (by simp) hi

/-- The block that adds one, with the body of its delta in both forms. -/
def twofold_block : Block :=
  { adding_block with bodies := (∅ : Dict DenseBody).insert "body" { vals := [1], addressable := one_addressable } }

theorem adding_sparse : adding_block.sparse[(one_tx (key 7)).da_pointer]? = some adding_body :=
  Std.ExtTreeMap.getElem?_insert_self

theorem twofold_valid : owned.validate_at_base twofold_block owned_parent = .ok adding_staged :=
  (owned.validate_at_base_bodies adding_block owned_parent _ rfl adding_sparse).trans adding_takes

theorem twofold_reads : SparseIsDense twofold_block := by
  intro ptr s hs
  rw [show twofold_block.sparse = (∅ : Dict SparseBody).insert "body" adding_body from rfl, SumMap.get_insert] at hs
  split at hs
  · rename_i hptr
    obtain rfl := Option.some.inj hs
    exact hptr ▸ ⟨_, Std.ExtTreeMap.getElem?_insert_self, rfl, rfl⟩
  · simp at hs

theorem twofold_ready : Ready owned twofold_block owned_parent :=
  { verified := fun _ _ hmark => absurd hmark Std.ExtTreeSet.not_mem_empty
    sparse := twofold_reads
    describes := describes_genesis params.spec
    leaves := rfl
    dim := by decide }

end Toy

/-- A block with a delta on genesis, which both paths accept. -/
theorem incremental_eq_dense_delta : Ready Toy.owned Toy.twofold_block Toy.owned_parent ∧
    (∃ staged, Toy.owned.validate_at_base Toy.twofold_block Toy.owned_parent = .ok staged) ∧
      ∃ r, Toy.owned.validate_dense Toy.twofold_block Toy.owned_parent = .ok r :=
  ⟨Toy.twofold_ready, ⟨_, Toy.twofold_valid⟩,
    (incremental_eq_dense Toy.owned Toy.twofold_block Toy.owned_parent 0 Toy.twofold_ready).1.mp ⟨_, Toy.twofold_valid⟩⟩

end Sestrian
