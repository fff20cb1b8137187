import Sestrian.Capacity.RoundTrip
import Sestrian.Fraud.Harm
import Sestrian.Fraud.Wire
import Sestrian.Tree.Branches
import Sestrian.Tree.Decoders

/-!
# What the verifier computes

Every check of the verifier on a proof that carries what it should, and the page it arrives at.
-/

open Check Panic

namespace Sestrian

open Aggregate Pages
open serde_json (Value field)

/-! ## A transaction as sent -/

theorem sorted_dedup {α : Type} [DecidableEq α] (r : α → α → Prop) [DecidableRel r] [Std.Total r] [IsTrans α r]
    (l : List α) : ((l.insertionSort r).dedup.insertionSort r).dedup = (l.insertionSort r).dedup := by
  have hsorted : (l.insertionSort r).dedup.Pairwise r := (List.pairwise_insertionSort r l).sublist (List.dedup_sublist _)
  rw [List.Pairwise.insertionSort_eq hsorted, List.dedup_eq_self.mpr (List.nodup_dedup _)]

namespace fraud

theorem sent_pages (t : BackpropTx) : (sent t).canonical_pages = t.canonical_pages := sorted_dedup (· ≤ ·) _

theorem sent_refs (t : BackpropTx) : (sent t).canonical_refs = t.canonical_refs := sorted_dedup (· ≤ ·) _

variable [Crypto]

omit [Crypto] in
theorem sent_signing (t : BackpropTx) : (sent t).signing_bytes = t.signing_bytes := by
  unfold BackpropTx.signing_bytes BackpropTx.signing_parts
  rw [sent_pages, sent_refs]
  rfl

theorem sent_txid (t : BackpropTx) : (sent t).txid = t.txid := congrArg sha256_hex (sent_signing t)

theorem sent_verify (t : BackpropTx) : (sent t).verify = t.verify := by
  unfold BackpropTx.verify
  rw [sent_signing]
  rfl

/-! ## The parent model -/

variable {from_str : String → Option Value} {p : PageFraudProof} {m : ModelState}

omit [Crypto] in
theorem pages_of_value (m : ModelState) :
    (m.value_of.get "pages").bind Value.as_array = some (m.pages.map ModelState.page_value) := by
  simp [ModelState.value_of, ModelState.fields, Value.get, field, Value.as_array]

theorem open_model_ok (hprev : p.header.prev_hash = p.parent_header.block_hash)
    (hjson : p.parent_model_json = m.canonical_json) (hroot : p.parent_header.model_root = m.model_root)
    (hparse : from_str m.canonical_json = some m.value_of) (hpid : p.page_id < m.pages.length) :
    open_model from_str p = .ok (m.pages.map ModelState.page_value) := by
  simp only [open_model, bind_eq_ok, require_eq_ok, exists_unit, ok_or_eq_ok, pure_eq_ok, hjson]
  refine ⟨hprev, hroot.symm, _, hparse, _, pages_of_value m, ?_, ?_, rfl⟩
  · intro hnil
    rw [List.map_eq_nil_iff] at hnil
    rw [hnil] at hpid
    exact absurd hpid (Nat.not_lt_zero _)
  · rwa [List.length_map]

omit [Crypto] in
theorem span_ok (ht : m.Typed) {i : Nat} {pg : Page} (hi : m.pages[i]? = some pg) :
    span (m.pages.map ModelState.page_value) i = .ok (pg.start, pg.stop) := by
  obtain ⟨hstart, hstop, -⟩ := ht.pages pg (List.mem_of_getElem? hi)
  have hget : (m.pages.map ModelState.page_value)[i]? = some (ModelState.page_value pg) := by
    rw [List.getElem?_map, hi]
    rfl
  unfold span
  rw [hget]
  change Except.ok ((UInt64.ofNat pg.start).toNat, (UInt64.ofNat pg.stop).toNat) = _
  rw [ModelState.toNat_of_isU64 hstart, ModelState.toNat_of_isU64 hstop]

/-! ## The claimants -/

omit [Crypto] in
theorem u32_int (i : UInt32) : i.toUInt64.toInt64.toInt = (i.toNat : Int) := by
  have hlt := i.toNat_lt
  have hbits : i.toUInt64.toInt64.toBitVec.toNat = i.toNat := UInt32.toNat_toUInt64 i
  rw [← Int64.toInt_toBitVec, BitVec.toInt_eq_toNat_of_lt (by omega), hbits]

omit [Crypto] in
theorem write_coords_ok {dim : Nat} {cs : List (UInt32 × Int64)} (hs : cs.Pairwise fun a b => a.1 < b.1)
    (hin : ∀ c ∈ cs, c.1.toNat < dim) (last : Int64) (hlast : ∀ c ∈ cs, last.toInt < (c.1.toNat : Int))
    (dense : List Int64) :
    write_coords dim ((cs.map fun c => c.1.toUInt64).zip (cs.map Prod.snd)) last dense =
      .ok (cs.foldl (fun d c => d.set c.1.toNat c.2) dense) := by
  induction cs generalizing last dense with
  | nil => rfl
  | cons c cs ih =>
    obtain ⟨hafter, hs⟩ := List.pairwise_cons.mp hs
    obtain ⟨hc, hin⟩ := List.forall_mem_cons.mp hin
    obtain ⟨hl, -⟩ := List.forall_mem_cons.mp hlast
    have hok : ¬(c.1.toUInt64.toNat ≥ dim ∨ c.1.toUInt64.toInt64 ≤ last) := by
      rw [UInt32.toNat_toUInt64, Int64.le_iff_toInt_le, u32_int]
      omega
    rw [List.map_cons, List.map_cons, List.zip_cons_cons, write_coords, if_neg hok, UInt32.toNat_toUInt64, List.foldl_cons]
    refine ih hs hin _ (fun c' hc' => ?_) _
    rw [u32_int]
    exact_mod_cast UInt32.lt_iff_toNat_lt.mp (hafter c' hc')

omit [Crypto] in
theorem sets_eq {n : Nat} {cs : List (UInt32 × Int64)} (hs : cs.Pairwise fun a b => a.1 < b.1) :
    cs.foldl (fun d c => d.set c.1.toNat c.2) (List.replicate n 0) = Decoders.densify n cs := by
  have hd : Patch.Distinct place cs := hs.imp fun hab he => by
    rw [UInt32.lt_iff_toNat_lt] at hab
    exact absurd he (Nat.ne_of_lt hab)
  have hset : cs.foldl (fun d c => d.set c.1.toNat c.2) (List.replicate n 0) =
      Patch.modifyAll place (fun c _ => c.2) (List.replicate n 0) cs := Patch.setAll_eq_modifyAll _ cs
  refine hset.trans (List.ext_getElem? fun j => ?_)
  rw [Patch.getElem?_modifyAll hd, Decoders.densify, List.getElem?_map, List.getElem?_replicate]
  cases hhit : Patch.hit place cs j <;> by_cases hj : j < n <;> simp [hhit, hj, value_at]

/-- The dense body of a delta in the verifier. -/
theorem dense_image_ok {tx : BackpropTx} {s : SparseBody} (hhash : delta_hash_sparse s.n s.coords = tx.delta_hash) :
    dense_image s.n tx { n := s.n, idx := s.coords.map fun c => c.1.toUInt64, val := s.coords.map Prod.snd } =
      .ok (Decoders.densify s.n s.coords) := by
  have hwrite := write_coords_ok s.sorted s.in_range (-1) (fun c _ => by
    rw [show (-1 : Int64).toInt = -1 from rfl]
    omega) (List.replicate s.n 0)
  rw [sets_eq s.sorted] at hwrite
  have himage : sparse_image s.n 0 s.coords = int64_bytes ((List.range' 0 (s.n - 0)).map (value_at s.coords)) :=
    Decoders.sparse_image_eq s.sorted (fun _ _ => Nat.zero_le _) s.in_range
  rw [Nat.sub_zero, ← List.range_eq_range'] at himage
  unfold dense_image
  rw [hwrite]
  simp only [bind_eq_ok, require_eq_ok, exists_unit, pure_eq_ok]
  refine ⟨_, rfl, ?_, rfl⟩
  rw [← hhash, delta_hash_sparse, himage]
  rfl

/-- The page column of a delta in the verifier. -/
theorem column_ok {memory start stop : Nat} {tx : BackpropTx} {s : SparseBody} (hmem : s.n * 8 ≤ memory)
    (hle : start ≤ stop) (hstop : stop ≤ s.n) (hhash : delta_hash_sparse s.n s.coords = tx.delta_hash) :
    column memory start stop s.n tx { n := s.n, idx := s.coords.map fun c => c.1.toUInt64, val := s.coords.map Prod.snd } =
      .ok (slice (Decoders.densify s.n s.coords) start stop) := by
  have hlen : (Decoders.densify s.n s.coords).length = s.n := by
    rw [Decoders.densify, List.length_map, List.length_range]
  unfold column alloc_in slice_of
  rw [if_pos hmem, dense_image_ok hhash]
  change unwrap (if start ≤ stop ∧ stop ≤ (Decoders.densify s.n s.coords).length then _ else _) = _
  rw [hlen, if_pos ⟨hle, hstop⟩]
  rfl

/-- A delta is in the committed set, signed, on the parent, and its body, where it claims the page, is in the proof. -/
structure Backed (p : PageFraudProof) (dim : Nat) (t : BackpropTx) (s : SparseBody) : Prop where
  listed : t.txid ∈ p.txids
  signed : t.verify = true
  base : t.base_height = p.parent_header.height
  length : s.n = dim
  hash : delta_hash_sparse s.n s.coords = t.delta_hash
  carried : UInt32.ofNat p.page_id ∈ t.canonical_pages → p.bodies.lookup t.txid =
    some { n := s.n, idx := s.coords.map fun c => c.1.toUInt64, val := s.coords.map Prod.snd }

theorem claim_column_ok {memory start stop dim : Nat} {t : BackpropTx} {s : SparseBody} (h : Backed p dim t s)
    (hmem : dim * 8 ≤ memory) (hle : start ≤ stop) (hstop : stop ≤ dim) (cols : List (List Int64)) :
    claim_column memory p start stop dim cols (sent t) =
      .ok (if UInt32.ofNat p.page_id ∈ t.canonical_pages then
        cols ++ [slice (Decoders.densify s.n s.coords) start stop] else cols) := by
  obtain ⟨hlisted, hsigned, hbase, rfl, hhash, hcarried⟩ := h
  by_cases hc : UInt32.ofNat p.page_id ∈ t.canonical_pages
  · have hclaim : claim p s.n (sent t) =
        .ok (some { n := s.n, idx := s.coords.map fun c => c.1.toUInt64, val := s.coords.map Prod.snd }) := by
      simp only [claim, sent_txid, sent_verify, sent_pages, bind_eq_ok, require_eq_ok, exists_unit]
      refine ⟨hlisted, hsigned, hbase, ?_⟩
      rw [if_neg (not_not.mpr hc)]
      simp only [bind_eq_ok, ok_or_eq_ok, require_eq_ok, exists_unit, pure_eq_ok]
      exact ⟨_, hcarried hc, ⟨rfl, by rw [List.length_map, List.length_map]⟩, rfl⟩
    unfold claim_column
    rw [hclaim, if_pos hc]
    change (column memory start stop s.n (sent t) _ >>= fun col => pure (cols ++ [col])) = _
    rw [column_ok hmem hle hstop (show delta_hash_sparse s.n s.coords = (sent t).delta_hash from hhash)]
    rfl
  · have hclaim : claim p s.n (sent t) = .ok none := by
      simp only [claim, sent_txid, sent_verify, sent_pages, bind_eq_ok, require_eq_ok, exists_unit]
      refine ⟨hlisted, hsigned, hbase, ?_⟩
      rw [if_pos hc]
      rfl
    unfold claim_column
    rw [hclaim, if_neg hc]
    rfl

/-- The columns of the claimants, in the order of the block. -/
theorem claim_columns_ok {memory start stop dim : Nat} {txs : List BackpropTx} {body : BackpropTx → SparseBody}
    (h : ∀ t ∈ txs, Backed p dim t (body t)) (hmem : dim * 8 ≤ memory) (hle : start ≤ stop) (hstop : stop ≤ dim)
    (cols : List (List Int64)) :
    (txs.map sent).foldlM (claim_column memory p start stop dim) cols =
      .ok (cols ++ ((txs.filter fun t => t.canonical_pages.contains (UInt32.ofNat p.page_id)).map fun t =>
        slice (Decoders.densify (body t).n (body t).coords) start stop)) := by
  induction txs generalizing cols with
  | nil => exact congrArg Except.ok (List.append_nil cols).symm
  | cons t txs ih =>
    obtain ⟨ht, htxs⟩ := List.forall_mem_cons.mp h
    rw [List.map_cons, List.foldlM_cons, claim_column_ok ht hmem hle hstop]
    change List.foldlM _ _ _ = _
    rw [ih htxs]
    by_cases hc : UInt32.ofNat p.page_id ∈ t.canonical_pages
    · rw [if_pos hc, List.filter_cons_of_pos (by simpa using hc), List.map_cons, List.append_assoc]
      rfl
    · rw [if_neg hc, List.filter_cons_of_neg (by simpa using hc)]

/-! ## The parent page -/

omit [Crypto] in
theorem as_hash_encode (h : Hash) : as_hash (hex_encode h.val) = some h := by
  unfold as_hash
  rw [hex_decode_encode, Option.bind_some, dif_pos h.property]

theorem check_parent_ok {w : Nat} {canon : List Int64} {pg : Page} {i : Nat} (hi : m.pages[i]? = some pg)
    (hpage : p.parent_page = slice canon pg.start pg.stop) (hlen : p.parent_page.length = w)
    (hpath : p.parent_path = (merkle.proof (merkle.levels (leaves_for canon m)) i).map fun s => (s.1, hex_encode s.2.val))
    (hroot : p.parent_header.state_root = page_state_root canon m) : check_parent p w = .ok () := by
  have hpath' : p.parent_path.mapM (fun b => (as_hash b.2).map fun h => (b.1, h)) =
      some (merkle.proof (merkle.levels (leaves_for canon m)) i) := by
    rw [hpath]
    generalize merkle.proof (merkle.levels (leaves_for canon m)) i = branch
    induction branch with
    | nil => rfl
    | cons s branch ih =>
      rw [List.map_cons, List.mapM_cons, as_hash_encode, ih]
      rfl
  have hroot' : as_hash p.parent_header.state_root = some (merkle.root_from_hashes (leaves_for canon m)) := by
    rw [hroot, page_state_root_eq, as_hash_encode]
  have hne : leaves_for canon m ≠ [] := by
    intro hnil
    rw [leaves_for, List.map_eq_nil_iff] at hnil
    rw [hnil] at hi
    cases hi
  have hleaf : (leaves_for canon m)[i]? = some (merkle.leaf_hash (int64_bytes p.parent_page)) := by
    rw [leaves_for, List.getElem?_map, hi, hpage]
    rfl
  simp only [check_parent, bind_eq_ok, require_eq_ok, exists_unit, ok_or_eq_ok]
  exact ⟨hlen, _, hpath', _, hroot', (merkle.proofs_complete_and_binding _ hne).2.1 i _ hleaf⟩

/-! ## The verdict -/

/-- A proof that carries the page `pg` of the parent state, the claimants and the published leaves. -/
structure Carries (from_str : String → Option Value) (p : PageFraudProof) (m : ModelState) (canon : List Int64)
    (txs : List BackpropTx) (body : BackpropTx → SparseBody) (pg : Page) (level : List Hash) : Prop where
  prev : p.header.prev_hash = p.parent_header.block_hash
  json : p.parent_model_json = m.canonical_json
  model_root : p.parent_header.model_root = m.model_root
  parses : from_str m.canonical_json = some m.value_of
  typed : m.Typed
  describes : Describes m canon.length
  page : m.pages[p.page_id]? = some pg
  leaves : p.committed_leaves.mapM as_hash = some level
  shape : p.committed_leaves.length = m.pages.length
  folds : p.header.state_root = hex_encode (merkle.root_from_hashes level).val
  ids : p.txids = txs.map BackpropTx.txid
  deltas : p.txs = txs.map sent
  set : p.header.txset_root = set_root (txs.map BackpropTx.txid)
  count : p.header.n_txs = UInt64.ofNat txs.length
  backed : ∀ t ∈ txs, Backed p canon.length t (body t)
  parent_page : p.parent_page = slice canon pg.start pg.stop
  parent_path : p.parent_path =
    (merkle.proof (merkle.levels (leaves_for canon m)) p.page_id).map fun s => (s.1, hex_encode s.2.val)
  state_root : p.parent_header.state_root = page_state_root canon m

/-- The page that the verifier arrives at. -/
def page_after (canon : List Int64) (txs : List BackpropTx) (body : BackpropTx → SparseBody) (pid : Nat) (pg : Page) :
    List Int64 :=
  (slice canon pg.start pg.stop).mapIdx fun j x => x + trimmed_mean_scalar
    (((txs.filter fun t => t.canonical_pages.contains (UInt32.ofNat pid)).map fun t =>
      slice (Decoders.densify (body t).n (body t).coords) pg.start pg.stop).map fun z => z.getD j 0)

variable {canon : List Int64} {txs : List BackpropTx} {body : BackpropTx → SparseBody} {pg : Page} {level : List Hash}

omit [Crypto] in
theorem span_le {a b : Nat} {spans : List (Nat × Nat)} (h : Tiled a spans b) {s : Nat × Nat} (hs : s ∈ spans) : s.1 ≤ s.2 := by
  induction spans generalizing a with
  | nil => cases hs
  | cons s' rest ih =>
    rcases List.mem_cons.mp hs with rfl | hs
    · exact h.1.le.trans h.2.1
    · exact ih h.2.2 hs

omit [Crypto] in
theorem last_span (hd : Describes m canon.length) : ∃ last, m.pages[m.pages.length - 1]? = some last ∧ last.stop = canon.length := by
  obtain ⟨last, hlast⟩ := List.getLast?_isSome.mpr hd.pages_ne |> Option.isSome_iff_exists.mp
  refine ⟨last, by rw [← List.getLast?_eq_getElem?]; exact hlast, ?_⟩
  have hend := tiled_table_end hd.tiled hd.pages_ne
  unfold table_end at hend
  rw [hlast] at hend
  exact hend

/-- A proof that carries all it should is judged by the page. -/
theorem verify_ok (h : Carries from_str p m canon txs body pg level) {memory : Nat} (hmem : canon.length * 8 ≤ memory)
    {committed : Hash} (hget : level[p.page_id]? = some committed) :
    verify from_str memory p =
      .ok (verdict p (merkle.leaf_hash (int64_bytes (page_after canon txs body p.page_id pg))) committed) := by
  have hpid : p.page_id < m.pages.length := (List.getElem?_eq_some_iff.mp h.page).1
  have hspan : (pg.start, pg.stop) ∈ m.spans := by
    rw [spans_eq]
    exact List.mem_map.mpr ⟨pg, List.mem_of_getElem? h.page, rfl⟩
  have hstop : pg.stop ≤ canon.length := h.describes.tiled.stop_le hspan
  have hle : pg.start ≤ pg.stop := span_le h.describes.tiled hspan
  obtain ⟨last, hlast, hlaststop⟩ := last_span h.describes
  have hset : check_set p (m.pages.map ModelState.page_value) = .ok level := by
    simp only [check_set, bind_eq_ok, require_eq_ok, exists_unit, ok_or_eq_ok, pure_eq_ok]
    refine ⟨by rw [List.length_map]; exact h.shape, _, h.leaves, h.folds.symm, ?_, ?_, rfl⟩
    · rw [h.ids]
      exact h.set.symm
    · rw [h.ids, h.deltas, List.length_map, List.length_map]
      exact ⟨rfl, h.count.symm⟩
  have hcols := claim_columns_ok h.backed hmem hle hstop []
  rw [← h.deltas] at hcols
  have hpagelen : p.parent_page.length = pg.stop - pg.start := by
    rw [h.parent_page, length_slice _ _ _ hstop]
  have hjudge : judge from_str memory p =
      .ok (verdict p (merkle.leaf_hash (int64_bytes (page_after canon txs body p.page_id pg))) committed) := by
    unfold judge
    refine bind_ok_iff.mpr ⟨_, lift_check_ok_iff.mpr (open_model_ok h.prev h.json h.model_root h.parses hpid), ?_⟩
    refine bind_ok_iff.mpr ⟨_, span_ok h.typed h.page, ?_⟩
    rw [List.length_map]
    refine bind_ok_iff.mpr ⟨_, span_ok h.typed hlast, ?_⟩
    refine bind_ok_iff.mpr ⟨_, lift_check_ok_iff.mpr hset, ?_⟩
    rw [hlaststop]
    refine bind_ok_iff.mpr ⟨_, hcols, ?_⟩
    refine bind_ok_iff.mpr ⟨_, unwrap_ok_iff.mpr (if_pos hle), ?_⟩
    refine bind_ok_iff.mpr ⟨(), lift_check_ok_iff.mpr
      (check_parent_ok h.page h.parent_page hpagelen h.parent_path h.state_root), ?_⟩
    refine bind_ok_iff.mpr ⟨_, recompute_ok hpagelen fun z hz => ?_, ?_⟩
    · obtain ⟨t, ht, rfl⟩ := List.mem_map.mp hz
      have hlen : (Decoders.densify (body t).n (body t).coords).length = canon.length := by
        rw [Decoders.densify, List.length_map, List.length_range]
        exact (h.backed t (List.mem_filter.mp ht).1).length
      exact length_slice _ _ _ (hlen ▸ hstop)
    · refine bind_ok_iff.mpr ⟨committed, unwrap_ok_iff.mpr hget, ?_⟩
      rw [h.parent_page, page_after, List.nil_append]
      rfl
  unfold verify
  rw [hjudge]

end fraud

end Sestrian
