import Sestrian.Fraud.Convicts
import Sestrian.Tree.Sealed
import Sestrian.Tree.Slot

/-!
# Which false blocks a full node can prove false

The node disputes the first page whose honest leaf is not the published text, and the verifier compares what the texts
stand for. So a right leaf in other letters, before the first false one, hides it.
-/

open Check Panic

namespace Sestrian

open Aggregate Pages BlockTree
open serde_json (Value field)

section Any

variable [Crypto]

/-! ## One page of the dense transition -/

section Page

variable {bodies : List (List Int64)} {claims : List (List UInt32)}

omit [Crypto] in
theorem paged_outside {spans : List (Nat × Nat)} {k j : Nat} (w : List Int64)
    (hb : ∀ s ∈ spans, ∀ b ∈ bodies, s.2 ≤ b.length) (hout : ∀ s ∈ spans, ¬(s.1 ≤ j ∧ j < s.2)) :
    ((spans.zipIdx k).foldl (page_step bodies claims) w)[j]? = w[j]? := by
  induction spans generalizing k w with
  | nil => rfl
  | cons s spans ih =>
    obtain ⟨hbs, hb⟩ := List.forall_mem_cons.mp hb
    obtain ⟨hs, hout⟩ := List.forall_mem_cons.mp hout
    rw [List.zipIdx_cons, List.foldl_cons, ih _ hb hout, getElem?_page_step _ _ _ _ _ _ hbs, if_neg hs]
    simp

omit [Crypto] in
/-- Only the page of a coordinate changes it. -/
theorem paged_at {spans : List (Nat × Nat)} {a n k i j : Nat} {s : Nat × Nat} (w : List Int64) (ht : Tiled a spans n)
    (hb : ∀ b ∈ bodies, n ≤ b.length) (hi : spans[i]? = some s) (hj : s.1 ≤ j ∧ j < s.2) :
    ((spans.zipIdx k).foldl (page_step bodies claims) w)[j]? =
      w[j]?.map (· + trimmed_mean_scalar ((claimed bodies claims (k + i)).map (·.getD j 0))) := by
  induction spans generalizing a k i w with
  | nil => cases hi
  | cons s' spans ih =>
    obtain ⟨-, hle, hrest⟩ := ht
    have hlen : ∀ b ∈ bodies, s'.2 ≤ b.length := fun b hb' => hrest.le.trans (hb b hb')
    rw [List.zipIdx_cons, List.foldl_cons]
    cases i with
    | zero =>
      obtain rfl := Option.some.inj hi
      have hlater : ∀ s ∈ spans, ¬(s.1 ≤ j ∧ j < s.2) := fun s hs hin =>
        absurd ((hrest.start_le hs).trans hin.1) (Nat.not_le.mpr hj.2)
      rw [paged_outside _ (fun s hs b hb' => (hrest.stop_le hs).trans (hb b hb')) hlater,
        getElem?_page_step _ _ _ _ _ _ hlen, if_pos hj, Nat.add_zero]
    | succ i =>
      have hi' : spans[i]? = some s := hi
      have hstart := hrest.start_le (List.mem_of_getElem? hi')
      have hnot : ¬(s'.1 ≤ j ∧ j < s'.2) := by omega
      rw [ih _ hrest hi', getElem?_page_step _ _ _ _ _ _ hlen, if_neg hnot, Nat.add_right_comm,
        Nat.add_assoc k i 1]
      simp

omit [Crypto] in
theorem claimed_map (txs : List BackpropTx) (f : BackpropTx → List Int64) (page_id : Nat) :
    claimed (txs.map f) (txs.map (·.canonical_pages)) page_id =
      (txs.filter fun t => t.canonical_pages.contains (UInt32.ofNat page_id)).map f := by
  unfold claimed
  rw [List.zip_map', List.filter_map, List.map_map]
  rfl

omit [Crypto] in
/-- The page after the block, from the page before it and the claimants' pages. -/
theorem slice_paged {spans : List (Nat × Nat)} {w : List Int64} {txs : List BackpropTx} {f : BackpropTx → List Int64}
    (ht : Tiled 0 spans w.length) (hb : ∀ t ∈ txs, w.length ≤ (f t).length) {i : Nat} {s : Nat × Nat}
    (hi : spans[i]? = some s) :
    slice (paged_transition w (txs.map f) (txs.map (·.canonical_pages)) spans) s.1 s.2 =
      (slice w s.1 s.2).mapIdx fun j x => x + trimmed_mean_scalar
        (((txs.filter fun t => t.canonical_pages.contains (UInt32.ofNat i)).map fun t => slice (f t) s.1 s.2).map
          fun z => z.getD j 0) := by
  have hb' : ∀ b ∈ txs.map f, w.length ≤ b.length := List.forall_mem_map.mpr hb
  apply List.ext_getElem?
  intro j
  rw [getElem?_slice, List.getElem?_mapIdx, getElem?_slice]
  split
  · rename_i hj
    have hin : s.1 ≤ s.1 + j ∧ s.1 + j < s.2 := by omega
    have hcols : ((txs.filter fun t => t.canonical_pages.contains (UInt32.ofNat i)).map f).map (·.getD (s.1 + j) 0) =
        ((txs.filter fun t => t.canonical_pages.contains (UInt32.ofNat i)).map fun t => slice (f t) s.1 s.2).map
          fun z => z.getD j 0 := by
      rw [List.map_map, List.map_map]
      refine List.map_congr_left fun t _ => ?_
      have hat := getD_slice (f t) s.1 s.2 (s.1 + j) 0 hin.1 hin.2
      rw [Nat.add_sub_cancel_left] at hat
      exact hat.symm
    have hpage : (paged_transition w (txs.map f) (txs.map (·.canonical_pages)) spans)[s.1 + j]? = _ :=
      paged_at w ht hb' hi hin
    rw [hpage, Nat.zero_add, claimed_map, hcols]
  · rfl

end Page

/-! ## The honest leaves -/

/-- The leaves that the block should have published. -/
def honest_leaves (t : BlockTree) (m : ModelState) (block : Block) : List Hash :=
  leaves_for (paged_transition t.canon (block.txs.map (dense_body block)) (block.txs.map (·.canonical_pages)) m.spans) m

namespace fraud

/-- A block on the head that publishes false leaves, with everything else in order: its leaves fold to its root, its
deltas are signed, on the parent and in its set, and the node holds the body of each. -/
structure Disputed (t : BlockTree) (payloads : Dict Payload) (sb : StoredBlock) (parent : Header) (m : ModelState)
    (block : Block) (level : List Hash) : Prop where
  on_head : sb.header.prev_hash = t.head
  knows : t.blocks[t.head]? = some parent
  model : t.model[t.head]? = some m
  reads : sb.to_core_sparse payloads = some block
  txs : ∀ tx ∈ block.txs, tx.verify = true ∧ tx.base_height = parent.height
  set : sb.header.txset_root = set_root (block.txs.map BackpropTx.txid)
  count : sb.header.n_txs = UInt64.ofNat block.txs.length
  bodies : ∀ tx ∈ block.txs, ∃ (p : Payload) (s : SparseBody), payloads[tx.txid]? = some p ∧ p.body = some s ∧
    block.sparse[tx.da_pointer]? = some s ∧ s.n = t.canon.length ∧ delta_hash_sparse s.n s.coords = tx.delta_hash
  leaves : sb.page_leaves.mapM as_hash = some level
  folds : sb.header.state_root = hex_encode (merkle.root_from_hashes level).val
  shape : level.length = m.pages.length
  false_leaf : level ≠ honest_leaves t m block
  usize : sb.page_leaves.length < 2 ^ 64

/-- The node publishes a proof, and it convicts on every node that can hold one body. -/
def Convicted (from_str : String → Option Value) (memory : Nat) (t : BlockTree) (payloads : Dict Payload)
    (sb : StoredBlock) : Prop :=
  ∃ proof, emit_fraud_if_provable from_str memory t payloads sb = .ok (some proof) ∧
    ∀ memory', t.canon.length * 8 ≤ memory' → ∃ reason, fraud_verify from_str memory' proof = .ok (true, reason)

/-- No right leaf in other letters comes before the first false one. -/
def SpelledRight (honest : List Hash) (published : List String) : Prop :=
  ∀ (i : Nat) (h : Hash) (s : String), honest[i]? = some h → published[i]? = some s → as_hash s = some h →
    s ≠ hex_encode h.val → ∃ j < i, (published[j]?).bind as_hash ≠ honest[j]?

/-! ## The node's own reading -/

section Node

variable {t : BlockTree} {payloads : Dict Payload} {sb : StoredBlock} {parent : Header} {m : ModelState} {block : Block}
  {level : List Hash}

/-- The sparse body of a delta. -/
def body_at (block : Block) (tx : BackpropTx) : SparseBody := (block.sparse[tx.da_pointer]?).getD (default : Payload).body_or_empty

/-- What the node holds of a delta. -/
structure Held (t : BlockTree) (payloads : Dict Payload) (block : Block) (tx : BackpropTx) : Prop where
  payload : ∃ p, payloads[tx.txid]? = some p ∧ p.n = (body_at block tx).n ∧ p.coords = some (body_at block tx).coords
  sparse : block.sparse[tx.da_pointer]? = some (body_at block tx)
  length : (body_at block tx).n = t.canon.length
  hash : delta_hash_sparse (body_at block tx).n (body_at block tx).coords = tx.delta_hash

theorem Disputed.held (h : Disputed t payloads sb parent m block level) {tx : BackpropTx} (htx : tx ∈ block.txs) :
    Held t payloads block tx := by
  obtain ⟨p, s, hp, hbody, hsparse, hn, hhash⟩ := h.bodies tx htx
  have hat : body_at block tx = s := by
    rw [body_at, hsparse]
    rfl
  obtain ⟨hpn, hcoords⟩ := Payload.body_eq_some hbody
  rw [← hat] at hpn hcoords hsparse hn hhash
  exact ⟨⟨p, hp, hpn.symm, hcoords⟩, hsparse, hn, hhash⟩

theorem Held.dense {tx : BackpropTx} (h : Held t payloads block tx) :
    dense_body block tx = Decoders.densify (body_at block tx).n (body_at block tx).coords := by
  rw [dense_body, h.sparse]
  rfl

theorem Disputed.header (h : Disputed t payloads sb parent m block level) : block.header = sb.header := by
  have hreads := h.reads
  simp only [StoredBlock.to_core_sparse, Option.bind_eq_bind, Option.bind_eq_some_iff] at hreads
  obtain ⟨txs, -, transfers, -, data_txs, -, sparse, -, hb⟩ := hreads
  obtain rfl := Option.some.inj hb
  rfl

theorem Disputed.honest_eq (h : Disputed t payloads sb parent m block level) (hd : Describes m t.canon.length)
    (hr : t.page_leaves = leaves_for t.canon m) (hdim : block.txs ≠ [] → t.canon.length < 2 ^ 32) :
    t.honest_leaves_at_head block = some (honest_leaves t m block) := by
  have hcoords : block.txs.mapM (t.honest_coords block) = some (block.txs.map fun tx => (body_at block tx).coords) := by
    have hone : ∀ tx ∈ block.txs, t.honest_coords block tx = some (body_at block tx).coords := fun tx htx => by
      have hheld := h.held htx
      rw [honest_coords, body_coords, hheld.sparse]
      exact if_pos hheld.length
    generalize block.txs = txs at hone
    induction txs with
    | nil => rfl
    | cons tx txs ih =>
      obtain ⟨htx, htxs⟩ := List.forall_mem_cons.mp hone
      rw [List.mapM_cons, htx, ih htxs]
      rfl
  have hrep : List.Forall₂ Represents (block.txs.map fun tx => (body_at block tx).coords)
      (block.txs.map (dense_body block)) := by
    rw [List.forall₂_map_left_iff, List.forall₂_map_right_iff, List.forall₂_same]
    intro tx htx
    rw [(h.held htx).dense]
    exact represents_sparse _
  have hlen : ∀ b ∈ block.txs.map (dense_body block), t.canon.length ≤ b.length := by
    intro b hb
    obtain ⟨tx, htx, rfl⟩ := List.mem_map.mp hb
    rw [(h.held htx).dense, Decoders.densify, List.length_map, List.length_range, (h.held htx).length]
  have hagg : page_aggregate block m.spans (block.txs.map fun tx => (body_at block tx).coords) ≠ ∅ →
      t.canon.length < 2 ^ 32 := fun hne => hdim fun hnil => hne (by
    rw [hnil]
    exact page_aggregate_nil hnil _)
  have hleaves := state_root_with_leaves t m _ [] hd hr hagg
  have hredo := apply_redo_aggregate t.canon block m.spans _ _ hd.tiled hrep (List.length_map _).symm hlen
  unfold honest_leaves_at_head
  rw [if_neg (not_not.mpr (h.header.symm ▸ h.on_head)), h.model]
  change (block.txs.mapM (t.honest_coords block) >>= fun tx_coords =>
    some (t.state_root_with m.spans (page_aggregate block m.spans tx_coords) []).2) = _
  rw [hcoords]
  refine congrArg some (hleaves.trans ?_)
  rw [hredo, honest_leaves, leaves_for_eq, spans_from, List.append_nil, List.flatten_nil, List.append_nil]

/-! ## The disputed page -/

omit [Crypto] in
theorem mapM_get {α β : Type} {f : α → Option β} {xs : List α} {ys : List β} (h : xs.mapM f = some ys) (i : Nat) :
    ys[i]? = xs[i]?.bind f := by
  induction xs generalizing ys i with
  | nil =>
    obtain rfl := Option.some.inj h
    rfl
  | cons x xs ih =>
    rw [List.mapM_cons] at h
    simp only [Option.bind_eq_bind, Option.bind_eq_some_iff] at h
    obtain ⟨y, hy, ys', hys, he⟩ := h
    obtain rfl := Option.some.inj he
    cases i with
    | zero => exact hy.symm
    | succ i => exact ih hys i

omit [Crypto] in
theorem disputed_page_iff {honest : List Hash} {published : List String} {pid : Nat} :
    disputed_page honest published = some pid ↔ (∃ h, honest[pid]? = some h ∧ published[pid]? ≠ some (hex_encode h.val)) ∧
      ∀ j < pid, published[j]? = honest[j]?.map fun h => hex_encode h.val := by
  unfold disputed_page
  rw [List.find?_range_eq_some]
  simp only [List.mem_range, decide_eq_true_eq, Bool.not_eq_true', decide_eq_false_iff_not, not_not]
  constructor
  · rintro ⟨hne, hin, hbefore⟩
    rw [List.getElem?_eq_getElem hin] at hne ⊢
    exact ⟨⟨_, rfl, fun he => hne he.symm⟩, fun j hj => (hbefore j hj).symm⟩
  · rintro ⟨⟨h, hget, hne⟩, hbefore⟩
    rw [hget]
    exact ⟨fun he => hne he.symm, (List.getElem?_eq_some_iff.mp hget).1, fun j hj => (hbefore j hj).symm⟩

omit [Crypto] in
/-- A leaf written as the node writes it. -/
theorem written_leaf {honest : List Hash} {published : List String} {j : Nat}
    (h : published[j]? = honest[j]?.map fun h => hex_encode h.val) : published[j]?.bind as_hash = honest[j]? := by
  rw [h]
  cases honest[j]? with
  | none => rfl
  | some x => exact as_hash_encode x

omit [Crypto] in
/-- Where some page is false, some page is disputed. -/
theorem disputed_page_some {honest level : List Hash} {published : List String} (hlen : honest.length = published.length)
    (hlevel : published.mapM as_hash = some level) (hne : level ≠ honest) :
    ∃ pid, disputed_page honest published = some pid := by
  by_contra hnone
  have hall := List.find?_eq_none.mp (Option.eq_none_iff_forall_ne_some.mpr fun pid hpid => hnone ⟨pid, hpid⟩)
  refine hne (List.ext_getElem? fun i => ?_)
  rw [mapM_get hlevel]
  apply written_leaf
  by_cases hi : i < honest.length
  · have hsame := hall i (List.mem_range.mpr hi)
    simp only [decide_eq_true_eq, not_not] at hsame
    exact hsame.symm
  · rw [List.getElem?_eq_none (hlen ▸ Nat.not_lt.mp hi), List.getElem?_eq_none (Nat.not_lt.mp hi)]
    rfl

omit [Crypto] in
/-- The disputed page is false exactly where the right leaves before the first false one are spelled as the node
spells them. -/
theorem disputed_false_iff {honest level : List Hash} {published : List String} {pid : Nat}
    (hlevel : published.mapM as_hash = some level) (hpid : disputed_page honest published = some pid) :
    level[pid]? ≠ honest[pid]? ↔ SpelledRight honest published := by
  obtain ⟨⟨h, hget, hne⟩, hbefore⟩ := disputed_page_iff.mp hpid
  rw [mapM_get hlevel]
  constructor
  · intro hfalse i x s hx hs has hspell
    refine ⟨pid, ?_, hfalse⟩
    by_contra hle
    rcases Nat.lt_or_eq_of_le (Nat.not_lt.mp hle) with hlt | rfl
    · have hwritten := hbefore i hlt
      rw [hx, hs] at hwritten
      exact hspell (Option.some.inj hwritten)
    · rw [hs, hx] at hfalse
      exact hfalse has
  · intro hspelled hsame
    rw [hget] at hsame
    obtain ⟨s, hs, has⟩ := Option.bind_eq_some_iff.mp hsame
    obtain ⟨j, hj, hfalse⟩ := hspelled pid h s hget hs has fun he => hne (he ▸ hs)
    exact hfalse (written_leaf (hbefore j hj))

/-! ## The proof -/

theorem page_after_eq (h : Disputed t payloads sb parent m block level) (hd : Describes m t.canon.length) {pid : Nat}
    {pg : Page} (hpg : m.pages[pid]? = some pg) {x : Hash} (hx : (honest_leaves t m block)[pid]? = some x) :
    merkle.leaf_hash (int64_bytes (page_after t.canon block.txs (body_at block) pid pg)) = x := by
  have hspan : m.spans[pid]? = some (pg.start, pg.stop) := by
    rw [spans_eq, List.getElem?_map, hpg]
    rfl
  have hlen : ∀ tx ∈ block.txs, t.canon.length ≤ (dense_body block tx).length := fun tx htx => by
    rw [(h.held htx).dense, Decoders.densify, List.length_map, List.length_range, (h.held htx).length]
  have hsame : (block.txs.filter fun tx => tx.canonical_pages.contains (UInt32.ofNat pid)).map
        (fun tx => slice (Decoders.densify (body_at block tx).n (body_at block tx).coords) pg.start pg.stop) =
      (block.txs.filter fun tx => tx.canonical_pages.contains (UInt32.ofNat pid)).map
        fun tx => slice (dense_body block tx) pg.start pg.stop :=
    List.map_congr_left fun tx htx => by rw [(h.held (List.mem_filter.mp htx).1).dense]
  have hpage := slice_paged hd.tiled hlen hspan
  rw [page_after, hsame, ← hpage]
  rw [honest_leaves, leaves_for_eq, List.getElem?_map, hspan] at hx
  exact Option.some.inj hx

/-- The bodies that go into the proof, and what the reader makes of them. -/
theorem Disputed.claimants (h : Disputed t payloads sb parent m block level)
    (hdim : block.txs ≠ [] → t.canon.length < 2 ^ 32) (pid : Nat) :
    ∃ fields bs, block.txs.foldlM (add_claimant payloads pid) [] = some fields ∧
      fields.mapM (fun f => do some (f.1, ← body f.2)) = some bs ∧
      ∀ tx ∈ block.txs, UInt32.ofNat pid ∈ tx.canonical_pages → bs.lookup tx.txid =
        some { n := (body_at block tx).n, idx := (body_at block tx).coords.map fun c => c.1.toUInt64
               val := (body_at block tx).coords.map Prod.snd } := by
  have hvalue {tx : BackpropTx} (htx : tx ∈ block.txs) :
      fraud.held payloads tx.txid = some (body_value (body_at block tx).n (body_at block tx).coords) := by
    obtain ⟨p, hp, hn, hcoords⟩ := (h.held htx).payload
    rw [fraud.held, hp, Option.bind_eq_bind, Option.bind_some, hcoords, ← hn]
    rfl
  have hsome : ∀ tx ∈ block.txs, UInt32.ofNat pid ∈ tx.canonical_pages → (fraud.held payloads tx.txid).isSome :=
    fun tx htx _ => by rw [hvalue htx]; rfl
  obtain ⟨fields, hrun, hmem, -, hfields⟩ := add_claimants [] hsome
  have hread : ∀ f ∈ fields, ∃ b, body f.2 = some b := by
    intro f hf
    have hheld := (hmem f hf).resolve_left List.not_mem_nil
    simp only [fraud.held, Option.bind_eq_bind, Option.bind_eq_some_iff] at hheld
    obtain ⟨p, -, coords, -, hv⟩ := hheld
    rw [← Option.some.inj hv]
    exact ⟨_, body_of_value p.n coords⟩
  obtain ⟨bs, hbs, hlookup⟩ := mapM_fields hread
  refine ⟨fields, bs, hrun, hbs, fun tx htx hc => ?_⟩
  have hn : (UInt64.ofNat (body_at block tx).n).toNat = (body_at block tx).n := by
    refine UInt64.toNat_ofNat_of_lt' ?_
    have := hdim (List.ne_nil_of_mem htx)
    rw [(h.held htx).length]
    exact this.trans (by decide)
  rw [hlookup, hfields tx htx hc, hvalue htx, Option.bind_some, body_of_value, hn]

/-- A proof that was built is published when the verifier convicts. -/
theorem emit_of_build {from_str : String → Option Value} {memory : Nat} {proof : Value} {v : Bool × String}
    (hbuild : build_proof t payloads sb = some proof) (hverify : fraud_verify from_str memory proof = .ok v) :
    emit_fraud_if_provable from_str memory t payloads sb = .ok (if v.1 then some proof else none) := by
  unfold emit_fraud_if_provable
  rw [hbuild]
  dsimp only
  rw [hverify]

/-- The node publishes a convicting proof exactly where no right leaf in other letters comes before the first false
one. -/
theorem Disputed.convicted_iff (h : Disputed t payloads sb parent m block level) {from_str : String → Option Value}
    {memory : Nat} (hs : Sealed t.head parent (t.canon, m)) (hd : Describes m t.canon.length)
    (hr : t.page_leaves = leaves_for t.canon m) (ht : m.Typed) (hparse : m.value_of.ReadBack from_str)
    (hmem : t.canon.length * 8 ≤ memory) (hdim : block.txs ≠ [] → t.canon.length < 2 ^ 32) :
    Convicted from_str memory t payloads sb ↔ SpelledRight (honest_leaves t m block) sb.page_leaves := by
  have hlevel : level.length = sb.page_leaves.length := length_of_mapM h.leaves
  have hlen : (honest_leaves t m block).length = sb.page_leaves.length := by
    rw [honest_leaves, leaves_for, List.length_map, ← h.shape, hlevel]
  have hhonest := h.honest_eq hd hr hdim
  obtain ⟨pid, hpid⟩ := disputed_page_some hlen h.leaves h.false_leaf
  obtain ⟨⟨x, hx, -⟩, -⟩ := disputed_page_iff.mp hpid
  have hin : pid < sb.page_leaves.length := hlen ▸ (List.getElem?_eq_some_iff.mp hx).1
  have hinpages : pid < m.pages.length := by rw [← h.shape, hlevel]; exact hin
  obtain ⟨pg, hpg⟩ : ∃ pg, m.pages[pid]? = some pg := ⟨_, List.getElem?_eq_getElem hinpages⟩
  obtain ⟨committed, hcommitted⟩ : ∃ c, level[pid]? = some c := ⟨_, List.getElem?_eq_getElem (hlevel ▸ hin)⟩
  obtain ⟨fields, bs, hrun, hbs, hlookup⟩ := h.claimants hdim pid
  set page := slice t.canon pg.start pg.stop with hpage
  set branch := merkle.proof (merkle.levels t.page_leaves) pid with hbranch
  set proof := proof_value sb.header parent m.canonical_json sb.page_leaves pid block.txs fields page branch with hproof
  set p := record sb.header parent m.canonical_json sb.page_leaves pid block.txs bs page branch with hp
  have hne : sb.page_leaves ≠ [] := List.ne_nil_of_length_pos (Nat.zero_lt_of_lt hin)
  have hbuild : build_proof t payloads sb = some proof := by
    unfold build_proof
    rw [if_neg (not_or.mpr ⟨hne, not_not.mpr h.on_head⟩)]
    refine Option.bind_eq_some_iff.mpr ⟨block, h.reads, Option.bind_eq_some_iff.mpr ⟨_, hhonest, ?_⟩⟩
    rw [if_neg (not_not.mpr hlen)]
    refine Option.bind_eq_some_iff.mpr ⟨pid, hpid, Option.bind_eq_some_iff.mpr ⟨(page, branch), ?_, ?_⟩⟩
    · unfold head_page_evidence
      exact Option.bind_eq_some_iff.mpr ⟨m, h.model, Option.bind_eq_some_iff.mpr ⟨pg, hpg, rfl⟩⟩
    · refine Option.bind_eq_some_iff.mpr ⟨parent, h.knows, Option.bind_eq_some_iff.mpr ⟨m, h.model, ?_⟩⟩
      exact Option.bind_eq_some_iff.mpr ⟨fields, hrun, rfl⟩
  have hcarries : Carries from_str p m t.canon block.txs (body_at block) pg level :=
    { prev := h.on_head.trans hs.hash.symm
      json := rfl
      model_root := hs.model_root
      parses := by
        rw [← ModelState.text_value_of ht]
        exact hparse (ModelState.plain_value_of hs.clean)
      typed := ht
      describes := hd
      page := hpg
      leaves := h.leaves
      shape := hlevel.symm.trans h.shape
      folds := h.folds
      ids := rfl
      deltas := rfl
      set := h.set
      count := h.count
      backed := fun tx htx =>
        { listed := List.mem_map_of_mem htx
          signed := (h.txs tx htx).1
          base := (h.txs tx htx).2
          length := (h.held htx).length
          hash := (h.held htx).hash
          carried := hlookup tx htx }
      parent_page := rfl
      parent_path := by rw [← hr]; rfl
      state_root := hs.state_root }
  have hverify (memory' : Nat) (hmem' : t.canon.length * 8 ≤ memory') :
      fraud_verify from_str memory' proof = .ok (verdict p x committed) := by
    rw [hproof, fraud_verify_value from_str memory' _ _ _ _ (hin.trans h.usize) _ hbs, ← hp,
      verify_ok hcarries hmem' hcommitted]
    congr 2
    exact page_after_eq h hd hpg hx
  have hemit : emit_fraud_if_provable from_str memory t payloads sb =
      .ok (if (verdict p x committed).1 then some proof else none) := emit_of_build hbuild (hverify memory hmem)
  rw [← disputed_false_iff h.leaves hpid, hcommitted, hx]
  by_cases hsame : x = committed
  · have hnot : (verdict p x committed).1 = false := by rw [verdict, if_pos hsame]
    rw [hnot] at hemit
    constructor
    · rintro ⟨proof', he, -⟩
      rw [hemit] at he
      cases Except.ok.inj he
    · exact fun hdiff => absurd (congrArg some hsame.symm) hdiff
  · have hyes : verdict p x committed = (true, (verdict p x committed).2) := by rw [verdict, if_neg hsame]
    rw [hyes] at hemit
    refine ⟨fun _ he => hsame (Option.some.inj he).symm, fun _ => ⟨proof, hemit, fun memory' hmem' => ?_⟩⟩
    exact ⟨_, (hverify memory' hmem').trans (congrArg Except.ok hyes)⟩

/-- In a run whose calls keep the leaf cache, the block's own among them: a block that publishes false leaves is
proved false to every node exactly where no right leaf in other letters comes before the first false one. -/
theorem fraud_proved_iff {genesis_w : List Int64} {dc : Option String} {params : GenesisParams}
    (hw : genesis_w.length = (ModelState.genesis params.spec).dim) (ops : List Op)
    (hops : Along KeepsLeaves (BlockTree.new genesis_w dc params) (ops ++ [.add_block block]))
    (h : Disputed ((BlockTree.new genesis_w dc params).run ops) payloads sb parent m block level)
    {from_str : String → Option Value} (ht : m.Typed) (hparse : m.value_of.ReadBack from_str) {memory : Nat}
    (hmem : ((BlockTree.new genesis_w dc params).run ops).canon.length * 8 ≤ memory) :
    Convicted from_str memory ((BlockTree.new genesis_w dc params).run ops) payloads sb ↔
      SpelledRight (honest_leaves ((BlockTree.new genesis_w dc params).run ops) m block) sb.page_leaves := by
  obtain ⟨hbefore, hown⟩ := along_append.mp hops
  have hnew : CacheRight (.new genesis_w dc params) fun _ => (genesis_w, ModelState.genesis params.spec) := rfl
  obtain ⟨S, hc, hr, hs⟩ := (sealed_new dc).run hnew (coherent_new hw dc) ops hbefore
  have htree : ((Logged.new genesis_w dc params).run ops).tree = (BlockTree.new genesis_w dc params).run ops :=
    Logged.run_tree _ _
  unfold CacheRight at hr
  unfold AllSealed at hs
  have hhead := hc.shape.head_known
  have hmodel := hc.model _ hhead
  have hcanon := hc.canon
  have hd := hc.describes _ hhead
  obtain ⟨hdr, hget, hsealed⟩ := hs _ hhead
  rw [htree] at hr hhead hmodel hcanon hd hget hsealed
  generalize (BlockTree.new genesis_w dc params).run ops = t at *
  obtain rfl := Option.some.inj (hget.symm.trans h.knows)
  obtain rfl := Option.some.inj (hmodel.symm.trans h.model)
  rw [← hcanon] at hd
  have hdim : block.txs ≠ [] → t.canon.length < 2 ^ 32 := fun hne => by
    have hprev : block.header.prev_hash = t.head := h.header ▸ h.on_head
    rw [← tiled_table_end hd.tiled hd.pages_ne]
    exact hown.1.1 hne _ (hprev.symm ▸ hmodel)
  have hpair : (t.canon, (S t.head).2) = S t.head := Prod.ext hcanon rfl
  exact h.convicted_iff (hpair ▸ hsealed) hd hr ht hparse hmem hdim

end Node

end fraud

end Any

/-! ## A right leaf in capitals -/

open scoped Toy

namespace Toy

/-- A backbone page and an expert page. -/
def pair_params : GenesisParams :=
  { spec := { n_layers := 1, d_model := 1, d_ff := 1, n_experts_initial := 1, e_max := 1, backbone_params := 1 } }

def pair_weights : List Int64 := [5, 0, 0, 0, 0]

def pair_tree : BlockTree := .new pair_weights none pair_params

def pair_model : ModelState := ModelState.genesis pair_params.spec

def pair_leaves : List Hash := leaves_for pair_weights pair_model

/-- The first leaf is right. -/
def false_leaves : List Hash := [pair_leaves.headD zero_hash, zero_hash]

def lower_texts : List String := false_leaves.map fun h => hex_encode h.val

def capital_texts : List String := [hex_encode_upper (pair_leaves.headD zero_hash).val, hex_encode zero_hash.val]

def false_header : Header :=
  { height := 1, prev_hash := pair_tree.head, state_root := hex_encode (merkle.root_from_hashes false_leaves).val
    txset_root := set_root [], n_txs := 0, work := 1, proposer := "genesis", transfer_root := "", ledger_root := ""
    data_root := "", vrf_proof := "", score_root := "", sketch_root := "", model_root := "", vrf_attempt := 0
    version := 2 }

/-- A block on genesis without deltas that publishes these texts. -/
def false_block (texts : List String) : StoredBlock where
  header := false_header
  txs := []
  transfers := []
  data_txs := []
  scores := ∅
  sketches := ∅
  page_leaves := texts

def read_block (texts : List String) : Block where
  header := false_header
  txs := []
  bodies := ∅
  sparse := ∅
  transfers := []
  data_txs := []
  scores := ∅
  sketches := ∅
  witness_leaves := texts.map StoredBlock.witness_leaf

def pair_from_str (text : String) : Option Value := if text = pair_model.value_of.text then some pair_model.value_of else none

theorem pair_typed : pair_model.Typed := by
  constructor
  · simp only [ModelState.IsU64, ModelState.IsI64]
    decide
  · exact List.forall_mem_nil _

theorem pair_honest (texts : List String) : honest_leaves pair_tree pair_model (read_block texts) = pair_leaves := rfl

theorem false_leaves_ne : false_leaves ≠ pair_leaves := by decide +kernel

theorem false_disputed {texts : List String} (h : texts.mapM fraud.as_hash = some false_leaves) (hlen : texts.length = 2) :
    fraud.Disputed pair_tree ∅ (false_block texts) (genesis_header pair_weights pair_params) pair_model (read_block texts)
      false_leaves where
  on_head := rfl
  knows := by simp [pair_tree, BlockTree.new]
  model := by simp [pair_tree, pair_model, BlockTree.new]
  reads := rfl
  txs := List.forall_mem_nil _
  set := rfl
  count := rfl
  bodies := List.forall_mem_nil _
  leaves := h
  folds := rfl
  shape := rfl
  false_leaf := by
    rw [pair_honest]
    exact false_leaves_ne
  usize := by
    rw [show (false_block texts).page_leaves = texts from rfl, hlen]
    decide

theorem pair_keeps (texts : List String) : Along KeepsLeaves pair_tree ([] ++ [.add_block (read_block texts)]) :=
  ⟨⟨fun hne => absurd rfl hne, fun hne => absurd rfl hne⟩, trivial⟩

theorem lower_read : lower_texts.mapM fraud.as_hash = some false_leaves := by
  simp [lower_texts, false_leaves, fraud.as_hash_encode]

/-- The reader takes capitals as well. -/
theorem as_hash_upper (h : Hash) : fraud.as_hash (hex_encode_upper h.val) = some h := by
  rw [fraud.as_hash, hex_decode_upper, Option.bind_some, dif_pos h.property]

theorem capital_read : capital_texts.mapM fraud.as_hash = some false_leaves := by
  simp [capital_texts, false_leaves, as_hash_upper, fraud.as_hash_encode]

theorem capital_differs : hex_encode_upper (pair_leaves.headD zero_hash).val ≠ hex_encode (pair_leaves.headD zero_hash).val := by
  intro he
  have hletter : ¬NoLetter (pair_leaves.headD zero_hash).val := by
    unfold NoLetter
    decide +kernel
  exact hletter (noLetter_of_same he.symm)

end Toy

theorem fraud.fraud_proved_lower : fraud.Convicted Toy.pair_from_str 40 Toy.pair_tree ∅ (Toy.false_block Toy.lower_texts) := by
  refine (fraud.fraud_proved_iff (by decide) [] (Toy.pair_keeps _) (Toy.false_disputed Toy.lower_read rfl) Toy.pair_typed
    (fun _ => if_pos rfl) (by decide)).mpr ?_
  intro i h s _ hs has hspell
  obtain ⟨x, hx, rfl⟩ := List.mem_map.mp (List.mem_of_getElem? hs)
  rw [fraud.as_hash_encode] at has
  exact absurd (congrArg (fun h : Hash => hex_encode h.val) (Option.some.inj has)) hspell

/-- The same leaves, the first in capitals: nothing is published. -/
theorem fraud.capital_leaf_hides_fraud :
    (∃ (m : ModelState) (block : Block) (parent : Header) (level : List Hash),
      fraud.Disputed Toy.pair_tree ∅ (Toy.false_block Toy.capital_texts) parent m block level ∧ m.Typed ∧
        m.value_of.ReadBack Toy.pair_from_str) ∧
    ¬fraud.Convicted Toy.pair_from_str 40 Toy.pair_tree ∅ (Toy.false_block Toy.capital_texts) := by
  have hdisputed := Toy.false_disputed Toy.capital_read rfl
  have hparse : Toy.pair_model.value_of.ReadBack Toy.pair_from_str := fun _ => if_pos rfl
  refine ⟨⟨_, _, _, _, hdisputed, Toy.pair_typed, hparse⟩, fun hconvicted => ?_⟩
  have hsealed : Sealed Toy.pair_tree.head (genesis_header Toy.pair_weights Toy.pair_params)
      (Toy.pair_tree.canon, Toy.pair_model) := ⟨rfl, rfl, rfl, List.forall_mem_nil _, List.forall_mem_nil _⟩
  have hspelled := (hdisputed.convicted_iff hsealed (describes_genesis _) rfl Toy.pair_typed hparse (by decide)
    fun hne => absurd rfl hne).mp hconvicted
  obtain ⟨j, hj, -⟩ := hspelled 0 _ _ rfl rfl (Toy.as_hash_upper _) Toy.capital_differs
  exact Nat.not_lt_zero j hj

end Sestrian
