import Sestrian.Node.CatchUp
import Sestrian.Node.Early

/-!
# The catch-up loop converges

The loop ends at the peer's head if it starts within reach, or if the node's head is at most nine
blocks above the fork. Above a deeper fork the request of the orphan path, eight below the head, goes
out in every round, and the walk back never does.
-/

namespace Sestrian

open BlockTree Node

namespace Node

section

variable [Crypto] [Serde] {env : Env} {s : Node} {t : BlockTree} {p : Parent} {known : List String} {b : Block}
  {staged : Staged}

/-- After a block that the tree takes. -/
theorem install_tree (env : Env) (source : Option PeerId) {sb : StoredBlock} {x : Bool} {t' : BlockTree}
    (hfresh : sb.hash ∉ s.tree.blocks) (hdec : ∀ m, sb.to_core_sparse m = some b)
    (hadd : s.tree.add_block b = (.ok x, t')) : (s.install env sb source).2.tree = t' ∧
      ∀ (k : String) v, (s.install env sb source).2.pending[k]? = some v → s.pending[k]? = some v := by
  have hnew : ¬ s.tree.blocks.contains sb.hash = true := fun hc => hfresh (Std.ExtTreeMap.contains_iff_mem.mp hc)
  have hpre := preload_aside s sb.txids
  have hinst : (s.install env sb source).2 = Node.installed env { s.preload sb.txids with tree := t' } sb s.tree.head := by
    unfold install
    simp only [hnew, hdec, hpre.tree, hadd]
    rfl
  have haside : Aside { s.preload sb.txids with tree := t' } (s.install env sb source).2 :=
    hinst ▸ installed_aside { s.preload sb.txids with tree := t' } sb s.tree.head
  exact ⟨haside.tree, fun k v hv => hpre.parked k v (haside.parked k v hv)⟩

/-- After an orphan the tree is as it was. -/
theorem install_orphan (env : Env) (source : Option PeerId) {sb : StoredBlock} {e : String} (hfresh : sb.hash ∉ s.tree.blocks)
    (hdec : ∀ m, sb.to_core_sparse m = some b) (hadd : s.tree.add_block b = (.error e, s.tree))
    (horphan : "orphan".toList <:+: e.toList) : (s.install env sb source).2.tree = s.tree := by
  have hnew : ¬ s.tree.blocks.contains sb.hash = true := fun hc => hfresh (Std.ExtTreeMap.contains_iff_mem.mp hc)
  unfold install
  simp only [hnew, hdec, (preload_aside s sb.txids).tree, hadd, horphan, if_true]
  exact (park_parks env _ sb source).1

end

end Node

namespace PeerChain

section

variable [Crypto] [Serde] {genesis our_head : String} {C : PeerChain genesis} {peer : PeerId} {c : Syncing} {f : UInt64}
  {answers : ℕ → Answer} {s : Node} {m n : ℕ}

/-- Where the loop starts. The node knows the chain up to height `m`, not far below its own head, and
the chain is longer and heavier. -/
structure Behind (C : PeerChain genesis) (s : Node) (m : ℕ) : Prop where
  longer : s.head_height.toNat < C.blocks.length
  known : ∀ (i : ℕ) x, C.hashes[i]? = some x → (x ∈ s.tree.blocks ↔ i ≤ m)
  root : s.tree.genesis_hash = genesis
  heavier : ∃ x w, C.hashes[m]? = some x ∧ s.tree.cum_work[(x : String)]? = some w ∧
    (s.tree.cum_work[s.tree.head]?).getD 0 < C.work_from w m
  near : s.head_height.toNat ≤ m + WALKBACK_MAX.toNat
  head : s.tree.head ∈ s.tree.blocks
  best : ∀ (x : String) w, s.tree.cum_work[x]? = some w → w ≤ (s.tree.cum_work[s.tree.head]?).getD 0
  parked : ∀ (k : String) v, s.pending[k]? = some v → v.1 ∈ C.blocks ∧ k = v.1.hash
  innocent : ∀ x ∈ C.hashes, x ∉ s.tree.convicted
  modelled : ∀ x ∈ s.tree.model, x ∈ s.tree.blocks

omit [Serde] in
theorem Behind.follows (hb : C.Behind s m) : C.Follows s.tree.head s.head_height.toNat s m := by
  obtain ⟨x, w, hx, hw, hless⟩ := hb.heavier
  obtain ⟨hlt, -⟩ := List.getElem?_eq_some_iff.mp hx
  rw [length_hashes] at hlt
  have htop : m < C.blocks.length := by
    refine Nat.lt_of_le_of_ne (Nat.le_of_lt_succ hlt) ?_
    -- the head would not be the best block
    rintro rfl
    rw [work_from_end] at hless
    exact absurd hless (UInt64.not_lt.mpr (hb.best x w hw))
  exact ⟨hb.known, htop.le, hb.root, hb.heavier, ⟨hb.head, rfl⟩, .inl ⟨rfl, htop⟩, hb.parked, hb.innocent,
    hb.modelled⟩

theorem round_idle {a : Answer} (h : c.last_sync_req[peer]? = none) : C.round peer c a = c := by
  unfold round
  rw [h]

/-- A node that starts within reach of the peer's chain, or not more than nine blocks above it, ends at
the peer's head, and no request is above that. -/
theorem catch_up_converges (C : PeerChain genesis) (peer : PeerId) (c : Syncing) (f : UInt64) (answers : ℕ → Answer)
    (hb : C.Behind c.node m) (hout : c.last_sync_req[peer]? = some f) (hf : f ≤ C.top)
    (hcount : ∀ n, 0 < (answers n).count)
    (hserved : ∀ n f', (C.loop peer c answers n).last_sync_req[peer]? = some f' →
      TakesSync (answers n).env peer (C.loop peer c answers n).node (C.serve f' (answers n).count) (answers n).payloads)
    (hreach : f.toNat ≤ m + 1 ∨ c.node.head_height.toNat ≤ m + 9) :
    (∃ n, C.CaughtUp peer (C.loop peer c answers n)) ∧
    ∀ n f', (C.loop peer c answers n).last_sync_req[peer]? = some f' → f' ≤ C.top := by
  rw [UInt64.le_iff_toNat_le, toNat_top] at hf
  have hstep {n : ℕ} {f' : UInt64} {m' : ℕ}
      (ht : C.Tracks c.node.tree.head c.node.head_height.toNat peer (C.loop peer c answers n) f' m') :=
    ht.round hb.longer (hcount n) (hserved n f' ht.out)
  have hstart : C.Tracks c.node.tree.head c.node.head_height.toNat peer (C.loop peer c answers 0) f m :=
    ⟨hb.follows, hout, hreach, hf⟩
  constructor
  · -- what is left to ask for goes down
    have hends : ∀ k n f' m', C.Tracks c.node.tree.head c.node.head_height.toNat peer (C.loop peer c answers n) f' m' →
        C.left f' m' ≤ k → ∃ n, C.CaughtUp peer (C.loop peer c answers n) := by
      intro k
      induction k with
      | zero =>
        intro n f' m' ht hk
        rcases hstep ht with hdone | ⟨f₂, m₂, -, hless⟩
        · exact ⟨n + 1, hdone⟩
        · omega
      | succ k ih =>
        intro n f' m' ht hk
        rcases hstep ht with hdone | ⟨f₂, m₂, ht', hless⟩
        · exact ⟨n + 1, hdone⟩
        · exact ih (n + 1) f₂ m₂ ht' (by omega)
    exact hends _ 0 f m hstart le_rfl
  · have htracks : ∀ n, C.CaughtUp peer (C.loop peer c answers n) ∨
        ∃ f' m', C.Tracks c.node.tree.head c.node.head_height.toNat peer (C.loop peer c answers n) f' m' := by
      intro n
      induction n with
      | zero => exact .inr ⟨f, m, hstart⟩
      | succ n ih =>
        rcases ih with hdone | ⟨f', m', ht⟩
        · left
          rw [loop, round_idle hdone.idle]
          exact hdone
        · exact (hstep ht).imp_right fun ⟨f₂, m₂, ht', _⟩ => ⟨f₂, m₂, ht'⟩
    intro n f' hf'
    rw [UInt64.le_iff_toNat_le, toNat_top]
    rcases htracks n with hdone | ⟨f₂, m₂, ht⟩
    · rw [hdone.idle] at hf'
      cases hf'
    · rw [ht.out] at hf'
      exact Option.some.inj hf' ▸ ht.asked

/-- Above a deep fork the node never catches up. -/
theorem stuck_forever {our_head : String} {h : ℕ} (answers : ℕ → Answer) (hs : C.Stuck our_head h peer c m) (hlong : h < C.blocks.length)
    (hdec : C.Decodes) (hcount : ∀ n, 0 < (answers n).count) (n : ℕ) :
    C.Stuck our_head h peer (C.loop peer c answers n) m := by
  induction n with
  | zero => exact hs
  | succ n ih => exact ih.round hlong hdec (hcount n)

end

end PeerChain

open scoped Toy

namespace Toy

/-! ## Two lines of empty blocks -/

def grow (pk : ByteArr 32) (q : BlockTree × Parent) : BlockTree × Parent :=
  let b := block_by q.1 q.2 q.1.head pk
  let staged := empty_staged q.1 q.2 b
  (q.1.commit_staged b.hash b.header staged (q.2.work + 1),
    { model := staged.post_model, ledger := staged.led, height := b.header.height, work := q.2.work + 1, jurors := ∅ })

/-- The tree after `n` empty blocks by the holder of a key, and what the last one gives to its children. -/
def branch (pk : ByteArr 32) (n : ℕ) : BlockTree × Parent := (grow pk)^[n] (owned, owned_parent)

def head_at (pk : ByteArr 32) (n : ℕ) : String := (branch pk n).1.head

def line_block (pk : ByteArr 32) (n : ℕ) : Block := block_by (branch pk n).1 (branch pk n).2 (head_at pk n) pk

def line_stored (pk : ByteArr 32) (n : ℕ) : StoredBlock := Node.empty_stored (line_block pk n).header

section

variable {pk : ByteArr 32} {i j n : ℕ}

theorem line_zero (pk : ByteArr 32) : (branch pk 0).1 = node₀.tree := rfl

theorem line_succ (pk : ByteArr 32) (n : ℕ) : branch pk (n + 1) = grow pk (branch pk n) :=
  Function.iterate_succ_apply' _ _ _

theorem line_tree (pk : ByteArr 32) (n : ℕ) : (branch pk (n + 1)).1 = (branch pk n).1.commit_staged (line_block pk n).hash
    (line_block pk n).header (empty_staged (branch pk n).1 (branch pk n).2 (line_block pk n)) ((branch pk n).2.work + 1) := by
  rw [line_succ]
  rfl

theorem head_at_zero (pk : ByteArr 32) : head_at pk 0 = owned.head := rfl

theorem head_at_succ (pk : ByteArr 32) (n : ℕ) : head_at pk (n + 1) = (line_block pk n).hash := by
  unfold head_at
  rw [line_tree]
  exact Node.head_commit _ _ _

theorem line_prev (pk : ByteArr 32) (n : ℕ) : (line_block pk n).header.prev_hash = head_at pk n := rfl

theorem stored_hash (pk : ByteArr 32) (n : ℕ) : (line_stored pk n).hash = head_at pk (n + 1) :=
  (head_at_succ pk n).symm

theorem line_work (pk : ByteArr 32) (n : ℕ) : (branch pk n).2.work = UInt64.ofNat n := by
  induction n with
  | zero => rfl
  | succ n ih =>
    rw [line_succ, UInt64.ofNat_add, ← ih]
    rfl

theorem line_height (pk : ByteArr 32) (n : ℕ) : (branch pk n).2.height = UInt64.ofNat n := by
  induction n with
  | zero => rfl
  | succ n ih =>
    rw [line_succ, UInt64.ofNat_add, ← ih]
    rfl

theorem line_block_height (pk : ByteArr 32) (n : ℕ) : (line_block pk n).header.height = UInt64.ofNat (n + 1) := by
  rw [UInt64.ofNat_add, ← line_height pk n]
  rfl

theorem line_block_work (pk : ByteArr 32) (n : ℕ) : (line_block pk n).header.work = 1 := block_by_work _ _ _ _

theorem line_decodes (pk : ByteArr 32) (n : ℕ) (m : Dict Payload) :
    (line_stored pk n).to_core_sparse m = some (line_block pk n) := block_by_decodes _ _ _ _ m

theorem commit_frame (t : BlockTree) (bh : String) (header : Header) (staged : Staged) (work : UInt64) :
    (t.commit_staged bh header staged work).blocks = t.blocks.insert bh header ∧
    (t.commit_staged bh header staged work).model = t.model.insert bh staged.post_model ∧
    (t.commit_staged bh header staged work).cum_work = t.cum_work.insert bh work ∧
    (t.commit_staged bh header staged work).genesis_hash = t.genesis_hash := by
  simp [commit_staged, record]

/-- What a line consists of. -/
structure LineTree (pk : ByteArr 32) (n : ℕ) : Prop where
  tip : Tip (branch pk n).1 (branch pk n).2 ((List.range (n + 1)).map (head_at pk))
  mem : ∀ j ≤ n, head_at pk j ∈ (branch pk n).1.blocks
  works : ∀ j ≤ n, (branch pk n).1.cum_work[head_at pk j]? = some (UInt64.ofNat j)
  only : ∀ (x : String) w, (branch pk n).1.cum_work[x]? = some w → ∃ j ≤ n, w = UInt64.ofNat j
  genesis : (branch pk n).1.genesis_hash = owned.head
  modelled : ∀ x ∈ (branch pk n).1.model, x ∈ (branch pk n).1.blocks

theorem line_tree_at (pk : ByteArr 32) (n : ℕ) (hd : ((List.range (n + 1)).map (head_at pk)).Nodup) :
    LineTree pk n := by
  induction n with
  | zero =>
    have hwork (x : String) : owned.cum_work[x]? = if x = owned.head then some 0 else none := by
      have hget : owned.cum_work = (∅ : Dict UInt64).insert owned.head 0 := rfl
      rw [hget, SumMap.get_insert]
      simp [eq_comm]
    refine ⟨owned_tip, ?_, ?_, ?_, rfl, ?_⟩
    · intro j hj
      obtain rfl := Nat.le_zero.mp hj
      exact Std.ExtTreeMap.mem_insert_self
    · intro j hj
      obtain rfl := Nat.le_zero.mp hj
      exact (hwork _).trans (if_pos rfl)
    · intro x w hx
      rw [branch, Function.iterate_zero_apply, hwork] at hx
      split at hx
      · exact ⟨0, le_rfl, (Option.some.inj hx).symm⟩
      · cases hx
    · intro x hx
      have hget : x ∈ (∅ : Dict ModelState).insert owned.head (ModelState.genesis params.spec) := hx
      rw [mem_insert_iff] at hget
      rcases hget with rfl | hget
      · exact Std.ExtTreeMap.mem_insert_self
      · exact absurd hget Std.ExtTreeMap.not_mem_empty
  | succ n ih =>
    rw [List.range_succ, List.map_append, List.nodup_append] at hd
    obtain ⟨hprev, -, hnew⟩ := hd
    obtain ⟨htip, hmem, hworks, honly, hgenesis, hmodelled⟩ := ih hprev
    have htree := line_tree pk n
    have hcommit := @Tip.commit _ _ _ _ (line_block pk n) (empty_staged (branch pk n).1 (branch pk n).2 (line_block pk n))
      htip ((branch pk n).2.work + 1)
    obtain ⟨hblocks, hmodel, hcum, hgen⟩ := commit_frame (branch pk n).1 (line_block pk n).hash (line_block pk n).header
      (empty_staged (branch pk n).1 (branch pk n).2 (line_block pk n)) ((branch pk n).2.work + 1)
    rw [← htree] at hblocks hmodel hcum hgen
    have hblocks' : (branch pk (n + 1)).1.blocks = (branch pk n).1.blocks.insert (head_at pk (n + 1)) (line_block pk n).header := by
      rw [head_at_succ]
      exact hblocks
    have hcum' : (branch pk (n + 1)).1.cum_work =
        (branch pk n).1.cum_work.insert (head_at pk (n + 1)) (UInt64.ofNat (n + 1)) := by
      rw [head_at_succ, UInt64.ofNat_add, ← line_work pk n]
      exact hcum
    refine ⟨?_, ?_, ?_, ?_, hgen.trans hgenesis, ?_⟩
    · rw [line_succ]
      refine ⟨hcommit.full, hcommit.innocent, hcommit.unpruned, fun x hx => ?_, hcommit.entries⟩
      rw [List.range_succ, List.map_append, List.mem_append]
      rcases List.mem_cons.mp (hcommit.only x hx) with rfl | hx
      · exact .inr (List.mem_singleton.mpr (head_at_succ pk n).symm)
      · exact .inl hx
    · intro j hj
      rw [hblocks', mem_insert_iff]
      rcases Nat.lt_or_eq_of_le hj with hlt | rfl
      · exact .inr (hmem j (by omega))
      · exact .inl rfl
    · intro j hj
      rw [hcum', SumMap.get_insert]
      rcases Nat.lt_or_eq_of_le hj with hlt | rfl
      · rw [if_neg, hworks j (by omega)]
        intro he
        exact hnew (head_at pk j) (List.mem_map_of_mem (List.mem_range.mpr hlt)) (head_at pk (n + 1))
          (List.mem_singleton_self _) he.symm
      · rw [if_pos rfl]
    · intro x w hx
      rw [hcum', SumMap.get_insert] at hx
      split at hx
      · exact ⟨n + 1, le_rfl, (Option.some.inj hx).symm⟩
      · obtain ⟨j, hj, rfl⟩ := honly x w hx
        exact ⟨j, by omega, rfl⟩
    · intro x hx
      rw [hblocks', mem_insert_iff]
      have hx' : x ∈ (branch pk n).1.model.insert (line_block pk n).hash
          (empty_staged (branch pk n).1 (branch pk n).2 (line_block pk n)).post_model := hmodel ▸ hx
      rw [mem_insert_iff, ← head_at_succ] at hx'
      exact hx'.imp_right (hmodelled x)

end

/-! ## The hashes of two lines -/

def hash_text (n : ℕ) : String := hex_encode (hash_bytes n)

def peer_digests : List ℕ :=
  [0x968839f5, 0x1043229c, 0xe62877be, 0x0c0e4bed, 0xd40d4e9e, 0x3b95543e, 0x672a1f3f, 0x2ab3aa48, 0xdfdf0bbd,
    0x079c4895, 0xb2a0d57e, 0x95560052]

def own_digests : List ℕ :=
  [0x968839f5, 0x8b796ddb, 0x7d532b1f, 0x4eedd5ba, 0x658e37b3, 0x2cf4460d, 0x13715d9e, 0x8acb4db9, 0xf3f0c1c0,
    0x36f5aef5, 0x0c0cbbac]

/-- What the next head is when the head has this digest. -/
def next_head (pk : ByteArr 32) (ds : List ℕ) (i : ℕ) : String :=
  (block_by (branch pk i).1 (branch pk i).2 (hash_text (ds.getD i 0)) pk).hash

-- a few blocks at a time, as the kernel keeps all it computes until it is done
theorem digests_right :
    (owned.head = hash_text (peer_digests.getD 0 0) ∧ owned.head = hash_text (own_digests.getD 0 0)) ∧
    (∀ i < 11, next_head (key 7) peer_digests i = hash_text (peer_digests.getD (i + 1) 0)) ∧
    (∀ i < 10, next_head (key 9) own_digests i = hash_text (own_digests.getD (i + 1) 0)) ∧
    (((List.range 12).map fun i => hash_text (peer_digests.getD i 0)) ++
      (List.range' 1 10).map fun i => hash_text (own_digests.getD i 0)).Nodup := by
  refine ⟨by decide +kernel, fun i hi => ?_, fun i hi => ?_, by decide +kernel⟩
  · have hlow : ∀ i < 4, next_head (key 7) peer_digests i = hash_text (peer_digests.getD (i + 1) 0) := by decide +kernel
    have hmid : ∀ i < 4, next_head (key 7) peer_digests (4 + i) = hash_text (peer_digests.getD (4 + i + 1) 0) := by
      decide +kernel
    have htop : ∀ i < 3, next_head (key 7) peer_digests (8 + i) = hash_text (peer_digests.getD (8 + i + 1) 0) := by
      decide +kernel
    by_cases h4 : i < 4
    · exact hlow i h4
    · by_cases h8 : i < 8
      · have h := hmid (i - 4) (by omega)
        rwa [Nat.add_sub_cancel' (by omega)] at h
      · have h := htop (i - 8) (by omega)
        rwa [Nat.add_sub_cancel' (by omega)] at h
  · have hlow : ∀ i < 5, next_head (key 9) own_digests i = hash_text (own_digests.getD (i + 1) 0) := by decide +kernel
    have htop : ∀ i < 5, next_head (key 9) own_digests (5 + i) = hash_text (own_digests.getD (5 + i + 1) 0) := by
      decide +kernel
    by_cases h5 : i < 5
    · exact hlow i h5
    · have h := htop (i - 5) (by omega)
      rwa [Nat.add_sub_cancel' (by omega)] at h

/-- The digests of the heads, when each block has the one before as its parent. -/
theorem head_digest {pk : ByteArr 32} {ds : List ℕ} {k : ℕ} (hzero : owned.head = hash_text (ds.getD 0 0))
    (hnext : ∀ i < k, next_head pk ds i = hash_text (ds.getD (i + 1) 0)) {i : ℕ} (hi : i ≤ k) :
    head_at pk i = hash_text (ds.getD i 0) := by
  induction i with
  | zero => exact hzero
  | succ i ih =>
    rw [head_at_succ, line_block, ih (by omega)]
    exact hnext i hi

theorem line_distinct : ((List.range 12).map (head_at (key 7)) ++ (List.range' 1 10).map (head_at (key 9))).Nodup := by
  obtain ⟨⟨hpeer₀, hown₀⟩, hpeer, hown, hdistinct⟩ := digests_right
  have hpeers : (List.range 12).map (head_at (key 7)) = (List.range 12).map fun i => hash_text (peer_digests.getD i 0) :=
    List.map_congr_left fun i hi => head_digest hpeer₀ hpeer (Nat.le_of_lt_succ (List.mem_range.mp hi))
  have howns : (List.range' 1 10).map (head_at (key 9)) =
      (List.range' 1 10).map fun i => hash_text (own_digests.getD i 0) := by
    refine List.map_congr_left fun i hi => head_digest hown₀ hown ?_
    have hlt := (List.mem_range'_1.mp hi).2
    omega
  rw [hpeers, howns]
  exact hdistinct

theorem peer_distinct : ((List.range 12).map (head_at (key 7))).Nodup := (List.nodup_append.mp line_distinct).1

theorem head_inj {i j : ℕ} (hi : i ≤ 11) (hj : j ≤ 11) (h : head_at (key 7) i = head_at (key 7) j) : i = j :=
  List.inj_on_of_nodup_map peer_distinct (List.mem_range.mpr (by omega)) (List.mem_range.mpr (by omega)) h

/-- The chain of the peer. -/
def peer_blocks : List StoredBlock := (List.range 11).map (line_stored (key 7))

theorem peer_hashes : owned.head :: peer_blocks.map StoredBlock.hash = (List.range 12).map (head_at (key 7)) := by
  rw [List.range_succ_eq_map, List.map_cons, List.map_map, peer_blocks, List.map_map]
  refine congrArg (owned.head :: ·) (List.map_congr_left fun n _ => ?_)
  exact (head_at_succ (key 7) n).symm

theorem peer_block_at {i : ℕ} {sb : StoredBlock} (h : peer_blocks[i]? = some sb) : i < 11 ∧ sb = line_stored (key 7) i := by
  unfold peer_blocks at h
  rw [List.getElem?_map] at h
  obtain ⟨n, hn, rfl⟩ := Option.map_eq_some_iff.mp h
  obtain ⟨hlt, hget⟩ := List.getElem?_eq_some_iff.mp hn
  rw [List.length_range] at hlt
  rw [List.getElem_range] at hget
  exact ⟨hlt, by rw [hget]⟩

def peer_chain : PeerChain owned.head where
  blocks := peer_blocks
  height i sb h := by
    obtain ⟨hlt, rfl⟩ := peer_block_at h
    have hheight : (line_stored (key 7) i).header.height = UInt64.ofNat (i + 1) := line_block_height (key 7) i
    rw [hheight, UInt64.toNat_ofNat_of_lt' (by have : UInt64.size = 2 ^ 64 := rfl; omega)]
  linked i sb h := by
    obtain ⟨hlt, rfl⟩ := peer_block_at h
    rw [peer_hashes, List.getElem?_map, List.getElem?_range (by omega)]
    rfl
  distinct := by
    rw [peer_hashes]
    exact peer_distinct
  short := by simp [peer_blocks]

variable {pk : ByteArr 32} {i j n : ℕ}

theorem peer_length : peer_chain.blocks.length = 11 := by simp [peer_chain, peer_blocks]

theorem peer_hash_at {x : String} (h : peer_chain.hashes[i]? = some x) : i ≤ 11 ∧ x = head_at (key 7) i := by
  have hhashes : peer_chain.hashes = (List.range 12).map (head_at (key 7)) := peer_hashes
  rw [hhashes, List.getElem?_map] at h
  obtain ⟨n, hn, rfl⟩ := Option.map_eq_some_iff.mp h
  obtain ⟨hlt, hget⟩ := List.getElem?_eq_some_iff.mp hn
  rw [List.length_range] at hlt
  rw [List.getElem_range] at hget
  exact ⟨by omega, by rw [hget]⟩

theorem peer_work (m : ℕ) (hm : m ≤ 11) : peer_chain.work_from (UInt64.ofNat m) m = 11 := by
  have hfrom : ∀ k m, m + k = 11 → peer_chain.work_from (UInt64.ofNat m) m = 11 := by
    intro k
    induction k with
    | zero =>
      rintro m rfl
      exact PeerChain.work_from_end (C := peer_chain) 11
    | succ k ih =>
      intro m hk
      have hget : peer_chain.blocks[m]? = some (line_stored (key 7) m) := by
        change peer_blocks[m]? = _
        rw [peer_blocks, List.getElem?_map, List.getElem?_range (by omega)]
        rfl
      have hwork : (line_stored (key 7) m).header.work = 1 := line_block_work (key 7) m
      have hnext : saturating_add (UInt64.ofNat m) (max 1 1) = UInt64.ofNat (m + 1) := by
        have hle : m ≤ 10 := by omega
        clear hget hwork hk ih
        interval_cases m <;> rfl
      rw [PeerChain.work_from_next _ hget, hwork, hnext]
      exact ih (m + 1) (by omega)
  exact hfrom (11 - m) m (by omega)

theorem line_adds (hi : i ≤ 11) (hd : ((List.range (i + 2)).map (head_at pk)).Nodup) :
    (branch pk i).1.add_block (line_block pk i) = (.ok true, (branch pk (i + 1)).1) := by
  have hline := line_tree_at pk i (hd.sublist ((List.range_sublist.mpr (by omega)).map _))
  have hnew : (line_block pk i).hash ∉ (List.range (i + 1)).map (head_at pk) := by
    rw [List.range_succ, List.map_append, List.nodup_append] at hd
    intro hin
    exact hd.2.2 _ hin (head_at pk (i + 1)) (List.mem_singleton_self _) (head_at_succ pk i).symm
  have hwork : saturating_add (branch pk i).2.work (max (line_block pk i).header.work 1) = (branch pk i).2.work + 1 := by
    rw [line_block_work, line_work]
    interval_cases i <;> rfl
  rw [hline.tip.add_block hnew rfl fun jurors => block_by_jurors _ _ _ _ jurors, hwork, line_tree]
  rfl

theorem LineTree.height (h : LineTree pk n) {s : Node} (htree : s.tree = (branch pk n).1) : s.head_height = UInt64.ofNat n := by
  obtain ⟨jurors, hentries⟩ := h.tip.entries
  obtain ⟨-, -, -, hheight, -⟩ := parent_entries_spec hentries
  obtain ⟨hd, hhd, hh⟩ := Option.map_eq_some_iff.mp hheight
  rw [Node.head_height, htree, hhd, ← line_height pk n]
  exact hh

/-- A node on such a line that shares nothing with the peer's chain but genesis. -/
theorem behind_line {s : Node} (h : LineTree pk n) (hn : n ≤ 10) (htree : s.tree = (branch pk n).1)
    (hknown : ∀ i ≤ 11, head_at (key 7) i ∈ (branch pk n).1.blocks → i = 0)
    (hparked : ∀ (k : String) v, s.pending[k]? = some v → v.1 ∈ peer_blocks ∧ k = v.1.hash) : peer_chain.Behind s 0 := by
  have hheight : s.head_height.toNat = n := by
    rw [h.height htree, UInt64.toNat_ofNat_of_lt' (by have : UInt64.size = 2 ^ 64 := rfl; omega)]
  have hwork : s.tree.cum_work[s.tree.head]? = some (UInt64.ofNat n) := by
    rw [htree]
    exact h.works n le_rfl
  have hle {j : ℕ} (hj : j ≤ n) : UInt64.ofNat j ≤ UInt64.ofNat n := by
    rw [UInt64.le_iff_toNat_le, UInt64.toNat_ofNat_of_lt' (by have : UInt64.size = 2 ^ 64 := rfl; omega),
      UInt64.toNat_ofNat_of_lt' (by have : UInt64.size = 2 ^ 64 := rfl; omega)]
    exact hj
  refine ⟨?_, fun i x hx => ?_, ?_, ⟨head_at pk 0, UInt64.ofNat 0, ?_, ?_, ?_⟩, ?_, ?_, ?_, hparked, ?_, ?_⟩
  · rw [hheight, peer_length]
    omega
  · obtain ⟨hi, rfl⟩ := peer_hash_at hx
    rw [htree]
    refine ⟨fun hin => (hknown i hi hin).le, fun hi => ?_⟩
    obtain rfl := Nat.le_zero.mp hi
    rw [head_at_zero, ← head_at_zero pk]
    exact h.mem 0 (Nat.zero_le n)
  · rw [htree]
    exact h.genesis
  · rw [head_at_zero]
    exact PeerChain.hashes_zero _
  · rw [htree]
    exact h.works 0 (Nat.zero_le n)
  · rw [hwork, Option.getD_some, peer_work 0 (Nat.zero_le 11), UInt64.lt_iff_toNat_lt,
      UInt64.toNat_ofNat_of_lt' (by have : UInt64.size = 2 ^ 64 := rfl; omega)]
    have heleven : (11 : UInt64).toNat = 11 := rfl
    omega
  · rw [hheight]
    have hmax : WALKBACK_MAX.toNat = 64 := rfl
    omega
  · rw [htree]
    exact h.mem n le_rfl
  · intro x w hx
    rw [hwork, Option.getD_some]
    rw [htree] at hx
    obtain ⟨j, hj, rfl⟩ := h.only x w hx
    exact hle hj
  · intro x _
    rw [htree]
    exact h.tip.innocent x
  · rw [htree]
    exact h.modelled

/-! ## A node on the peer's line -/

theorem peer_line (hi : i ≤ 11) : LineTree (key 7) i :=
  line_tree_at (key 7) i (peer_distinct.sublist ((List.range_sublist.mpr (by omega)).map _))

/-- The blocks of the line that the tree has. -/
theorem line_mem (hi : i ≤ 11) (hj : j ≤ 11) : head_at (key 7) j ∈ (branch (key 7) i).1.blocks ↔ j ≤ i := by
  refine ⟨fun h => ?_, (peer_line hi).mem j⟩
  obtain ⟨k, hk, he⟩ := List.mem_map.mp ((peer_line hi).tip.only _ h)
  have hki := List.mem_range.mp hk
  rw [← head_inj (by omega) hj he]
  omega

theorem peer_adds (hi : i < 11) : (branch (key 7) i).1.add_block (line_block (key 7) i) = (.ok true, (branch (key 7) (i + 1)).1) :=
  line_adds hi.le (peer_distinct.sublist ((List.range_sublist.mpr (by omega)).map _))

theorem line_orphan (hi : i ≤ 11) (hj : j < 11) (hlt : i < j) : ∃ e,
    (branch (key 7) i).1.add_block (line_block (key 7) j) = (.error e, (branch (key 7) i).1) ∧ "orphan".toList <:+: e.toList := by
  have hline := peer_line hi
  have hparent : head_at (key 7) j ∉ (branch (key 7) i).1.blocks := fun h => by
    have := (line_mem hi hj.le).mp h
    omega
  refine BlockTree.add_block_orphan (fun h => ?_) (hline.tip.innocent _) (hline.tip.innocent _) ?_ ?_
  · rw [← head_at_succ, line_mem hi (by omega)] at h
    omega
  · intro he
    rw [line_prev] at he
    exact hparent (he ▸ hline.mem i le_rfl)
  · rw [line_prev]
    exact fun hin => hparent (hline.modelled _ hin)

/-- The node knows the peer's chain up to some height and nothing else. -/
structure OnPeers (s : Node) : Prop where
  tree : ∃ i ≤ 11, s.tree = (branch (key 7) i).1
  parked : ∀ (k : String) v, s.pending[k]? = some v → v.1 ∈ peer_blocks ∧ k = v.1.hash

variable {s s' : Node} {sb : StoredBlock}

theorem mem_peer (h : sb ∈ peer_blocks) : ∃ j < 11, sb = line_stored (key 7) j := by
  obtain ⟨j, hj, rfl⟩ := List.mem_map.mp h
  exact ⟨j, List.mem_range.mp hj, rfl⟩

theorem OnPeers.takes (h : OnPeers s) (hsb : sb ∈ peer_blocks) : s.Takes sb := by
  obtain ⟨i, hi, htree⟩ := h.tree
  obtain ⟨j, hj, rfl⟩ := mem_peer hsb
  intro hfresh
  refine ⟨line_block (key 7) j, line_decodes _ _ _, fun hparent => ⟨true, ?_⟩⟩
  have hunknown : ¬ j + 1 ≤ i := fun hle => hfresh (by
    rw [htree, stored_hash]
    exact (peer_line hi).mem (j + 1) hle)
  have hle : j ≤ i := by
    rw [htree] at hparent
    exact (line_mem hi hj.le).mp hparent
  obtain rfl : i = j := by omega
  rw [htree, peer_adds hj]

theorem OnPeers.aside (h : OnPeers s) (ha : Node.Aside s s') : OnPeers s' :=
  ⟨ha.tree ▸ h.tree, fun k v hv => h.parked k v (ha.parked k v hv)⟩

theorem OnPeers.install (h : OnPeers s) (hsb : sb ∈ peer_blocks) (env : Env) (source : Option PeerId) :
    OnPeers (s.install env sb source).2 := by
  refine ⟨?_, fun k v hv => ?_⟩
  · obtain ⟨i, hi, htree⟩ := h.tree
    obtain ⟨j, hj, rfl⟩ := mem_peer hsb
    by_cases hmem : (line_stored (key 7) j).hash ∈ s.tree.blocks
    · unfold Node.install
      rw [if_pos (Std.ExtTreeMap.contains_iff_mem.mpr hmem)]
      exact ⟨i, hi, htree⟩
    · have hle : i ≤ j := by
        by_contra hgt
        refine hmem ?_
        rw [htree, stored_hash]
        exact (peer_line hi).mem (j + 1) (by omega)
      rcases Nat.lt_or_eq_of_le hle with hlt | rfl
      · obtain ⟨e, hadd, horphan⟩ := line_orphan hi hj hlt
        rw [← htree] at hadd
        exact ⟨i, hi, (Node.install_orphan env source hmem (line_decodes _ _) hadd horphan).trans htree⟩
      · have hadd := peer_adds hj
        rw [← htree] at hadd
        exact ⟨i + 1, hj, (Node.install_tree env source hmem (line_decodes _ _) hadd).1⟩
  · rcases (Node.install_installs s sb source).parked k v hv with hold | ⟨rfl, rfl⟩
    · exact h.parked k v hold
    · exact ⟨hsb, rfl⟩

theorem OnPeers.batch (h : OnPeers s) {blocks : List StoredBlock} (hblocks : ∀ sb ∈ blocks, sb ∈ peer_blocks) (env : Env)
    (peer : PeerId) : PeerChain.TakesAll env peer s blocks ∧
      OnPeers (blocks.foldl (fun s sb => (s.install env sb (some peer)).2) s) := by
  induction blocks generalizing s with
  | nil => exact ⟨trivial, h⟩
  | cons sb blocks ih =>
    obtain ⟨hsb, hrest⟩ := List.forall_mem_cons.mp hblocks
    obtain ⟨htakes, hafter⟩ := ih (h.install hsb env (some peer)) hrest
    exact ⟨⟨h.takes hsb, htakes⟩, hafter⟩

theorem OnPeers.unpark (h : OnPeers s) (k : String) : OnPeers (s.unpark k) := h.aside (.of_erase k rfl rfl)

theorem OnPeers.retry (h : OnPeers s) (env : Env) (ready : List String) :
    PeerChain.TakesReady env s ready ∧ OnPeers (ready.foldl (Node.retry_one env) s) := by
  induction ready generalizing s with
  | nil => exact ⟨trivial, h⟩
  | cons k ready ih =>
    have hone : OnPeers (s.retry_one env k) := by
      unfold Node.retry_one
      split
      · next sb source hk => exact (h.unpark k).install (h.parked k _ hk).1 env (some source)
      · exact h
    obtain ⟨htakes, hafter⟩ := ih hone
    exact ⟨⟨fun v hv => (h.unpark k).takes (h.parked k v hv).1, htakes⟩, hafter⟩

theorem OnPeers.sync (h : OnPeers s) {blocks : List StoredBlock} (hblocks : ∀ sb ∈ blocks, sb ∈ peer_blocks) (env : Env)
    (peer : PeerId) (payloads : List (String × Payload)) : PeerChain.TakesSync env peer s blocks payloads ∧
      OnPeers (s.handle_sync_batch env peer blocks payloads) := by
  have hkeep := h.aside (Node.Aside.foldl Node.keep_payload_aside payloads s)
  obtain ⟨hall, htaken⟩ := hkeep.batch hblocks env peer
  obtain ⟨hready, hafter⟩ := htaken.retry env (Node.ready_blocks env _)
  refine ⟨⟨hall, hready⟩, ?_⟩
  unfold Node.handle_sync_batch
  simp only
  split
  · exact hafter
  · exact hafter.aside (.of_eq rfl rfl)

theorem served_peer (f : UInt64) (count : ℕ) : ∀ sb ∈ peer_chain.serve f count, sb ∈ peer_blocks :=
  fun _ h => List.mem_of_mem_drop (List.mem_of_mem_take h)

theorem OnPeers.loop {peer : PeerId} {c : Syncing} (h : OnPeers c.node) (answers : ℕ → Answer) (n : ℕ) :
    OnPeers (peer_chain.loop peer c answers n).node := by
  induction n with
  | zero => exact h
  | succ n ih =>
    rw [PeerChain.loop]
    cases hout : (peer_chain.loop peer c answers n).last_sync_req[peer]? with
    | none => exact (PeerChain.round_idle hout).symm ▸ ih
    | some f =>
      obtain ⟨hnode, -⟩ := PeerChain.round_spec (C := peer_chain) (a := answers n) hout
      rw [hnode]
      exact (ih.sync (served_peer f (answers n).count) _ peer _).2

/-- One block at a time, from beyond reach. -/
theorem catch_up_converges_eleven :
    (∃ n, peer_chain.CaughtUp "peer" (peer_chain.loop "peer" ⟨node₀, ∅, ∅, (∅ : Dict UInt64).insert "peer" 2⟩
      (fun _ => ⟨env, 1, []⟩) n)) ∧
    ∀ n f', (peer_chain.loop "peer" ⟨node₀, ∅, ∅, (∅ : Dict UInt64).insert "peer" 2⟩
      (fun _ => ⟨env, 1, []⟩) n).last_sync_req["peer"]? = some f' → f' ≤ peer_chain.top := by
  have hnone (k : String) (v : StoredBlock × PeerId) (hv : node₀.pending[k]? = some v) :
      v.1 ∈ peer_blocks ∧ k = v.1.hash := by
    have hempty : node₀.pending[k]? = none := Std.ExtTreeMap.getElem?_empty
    rw [hempty] at hv
    cases hv
  have hline : OnPeers node₀ := ⟨⟨0, Nat.zero_le 11, (line_zero _).symm⟩, hnone⟩
  have hb : peer_chain.Behind node₀ 0 := behind_line (peer_line (Nat.zero_le 11)) (Nat.zero_le 10) (line_zero _).symm
    (fun i hi hin => Nat.le_zero.mp ((line_mem (Nat.zero_le 11) hi).mp hin)) hnone
  refine PeerChain.catch_up_converges peer_chain "peer" ⟨node₀, ∅, ∅, (∅ : Dict UInt64).insert "peer" 2⟩ 2
    (fun _ => ⟨env, 1, []⟩) hb ?_ ?_ (fun _ => Nat.one_pos) ?_ (.inr ?_)
  · exact Std.ExtTreeMap.getElem?_insert_self
  · rw [UInt64.le_iff_toNat_le, PeerChain.toNat_top, peer_length]
    decide
  · intro n f' _
    exact ((hline.loop (c := ⟨node₀, ∅, ∅, (∅ : Dict UInt64).insert "peer" 2⟩) _ n).sync (served_peer f' 1) env "peer" []).1
  · have hheight : node₀.head_height = 0 := (peer_line (Nat.zero_le 11)).height rfl
    rw [hheight]
    exact Nat.zero_le _

/-! ## A fork ten blocks deep -/

/-- Ten blocks of the node's own. -/
def deep_node : Node := (List.range 10).foldl (fun s i => (s.install env (line_stored (key 9) i) none).2) node₀

theorem own_distinct : ((List.range 11).map (head_at (key 9))).Nodup ∧
    ∀ i ≤ 11, ∀ j, 0 < j → j ≤ 10 → head_at (key 7) i ≠ head_at (key 9) j := by
  obtain ⟨-, hown, hdisjoint⟩ := List.nodup_append.mp line_distinct
  have happart : ∀ i ≤ 11, ∀ j, 0 < j → j ≤ 10 → head_at (key 7) i ≠ head_at (key 9) j := fun i hi j hj hj' =>
    hdisjoint _ (List.mem_map_of_mem (List.mem_range.mpr (by omega))) _
      (List.mem_map_of_mem (List.mem_range'_1.mpr (by omega)))
  refine ⟨?_, happart⟩
  have hrange : List.range 11 = 0 :: List.range' 1 10 := rfl
  rw [hrange, List.map_cons, List.nodup_cons]
  refine ⟨fun hin => ?_, hown⟩
  obtain ⟨j, hj, he⟩ := List.mem_map.mp hin
  obtain ⟨hpos, hlt⟩ := List.mem_range'_1.mp hj
  rw [head_at_zero, ← head_at_zero (key 7)] at he
  exact happart 0 (Nat.zero_le 11) j hpos (by omega) he.symm

theorem own_line (hi : i ≤ 10) : LineTree (key 9) i :=
  line_tree_at (key 9) i (own_distinct.1.sublist ((List.range_sublist.mpr (by omega)).map _))

theorem own_adds (hi : i < 10) : (branch (key 9) i).1.add_block (line_block (key 9) i) = (.ok true, (branch (key 9) (i + 1)).1) :=
  line_adds (by omega) (own_distinct.1.sublist ((List.range_sublist.mpr (by omega)).map _))

theorem deep_tree : deep_node.tree = (branch (key 9) 10).1 ∧ ∀ k : String, deep_node.pending[k]? = none := by
  suffices ∀ n ≤ 10, ((List.range n).foldl (fun s i => (s.install env (line_stored (key 9) i) none).2) node₀).tree =
      (branch (key 9) n).1 ∧ ∀ k : String,
        ((List.range n).foldl (fun s i => (s.install env (line_stored (key 9) i) none).2) node₀).pending[k]? = none from
    this 10 le_rfl
  intro n hn
  induction n with
  | zero => exact ⟨(line_zero _).symm, fun k => Std.ExtTreeMap.getElem?_empty⟩
  | succ n ih =>
    obtain ⟨htree, hpending⟩ := ih (by omega)
    rw [List.range_succ, List.foldl_append, List.foldl_cons, List.foldl_nil]
    generalize (List.range n).foldl (fun s i => (s.install env (line_stored (key 9) i) none).2) node₀ = s at htree hpending ⊢
    have hfresh : (line_stored (key 9) n).hash ∉ s.tree.blocks := fun hin => by
      rw [htree] at hin
      have hknown := (own_line (i := n) (by omega)).tip.only _ hin
      have hd := own_distinct.1.sublist ((List.range_sublist.mpr (show n + 2 ≤ 11 by omega)).map (head_at (key 9)))
      rw [List.range_succ, List.map_append, List.nodup_append] at hd
      exact hd.2.2 _ hknown (head_at (key 9) (n + 1)) (List.mem_singleton_self _) (head_at_succ (key 9) n).symm
    have hadd := own_adds (show n < 10 by omega)
    rw [← htree] at hadd
    obtain ⟨htree', hparked⟩ := Node.install_tree env none hfresh (line_decodes (key 9) n) hadd
    refine ⟨htree', fun k => ?_⟩
    cases hv : (s.install env (line_stored (key 9) n) none).2.pending[k]? with
    | none => rfl
    | some v =>
      have hold := hparked k v hv
      rw [hpending k] at hold
      cases hold

theorem peer_decodes : peer_chain.Decodes := fun _ hsb _ => by
  obtain ⟨j, -, rfl⟩ := mem_peer hsb
  exact ⟨_, line_decodes _ _ _⟩

/-- Above a fork ten blocks deep. -/
theorem own_stuck (htree : s.tree = (branch (key 9) 10).1) (hnone : ∀ k : String, s.pending[k]? = none) :
    peer_chain.Behind s 0 ∧ peer_chain.Stuck s.tree.head s.head_height.toNat "peer"
      ⟨s, ∅, ∅, (∅ : Dict UInt64).insert "peer" 2⟩ 0 := by
  have hapart (i : ℕ) (hi : i ≤ 11) (hin : head_at (key 7) i ∈ (branch (key 9) 10).1.blocks) : i = 0 := by
    obtain ⟨j, hj, he⟩ := List.mem_map.mp ((own_line le_rfl).tip.only _ hin)
    have hj' := List.mem_range.mp hj
    rcases Nat.eq_zero_or_pos j with rfl | hpos
    · rw [head_at_zero, ← head_at_zero (key 7)] at he
      exact (head_inj (Nat.zero_le 11) hi he).symm
    · exact absurd he.symm (own_distinct.2 i hi j hpos (by omega))
  have hb : peer_chain.Behind s 0 := behind_line (own_line le_rfl) le_rfl htree hapart fun k v hv => by
    rw [hnone] at hv
    cases hv
  have hheight : s.head_height.toNat = 10 := by
    rw [(own_line le_rfl).height htree]
    rfl
  refine ⟨hb, hb.follows, rfl, ?_, fun x _ hin => ?_, 2, Std.ExtTreeMap.getElem?_insert_self, by decide, ?_⟩
  · rw [hheight]
    decide
  · obtain ⟨v, hv⟩ := Option.isSome_iff_exists.mp (Std.ExtTreeMap.mem_iff_isSome_getElem?.mp hin)
    rw [hnone] at hv
    cases hv
  · rw [peer_length]
    decide

/-- Both chains are valid. Asked for the blocks from eight below its head, the peer answers with orphans, and
the node asks for the same again, in every round. -/
theorem deep_fork_wedges :
    ((∀ i < 10, (branch (key 9) i).1.add_block (line_block (key 9) i) = (.ok true, (branch (key 9) (i + 1)).1)) ∧
      ∀ i < 11, (branch (key 7) i).1.add_block (line_block (key 7) i) = (.ok true, (branch (key 7) (i + 1)).1)) ∧
    peer_chain.Behind deep_node 0 ∧
    (∀ n f', (peer_chain.loop "peer" ⟨deep_node, ∅, ∅, (∅ : Dict UInt64).insert "peer" 2⟩
        (fun _ => ⟨env, 1, []⟩) n).last_sync_req["peer"]? = some f' →
      PeerChain.TakesSync env "peer" (peer_chain.loop "peer" ⟨deep_node, ∅, ∅, (∅ : Dict UInt64).insert "peer" 2⟩
        (fun _ => ⟨env, 1, []⟩) n).node (peer_chain.serve f' 1) []) ∧
    ∀ n, ¬ peer_chain.CaughtUp "peer" (peer_chain.loop "peer" ⟨deep_node, ∅, ∅, (∅ : Dict UInt64).insert "peer" 2⟩
      (fun _ => ⟨env, 1, []⟩) n) := by
  obtain ⟨htree, hnone⟩ := deep_tree
  generalize deep_node = s at htree hnone ⊢
  obtain ⟨hb, hstuck⟩ := own_stuck htree hnone
  have hlong : s.head_height.toNat < peer_chain.blocks.length := hb.longer
  have hrun := PeerChain.stuck_forever (fun _ => ⟨env, 1, []⟩) hstuck hlong peer_decodes
    (fun _ => Nat.one_pos)
  refine ⟨⟨fun i hi => own_adds hi, fun i hi => peer_adds hi⟩, hb, fun n f' hf' => (hrun n).takes peer_decodes hf' 1 [],
    fun n hdone => ?_⟩
  obtain ⟨f, hout, -⟩ := (hrun n).out
  rw [hdone.idle] at hout
  cases hout

end Toy

end Sestrian
