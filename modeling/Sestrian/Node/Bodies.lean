import Sestrian.Code.Produce
import Sestrian.Tree.Step
import Sestrian.Code.Bytes

/-!
# What a step does to the pool, the block map and the bodies on disk

A body is safe once its shards were made here: until someone removes them, the node's own zone
of them stays. Every handler but one keeps the bodies of deltas that are not in the pool, and
`Shrinks` says so.
-/

namespace Sestrian

variable [Crypto]

namespace BlockTree

/-- A block map grows by the block that was taken, and by no other. -/
def Grows (t : BlockTree) (b : Block) (r : Validation Bool × BlockTree) : Prop :=
  r.2.genesis_hash = t.genesis_hash ∧
  ((r.2.blocks = t.blocks ∧ ∀ x, r.1 ≠ .ok x) ∨
    (r.2.blocks = t.blocks.insert b.hash b.header ∧ ∃ x, r.1 = .ok x))

variable {t : BlockTree} {b : Block}

theorem connect_extend_grows : Grows t b (t.connect_extend b) := by
  unfold connect_extend
  split
  · exact ⟨rfl, .inl ⟨rfl, by simp⟩⟩
  · split
    · exact ⟨rfl, .inl ⟨rfl, by simp⟩⟩
    · exact ⟨(prune_deep_frame _).2.2.2.2.2.1, .inr ⟨(prune_deep_frame _).1, _, rfl⟩⟩

theorem connect_extend_paged_grows : Grows t b (t.connect_extend_paged b) := by
  unfold connect_extend_paged
  simp only
  split
  · exact ⟨rfl, .inl ⟨rfl, by simp⟩⟩
  · exact ⟨(prune_deep_frame _).2.2.2.2.2.1, .inr ⟨(prune_deep_frame _).1, _, rfl⟩⟩

theorem rewind_to_same (target : String) :
    (t.rewind_to target).2.blocks = t.blocks ∧ (t.rewind_to target).2.genesis_hash = t.genesis_hash := by
  unfold rewind_to
  split
  · exact ⟨rfl, rfl⟩
  · split
    · exact ⟨rfl, rfl⟩
    · split <;> exact ⟨rfl, rfl⟩

theorem convict_same (h : String) :
    (t.convict h).2.blocks = t.blocks ∧ (t.convict h).2.genesis_hash = t.genesis_hash := by
  have hsame := rewind_to_same (t := { t with convicted := t.convicted.insert h })
    ({ t with convicted := t.convicted.insert h }).best_head
  unfold convict
  simp only
  split
  · exact ⟨rfl, rfl⟩
  · split
    · exact ⟨rfl, rfl⟩
    · split
      · exact ⟨rfl, rfl⟩
      · split <;> next heq => rwa [heq] at hsame

theorem connect_side_grows : Grows t b (t.connect_side b) := by
  unfold connect_side
  simp only
  split
  · exact ⟨rfl, .inl ⟨rfl, by simp⟩⟩
  · have hsame := rewind_to_same (t := t) b.header.prev_hash
    split
    · rename_i heq
      rw [heq] at hsame
      exact ⟨hsame.2, .inl ⟨hsame.1, by simp⟩⟩
    · rename_i t' heq
      rw [heq] at hsame
      have hins : t'.blocks.insert b.hash b.header = t.blocks.insert b.hash b.header := by rw [hsame.1]
      split
      · exact ⟨hsame.2, .inl ⟨hsame.1, by simp⟩⟩
      · split
        · exact ⟨(prune_deep_frame _).2.2.2.2.2.1.trans hsame.2, .inr ⟨(prune_deep_frame _).1.trans hins, _, rfl⟩⟩
        · exact ⟨(prune_deep_frame _).2.2.2.2.2.1.trans hsame.2, .inr ⟨(prune_deep_frame _).1.trans hins, _, rfl⟩⟩

theorem add_block_grows (hnew : b.hash ∉ t.blocks) : Grows t b (t.add_block b) := by
  unfold add_block
  simp only
  split
  · rename_i h
    exact absurd (Std.ExtTreeMap.contains_iff_mem.mp h) hnew
  · split
    · exact ⟨rfl, .inl ⟨rfl, by simp⟩⟩
    · split
      · split
        · exact connect_extend_paged_grows
        · exact ⟨rfl, .inl ⟨rfl, by simp⟩⟩
      · split
        · exact connect_extend_grows
        · exact connect_side_grows

theorem add_block_known (h : b.hash ∈ t.blocks) : (t.add_block b).2 = t := by
  unfold add_block
  simp only [Std.ExtTreeMap.contains_iff_mem.mpr h, if_true]

theorem add_block_genesis : (t.add_block b).2.genesis_hash = t.genesis_hash := by
  by_cases h : b.hash ∈ t.blocks
  · rw [add_block_known h]
  · exact (add_block_grows h).1

/-- A block of the tree afterwards was there before, or is the block that was taken. -/
theorem mem_add_block {h : String} (hm : h ∈ (t.add_block b).2.blocks) :
    h ∈ t.blocks ∨ (h = b.hash ∧ ∃ x, (t.add_block b).1 = .ok x) := by
  by_cases hb : b.hash ∈ t.blocks
  · exact .inl (add_block_known hb ▸ hm)
  · rcases (add_block_grows hb).2 with ⟨heq, -⟩ | ⟨heq, hok⟩
    · exact .inl (heq ▸ hm)
    · rw [heq, mem_insert_iff] at hm
      exact hm.symm.imp_right fun h => ⟨h, hok⟩

end BlockTree

/-! ## The disk -/

namespace Store

variable [Serde] {st : Store} {zone : List UInt32} {id : String}

/-- Of shards made here the zone is never lost. -/
def Zoned (zone : List UInt32) (st : Store) : Prop :=
  ∀ id, st.dispersed id → ∀ i ∈ zone, i ∈ (st.dir id).shards

/-- Every body file has its shards too. -/
structure Sound (zone : List UInt32) (st : Store) : Prop where
  filed : ∀ id, st.has_payload id → st.dispersed id
  zoned : Zoned zone st

omit [Crypto] [Serde] in
theorem dir_insert (m : Dict DaDir) (files : Dict (List UInt8)) (k id : String) (d : DaDir) :
    (Store.mk files (m.insert k d)).dir id = if k = id then d else (Store.mk files m).dir id := by
  unfold dir
  rw [SumMap.get_insert]
  split <;> rfl

omit [Crypto] [Serde] in
theorem dir_erase (m : Dict DaDir) (files : Dict (List UInt8)) (k id : String) :
    (Store.mk files (m.erase k)).dir id = if k = id then ⟨none, ∅⟩ else (Store.mk files m).dir id := by
  unfold dir
  rw [SumMap.get_erase]
  split <;> rfl

omit [Crypto] [Serde] in
theorem hash_hex_ne (h : Hash) : hex_encode h.val ≠ "" := by
  intro he
  have hnil : h.val = [] := hex_encode_inj (he.trans (by rfl))
  have hlen := h.2
  rw [hnil] at hlen
  cases hlen

omit [Crypto] [Serde] in
theorem mem_write_shards {encoded : List (List UInt8)} {shards : da.Shards} {i : UInt32}
    (h : i.toNat < encoded.length ∨ i ∈ shards) : i ∈ write_shards shards encoded := by
  have key : ∀ (l : List (List UInt8 × Nat)) (m : da.Shards), (i ∈ m ∨ i.toNat ∈ l.map (·.2)) →
      i ∈ l.foldl (fun m sh => m.insert (UInt32.ofNat sh.2) sh.1) m := by
    intro l
    induction l with
    | nil => intro m hm; simpa using hm
    | cons sh l ih =>
      intro m hm
      refine ih _ ?_
      rw [Std.ExtTreeMap.mem_insert, Std.compare_eq_iff_eq]
      rcases hm with hm | hm
      · exact .inl (.inr hm)
      · rcases List.mem_cons.mp hm with heq | hm
        · exact .inl (.inl (by rw [show sh.2 = i.toNat from heq.symm, UInt32.ofNat_toNat]))
        · exact .inr hm
  refine key _ _ ?_
  rcases h with h | h
  · exact .inr (by simpa using h)
  · exact .inl h

omit [Crypto] [Serde] in
/-- A directory may be written over, when it stays made and then has the zone. -/
theorem Zoned.insert (h : Zoned zone st) {txid : String} {d : DaDir} (hmade : st.dispersed txid → d.made)
    (hzone : d.made → ∀ i ∈ zone, i ∈ d.shards) :
    Zoned zone { st with da := st.da.insert txid d } ∧
    ∀ id, st.dispersed id → ({ st with da := st.da.insert txid d } : Store).dispersed id := by
  have hdir : ∀ id, ({ st with da := st.da.insert txid d } : Store).dir id = if txid = id then d else st.dir id :=
    fun id => dir_insert st.da st.payloads txid id d
  constructor
  · intro id hid i hi
    rw [hdir]
    rw [dispersed, hdir] at hid
    split
    · rename_i heq
      rw [if_pos heq] at hid
      exact hzone hid i hi
    · rename_i hne
      rw [if_neg hne] at hid
      exact h id hid i hi
  · intro id hid
    rw [dispersed, hdir]
    split
    · rename_i heq
      exact hmade (heq ▸ hid)
    · exact hid

theorem disperse_payload_payloads (p : Payload) (txid : String) : (st.disperse_payload txid p).payloads = st.payloads := by
  unfold disperse_payload disperse_bytes
  split <;> rfl

/-- Dispersing makes all shards, or finds them made. -/
theorem Zoned.disperse_payload (h : Zoned zone st) (hz : ∀ i ∈ zone, i.toNat < DA_N) (txid : String) (p : Payload) :
    Zoned zone (st.disperse_payload txid p) ∧ (st.disperse_payload txid p).dispersed txid ∧
    ∀ id, st.dispersed id → (st.disperse_payload txid p).dispersed id := by
  unfold Store.disperse_payload disperse_bytes
  split
  · rename_i hd
    exact ⟨h, hd, fun _ hid => hid⟩
  · simp only
    refine (and_left_comm.mp ⟨?_, h.insert (fun _ => ?_) fun _ i hi => mem_write_shards (.inl ?_)⟩)
    · rw [dispersed, dir_insert, if_pos rfl]
      simp [DaDir.made, hash_hex_ne]
    · simp [DaDir.made, hash_hex_ne]
    · simpa [da.encode] using hz i hi

theorem Sound.disperse_payload (h : Sound zone st) (hz : ∀ i ∈ zone, i.toNat < DA_N) (txid : String) (p : Payload) :
    Sound zone (st.disperse_payload txid p) ∧ ∀ id, st.dispersed id → (st.disperse_payload txid p).dispersed id := by
  obtain ⟨hzoned, -, hkeep⟩ := h.zoned.disperse_payload hz txid p
  refine ⟨⟨fun id hid => hkeep id (h.filed id ?_), hzoned⟩, hkeep⟩
  rwa [has_payload, disperse_payload_payloads] at hid

/-- After `put_payload` the body is on disk with its shards. -/
theorem Sound.put_payload (h : Sound zone st) (hz : ∀ i ∈ zone, i.toNat < DA_N) (txid : String) (p : Payload) :
    Sound zone (st.put_payload txid p) ∧ (st.put_payload txid p).dispersed txid ∧
    ∀ id, st.dispersed id → (st.put_payload txid p).dispersed id := by
  unfold Store.put_payload
  split
  · rename_i hfile
    exact ⟨h, h.filed txid hfile, fun _ hid => hid⟩
  · have hzoned : Zoned zone { st with payloads := st.payloads.insert txid (Serde.to_vec p) } := h.zoned
    obtain ⟨hz', hmade, hkeep⟩ := hzoned.disperse_payload hz txid p
    refine ⟨⟨fun id hid => ?_, hz'⟩, hmade, hkeep⟩
    rw [has_payload, disperse_payload_payloads, Std.ExtTreeMap.contains_iff_mem, mem_insert_iff] at hid
    rcases hid with rfl | hid
    · exact hmade
    · exact hkeep id (h.filed id (Std.ExtTreeMap.contains_iff_mem.mpr hid))

omit [Crypto] [Serde] in
/-- A shard of a peer is added, and the directory stays as made as it was. -/
theorem Sound.put_shard (h : Sound zone st) (txid : String) (i : UInt32) (data : List UInt8) (k n orig_len : Nat) :
    Sound zone (st.put_shard txid i data k n orig_len) ∧
    ∀ id, st.dispersed id → (st.put_shard txid i data k n orig_len).dispersed id := by
  set d : DaDir :=
    { info := (st.dir txid).info.or (some { root := "", orig_len, k, n })
      shards := (st.dir txid).shards.insert i data } with hdef
  have hsame : d.made = st.dispersed txid := by
    rw [dispersed, hdef]
    unfold DaDir.made
    cases (st.dir txid).info <;> rfl
  obtain ⟨hzoned, hkeep⟩ : Zoned zone { st with da := st.da.insert txid d } ∧ _ := h.zoned.insert
    (fun hd => hsame ▸ hd) fun hd j hj => Std.ExtTreeMap.mem_insert.mpr (.inr (h.zoned txid (hsame ▸ hd) j hj))
  exact ⟨⟨fun id hid => hkeep id (h.filed id hid), hzoned⟩, hkeep⟩

omit [Crypto] [Serde] in
theorem dispersed_remove (txid id : String) :
    (st.remove_payload txid).dispersed id = if txid = id then false else st.dispersed id := by
  rw [dispersed, remove_payload, dir_erase]
  split <;> rfl

omit [Crypto] [Serde] in
theorem Sound.remove_payload (h : Sound zone st) (txid : String) : Sound zone (st.remove_payload txid) := by
  constructor
  · intro id hid
    rw [dispersed_remove]
    rw [has_payload, Std.ExtTreeMap.contains_iff_mem] at hid
    have hmem := Std.ExtTreeMap.mem_erase.mp hid
    rw [if_neg fun heq => hmem.1 (by rw [heq]; exact Std.compare_self)]
    exact h.filed id (Std.ExtTreeMap.contains_iff_mem.mpr hmem.2)
  · intro id hid i hi
    rw [dispersed_remove] at hid
    split at hid
    · cases hid
    · rename_i hne
      rw [Store.remove_payload, dir_erase, if_neg hne]
      exact h.zoned id hid i hi

omit [Crypto] [Serde] in
theorem dir_prune (txid : String) (keep : List UInt32) (id : String) :
    (st.prune_body_to_shards txid keep).dir id = if txid = id then
      { st.dir id with shards := (st.dir id).shards.filter fun i _ => keep.contains i } else st.dir id := by
  unfold dir prune_body_to_shards
  rw [Std.ExtTreeMap.getElem?_alter]
  by_cases h : txid = id
  · subst h
    simp only [Std.compare_self, if_true]
    cases st.da[txid]? with
    | none =>
      have hempty : (∅ : da.Shards).filter (fun i _ => keep.contains i) = ∅ :=
        Std.ExtTreeMap.ext_getElem? fun i => by simp
      simp only [Option.map_none, Option.getD_none, hempty]
    | some d => rfl
  · rw [if_neg h, if_neg fun he => h (Std.compare_eq_iff_eq.mp he)]

omit [Crypto] [Serde] in
/-- Pruning to the zone loses the file and no shard of the zone. -/
theorem Sound.prune (h : Sound zone st) (txid : String) :
    Sound zone (st.prune_body_to_shards txid zone) ∧
    ∀ id, st.dispersed id → (st.prune_body_to_shards txid zone).dispersed id := by
  have hsame : ∀ id, (st.prune_body_to_shards txid zone).dispersed id = st.dispersed id := by
    intro id
    rw [dispersed, dir_prune]
    split <;> rfl
  refine ⟨⟨fun id hid => ?_, fun id hid i hi => ?_⟩, fun id hid => hsame id ▸ hid⟩
  · rw [hsame]
    rw [has_payload, Std.ExtTreeMap.contains_iff_mem] at hid
    exact h.filed id (Std.ExtTreeMap.contains_iff_mem.mpr (Std.ExtTreeMap.mem_erase.mp hid).2)
  · have hmem := h.zoned id (hsame id ▸ hid) i hi
    rw [dir_prune]
    split
    · refine Std.ExtTreeMap.mem_filter.mpr ⟨hmem, ?_⟩
      simpa using hi
    · exact hmem

end Store

/-! ## Steps that leave the tree -/

namespace Node

open Store

variable {s s' s'' : Node}

theorem zone_lt (s : Node) : ∀ i ∈ s.my_shard_zone, i.toNat < DA_N := by
  intro i hi
  unfold my_shard_zone at hi
  obtain ⟨j, -, rfl⟩ := List.mem_map.mp hi
  have hlt : (from_be_bytes ((sha256 (as_bytes s.key.pub_hex)).val.take 4) % DA_N + j) % DA_N < DA_N :=
    Nat.mod_lt _ (by decide)
  rw [UInt32.toNat_ofNat', Nat.mod_eq_of_lt (hlt.trans (by decide))]
  exact hlt

/-- The pool loses entries and gains none, and a body is lost only with its entry. -/
structure Shrinks (s s' : Node) : Prop where
  key : s'.key = s.key
  cfg : s'.cfg = s.cfg
  tree : s'.tree = s.tree
  full : s'.blocks_full = s.blocks_full
  pool : ∀ id : String, s'.delta_pool[id]? = s.delta_pool[id]? ∨ s'.delta_pool[id]? = none
  sound : Sound s.my_shard_zone s.store → Sound s.my_shard_zone s'.store
  kept : ∀ id, Sound s.my_shard_zone s.store → s.store.dispersed id → (id ∈ s'.delta_pool ∨ id ∉ s.delta_pool) →
    s'.store.dispersed id

theorem my_shard_zone_congr (h : s'.key = s.key) : s'.my_shard_zone = s.my_shard_zone := by
  unfold my_shard_zone
  rw [h]

omit [Crypto] in
theorem mem_pool_iff {id : String} : id ∈ s.delta_pool ↔ s.delta_pool[id]? ≠ none := by
  rw [Std.ExtTreeMap.mem_iff_isSome_getElem?, Option.isSome_iff_ne_none]

namespace Shrinks

theorem refl (s : Node) : Shrinks s s :=
  ⟨rfl, rfl, rfl, rfl, fun _ => .inl rfl, id, fun _ _ h _ => h⟩

theorem mem (h : Shrinks s s') {id : String} (hm : id ∈ s'.delta_pool) : id ∈ s.delta_pool := by
  rw [mem_pool_iff] at hm ⊢
  rcases h.pool id with heq | hnone
  · rwa [heq] at hm
  · exact absurd hnone hm

theorem trans (h : Shrinks s s') (h' : Shrinks s' s'') : Shrinks s s'' where
  key := h'.key.trans h.key
  cfg := h'.cfg.trans h.cfg
  tree := h'.tree.trans h.tree
  full := h'.full.trans h.full
  pool id := by
    rcases h'.pool id with heq | hnone
    · rw [heq]
      exact h.pool id
    · exact .inr hnone
  sound hs := my_shard_zone_congr h.key ▸ h'.sound (my_shard_zone_congr h.key ▸ h.sound hs)
  kept id hs hd hm := by
    refine h'.kept id (my_shard_zone_congr h.key ▸ h.sound hs) (h.kept id hs hd ?_) ?_
    · exact hm.imp_left h'.mem
    · exact hm.imp_right fun hn hmem => hn (h.mem hmem)

/-- Over a list of steps. -/
theorem foldl {α : Type} {f : Node → α → Node} (h : ∀ s a, Shrinks s (f s a)) (l : List α) (s : Node) :
    Shrinks s (l.foldl f s) := by
  induction l generalizing s with
  | nil => exact refl s
  | cons a l ih => exact (h s a).trans (ih _)

/-- A step that touches neither the disk nor the pool. -/
theorem of_eq (hkey : s'.key = s.key) (hcfg : s'.cfg = s.cfg) (htree : s'.tree = s.tree)
    (hfull : s'.blocks_full = s.blocks_full) (hpool : s'.delta_pool = s.delta_pool) (hstore : s'.store = s.store) :
    Shrinks s s' :=
  ⟨hkey, hcfg, htree, hfull, fun _ => .inl (by rw [hpool]), fun h => hstore ▸ h, fun _ _ h _ => hstore ▸ h⟩

end Shrinks

end Node

end Sestrian
