import Sestrian.Tree.Moves

/-!
# The invariant of a full node

`S h` is the weights and the model that block `h` stands for: those of its parent with the
block densely applied. Canon is the weights at the head, every kept record moves between a
block and its parent, and no call changes that.
-/

open Walk Check

namespace Sestrian

open Aggregate Pages

variable [Crypto]

/-! ## What an accepted block leaves -/

theorem validate_inner_fold {block : Block} {w : Option (List Int64)} {height : UInt64} {led : TokenLedger}
    {dc : Option String} {jurors : StrSet} {m : ModelState} {params : GenesisParams} {v : Validated}
    (h : validate_inner block w height led dc jurors m params = .ok v) :
    v.model = (fold_block block m params).1 ∧ v.activations = (fold_block block m params).2 := by
  simp only [validate_inner, bind_eq_ok, pure_eq_ok] at h
  obtain ⟨-, -, -, -, -, -, -, -, -, -, -, -, -, -, -, -, -, -, rfl⟩ := h
  exact ⟨rfl, rfl⟩

namespace BlockTree

theorem check_sparse_tx_coords {t : BlockTree} {block : Block} {m : ModelState} {tx : BackpropTx}
    {coords : List (UInt32 × Int64)} (h : t.check_sparse_tx block m tx = .ok coords) :
    body_coords block tx = .ok (t.canon.length, coords) := by
  simp only [check_sparse_tx, bind_eq_ok, require_eq_ok, pure_eq_ok] at h
  obtain ⟨⟨n, cs⟩, hbody, -, hn, -, -, -, -, -, -, -, -, hcs⟩ := h
  simp only at hn hcs
  rw [hbody, hn, hcs]

/-- A staged block is the dense application of the block to canon. -/
theorem validate_at_base_spec {t : BlockTree} {block : Block} {p : Parent} {staged : Staged}
    (h : t.validate_at_base block p = .ok staged) (hm : Describes p.model t.canon.length) :
    (apply_redo t.canon staged.agg.toList ++ staged.init_pages.flatten, staged.post_model) =
      dense_apply t.params (t.canon, p.model) block := by
  simp only [validate_at_base, bind_eq_ok, require_eq_ok, pure_eq_ok] at h
  obtain ⟨tx_coords, hcoords, v, hv, -, -, rfl⟩ := h
  obtain ⟨hmodel, hact⟩ := validate_inner_fold hv
  have hall := (mapM_eq_ok _ _ _).mp hcoords
  have hrep : List.Forall₂ Represents tx_coords (block.txs.map (dense_body block)) :=
    (List.forall₂_map_right_iff.mpr (hall.imp fun tx cs hc =>
      (body_coords_spec (check_sparse_tx_coords hc)).1).flip).imp fun _ _ hr => hr
  have hlen : ∀ b ∈ block.txs.map (dense_body block), t.canon.length ≤ b.length := by
    intro b hb
    obtain ⟨tx, htx, rfl⟩ := List.mem_map.mp hb
    obtain ⟨i, hi, rfl⟩ := List.getElem_of_mem htx
    have := hall.get hi (hall.length_eq ▸ hi)
    exact (body_coords_spec (check_sparse_tx_coords this)).2.ge
  simp only [dense_apply, hmodel, hact]
  rw [apply_redo_aggregate _ _ _ _ _ hm.tiled hrep hall.length_eq hlen]

omit [Crypto] in
theorem parent_entries_spec {t : BlockTree} {h : String} {p : Parent} (hp : t.parent_entries h = .ok p) :
    t.model[h]? = some p.model ∧ t.ledger[h]? = some p.ledger ∧ t.cum_work[h]? = some p.work ∧
      t.blocks[h]?.map (·.height) = some p.height ∧ p.jurors = t.recent_proposers h := by
  simp only [parent_entries, bind_eq_ok, ok_or_eq_ok, pure_eq_ok] at hp
  obtain ⟨m, hm, led, hled, hd, hhd, work, hwork, rfl⟩ := hp
  simp [hm, hled, hhd, hwork]

omit [Crypto] in
/-- A record of an aggregate moves forth and back. -/
theorem moves_of_agg (w : List Int64) (agg : Coords) (tail : List Int64) :
    Moves w (apply_redo w agg.toList ++ tail) (undo_of w agg) agg.toList tail := by
  refine ⟨rfl, ?_⟩
  have := Patch.setAll_modifyAll (f := fun (c : UInt32 × Int64) (x : Int64) => x + c.2)
    (v := fun c => w.getD c.1.toNat 0) (distinct_toList agg) w
    fun c _ x hx => by simp [List.getD_eq_getElem?_getD, place] at hx ⊢; simp [hx]
  unfold undo_of apply_undo
  rw [List.foldl_map]
  exact this

end BlockTree

/-! ## The invariant -/

structure Coherent (genesis_w : List Int64) (params : GenesisParams) (n : Logged)
    (S : String → List Int64 × ModelState) : Prop where
  shape : n.tree.Shape
  same_params : n.tree.params = params
  at_genesis : S n.tree.genesis_hash = (genesis_w, ModelState.genesis params.spec)
  logged : ∀ h b, n.log[h]? = some b → h ≠ n.tree.genesis_hash ∧ b.hash = h ∧
    n.tree.blocks[h]? = some b.header ∧ S h = dense_apply params (S b.header.prev_hash) b
  known : ∀ h ∈ n.tree.blocks, h ≠ n.tree.genesis_hash → h ∈ n.log
  model : ∀ h ∈ n.tree.blocks, n.tree.model[h]? = some (S h).2
  entries : ∀ h ∈ n.tree.blocks, h ∈ n.tree.ledger ∧ h ∈ n.tree.cum_work
  only_known : ∀ h ∈ n.tree.model, h ∈ n.tree.blocks
  describes : ∀ h ∈ n.tree.blocks, Describes (S h).2 (S h).1.length
  canon : n.tree.canon = (S n.tree.head).1
  records : n.tree.Records fun h => (S h).1

variable {genesis_w : List Int64} {params : GenesisParams} {n : Logged} {S : String → List Int64 × ModelState}

theorem coherent_new (hw : genesis_w.length = (ModelState.genesis params.spec).dim) (dc : Option String) :
    Coherent genesis_w params (.new genesis_w dc params)
      fun _ => (genesis_w, ModelState.genesis params.spec) := by
  have hmem {ν : Type} {g h : String} {v : ν} (hh : h ∈ (∅ : Dict ν).insert g v) : h = g := by
    have : compare g h = .eq := by simpa using hh
    exact (compare_eq_iff_eq.mp this).symm
  refine ⟨⟨rfl, ?_, ?_, fun h hh => ?_⟩, rfl, rfl, fun h b hb => ?_, fun h hh hne => ?_, fun h hh => ?_,
    fun h hh => ?_, fun h hh => ?_, fun h hh => ?_, rfl, ⟨fun h u tail hu => ?_, fun h hh => ?_⟩⟩
  · simp [Logged.new, BlockTree.new]
  · simp [Logged.new, BlockTree.new]
  · obtain rfl := hmem hh
    exact ⟨_, .root⟩
  · simp [Logged.new] at hb
  · exact absurd (hmem hh) hne
  · obtain rfl := hmem hh
    simp [Logged.new, BlockTree.new]
  · obtain rfl := hmem hh
    simp [Logged.new, BlockTree.new]
  · obtain rfl := hmem hh
    simp [Logged.new, BlockTree.new]
  · exact hw ▸ describes_genesis params.spec
  · simp [Logged.new, BlockTree.new] at hu
  · simp [Logged.new, BlockTree.new] at hh

/-- Along the chain of a block, dense replay gives `S`. -/
theorem Coherent.replay_eq (hc : Coherent genesis_w params n S) {h : String} {chain : List Block}
    (hch : Chain n.log n.tree.genesis_hash h chain) : replay genesis_w params chain = S h := by
  induction hch with
  | genesis => exact hc.at_genesis.symm
  | block _ hb _ ih =>
    unfold replay at ih ⊢
    rw [List.foldl_append, ih]
    exact (hc.logged _ _ hb).2.2.2.symm

/-- Every known block has its chain in the log. -/
theorem Coherent.chain (hc : Coherent genesis_w params n S) {h : String} (hh : h ∈ n.tree.blocks) :
    ∃ chain, Chain n.log n.tree.genesis_hash h chain := by
  obtain ⟨l, hl⟩ := hc.shape.line h hh
  clear hh
  induction hl with
  | root => exact ⟨[], .genesis⟩
  | @step a b l hne hp _ ih =>
    obtain ⟨chain, hch⟩ := ih
    obtain ⟨blk, hblk⟩ := Option.isSome_iff_exists.mp
      (Std.ExtTreeMap.mem_iff_isSome_getElem?.mp (hc.known a (BlockTree.parent_some hp) hne))
    have hb : blk.header.prev_hash = b := by
      simpa [BlockTree.parent, (hc.logged a blk hblk).2.2.1] using hp
    exact ⟨chain ++ [blk], .block hne hblk (hb ▸ hch)⟩

theorem Coherent.rewind_cases (hc : Coherent genesis_w params n S) (target : String) :
    (∃ e, n.tree.rewind_to target = (.error e, n.tree)) ∨
    ∃ up down, n.tree.fork_walk target = .ok (up, down) ∧ target ∈ n.tree.blocks ∧
      (∀ h ∈ up ++ down, h ∈ n.tree.undo) ∧
      n.tree.rewind_to target = (.ok { up, down, saved_leaves := n.tree.page_leaves },
        { n.tree with
          canon := (S target).1
          page_leaves := n.tree.rewound_leaves (S target).1 up down (S target).2 }) := by
  have hmodel : ∀ h ∈ n.tree.blocks, h ∈ n.tree.model := fun h hh =>
    Std.ExtTreeMap.mem_iff_isSome_getElem?.mpr (by simp [hc.model h hh])
  refine (BlockTree.rewind_to_cases hc.shape hc.records hc.canon hmodel target).imp id ?_
  rintro ⟨up, down, m, hf, hm, hu, hr⟩
  have hk := (BlockTree.fork_walk_spec hc.shape hf).1
  obtain rfl := Option.some.inj (hm.symm.trans (hc.model target hk))
  exact ⟨up, down, hf, hk, hu, hr⟩

/-! ## What keeps the invariant -/

omit [Crypto] in
theorem mem_insert_iff {ν : Type} (m : Dict ν) (k h : String) (v : ν) : h ∈ m.insert k v ↔ h = k ∨ h ∈ m := by
  rw [Std.ExtTreeMap.mem_insert, compare_eq_iff_eq, eq_comm]

/-- Canon, the head and the leaf cache may move together to any known block. -/
theorem Coherent.move_head (hc : Coherent genesis_w params n S) {h : String} (hh : h ∈ n.tree.blocks)
    (leaves : List Hash) :
    Coherent genesis_w params
      { n with tree := { n.tree with canon := (S h).1, page_leaves := leaves, head := h } } S :=
  { hc with
    shape := { hc.shape with head_known := hh }
    canon := rfl
    records := ⟨hc.records.moves, hc.records.redo_undo⟩ }

/-- Settings and marks that the invariant does not read may change. -/
theorem Coherent.congr_marks (hc : Coherent genesis_w params n S) (depth : Option UInt64)
    (verified convicted : StrSet) :
    Coherent genesis_w params
      { n with tree := { n.tree with prune_depth := depth, hash_verified := verified, convicted := convicted } }
      S :=
  { hc with
    shape := { hc.shape with }
    records := ⟨hc.records.moves, hc.records.redo_undo⟩ }

omit [Crypto] in
theorem get_erase_all {ν : Type} (ks : List String) (m : Dict ν) (h : String) :
    (ks.foldl (fun m k => m.erase k) m)[h]? = if h ∈ ks then none else m[h]? := by
  induction ks generalizing m with
  | nil => simp
  | cons k ks ih =>
    rw [List.foldl_cons, ih, SumMap.get_erase]
    by_cases hk : k = h
    · simp [hk]
    · simp [hk, Ne.symm hk, List.mem_cons]

omit [Crypto] in
/-- Pruning drops records, undo and redo of the same blocks. -/
theorem BlockTree.prune_deep_cases (t : BlockTree) :
    ∃ (doomed : List String) (pin : Option (List Int64)), t.prune_deep = { t with
      undo := doomed.foldl (fun m h => m.erase h) t.undo
      redo := doomed.foldl (fun m h => m.erase h) t.redo
      genesis_pin := pin } := by
  unfold prune_deep
  split
  · exact ⟨[], t.genesis_pin, rfl⟩
  · exact ⟨_, _, rfl⟩

theorem Coherent.prune (hc : Coherent genesis_w params n S) :
    Coherent genesis_w params { n with tree := n.tree.prune_deep } S := by
  obtain ⟨doomed, pin, hp⟩ := n.tree.prune_deep_cases
  rw [hp]
  refine { hc with shape := { hc.shape with }, records := ⟨fun h u tail hu => ?_, fun h hh => ?_⟩ }
  · simp only [get_erase_all] at hu ⊢
    split at hu
    · exact absurd hu (by simp)
    · next hd =>
      obtain ⟨r, p, hr, hne, hp, hm⟩ := hc.records.moves h u tail hu
      exact ⟨r, p, by simp [hd, hr], hne, hp, hm⟩
  · simp only [Std.ExtTreeMap.mem_iff_isSome_getElem?, get_erase_all] at hh ⊢
    split at hh
    · exact absurd hh (by simp)
    · next hd =>
      rw [if_neg hd]
      exact Std.ExtTreeMap.mem_iff_isSome_getElem?.mp
        (hc.records.redo_undo h (Std.ExtTreeMap.mem_iff_isSome_getElem?.mpr hh))

/-- The tree with the entries of a new block, canon where it was. -/
def BlockTree.recorded (t : BlockTree) (w : List Int64) (block : Block) (staged : Staged) (work : UInt64) :
    BlockTree :=
  { ({ t with canon := w }).record block.hash block.header staged work with canon := t.canon }

theorem Coherent.record (hc : Coherent genesis_w params n S) {block : Block} {staged : Staged} (work : UInt64)
    (hnew : block.hash ∉ n.tree.blocks) (hparent : block.header.prev_hash ∈ n.tree.blocks)
    (hstaged : (apply_redo (S block.header.prev_hash).1 staged.agg.toList ++ staged.init_pages.flatten,
      staged.post_model) = dense_apply params (S block.header.prev_hash) block) :
    Coherent genesis_w params
      { tree := n.tree.recorded (S block.header.prev_hash).1 block staged work
        log := n.log.insert block.hash block }
      (Function.update S block.hash (dense_apply params (S block.header.prev_hash) block)) := by
  have hne {h : String} (hh : h ∈ n.tree.blocks) : h ≠ block.hash := fun he => hnew (he ▸ hh)
  have hS {h : String} (hh : h ∈ n.tree.blocks) :
      Function.update S block.hash (dense_apply params (S block.header.prev_hash) block) h = S h :=
    Function.update_of_ne (hne hh) _ _
  have hg := hne hc.shape.genesis_known
  have hpar (x : String) (hx : x ∈ n.tree.blocks) :
      (n.tree.recorded (S block.header.prev_hash).1 block staged work).parent x = n.tree.parent x := by
    simp [BlockTree.parent, BlockTree.recorded, BlockTree.record, (hne hx).symm]
  have hpar' : (n.tree.recorded (S block.header.prev_hash).1 block staged work).parent block.hash =
      some block.header.prev_hash := by
    simp [BlockTree.parent, BlockTree.recorded, BlockTree.record]
  have hline {h : String} (hh : h ∈ n.tree.blocks) : ∃ l, Path
      (n.tree.recorded (S block.header.prev_hash).1 block staged work).parent n.tree.genesis_hash h l := by
    obtain ⟨l, hl⟩ := hc.shape.line h hh
    exact ⟨l, hl.mono fun x hx _ => hpar x (hc.shape.line_known hl x hx)⟩
  refine ⟨⟨hc.shape.full, ?_, ?_, fun h hh => ?_⟩, hc.same_params, ?_, fun h b hb => ?_, fun h hh hhg => ?_,
    fun h hh => ?_, fun h hh => ?_, fun h hh => ?_, fun h hh => ?_, ?_,
    ⟨fun h u tail hu => ?_, fun h hh => ?_⟩⟩
  · exact (mem_insert_iff _ _ _ _).mpr (.inr hc.shape.genesis_known)
  · exact (mem_insert_iff _ _ _ _).mpr (.inr hc.shape.head_known)
  · rcases (mem_insert_iff _ _ _ _).mp hh with rfl | hh
    · obtain ⟨l, hl⟩ := hline hparent
      exact ⟨_, .step hg.symm hpar' hl⟩
    · exact hline hh
  · rw [← hc.at_genesis]
    exact hS hc.shape.genesis_known
  · simp only [SumMap.get_insert] at hb
    split at hb
    · next hbh =>
      obtain rfl := Option.some.inj hb
      subst hbh
      refine ⟨hg.symm, rfl, by simp [BlockTree.recorded, BlockTree.record], ?_⟩
      rw [hS hparent, Function.update_self]
    · next hbh =>
      obtain ⟨h₁, h₂, h₃, h₄⟩ := hc.logged h b hb
      have hk : h ∈ n.tree.blocks := Std.ExtTreeMap.mem_iff_isSome_getElem?.mpr (by simp [h₃])
      have hp := hc.shape.parent_known (p := b.header.prev_hash) (by simp [BlockTree.parent, h₃]) h₁
      exact ⟨h₁, h₂, by simpa [BlockTree.recorded, BlockTree.record, hbh] using h₃, by rw [hS hk, hS hp, h₄]⟩
  · rcases (mem_insert_iff _ _ _ _).mp hh with rfl | hh
    · exact (mem_insert_iff _ _ _ _).mpr (.inl rfl)
    · exact (mem_insert_iff _ _ _ _).mpr (.inr (hc.known h hh hhg))
  · rcases (mem_insert_iff _ _ _ _).mp hh with rfl | hh
    · simp [BlockTree.recorded, BlockTree.record, ← hstaged]
    · simpa [BlockTree.recorded, BlockTree.record, (hne hh).symm, hS hh] using hc.model h hh
  · rcases (mem_insert_iff _ _ _ _).mp hh with rfl | hh
    · exact ⟨(mem_insert_iff _ _ _ _).mpr (.inl rfl), (mem_insert_iff _ _ _ _).mpr (.inl rfl)⟩
    · exact (hc.entries h hh).imp (fun he => (mem_insert_iff _ _ _ _).mpr (.inr he))
        fun he => (mem_insert_iff _ _ _ _).mpr (.inr he)
  · exact (mem_insert_iff _ _ _ _).mpr (((mem_insert_iff _ _ _ _).mp hh).imp id (hc.only_known h))
  · rcases (mem_insert_iff _ _ _ _).mp hh with rfl | hh
    · rw [Function.update_self]
      exact describes_dense_apply (hc.describes _ hparent) block
    · rw [hS hh]
      exact hc.describes h hh
  · exact hc.canon.trans (congrArg Prod.fst (hS hc.shape.head_known)).symm
  · simp only [BlockTree.recorded, BlockTree.record, SumMap.get_insert] at hu ⊢
    split at hu
    · next hbh =>
      subst hbh
      obtain ⟨rfl, rfl⟩ := Prod.mk.inj (Option.some.inj hu)
      refine ⟨staged.agg.toList, block.header.prev_hash, by simp, hg.symm, hpar', ?_⟩
      rw [hS hparent, Function.update_self, ← congrArg Prod.fst hstaged]
      exact BlockTree.moves_of_agg _ _ _
    · next hbh =>
      obtain ⟨r, p, hr, hhg, hp, hm⟩ := hc.records.moves h u tail hu
      have hk := BlockTree.parent_some hp
      have hpk := hc.shape.parent_known hp hhg
      exact ⟨r, p, by simpa [hbh] using hr, hhg, (hpar h hk).trans hp, by rwa [hS hk, hS hpk]⟩
  · rcases (mem_insert_iff _ _ _ _).mp hh with rfl | hh
    · exact (mem_insert_iff _ _ _ _).mpr (.inl rfl)
    · exact (mem_insert_iff _ _ _ _).mpr (.inr (hc.records.redo_undo h hh))

end Sestrian
