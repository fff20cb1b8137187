import Sestrian.Capacity.Saved
import Sestrian.Tree.LeafCache

/-!
# What a known header commits to

Where the leaf cache stays right, the roots in the header of a known block are those of its weights and its model.
-/

open Check

namespace Sestrian

open Aggregate Pages BlockTree

variable [Crypto]

variable {genesis_w : List Int64} {params : GenesisParams} {n : Logged} {S : String → List Int64 × ModelState}

structure Sealed (h : String) (hdr : Header) (s : List Int64 × ModelState) : Prop where
  hash : hdr.block_hash = h
  state_root : hdr.state_root = page_state_root s.1 s.2
  model_root : hdr.model_root = s.2.model_root
  clean : s.2.Clean

def AllSealed (n : Logged) (S : String → List Int64 × ModelState) : Prop :=
  ∀ h ∈ n.tree.blocks, ∃ hdr, n.tree.blocks[h]? = some hdr ∧ Sealed h hdr (S h)

theorem sealed_new (dc : Option String) :
    AllSealed (.new genesis_w dc params) fun _ => (genesis_w, ModelState.genesis params.spec) := by
  intro h hh
  have hg : h = (genesis_header genesis_w params).block_hash := by
    rcases (mem_insert_iff _ _ _ _).mp hh with he | hh
    · exact he
    · simp at hh
  subst hg
  refine ⟨genesis_header genesis_w params, ?_, rfl, rfl, rfl, List.forall_mem_nil _, List.forall_mem_nil _⟩
  simp [Logged.new, BlockTree.new]

theorem AllSealed.connect (hs : AllSealed n S) (hr : CacheRight n S) (hc : Coherent genesis_w params n S) {b : Block}
    {p : Parent} {staged : Staged} (ha : n.tree.Accepts S b p staged) (hop : KeepsLeaves n.tree (.add_block b)) :
    AllSealed { tree := (n.tree.connected S b p staged).prune_deep, log := n.log.insert b.hash b }
      (Function.update S b.hash (dense_apply params (S b.header.prev_hash) b)) := by
  have hm := hc.model _ ha.parent_known
  have hd := hc.describes _ ha.parent_known
  have hpm : p.model = (S b.header.prev_hash).2 := Option.some.inj ((parent_entries_spec ha.entries).1.symm.trans hm)
  have hdim : b.txs ≠ [] → (S b.header.prev_hash).1.length < 2 ^ 32 := fun htxs =>
    tiled_table_end hd.tiled hd.pages_ne ▸ hop.1 htxs _ hm
  have hleaves := staged_leaves ha.valid (hpm ▸ hd)
    (by rw [hpm]; exact hc.moved_leaves hr ha.parent_known hop.2 ha.kept) hdim
  have hst := hc.staged_eq ha
  have hnew : Sealed b.hash b.header (dense_apply params (S b.header.prev_hash) b) := by
    have hvalid := ha.valid
    simp only [validate_at_base, bind_eq_ok, require_eq_ok, exists_unit, pure_eq_ok] at hvalid
    obtain ⟨tx_coords, -, v, hv, hroot, hstaged⟩ := hvalid
    obtain ⟨hdr, -, hprevs⟩ := hs _ ha.parent_known
    have hinner := hv
    simp only [validate_inner, check_header, bind_eq_ok, pure_eq_ok, require_eq_ok, exists_unit] at hinner
    obtain ⟨⟨-, -, -, hlottery⟩, -, -, -, -, hmodel, -⟩ := hinner
    have hpost : staged.post_model = (fold_block b p.model n.tree.params).1 := by
      rw [← hstaged]
      exact (validate_inner_fold hv).1
    have hroots : hex_encode (merkle.root_from_hashes staged.new_leaves).val = b.header.state_root := by
      rw [← hstaged]
      exact hroot
    refine ⟨rfl, ?_, ?_, ?_⟩
    · rw [← hst, page_state_root_eq, ← hroots, hleaves]
      rfl
    · rw [← hst, hpost]
      exact hmodel.symm
    · rw [← hst, hpost, hpm]
      exact hprevs.clean.fold _ _ _ _ _ (hprevs.hash ▸ unescaped_hex _) (unescaped_proposer hlottery)
  intro h hh
  simp only [prune_deep_frame, connected_frame, mem_insert_iff] at hh ⊢
  rw [SumMap.get_insert]
  by_cases hb : b.hash = h
  · subst hb
    rw [if_pos rfl, Function.update_self]
    exact ⟨_, rfl, hnew⟩
  · rw [if_neg hb, Function.update_of_ne (Ne.symm hb)]
    exact hs h (hh.resolve_left (Ne.symm hb))

theorem AllSealed.step (hs : AllSealed n S) (hr : CacheRight n S) (hc : Coherent genesis_w params n S) (op : Op)
    (hop : KeepsLeaves n.tree op) :
    ∃ S', Coherent genesis_w params (n.step op) S' ∧ CacheRight (n.step op) S' ∧ AllSealed (n.step op) S' := by
  cases op with
  | add_block b =>
    rcases hc.add_block_cases b with ⟨e, he⟩ | ⟨-, he⟩ | ⟨p, staged, ha, he⟩
    · have hsame : n.step (.add_block b) = n := by simp [Logged.step, BlockTree.step, he]
      rw [hsame]
      exact ⟨S, hc, hr, hs⟩
    · have hsame : n.step (.add_block b) = n := by simp [Logged.step, BlockTree.step, he]
      rw [hsame]
      exact ⟨S, hc, hr, hs⟩
    · have hstep : n.step (.add_block b) =
          { tree := (n.tree.connected S b p staged).prune_deep, log := n.log.insert b.hash b } := by
        simp [Logged.step, BlockTree.step, he, ha.fresh, connected_frame]
      rw [hstep]
      exact ⟨_, hc.accept ha, hr.connect hc ha hop, hs.connect hr hc ha hop⟩
  | with_state_at target =>
    have hsame : n.step (.with_state_at target) = n := by
      rcases hc.with_state_at_cases target id with ⟨e, he⟩ | ⟨-, he⟩ <;> simp [Logged.step, BlockTree.step, he]
    rw [hsame]
    exact ⟨S, hc, hr, hs⟩
  | convict h =>
    refine ⟨S, hc.convict h, hr.convict hc hop, ?_⟩
    rcases hc.convict_cases h with he | ⟨target, up, down, -, -, -, -, -, he⟩
    · simpa only [AllSealed, Logged.step, BlockTree.step, he] using hs
    · simpa only [AllSealed, Logged.step, BlockTree.step, he, moved_off] using hs
  | set_prune_depth depth =>
    exact ⟨S, hc.congr_marks depth n.tree.hash_verified n.tree.convicted, hr, hs⟩
  | mark_verified txid =>
    exact ⟨S, hc.congr_marks n.tree.prune_depth (n.tree.hash_verified.insert txid) n.tree.convicted, hr, hs⟩

theorem AllSealed.run (hs : AllSealed n S) (hr : CacheRight n S) (hc : Coherent genesis_w params n S) (ops : List Op)
    (hops : Along KeepsLeaves n.tree ops) :
    ∃ S', Coherent genesis_w params (n.run ops) S' ∧ CacheRight (n.run ops) S' ∧ AllSealed (n.run ops) S' := by
  induction ops generalizing n S with
  | nil => exact ⟨S, hc, hr, hs⟩
  | cons op ops ih =>
    obtain ⟨S', hc', hr', hs'⟩ := hs.step hr hc op hops.1
    exact ih hs' hr' hc' hops.2

end Sestrian
