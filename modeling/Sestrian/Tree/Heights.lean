import Sestrian.Tree.Step

/-!
# Heights

Every block of a tree is one higher than its parent. The height is a machine word, so it is the
place in the line only while the line is short enough.
-/

open Check

namespace Sestrian

section Any

variable [Crypto]

namespace BlockTree

variable {t : BlockTree} {b : Block} {p : Parent} {staged : Staged}

/-- A block is one higher than its parent, and genesis has height zero. -/
structure Heights (t : BlockTree) : Prop where
  genesis : t.blocks[t.genesis_hash]?.map (·.height) = some 0
  above : ∀ (h : String) hd, t.blocks[h]? = some hd → h ≠ t.genesis_hash →
    t.blocks[hd.prev_hash]?.map (fun hp => hp.height + 1) = some hd.height

theorem validate_at_base_height (h : t.validate_at_base b p = .ok staged) : b.header.height = p.height + 1 := by
  simp only [validate_at_base, validate_inner, check_header, bind_eq_ok, require_eq_ok] at h
  obtain ⟨-, -, v, ⟨-, ⟨-, -, -, hheight, -⟩, -⟩, -⟩ := h
  exact hheight

omit [Crypto] in
theorem Heights.congr {t' : BlockTree} (h : Heights t) (hblocks : t'.blocks = t.blocks)
    (hgenesis : t'.genesis_hash = t.genesis_hash) : Heights t' := by
  obtain ⟨hzero, habove⟩ := h
  exact ⟨by rw [hblocks, hgenesis]; exact hzero, by rw [hblocks, hgenesis]; exact habove⟩

variable {genesis_w : List Int64} {params : GenesisParams} {n : Logged} {S : String → List Int64 × ModelState}

theorem Heights.connect (hh : Heights n.tree) (hc : Coherent genesis_w params n S) (ha : n.tree.Accepts S b p staged) :
    Heights (n.tree.connected S b p staged) := by
  have hgenesis : n.tree.genesis_hash ≠ b.hash := fun he => ha.fresh (he ▸ hc.shape.genesis_known)
  have hknown {h : String} {f : Header → UInt64} {x : UInt64} (hx : n.tree.blocks[h]?.map f = some x) : h ≠ b.hash := by
    rintro rfl
    obtain ⟨hd, hhd, -⟩ := Option.map_eq_some_iff.mp hx
    exact ha.fresh (Std.ExtTreeMap.mem_iff_isSome_getElem?.mpr (by rw [hhd]; rfl))
  obtain ⟨hblocks, -, -, -, hroot, -⟩ := connected_frame (S := S) n.tree b p staged
  refine ⟨?_, fun h hd hhd hne => ?_⟩
  · rw [hblocks, hroot, SumMap.get_insert, if_neg hgenesis.symm]
    exact hh.genesis
  · rw [hblocks] at hhd ⊢
    rw [hroot] at hne
    rw [SumMap.get_insert] at hhd ⊢
    split at hhd
    · obtain rfl := Option.some.inj hhd
      obtain ⟨-, -, -, hheight, -⟩ := parent_entries_spec ha.entries
      rw [if_neg (hknown hheight).symm, validate_at_base_height ha.valid]
      obtain ⟨hp, hhp, hx⟩ := Option.map_eq_some_iff.mp hheight
      rw [hhp, Option.map_some, hx]
    · have habove := hh.above h hd hhd hne
      rw [if_neg (hknown habove).symm]
      exact habove

theorem Heights.run (hh : Heights n.tree) (hc : Coherent genesis_w params n S) (ops : List Op) :
    Heights (n.run ops).tree := by
  induction ops generalizing n S with
  | nil => exact hh
  | cons op ops ih =>
    obtain ⟨S', hc', -⟩ := hc.step op
    refine ih ?_ hc'
    rcases hc.step_entries op with hs | ⟨b, p, staged, -, ha, ht⟩
    · exact hh.congr hs.blocks hs.genesis_hash
    · rw [ht]
      obtain ⟨hblocks, -, -, -, -, hgenesis, -⟩ := prune_deep_frame (n.tree.connected S b p staged)
      exact (hh.connect hc ha).congr hblocks hgenesis

theorem heights_new (genesis_w : List Int64) (dc : Option String) (params : GenesisParams) :
    Heights (BlockTree.new genesis_w dc params) := by
  refine ⟨?_, fun h hd hhd hne => ?_⟩
  · simp [BlockTree.new, genesis_header]
  · simp only [BlockTree.new, SumMap.get_insert] at hhd hne
    rw [if_neg (Ne.symm hne)] at hhd
    simp at hhd

end BlockTree

end Any

end Sestrian
