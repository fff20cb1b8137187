import Sestrian.Code.SyncServe
import Sestrian.Node.CatchUp
import Sestrian.Node.Driven
import Sestrian.Tree.Heights

/-!
# A node serves its own line

The line of a node's head, as the node recorded it, is a chain in the sense of a peer that catches
up, and every sync request is answered with consecutive blocks of it.
-/

open Check Walk SumMap

namespace Sestrian

open BlockTree

section Any

variable [Crypto]

/-! ## The line as a chain -/

omit [Crypto] in
theorem singleton_spec {α : Type} {x y : α} {i : Nat} (h : [x][i]? = some y) : i = 0 ∧ y = x := by
  cases i with
  | zero => exact ⟨rfl, (Option.some.inj h).symm⟩
  | succ i => cases h

omit [Crypto] in
theorem path_cons {next : String → Option String} {root a : String} {l : List String} (h : Path next root a l) :
    ∃ l', l = a :: l' := by
  cases h with
  | root => exact ⟨[], rfl⟩
  | @step _ _ l _ _ _ => exact ⟨l, rfl⟩

namespace PeerChain

variable {genesis : String} {C : PeerChain genesis} {sb : StoredBlock}

/-- A chain with one block more. -/
def snoc (C : PeerChain genesis) (sb : StoredBlock) (hheight : sb.header.height.toNat = C.blocks.length + 1)
    (hlinked : C.hashes[C.blocks.length]? = some sb.header.prev_hash) (hnew : sb.hash ∉ C.hashes)
    (hshort : C.blocks.length + 2 < 2 ^ 64) : PeerChain genesis where
  blocks := C.blocks ++ [sb]
  height i sb' h := by
    rcases Nat.lt_or_ge i C.blocks.length with hlt | hge
    · rw [List.getElem?_append_left hlt] at h
      exact C.height i sb' h
    · rw [List.getElem?_append_right hge] at h
      obtain ⟨hzero, rfl⟩ := singleton_spec h
      omega
  linked i sb' h := by
    have hle : i < C.hashes.length := by
      obtain ⟨hlt, -⟩ := List.getElem?_eq_some_iff.mp h
      rw [length_hashes]
      simpa using hlt
    have hhashes : genesis :: (C.blocks ++ [sb]).map StoredBlock.hash = C.hashes ++ [sb.hash] := by
      rw [List.map_append]
      rfl
    rw [hhashes, List.getElem?_append_left hle]
    rcases Nat.lt_or_ge i C.blocks.length with hlt | hge
    · rw [List.getElem?_append_left hlt] at h
      exact C.linked i sb' h
    · rw [List.getElem?_append_right hge] at h
      obtain ⟨hzero, rfl⟩ := singleton_spec h
      obtain rfl : i = C.blocks.length := by omega
      exact hlinked.symm
  distinct := by
    have hhashes : genesis :: (C.blocks ++ [sb]).map StoredBlock.hash = C.hashes ++ [sb.hash] := by
      rw [List.map_append]
      rfl
    rw [hhashes]
    exact C.distinct.append (List.nodup_singleton _) (List.disjoint_singleton.mpr hnew)
  short := by
    rw [List.length_append, List.length_singleton]
    exact hshort

theorem hashes_snoc (hheight : sb.header.height.toNat = C.blocks.length + 1)
    (hlinked : C.hashes[C.blocks.length]? = some sb.header.prev_hash) (hnew : sb.hash ∉ C.hashes)
    (hshort : C.blocks.length + 2 < 2 ^ 64) : (C.snoc sb hheight hlinked hnew hshort).hashes = C.hashes ++ [sb.hash] := by
  unfold hashes snoc
  rw [List.map_append]
  rfl

/-- The chain is the line of the tree down from a block, and the node can serve its blocks. -/
structure Mirrors (C : PeerChain genesis) (t : BlockTree) (full : Dict StoredBlock) (l : List String) : Prop where
  line : C.hashes.reverse = l
  served : ∀ sb ∈ C.blocks, full[sb.hash]? = some sb
  headers : ∀ sb ∈ C.blocks, t.blocks[sb.hash]? = some sb.header
  heights : ∀ (i : Nat) x, C.hashes[i]? = some x → t.blocks[(x : String)]?.map (·.height.toNat) = some i

end PeerChain

theorem PeerChain.Mirrors.ends {genesis a : String} {C : PeerChain genesis} {t : BlockTree} {full : Dict StoredBlock}
    {l : List String} {next : String → Option String} (hm : C.Mirrors t full l) (hl : Path next genesis a l) :
    C.hashes[C.blocks.length]? = some a := by
  obtain ⟨l', rfl⟩ := path_cons hl
  have hrev : C.hashes = l'.reverse ++ [a] := by rw [← List.reverse_cons, ← hm.line, List.reverse_reverse]
  have hlength : l'.reverse.length = C.blocks.length := by
    have := C.length_hashes
    rw [hrev, List.length_append, List.length_singleton] at this
    omega
  rw [hrev, ← hlength, List.getElem?_concat_length]

/-- The node can serve every block of the tree, with the header that the tree has. -/
def Servable (t : BlockTree) (full : Dict StoredBlock) : Prop :=
  ∀ bh hd, t.blocks[(bh : String)]? = some hd → bh ≠ t.genesis_hash →
    ∃ sb, full[bh]? = some sb ∧ sb.hash = bh ∧ sb.header = hd

variable {t : BlockTree} {full : Dict StoredBlock} {a : String} {l : List String}

theorem mirrored_line (hh : t.Heights) (hs : Servable t full) (hl : Path t.parent t.genesis_hash a l)
    (hlen : l.length < 2 ^ 64) : ∃ C : PeerChain t.genesis_hash, C.Mirrors t full l := by
  induction hl with
  | root =>
    let C : PeerChain t.genesis_hash := {
      blocks := [], height := fun i sb h => absurd h (by simp), linked := fun i sb h => absurd h (by simp)
      distinct := List.nodup_singleton _, short := by simp }
    refine ⟨C, rfl, fun sb hsb => absurd hsb List.not_mem_nil, fun sb hsb => absurd hsb List.not_mem_nil, fun i x hx => ?_⟩
    obtain ⟨rfl, rfl⟩ := singleton_spec hx
    obtain ⟨hd, hhd, hzero⟩ := Option.map_eq_some_iff.mp hh.genesis
    rw [hhd, Option.map_some, hzero]
    rfl
  | @step a b l hne hparent hl ih =>
    rw [List.length_cons] at hlen
    obtain ⟨C, hm⟩ := ih (by omega)
    have hlength : l.length = C.blocks.length + 1 := by rw [← hm.line, List.length_reverse, PeerChain.length_hashes]
    obtain ⟨hd, hhd, rfl⟩ := Option.map_eq_some_iff.mp hparent
    obtain ⟨sb, hsb, hhash, rfl⟩ := hs a hd hhd hne
    -- the parent stands at the end of the chain
    have hlinked : C.hashes[C.blocks.length]? = some sb.header.prev_hash := hm.ends hl
    have hheight : sb.header.height.toNat = C.blocks.length + 1 := by
      obtain ⟨hp, hhp, hx⟩ := Option.map_eq_some_iff.mp (hh.above a _ hhd hne)
      have hbelow := hm.heights _ _ hlinked
      rw [hhp, Option.map_some, Option.some.injEq] at hbelow
      rw [← hx, UInt64.toNat_add, hbelow]
      exact Nat.mod_eq_of_lt (by change C.blocks.length + 1 < 2 ^ 64; omega)
    have hnew : sb.hash ∉ C.hashes := by
      rw [hhash, ← List.mem_reverse, hm.line]
      exact (List.nodup_cons.mp (Path.step hne hparent hl).nodup).1
    refine ⟨C.snoc sb hheight hlinked hnew (by omega), ?_, ?_, ?_, ?_⟩
    · rw [PeerChain.hashes_snoc, List.reverse_append, hm.line, hhash]
      rfl
    · intro sb' hsb'
      rcases List.mem_append.mp hsb' with hold | hlast
      · exact hm.served sb' hold
      · rw [List.mem_singleton.mp hlast, hhash]
        exact hsb
    · intro sb' hsb'
      rcases List.mem_append.mp hsb' with hold | hlast
      · exact hm.headers sb' hold
      · rw [List.mem_singleton.mp hlast, hhash]
        exact hhd
    · intro i x hx
      rw [PeerChain.hashes_snoc] at hx
      rcases Nat.lt_or_ge i C.hashes.length with hlt | hge
      · rw [List.getElem?_append_left hlt] at hx
        exact hm.heights i x hx
      · rw [List.getElem?_append_right hge] at hx
        obtain ⟨hzero, rfl⟩ := singleton_spec hx
        rw [PeerChain.length_hashes] at hge hzero
        rw [hhash, hhd, Option.map_some, hheight]
        congr 1
        omega

namespace Node

variable [Serde] {s : Node} {f : UInt64}

/-! ## The window -/

omit [Serde] in
theorem mem_below_window {C : PeerChain s.tree.genesis_hash} (hm : C.Mirrors s.tree full l) {i : Nat} {x : String}
    (hx : C.hashes[i]? = some x) : s.below_window f x = true ↔ i = 0 ∨ i < f.toNat := by
  have hzero : x = s.tree.genesis_hash ↔ i = 0 := by
    constructor
    · rintro rfl
      exact PeerChain.height_inj hx rfl
    · rintro rfl
      exact (Option.some.inj hx).symm
  obtain ⟨hd, hhd, hheight⟩ := Option.map_eq_some_iff.mp (hm.heights i x hx)
  unfold below_window
  rw [hhd, Bool.or_eq_true, decide_eq_true_eq, hzero, Option.map_some, Option.any_some, decide_eq_true_eq,
    UInt64.lt_iff_toNat_lt, hheight]

omit [Serde] in
/-- The walk down from the head finds the part of the chain from the height on. -/
theorem ascending_eq {C : PeerChain s.tree.genesis_hash} (hm : C.Mirrors s.tree full l)
    (hl : Path s.tree.parent s.tree.genesis_hash s.tree.head l) (hlen : l.length ≤ s.tree.walk_fuel) :
    s.ascending f = (C.blocks.drop (f.toNat - 1)).map StoredBlock.hash := by
  obtain ⟨l₂, hsplit, hend, hstop, hpassed⟩ := walk_path (s.below_window f) hl
    ⟨_, hl.root_mem, (mem_below_window hm (i := 0) rfl).mpr (.inl rfl)⟩ s.tree.walk_fuel hlen
  have hhashes : C.hashes = l₂.reverse ++ s.ascending f := by
    rw [ascending, ← List.reverse_append, ← hsplit, ← hm.line, List.reverse_reverse]
  have hdrop : s.ascending f = C.hashes.drop l₂.length := by
    rw [hhashes, ← List.length_reverse, List.drop_left]
  -- the walk ended at the first block that is genesis or too low
  obtain ⟨l', hl'⟩ := path_cons hend
  have hlast : C.hashes[l'.length]? = some (walk s.tree.parent (s.below_window f) s.tree.walk_fuel s.tree.head).2 := by
    rw [hhashes, hl', List.reverse_cons, List.append_assoc, ← List.length_reverse, List.getElem?_append_right le_rfl,
      Nat.sub_self]
    rfl
  have hlow : l'.length = 0 ∨ l'.length < f.toNat := (mem_below_window hm hlast).mp hstop
  have hlength : l₂.length = l'.length + 1 := by rw [hl', List.length_cons]
  have hhigh (hin : l₂.length < C.hashes.length) : ¬ (l₂.length = 0 ∨ l₂.length < f.toNat) := by
    have hget : C.hashes[l₂.length]? = some C.hashes[l₂.length] := List.getElem?_eq_getElem hin
    rw [← mem_below_window hm hget]
    refine hpassed _ ?_
    have hmem : C.hashes[l₂.length] ∈ C.hashes.drop l₂.length := List.mem_drop_iff_getElem.mpr ⟨0, by omega, rfl⟩
    rw [← hdrop, ascending, List.mem_reverse] at hmem
    exact hmem
  have hmap : (C.blocks.drop (f.toNat - 1)).map StoredBlock.hash = C.hashes.drop (f.toNat - 1 + 1) := by
    rw [List.map_drop]
    rfl
  rw [hdrop, hmap]
  rcases Nat.lt_or_ge l₂.length C.hashes.length with hin | hout
  · have := hhigh hin
    congr 1
    omega
  · rw [List.drop_of_length_le hout, List.drop_of_length_le (by omega)]

/-- Recorded blocks are all served, until there are as many as wanted. -/
theorem serve_blocks (s : Node) (want : Nat) {sbs : List StoredBlock} (h : ∀ sb ∈ sbs, s.blocks_full[sb.hash]? = some sb)
    (w : SyncWindow) : ((sbs.map StoredBlock.hash).foldl (s.serve_block want) w).blocks =
      w.blocks ++ sbs.take (want - w.blocks.length) := by
  induction sbs generalizing w with
  | nil => simp
  | cons sb sbs ih =>
    obtain ⟨hsb, hsbs⟩ := List.forall_mem_cons.mp h
    rw [List.map_cons, List.foldl_cons, ih hsbs]
    unfold serve_block
    by_cases hfull : w.blocks.length ≥ want
    · rw [if_pos hfull, Nat.sub_eq_zero_of_le hfull, List.take_zero, List.take_zero]
    · rw [if_neg hfull, hsb]
      obtain ⟨k, hk⟩ : ∃ k, want - w.blocks.length = k + 1 := ⟨want - w.blocks.length - 1, by omega⟩
      simp only [List.length_append, List.length_singleton, List.append_assoc, List.singleton_append]
      rw [hk, List.take_succ_cons, show want - (w.blocks.length + 1) = k by omega]

/-! ## The bodies -/

variable {w : SyncWindow}

/-- The bodies that a window carries are those of its blocks, and they fit the budget or are the first block's. -/
structure Carried (s : Node) (w : SyncWindow) : Prop where
  owned : ∀ (id : String) p, w.payloads[id]? = some p → ∃ sb ∈ w.blocks, (id, p) ∈ s.inline_bodies sb
  counted : sumBy Payload.wire_bytes w.payloads ≤ w.bytes
  budget : w.bytes ≤ SYNC_BYTE_BUDGET ∨ ∃ first rest, w.blocks = first :: rest ∧
    ∀ (id : String) p, w.payloads[id]? = some p → (id, p) ∈ s.inline_bodies first

omit [Crypto] [Serde] in
theorem insert_all_spec (es : List (String × Payload)) (m : Dict Payload) :
    (∀ (id : String) p, (es.foldl (fun m e => m.insert e.1 e.2) m)[id]? = some p → m[id]? = some p ∨ (id, p) ∈ es) ∧
      sumBy Payload.wire_bytes (es.foldl (fun m e => m.insert e.1 e.2) m) ≤
        sumBy Payload.wire_bytes m + (es.map fun e => e.2.wire_bytes).sum := by
  induction es generalizing m with
  | nil => exact ⟨fun _ _ h => .inl h, le_rfl⟩
  | cons e es ih =>
    obtain ⟨hmem, hsum⟩ := ih (m.insert e.1 e.2)
    refine ⟨fun id p h => ?_, ?_⟩
    · rcases hmem id p h with hold | hin
      · rw [SumMap.get_insert] at hold
        split at hold
        · next he =>
          obtain rfl := Option.some.inj hold
          exact .inr (he ▸ List.mem_cons_self)
        · exact .inl hold
      · exact .inr (List.mem_cons_of_mem _ hin)
    · have hone := SumMap.sumBy_insert_add Payload.wire_bytes m e.1 e.2
      simp only [List.foldl_cons, List.map_cons, List.sum_cons]
      omega

/-- A block without bodies. -/
theorem Carried.header (h : Carried s w) (sb : StoredBlock) : Carried s { w with blocks := w.blocks ++ [sb] } := by
  refine ⟨fun id p hp => ?_, h.counted, ?_⟩
  · obtain ⟨sb', hsb', hin⟩ := h.owned id p hp
    exact ⟨sb', List.mem_append_left _ hsb', hin⟩
  · rcases h.budget with hfits | ⟨first, rest, hblocks, hfirst⟩
    · exact .inl hfits
    · exact .inr ⟨first, rest ++ [sb], by rw [hblocks, List.cons_append], hfirst⟩

/-- A block with its bodies. -/
theorem Carried.bodies (h : Carried s w) (sb : StoredBlock)
    (hfits : w.blocks = [] ∨ w.bytes + ((s.inline_bodies sb).map fun e => e.2.wire_bytes).sum ≤ SYNC_BYTE_BUDGET) :
    Carried s {
      blocks := w.blocks ++ [sb]
      payloads := (s.inline_bodies sb).foldl (fun m e => m.insert e.1 e.2) w.payloads
      bytes := w.bytes + ((s.inline_bodies sb).map fun e => e.2.wire_bytes).sum } := by
  obtain ⟨hmem, hsum⟩ := insert_all_spec (s.inline_bodies sb) w.payloads
  refine ⟨fun id p hp => ?_, hsum.trans (Nat.add_le_add_right h.counted _), ?_⟩
  · rcases hmem id p hp with hold | hnew
    · obtain ⟨sb', hsb', hin⟩ := h.owned id p hold
      exact ⟨sb', List.mem_append_left _ hsb', hin⟩
    · exact ⟨sb, List.mem_append_right _ (List.mem_singleton_self sb), hnew⟩
  · rcases hfits with hempty | hfits
    · refine .inr ⟨sb, [], by rw [hempty, List.nil_append], fun id p hp => ?_⟩
      rcases hmem id p hp with hold | hnew
      · obtain ⟨sb', hsb', -⟩ := h.owned id p hold
        rw [hempty] at hsb'
        cases hsb'
      · exact hnew
    · exact .inl hfits

theorem Carried.serve (h : Carried s w) (want : Nat) (x : String) : Carried s (s.serve_block want w x) := by
  unfold serve_block
  split
  · exact h
  · split
    · exact h
    · next sb _ =>
      unfold add_bodies
      simp only
      split
      · split
        · next hfits => exact h.bodies sb hfits
        · exact h.header sb
      · exact h.header sb

theorem carried_window (s : Node) (request : SyncRequest) : Carried s (s.serve_window request) := by
  unfold serve_window
  have hempty : Carried s { blocks := [], payloads := ∅, bytes := 0 } :=
    ⟨fun id p hp => by simp at hp, by simp, .inl (Nat.zero_le _)⟩
  generalize ({ blocks := [], payloads := ∅, bytes := 0 } : SyncWindow) = w at hempty
  induction s.ascending request.from_height generalizing w with
  | nil => exact hempty
  | cons x xs ih => exact ih _ (hempty.serve _ x)

theorem mem_inline_bodies {sb : StoredBlock} {id : String} {p : Payload} (h : (id, p) ∈ s.inline_bodies sb) :
    id ∈ sb.txids ∧ s.held_payload id = some p ∧ p.wire_bytes ≤ s.cfg.dtx_inline_max := by
  unfold inline_bodies at h
  obtain ⟨id', hid, hx⟩ := List.mem_filterMap.mp h
  obtain ⟨p', hp, hy⟩ := Option.bind_eq_some_iff.mp hx
  split at hy
  · cases hy
  · next hsmall =>
    obtain ⟨rfl, rfl⟩ := Prod.mk.inj (Option.some.inj hy)
    exact ⟨hid, hp, Nat.le_of_not_lt hsmall⟩

/-! ## The answer -/

/-- What is right about an answer, when the blocks of the node's line are these. -/
structure Answers (s : Node) (C : PeerChain s.tree.genesis_hash) (request : SyncRequest) (r : SyncResponse) : Prop where
  blocks : r.blocks = C.serve request.from_height (min request.count.toNat SYNC_MAX_BLOCKS)
  head_height : r.head_height = C.top
  bodies : ∀ (id : String) p, r.payloads[id]? = some p →
    s.held_payload id = some p ∧ p.wire_bytes ≤ s.cfg.dtx_inline_max ∧ ∃ sb ∈ r.blocks, id ∈ sb.txids
  budget : sumBy Payload.wire_bytes r.payloads ≤ SYNC_BYTE_BUDGET ∨
    ∃ first rest, r.blocks = first :: rest ∧ ∀ (id : String), id ∈ r.payloads → id ∈ first.txids

theorem answers {C : PeerChain s.tree.genesis_hash} (hm : C.Mirrors s.tree s.blocks_full l)
    (hl : Path s.tree.parent s.tree.genesis_hash s.tree.head l) (hlen : l.length ≤ s.tree.walk_fuel)
    (request : SyncRequest) : s.Answers C request (s.serve_sync request) := by
  have hc := carried_window s request
  refine ⟨?_, ?_, fun id p hp => ?_, ?_⟩
  · have hdrop : ∀ sb ∈ C.blocks.drop (request.from_height.toNat - 1), s.blocks_full[sb.hash]? = some sb :=
      fun sb hsb => hm.served sb (List.mem_of_mem_drop hsb)
    change (s.serve_window request).blocks = _
    unfold serve_window PeerChain.serve
    rw [ascending_eq hm hl hlen, serve_blocks s _ hdrop]
    rfl
  · have hhead : C.hashes[C.blocks.length]? = some s.tree.head := hm.ends hl
    obtain ⟨hd, hhd, hheight⟩ := Option.map_eq_some_iff.mp (hm.heights _ _ hhead)
    change s.head_height = C.top
    unfold Node.head_height PeerChain.top
    rw [hhd, Option.map_some, Option.getD_some, ← hheight, UInt64.ofNat_toNat]
  · obtain ⟨sb, hsb, hin⟩ := hc.owned id p hp
    obtain ⟨hid, hheld, hsmall⟩ := mem_inline_bodies hin
    exact ⟨hheld, hsmall, sb, hsb, hid⟩
  · rcases hc.budget with hfits | ⟨first, rest, hblocks, hfirst⟩
    · exact .inl (hc.counted.trans hfits)
    · refine .inr ⟨first, rest, hblocks, fun id hid => ?_⟩
      obtain ⟨p, hp⟩ := Option.isSome_iff_exists.mp (Std.ExtTreeMap.mem_iff_isSome_getElem?.mp hid)
      exact (mem_inline_bodies (hfirst id p hp)).1

variable {genesis_w : List Int64} {params : GenesisParams} {t₀ : BlockTree}

/-- No block that the node can serve has the hash of another block of its tree. -/
def NoCollision (s : Node) : Prop :=
  ∀ (bh : String) hd sb, s.tree.blocks[bh]? = some hd → s.blocks_full[bh]? = some sb →
    hd.block_hash = sb.header.block_hash → hd = sb.header

omit [Serde] in
theorem Driven.servable {n : Logged} {S : String → List Int64 × ModelState} (h : Driven t₀ s) (hn : n.tree = s.tree)
    (hc : Coherent genesis_w params n S) (hcol : s.NoCollision) : Servable s.tree s.blocks_full := by
  intro bh hd hhd hne
  have hmem : bh ∈ s.tree.blocks := Std.ExtTreeMap.mem_iff_isSome_getElem?.mpr (by rw [hhd]; rfl)
  rcases h.stored bh hmem with hroot | ⟨sb, hsb, hhash⟩
  · exact absurd hroot hne
  · rw [← hn] at hmem hne
    obtain ⟨b, hb⟩ := Option.isSome_iff_exists.mp (Std.ExtTreeMap.mem_iff_isSome_getElem?.mp (hc.known bh hmem hne))
    obtain ⟨-, hbh, hheader, -⟩ := hc.logged bh b hb
    rw [hn, hhd] at hheader
    obtain rfl := Option.some.inj hheader
    exact ⟨sb, hsb, hhash, (hcol bh _ sb hhd hsb (hbh.trans hhash.symm)).symm⟩

/-- In every run of a node, whatever it meets, every sync request is answered with consecutive blocks of one chain, the
line of its head in the blocks that it recorded. -/
theorem serve_sync_serves_line (genesis_w : List Int64) (dc : Option String) (params : GenesisParams)
    (depth : Option UInt64) (key : Key) (cfg : NodeConfig)
    (hw : genesis_w.length = (ModelState.genesis params.spec).dim) (es : List (Env × Event)) :
    let s := (start (boot_tree genesis_w dc params depth) key cfg).live es
    s.tree.blocks.size + 1 < 2 ^ 64 → s.NoCollision →
      ∃ C : PeerChain s.tree.genesis_hash, C.hashes[C.blocks.length]? = some s.tree.head ∧
        (∀ sb ∈ C.blocks, s.blocks_full[sb.hash]? = some sb ∧ s.tree.blocks[sb.hash]? = some sb.header) ∧
        ∀ request, s.Answers C request (s.serve_sync request) := by
  intro s hsize hcol
  have hd : Driven (boot_tree genesis_w dc params depth) s := (driven_start genesis_w dc params depth key cfg).live es
  obtain ⟨ops, -, hrun⟩ := hd.calls
  let n : Logged := { Logged.new genesis_w dc params with tree := boot_tree genesis_w dc params depth }
  have hboot : Coherent genesis_w params n fun _ => (genesis_w, ModelState.genesis params.spec) := coherent_boot hw dc depth
  obtain ⟨S, hc⟩ := hboot.run ops
  have htree : (n.run ops).tree = s.tree := (n.run_tree ops).trans hrun.symm
  have hheights : Heights n.tree := (heights_new genesis_w dc params).congr rfl rfl
  have hh : Heights s.tree := htree ▸ hheights.run hboot ops
  have hshape : s.tree.Shape := htree ▸ hc.shape
  obtain ⟨l, hl⟩ := hshape.line s.tree.head hshape.head_known
  have hlen := hshape.line_length hl
  obtain ⟨C, hm⟩ := mirrored_line hh (hd.servable htree hc hcol) hl (lt_of_le_of_lt hlen hsize)
  exact ⟨C, hm.ends hl, fun sb hsb => ⟨hm.served sb hsb, hm.headers sb hsb⟩, answers hm hl hlen⟩

end Node

end Any

open scoped Toy

namespace Toy

theorem blocks₁ : owned₁.blocks = owned.blocks.insert zero_block.hash zero_block.header := by
  unfold owned₁ BlockTree.commit_staged
  exact (prune_deep_frame _).1

/-- The node after the first message. -/
theorem live₁ : (Node.start (Node.boot_tree [5] (some "owner") params none) node_key {}).live [(env, .chain first)] = node₁ := by
  have hboot : Node.boot_tree [5] (some "owner") params none = owned := by
    unfold Node.boot_tree owned
    rfl
  rw [hboot, Node.live, List.foldl_cons, List.foldl_nil]
  rfl

theorem no_collision₁ : node₁.NoCollision := by
  obtain ⟨hquiet, -, hfull⟩ := quiet₁
  intro bh hd sb hhd hsb _
  rw [hquiet.tree, blocks₁, SumMap.get_insert] at hhd
  rw [hfull, SumMap.get_insert] at hsb
  split at hsb
  · next he =>
    have he' : zero_block.hash = bh := he
    rw [if_pos he'] at hhd
    obtain rfl := Option.some.inj hhd
    obtain rfl := Option.some.inj hsb
    rfl
  · simp [node₀, Node.start] at hsb

theorem few_blocks₁ : node₁.tree.blocks.size + 1 < 2 ^ 64 := by
  rw [quiet₁.1.tree, blocks₁]
  have hone : (owned.blocks.insert zero_block.hash zero_block.header).size ≤ owned.blocks.size + 1 :=
    Std.ExtTreeMap.size_insert_le
  have howned : owned.blocks.size ≤ 1 := by
    change (Std.ExtTreeMap.insert ∅ _ _ : Dict Header).size ≤ 1
    refine Std.ExtTreeMap.size_insert_le.trans ?_
    simp
  omega

end Toy

theorem serve_sync_serves_line_synced :
    let s := (Node.start (Node.boot_tree [5] (some "owner") Toy.params none) Toy.node_key {}).live [(Toy.env, .chain Toy.first)]
    ∃ C : PeerChain s.tree.genesis_hash, C.hashes[C.blocks.length]? = some s.tree.head ∧
      (∀ sb ∈ C.blocks, s.blocks_full[sb.hash]? = some sb ∧ s.tree.blocks[sb.hash]? = some sb.header) ∧
      ∀ request, s.Answers C request (s.serve_sync request) := by
  refine Node.serve_sync_serves_line [5] (some "owner") Toy.params none Toy.node_key {} (by decide)
    [(Toy.env, .chain Toy.first)] ?_ ?_
  · rw [Toy.live₁]
    exact Toy.few_blocks₁
  · rw [Toy.live₁]
    exact Toy.no_collision₁

end Sestrian
