import Sestrian.Boot.Full
import Sestrian.Tree.Heights
import Sestrian.Tree.LeafCache

/-!
# A fast boot follows the chain like a full one

On a log of one line the tree seeded from a snapshot has the same front as the tree of a full
replay: the same headers, work and head, and at the head the same weights, ledger and model. Trees
with one front judge every block on the head alike, and keep one front.
-/

open Check Panic

namespace Sestrian

open Aggregate BlockTree

section Any

variable [Crypto]

/-! ## The front -/

/-- What a block on the head is judged by, and what fork choice compares. -/
structure SameFront (t f : BlockTree) : Prop where
  head : f.head = t.head
  genesis_hash : f.genesis_hash = t.genesis_hash
  blocks : f.blocks = t.blocks
  cum_work : f.cum_work = t.cum_work
  canon : f.canon = t.canon
  page_leaves : f.page_leaves = t.page_leaves
  ledger : f.ledger[f.head]? = t.ledger[t.head]?
  model : f.model[f.head]? = t.model[t.head]?
  params : f.params = t.params
  data_contributor : f.data_contributor = t.data_contributor
  verified : f.hash_verified = t.hash_verified
  convicted : f.convicted = t.convicted
  full : t.held = none ∧ f.held = none

variable {t f t' f' : BlockTree} {b : Block} {p : Parent} {staged : Staged}

/-- What a block on the head does not change. -/
structure SameSettings (t t' : BlockTree) : Prop where
  genesis_hash : t'.genesis_hash = t.genesis_hash
  params : t'.params = t.params
  data_contributor : t'.data_contributor = t.data_contributor
  verified : t'.hash_verified = t.hash_verified
  convicted : t'.convicted = t.convicted
  held : t'.held = t.held

omit [Crypto] in
theorem SameSettings.refl (t : BlockTree) : SameSettings t t := ⟨rfl, rfl, rfl, rfl, rfl, rfl⟩

omit [Crypto] in
theorem SameSettings.trans {t'' : BlockTree} (h : SameSettings t t') (h' : SameSettings t' t'') : SameSettings t t'' :=
  ⟨h'.genesis_hash.trans h.genesis_hash, h'.params.trans h.params, h'.data_contributor.trans h.data_contributor,
    h'.verified.trans h.verified, h'.convicted.trans h.convicted, h'.held.trans h.held⟩

omit [Crypto] in
theorem prune_deep_settings (t : BlockTree) : SameSettings t t.prune_deep := by
  obtain ⟨doomed, pin, h⟩ := t.prune_deep_cases
  rw [h]
  exact ⟨rfl, rfl, rfl, rfl, rfl, rfl⟩

/-- The entries of the new block. -/
structure Committed (t t' : BlockTree) (bh : String) (header : Header) (staged : Staged) (work : UInt64) : Prop where
  settings : SameSettings t t'
  blocks : t'.blocks = t.blocks.insert bh header
  ledger : t'.ledger = t.ledger.insert bh staged.led
  model : t'.model = t.model.insert bh staged.post_model
  cum_work : t'.cum_work = t.cum_work.insert bh work
  head : t'.head = bh
  canon : t'.canon = apply_redo t.canon staged.agg.toList ++ staged.init_pages.flatten
  page_leaves : t'.page_leaves = staged.new_leaves

omit [Crypto] in
theorem committed (t : BlockTree) (bh : String) (header : Header) (staged : Staged) (work : UInt64) :
    Committed t (t.commit_staged bh header staged work) bh header staged work := by
  obtain ⟨hblocks, hledger, hmodel, hwork, hhead, -, -, hcanon, hleaves⟩ := prune_deep_frame
    { t.record bh header staged work with
      canon := apply_redo t.canon staged.agg.toList ++ staged.init_pages.flatten
      page_leaves := staged.new_leaves
      head := bh }
  have hsettings : SameSettings t { t.record bh header staged work with
      canon := apply_redo t.canon staged.agg.toList ++ staged.init_pages.flatten
      page_leaves := staged.new_leaves
      head := bh } := ⟨rfl, rfl, rfl, rfl, rfl, rfl⟩
  exact ⟨hsettings.trans (prune_deep_settings _), hblocks, hledger, hmodel, hwork, hhead, hcanon, hleaves⟩

omit [Crypto] in
theorem SameFront.entries (h : SameFront t f) : f.parent_entries f.head = t.parent_entries t.head := by
  have hproposers : f.recent_proposers f.head = t.recent_proposers t.head := by
    have hparent : f.parent = t.parent := by
      funext x
      unfold BlockTree.parent
      rw [h.blocks]
    unfold recent_proposers
    rw [h.head, h.genesis_hash, h.blocks, hparent]
  unfold parent_entries
  rw [h.model, h.ledger, hproposers, h.blocks, h.cum_work, h.head]

theorem SameFront.validates (h : SameFront t f) (b : Block) (p : Parent) :
    f.validate_at_base b p = t.validate_at_base b p :=
  validate_at_base_congr b p h.canon h.page_leaves h.params h.data_contributor h.verified

omit [Crypto] in
/-- The same block on both heads. -/
theorem SameFront.commit (h : SameFront t f) (bh : String) (header : Header) (staged : Staged) (work : UInt64) :
    SameFront (t.commit_staged bh header staged work) (f.commit_staged bh header staged work) := by
  have ht := committed t bh header staged work
  have hf := committed f bh header staged work
  refine ⟨?_, ?_, ?_, ?_, ?_, ?_, ?_, ?_, ?_, ?_, ?_, ?_, ?_⟩
  · rw [hf.head, ht.head]
  · rw [hf.settings.genesis_hash, ht.settings.genesis_hash, h.genesis_hash]
  · rw [hf.blocks, ht.blocks, h.blocks]
  · rw [hf.cum_work, ht.cum_work, h.cum_work]
  · rw [hf.canon, ht.canon, h.canon]
  · rw [hf.page_leaves, ht.page_leaves]
  · rw [hf.ledger, ht.ledger, hf.head, ht.head, SumMap.get_insert, SumMap.get_insert, if_pos rfl, if_pos rfl]
  · rw [hf.model, ht.model, hf.head, ht.head, SumMap.get_insert, SumMap.get_insert, if_pos rfl, if_pos rfl]
  · rw [hf.settings.params, ht.settings.params, h.params]
  · rw [hf.settings.data_contributor, ht.settings.data_contributor, h.data_contributor]
  · rw [hf.settings.verified, ht.settings.verified, h.verified]
  · rw [hf.settings.convicted, ht.settings.convicted, h.convicted]
  · rw [hf.settings.held, ht.settings.held]
    exact h.full

/-- A block on the head gets the same verdict, and leads to the same front. -/
theorem SameFront.extend (h : SameFront t f) (hprev : b.header.prev_hash = t.head) :
    (f.add_block b).1 = (t.add_block b).1 ∧ SameFront (t.add_block b).2 (f.add_block b).2 := by
  have hcontains : f.blocks.contains b.hash = t.blocks.contains b.hash := by rw [h.blocks]
  have hconvicted : (b.hash ∈ f.convicted ∨ b.header.prev_hash ∈ f.convicted) ↔
      (b.hash ∈ t.convicted ∨ b.header.prev_hash ∈ t.convicted) := by rw [h.convicted]
  have hprev' : b.header.prev_hash = f.head := hprev.trans h.head.symm
  unfold BlockTree.add_block
  simp only
  by_cases hknown : t.blocks.contains b.hash = true
  · rw [if_pos (hcontains.trans hknown), if_pos hknown]
    exact ⟨rfl, h⟩
  · rw [if_neg fun hin => hknown (hcontains.symm.trans hin), if_neg hknown]
    by_cases hbad : b.hash ∈ t.convicted ∨ b.header.prev_hash ∈ t.convicted
    · rw [if_pos (hconvicted.mpr hbad), if_pos hbad]
      exact ⟨rfl, h⟩
    · rw [if_neg fun hin => hbad (hconvicted.mp hin), if_neg hbad, h.full.1, h.full.2]
      simp only [Option.isSome_none, Bool.false_eq_true, if_false]
      rw [if_pos hprev, if_pos hprev']
      unfold connect_extend
      rw [h.entries]
      cases t.parent_entries t.head with
      | error e => exact ⟨rfl, h⟩
      | ok p =>
        simp only
        rw [h.validates]
        cases t.validate_at_base b p with
        | error e => exact ⟨rfl, h⟩
        | ok staged => exact ⟨rfl, h.commit _ _ _ _⟩

/-! ## One line -/

/-- The block extends the head and is taken. -/
structure Next (t : BlockTree) (b : Block) : Prop where
  fresh : b.hash ∉ t.blocks
  prev : b.header.prev_hash = t.head
  taken : (t.add_block b).1.isOk = true

/-- Every block of the list does so in its turn. -/
def Lines : BlockTree → List Block → Prop
  | _, [] => True
  | t, b :: blocks => Next t b ∧ Lines (t.add_block b).2 blocks

theorem Next.commits (h : Next t b) (hheld : t.held = none) : ∃ p staged, t.parent_entries t.head = .ok p ∧
    t.validate_at_base b p = .ok staged ∧ t.add_block b = (.ok true,
      t.commit_staged b.hash b.header staged (saturating_add p.work (max b.header.work 1))) := by
  have hok := h.taken
  have hnew : ¬ t.blocks.contains b.hash = true := fun hin => h.fresh (Std.ExtTreeMap.contains_iff_mem.mp hin)
  unfold BlockTree.add_block at hok ⊢
  simp only at hok ⊢
  rw [if_neg hnew] at hok ⊢
  split at hok
  · cases hok
  · next hgood =>
    rw [hheld] at hok ⊢
    simp only [Option.isSome_none, Bool.false_eq_true, if_false] at hok ⊢
    rw [if_neg hgood, if_pos h.prev]
    rw [if_pos h.prev] at hok
    unfold connect_extend at hok ⊢
    cases hp : t.parent_entries t.head with
    | error e => rw [hp] at hok; cases hok
    | ok p =>
      rw [hp] at hok
      simp only at hok ⊢
      cases hv : t.validate_at_base b p with
      | error e => rw [hv] at hok; cases hok
      | ok staged => exact ⟨p, staged, rfl, hv, rfl⟩

theorem SameFront.next (h : SameFront t f) (hn : Next t b) :
    Next f b ∧ SameFront (t.add_block b).2 (f.add_block b).2 := by
  obtain ⟨hverdict, hfront⟩ := h.extend hn.prev
  refine ⟨⟨?_, hn.prev.trans h.head.symm, ?_⟩, hfront⟩
  · rw [h.blocks]
    exact hn.fresh
  · rw [hverdict]
    exact hn.taken

/-- Further blocks on both heads. -/
theorem SameFront.lines {blocks : List Block} (h : SameFront t f) (hl : Lines t blocks) :
    Lines f blocks ∧ SameFront (t.run (deliver blocks)) (f.run (deliver blocks)) := by
  induction blocks generalizing t f with
  | nil => exact ⟨trivial, h⟩
  | cons b blocks ih =>
    obtain ⟨hn, hrest⟩ := hl
    obtain ⟨hnf, hfront⟩ := h.next hn
    obtain ⟨hlines, hend⟩ := ih hfront hrest
    exact ⟨⟨hnf, hlines⟩, hend⟩

theorem lines_append {blocks more : List Block} :
    Lines t (blocks ++ more) ↔ Lines t blocks ∧ Lines (t.run (deliver blocks)) more := by
  induction blocks generalizing t with
  | nil => exact ⟨fun h => ⟨trivial, h⟩, fun h => h.2⟩
  | cons b blocks ih =>
    have hrun : t.run (deliver (b :: blocks)) = (t.add_block b).2.run (deliver blocks) := rfl
    rw [List.cons_append, Lines, Lines, ih, hrun, and_assoc]

/-- What a line adds. -/
theorem Lines.adds {blocks : List Block} (hl : Lines t blocks) (hheld : t.held = none) :
    SameSettings t (t.run (deliver blocks)) ∧ (∀ x ∈ t.blocks, x ∈ (t.run (deliver blocks)).blocks) ∧
      ∀ b ∈ blocks, b.hash ∈ (t.run (deliver blocks)).blocks := by
  induction blocks generalizing t with
  | nil => exact ⟨.refl t, fun _ hx => hx, fun _ hb => absurd hb List.not_mem_nil⟩
  | cons b blocks ih =>
    obtain ⟨hn, hrest⟩ := hl
    obtain ⟨p, staged, -, -, hadd⟩ := hn.commits hheld
    have hc := committed t b.hash b.header staged (saturating_add p.work (max b.header.work 1))
    have hrun : t.run (deliver (b :: blocks)) = (t.add_block b).2.run (deliver blocks) := rfl
    rw [hrun]
    rw [hadd] at hrest ⊢
    obtain ⟨hsettings, hknown, hnew⟩ := ih hrest (hc.settings.held.trans hheld)
    refine ⟨hc.settings.trans hsettings, fun x hx => hknown x ?_, fun c hin => ?_⟩
    · rw [hc.blocks, mem_insert_iff]
      exact .inr hx
    · rcases List.mem_cons.mp hin with rfl | hin
      · refine hknown _ ?_
        rw [hc.blocks, mem_insert_iff]
        exact .inl rfl
      · exact hnew c hin

/-- The heights of a line are consecutive. -/
theorem Lines.heights {blocks : List Block} (hl : Lines t blocks) (hheld : t.held = none) {n : Nat}
    (hn : t.blocks[t.head]?.map (·.height.toNat) = some n) (hshort : n + blocks.length < 2 ^ 64) :
    (∀ (i : Nat) b, blocks[i]? = some b → b.header.height.toNat = n + i + 1) ∧
      (t.run (deliver blocks)).blocks[(t.run (deliver blocks)).head]?.map (·.height.toNat) = some (n + blocks.length) := by
  induction blocks generalizing t n with
  | nil => exact ⟨fun i b h => by simp at h, hn⟩
  | cons b blocks ih =>
    obtain ⟨hnext, hrest⟩ := hl
    rw [List.length_cons] at hshort
    obtain ⟨p, staged, hp, hv, hadd⟩ := hnext.commits hheld
    have hc := committed t b.hash b.header staged (saturating_add p.work (max b.header.work 1))
    obtain ⟨-, -, -, hheight, -⟩ := parent_entries_spec hp
    have hb : b.header.height.toNat = n + 1 := by
      obtain ⟨hd, hhd, hpn⟩ := Option.map_eq_some_iff.mp hn
      rw [hhd, Option.map_some, Option.some.injEq] at hheight
      rw [validate_at_base_height hv, ← hheight, UInt64.toNat_add, hpn]
      exact Nat.mod_eq_of_lt (by change n + 1 < 2 ^ 64; omega)
    have hrun : t.run (deliver (b :: blocks)) = (t.add_block b).2.run (deliver blocks) := rfl
    rw [hrun]
    rw [hadd] at hrest ⊢
    have hhead : (t.commit_staged b.hash b.header staged (saturating_add p.work (max b.header.work 1))).blocks[
        (t.commit_staged b.hash b.header staged (saturating_add p.work (max b.header.work 1))).head]?.map
          (·.height.toNat) = some (n + 1) := by
      rw [hc.blocks, hc.head, SumMap.get_insert, if_pos rfl, Option.map_some, hb]
    obtain ⟨hheights, hend⟩ := ih hrest (hc.settings.held.trans hheld) hhead (by omega)
    refine ⟨fun i c hi => ?_, ?_⟩
    · cases i with
      | zero =>
        obtain rfl := Option.some.inj hi
        exact hb
      | succ i =>
        rw [hheights i c hi]
        omega
    · rw [hend, List.length_cons]
      congr 1
      omega

/-! ## The snapshot -/

/-- The snapshot is one of this tree at its head. -/
structure TakenAt (t : BlockTree) (snap : Snapshot) : Prop where
  hash : snap.hash = t.head
  height : t.blocks[t.head]?.map (·.height) = some snap.height
  state : snap.state = t.canon
  ledger : t.ledger[t.head]? = some snap.ledger
  model : t.model[t.head]? = some snap.model

/-- The snapshot is one of the block before the head. -/
structure TakenBelow (t : BlockTree) (S : String → List Int64 × ModelState) (snap : Snapshot) (hd : Header) : Prop where
  header : t.blocks[t.head]? = some hd
  high : 1 ≤ hd.height
  hash : snap.hash = hd.prev_hash
  height : t.blocks[hd.prev_hash]?.map (·.height) = some snap.height
  state : snap.state = (S hd.prev_hash).1
  ledger : t.ledger[hd.prev_hash]? = some snap.ledger
  model : t.model[hd.prev_hash]? = some snap.model

variable {genesis_w : List Int64} {params : GenesisParams} {n : Logged} {S : String → List Int64 × ModelState}
  {snap : Snapshot}

theorem Coherent.snapshot (hc : Coherent genesis_w params n S) (h : n.tree.take_snapshot.1 = some snap) :
    TakenAt n.tree snap ∨ ∃ hd, TakenBelow n.tree S snap hd := by
  obtain ⟨hd, hhd⟩ := Option.isSome_iff_exists.mp (Std.ExtTreeMap.mem_iff_isSome_getElem?.mp hc.shape.head_known)
  unfold take_snapshot at h
  simp only at h
  split at h
  · next ledger model hledger hmodel =>
    rcases hc.with_state_at_cases n.tree.snapshot_basis_hash id with ⟨e, he⟩ | ⟨hk, he⟩
    · rw [he] at h
      simp only at h
      split at h
      · next ledger' model' hledger' hmodel' =>
        obtain rfl := Option.some.inj h
        refine .inl ⟨rfl, ?_, rfl, hledger', hmodel'⟩
        rw [hhd]
        rfl
      · cases h
    · rw [he] at h
      obtain rfl := Option.some.inj h
      obtain ⟨hb, hhb⟩ := Option.isSome_iff_exists.mp (Std.ExtTreeMap.mem_iff_isSome_getElem?.mp hk)
      have hbasis : n.tree.snapshot_basis_hash = n.tree.head ∨
          1 ≤ hd.height ∧ n.tree.snapshot_basis_hash = hd.prev_hash := by
        unfold snapshot_basis_hash
        rw [hhd]
        simp only
        split
        · next hcond => exact .inr ⟨hcond.1, rfl⟩
        · exact .inl rfl
      rcases hbasis with hat | ⟨hhigh, hbelow⟩
      · left
        rw [hat] at hledger hmodel hhb ⊢
        refine ⟨rfl, ?_, hc.canon.symm, hledger, hmodel⟩
        rw [hhb]
        rfl
      · right
        rw [hbelow] at hledger hmodel hhb ⊢
        refine ⟨hd, hhd, hhigh, rfl, ?_, rfl, hledger, hmodel⟩
        rw [hhb]
        rfl
  · cases h

/-- A snapshot of a tree on a line is one of the tree at some block of the line. -/
theorem Coherent.snapshot_on_line (hc : Coherent genesis_w params n S) {blocks : List Block} (hl : Lines n.tree blocks)
    (hroot : n.tree.blocks[n.tree.head]?.map (·.height) = some 0)
    (h : (n.tree.run (deliver blocks)).take_snapshot.1 = some snap) :
    ∃ front rest, blocks = front ++ rest ∧ TakenAt (n.tree.run (deliver front)) snap := by
  rcases List.eq_nil_or_concat blocks with rfl | ⟨front, b, rfl⟩
  · rcases hc.snapshot h with hat | ⟨hd, hbelow⟩
    · exact ⟨[], [], rfl, hat⟩
    · obtain ⟨hd', hhd, hzero⟩ := Option.map_eq_some_iff.mp hroot
      obtain rfl := Option.some.inj (hhd.symm.trans hbelow.header)
      have hhigh := hbelow.high
      rw [hzero] at hhigh
      exact absurd hhigh (by decide)
  · rw [List.concat_eq_append] at *
    obtain ⟨Sf, hcf⟩ := hc.run (deliver front)
    obtain ⟨S', hc', hagree⟩ := hcf.step (.add_block b)
    have hfront : (n.run (deliver front)).tree = n.tree.run (deliver front) := n.run_tree _
    have hlast : n.tree.run (deliver (front ++ [b])) = ((n.tree.run (deliver front)).add_block b).2 := by
      rw [deliver, List.map_append, BlockTree.run, List.foldl_append]
      rfl
    have hstep : ((n.run (deliver front)).step (.add_block b)).tree = ((n.tree.run (deliver front)).add_block b).2 := by
      rw [← hfront]
      rfl
    rw [hlast, ← hstep] at h
    rcases hc'.snapshot h with hat | ⟨hd, hbelow⟩
    · refine ⟨front ++ [b], [], by rw [List.append_nil], ?_⟩
      rw [hlast, ← hstep]
      exact hat
    · -- the head is the last block, and its parent the head before it
      refine ⟨front, [b], rfl, ?_⟩
      obtain ⟨hlfront, hnext, -⟩ := lines_append.mp hl
      have hheld : (n.tree.run (deliver front)).held = none := (hlfront.adds hc.shape.full).1.held.trans hc.shape.full
      obtain ⟨p, staged, -, -, hadd⟩ := hnext.commits hheld
      have hcom := committed (n.tree.run (deliver front)) b.hash b.header staged
        (saturating_add p.work (max b.header.work 1))
      rw [hstep, hadd] at hbelow
      have hheader := hbelow.header
      rw [hcom.blocks, hcom.head, SumMap.get_insert, if_pos rfl] at hheader
      obtain rfl := Option.some.inj hheader
      have hknown : (n.tree.run (deliver front)).head ∈ (n.tree.run (deliver front)).blocks :=
        hfront ▸ hcf.shape.head_known
      have hne : b.hash ≠ (n.tree.run (deliver front)).head := fun he => hnext.fresh (he ▸ hknown)
      have hheight := hbelow.height
      have hledger := hbelow.ledger
      have hmodel := hbelow.model
      rw [hnext.prev] at hheight hledger hmodel
      rw [hcom.blocks, SumMap.get_insert, if_neg hne] at hheight
      rw [hcom.ledger, SumMap.get_insert, if_neg hne] at hledger
      rw [hcom.model, SumMap.get_insert, if_neg hne] at hmodel
      refine ⟨hbelow.hash.trans hnext.prev, hheight, ?_, hledger, hmodel⟩
      have hcanon := hcf.canon
      rw [hfront] at hcanon hagree
      rw [hbelow.state, hnext.prev, hagree _ hknown, hcanon]

/-! ## The seeded tree -/

/-- The work of the blocks fits into the word of the tree. -/
def WorkFits (w : UInt64) (blocks : List Block) : Prop :=
  w.toNat + (blocks.map fun b => (max b.header.work 1).toNat).sum < 2 ^ 64

/-- The records have the headers of the blocks. -/
def SameHeaders (stored : List StoredBlock) (blocks : List Block) : Prop :=
  List.Forall₂ (fun sb b => sb.header = Block.header b) stored blocks

theorem index_line {stored : List StoredBlock} {blocks : List Block} (hsame : SameHeaders stored blocks) (hl : Lines t blocks)
    (hheld : t.held = none) {w : UInt64} (hw : t.cum_work[t.head]? = some w) (hfits : WorkFits w blocks)
    (hblocks : f.blocks = t.blocks) (hcum : f.cum_work = t.cum_work) :
    stored.foldl Store.index_header f =
      { f with blocks := (t.run (deliver blocks)).blocks, cum_work := (t.run (deliver blocks)).cum_work } := by
  induction hsame generalizing t f w with
  | nil =>
    have hrun : t.run (deliver []) = t := rfl
    rw [List.foldl_nil, hrun, ← hblocks, ← hcum]
  | @cons sb b stored blocks hheader _ ih =>
    obtain ⟨hn, hrest⟩ := hl
    obtain ⟨p, staged, hp, -, hadd⟩ := hn.commits hheld
    have hc := committed t b.hash b.header staged (saturating_add p.work (max b.header.work 1))
    obtain ⟨-, -, hpw, -⟩ := parent_entries_spec hp
    obtain rfl : p.work = w := Option.some.inj (hpw.symm.trans hw)
    unfold WorkFits at hfits
    rw [List.map_cons, List.sum_cons] at hfits
    have hplain : p.work + max sb.header.work 1 = saturating_add p.work (max b.header.work 1) := by
      apply UInt64.toNat_inj.mp
      rw [hheader, toNat_saturating_add, UInt64.toNat_add]
      omega
    have hhash : sb.hash = b.hash := congrArg Header.block_hash hheader
    have hstep : Store.index_header f sb = { f with
        blocks := t.blocks.insert b.hash b.header
        cum_work := t.cum_work.insert b.hash (saturating_add p.work (max b.header.work 1)) } := by
      have hparent : f.cum_work[sb.header.prev_hash]? = some p.work := by rw [hcum, hheader, hn.prev, hw]
      unfold Store.index_header
      rw [hparent]
      simp only
      rw [hplain, hhash, hheader, hblocks, hcum]
    have hrun : t.run (deliver (b :: blocks)) = (t.add_block b).2.run (deliver blocks) := rfl
    rw [List.foldl_cons, hstep, hrun]
    rw [hadd] at hrest ⊢
    have hnext : (saturating_add p.work (max b.header.work 1)).toNat = p.work.toNat + (max b.header.work 1).toNat := by
      rw [toNat_saturating_add]
      omega
    have hhead : (t.commit_staged b.hash b.header staged (saturating_add p.work (max b.header.work 1))).cum_work[
        (t.commit_staged b.hash b.header staged (saturating_add p.work (max b.header.work 1))).head]? =
          some (saturating_add p.work (max b.header.work 1)) := by
      rw [hc.cum_work, hc.head, SumMap.get_insert, if_pos rfl]
    have hrestfits : WorkFits (saturating_add p.work (max b.header.work 1)) blocks := by
      unfold WorkFits
      omega
    exact ih hrest (hc.settings.held.trans hheld) hhead hrestfits hc.blocks.symm hc.cum_work.symm

/-- The blocks of a line can be addressed. -/
def Addressed : BlockTree → List Block → Prop
  | _, [] => True
  | t, b :: blocks =>
    (b.txs ≠ [] → ∀ m, t.model[t.head]? = some m → m.dim < 2 ^ 32) ∧ Addressed (t.add_block b).2 blocks

theorem Lines.keeps_leaves {blocks : List Block} (hl : Lines t blocks) (ha : Addressed t blocks) :
    Along KeepsLeaves t (deliver blocks) := by
  induction blocks generalizing t with
  | nil => trivial
  | cons b blocks ih =>
    obtain ⟨hn, hrest⟩ := hl
    obtain ⟨hdim, harest⟩ := ha
    refine ⟨⟨?_, fun hne => absurd hn.prev hne⟩, ih hrest harest⟩
    rw [hn.prev]
    exact hdim

/-- The tree seeded with a snapshot of the line has the front of the line's tree there. -/
theorem adopted_front (hc : Coherent genesis_w params n S) (hr : CacheRight n S) (htaken : TakenAt n.tree snap)
    (hset : SameSettings f n.tree) (hheld : f.held = none) :
    SameFront n.tree ({ f with blocks := n.tree.blocks, cum_work := n.tree.cum_work }.adopt_checkpoint snap.hash
      snap.state snap.ledger snap.model) := by
  have hmodel : (S n.tree.head).2 = snap.model :=
    Option.some.inj ((hc.model _ hc.shape.head_known).symm.trans htaken.model)
  unfold adopt_checkpoint
  refine ⟨htaken.hash, hset.genesis_hash.symm, rfl, rfl, htaken.state, ?_, ?_, ?_, hset.params.symm,
    hset.data_contributor.symm, hset.verified.symm, hset.convicted.symm, hset.held.trans hheld, hheld⟩
  · simp only
    rw [hr, hmodel, htaken.state]
  · simp only
    rw [SumMap.get_insert, if_pos rfl, htaken.ledger]
  · simp only
    rw [SumMap.get_insert, if_pos rfl, htaken.model]

/-! ## The passes over the log -/

variable [Serde] {st : Store} {stored : List StoredBlock} {blocks : List Block} {w : Store.Walked}

omit [Serde] in
theorem read_header {sb : StoredBlock} {payloads : Dict Payload} (h : sb.to_core payloads = .ok b) :
    sb.header = b.header := by
  simp only [StoredBlock.to_core, bind_eq_ok, pure_eq_ok] at h
  obtain ⟨acc, -, transfers, -, data_txs, -, rfl⟩ := h
  rfl

theorem Reads.same_headers (h : Reads st stored blocks) : SameHeaders stored blocks := h.imp fun _ _ => read_header

theorem connect_read {sb : StoredBlock} (hread : sb.to_core (st.gather sb) = .ok b)
    (hok : (w.tree.add_block b).1.isOk = true) :
    ∃ w', st.connect_stored w sb = .ok w' ∧ w'.tree = (w.tree.add_block b).2 := by
  obtain ⟨took, htook⟩ := exists_of_isOk hok
  have hadd : w.tree.add_block b = (.ok took, (w.tree.add_block b).2) := Prod.ext htook rfl
  unfold Store.connect_stored
  simp only [hread]
  rw [hadd]
  exact ⟨_, rfl, rfl⟩

/-- Up to the snapshot the forward walk does nothing. -/
theorem walk_low {snap_h : UInt64} (hlow : ∀ sb ∈ stored, sb.header.height ≤ snap_h) (w : Store.Walked) :
    st.walk_forward snap_h w stored = .ok w := by
  unfold Store.walk_forward
  induction stored with
  | nil => rfl
  | cons sb stored ih =>
    obtain ⟨hsb, hrest⟩ := List.forall_mem_cons.mp hlow
    rw [List.foldlM_cons, if_pos (.inl hsb)]
    exact ih hrest

/-- From there on it takes every block of the line. -/
theorem walk_line {snap_h : UInt64} (hreads : Reads st stored blocks) (hl : Lines w.tree blocks)
    (hhigh : ∀ sb ∈ stored, ¬ sb.header.height ≤ snap_h) :
    ∃ w', st.walk_forward snap_h w stored = .ok w' ∧ w'.tree = w.tree.run (deliver blocks) := by
  induction hreads generalizing w with
  | nil => exact ⟨w, rfl, rfl⟩
  | @cons sb b stored blocks hread _ ih =>
    obtain ⟨hn, hrest⟩ := hl
    obtain ⟨hsb, hlater⟩ := List.forall_mem_cons.mp hhigh
    obtain ⟨w₁, hconnect, htree⟩ := connect_read (w := w) hread hn.taken
    rw [← htree] at hrest
    obtain ⟨w', hwalk, hend⟩ := ih hrest hlater
    refine ⟨w', ?_, ?_⟩
    · have hprev : sb.header.prev_hash = w.tree.head := by rw [read_header hread, hn.prev]
      unfold Store.walk_forward at hwalk ⊢
      rw [List.foldlM_cons, if_neg (not_or.mpr ⟨hsb, fun hne => hne hprev⟩), hconnect]
      exact hwalk
    · rw [hend, htree]
      rfl

/-- The reconnect pass has nothing to do when every stored block is known. -/
theorem reconnect_known (hknown : ∀ sb ∈ stored, sb.hash ∈ w.tree.blocks) (passes : Nat) :
    st.reconnect stored (passes + 1) w = .ok { w with changed := false } := by
  have hpass (sorted : List StoredBlock) (w : Store.Walked) (h : ∀ sb ∈ sorted, sb.hash ∈ w.tree.blocks) :
      st.reconnect_pass w sorted = .ok w := by
    unfold Store.reconnect_pass
    induction sorted with
    | nil => rfl
    | cons sb sorted ih =>
      obtain ⟨hsb, hrest⟩ := List.forall_mem_cons.mp h
      rw [List.foldlM_cons, if_pos (.inl (Std.ExtTreeMap.contains_iff_mem.mpr hsb))]
      exact ih hrest
  rw [Store.reconnect, hpass stored { w with changed := false } hknown]
  rfl

omit [Serde] in
theorem mem_index {index : Dict StoredBlock} {h : String} {sb : StoredBlock}
    (hm : (index_of index stored)[h]? = some sb) : index[h]? = some sb ∨ sb ∈ stored := by
  unfold index_of at hm
  induction stored generalizing index with
  | nil => exact .inl hm
  | cons sb' stored ih =>
    rcases ih hm with hold | hin
    · rw [SumMap.get_insert] at hold
      split at hold
      · obtain rfl := Option.some.inj hold
        exact .inr List.mem_cons_self
      · exact .inl hold
    · exact .inr (List.mem_cons_of_mem _ hin)

omit [Serde] in
/-- The served index loses nothing when no stored block is above the head. -/
theorem index_keeps {top : UInt64} (htop : ∀ sb ∈ stored, sb.header.height ≤ top) :
    (index_of ∅ stored).filter (fun _ sb => decide (sb.header.height ≤ top)) = index_of ∅ stored := by
  rw [Std.ExtTreeMap.filter_eq_self_iff]
  intro k hk
  rcases mem_index (Std.ExtTreeMap.getElem?_eq_some_getElem hk) with hnone | hin
  · simp at hnone
  · exact decide_eq_true (htop _ hin)

omit [Crypto] [Serde] in
theorem SameHeaders.at (h : SameHeaders stored blocks) {i : Nat} {sb : StoredBlock} (hi : stored[i]? = some sb) :
    ∃ b, blocks[i]? = some b ∧ sb.header = b.header := by
  induction h generalizing i with
  | nil => simp at hi
  | @cons sb' b stored blocks hheader _ ih =>
    cases i with
    | zero =>
      obtain rfl := Option.some.inj hi
      exact ⟨b, rfl, hheader⟩
    | succ i => exact ih hi

omit [Crypto] [Serde] in
/-- A log with consecutive heights is in the order of its heights. -/
theorem by_height_eq (hheights : ∀ (i : Nat) sb, stored[i]? = some sb → sb.header.height.toNat = i + 1) :
    Store.by_height stored = stored := by
  unfold Store.by_height
  refine List.mergeSort_of_pairwise (List.pairwise_iff_getElem.mpr fun i j hi hj hlt => ?_)
  have hat := hheights i _ (List.getElem?_eq_getElem hi)
  have hat' := hheights j _ (List.getElem?_eq_getElem hj)
  rw [decide_eq_true_eq, UInt64.le_iff_toNat_le, hat, hat']
  omega

omit [Crypto] [Serde] in
/-- The records up to a height are the first ones. -/
theorem below_height (hheights : ∀ (i : Nat) sb, stored[i]? = some sb → sb.header.height.toNat = i + 1) {height : UInt64}
    {k : Nat} (hk : height.toNat = k) :
    (∀ sb ∈ stored.take k, sb.header.height ≤ height) ∧ (∀ sb ∈ stored.drop k, ¬ sb.header.height ≤ height) ∧
      stored.takeWhile (fun sb => decide (sb.header.height ≤ height)) = stored.take k := by
  have hlow : ∀ sb ∈ stored.take k, sb.header.height ≤ height := by
    intro sb hsb
    obtain ⟨i, hi⟩ := List.mem_iff_getElem?.mp hsb
    rw [List.getElem?_take] at hi
    split at hi
    · rw [UInt64.le_iff_toNat_le, hheights i sb hi, hk]
      omega
    · cases hi
  have hhigh : ∀ sb ∈ stored.drop k, ¬ sb.header.height ≤ height := by
    intro sb hsb
    obtain ⟨i, hi⟩ := List.mem_iff_getElem?.mp hsb
    rw [List.getElem?_drop] at hi
    rw [UInt64.le_iff_toNat_le, hheights _ sb hi, hk]
    omega
  refine ⟨hlow, hhigh, ?_⟩
  calc stored.takeWhile (fun sb => decide (sb.header.height ≤ height))
      = (stored.take k ++ stored.drop k).takeWhile (fun sb => decide (sb.header.height ≤ height)) := by
        rw [List.take_append_drop]
    _ = stored.take k ++ (stored.drop k).takeWhile (fun sb => decide (sb.header.height ≤ height)) :=
        List.takeWhile_append_of_pos fun sb hsb => decide_eq_true (hlow sb hsb)
    _ = stored.take k := by
        rw [List.takeWhile_eq_nil_iff.mpr, List.append_nil]
        intro hpos
        rw [decide_eq_true_eq]
        exact hhigh _ (List.getElem_mem hpos)

/-! ## Both boots -/

omit [Serde] in
theorem Lines.takes {blocks : List Block} (hl : Lines t blocks) : TakesLog t blocks := by
  induction blocks generalizing t with
  | nil => trivial
  | cons b blocks ih =>
    obtain ⟨hn, hrest⟩ := hl
    exact ⟨hn.taken, ih hrest⟩

omit [Serde] in
theorem run_deliver_append (t : BlockTree) (front rest : List Block) :
    t.run (deliver (front ++ rest)) = (t.run (deliver front)).run (deliver rest) := by
  rw [deliver, List.map_append, BlockTree.run, List.foldl_append]
  rfl

omit [Serde] in
theorem addressed_append {front rest : List Block} (h : Addressed t (front ++ rest)) : Addressed t front := by
  induction front generalizing t with
  | nil => trivial
  | cons b front ih => exact ⟨h.1, ih h.2⟩

/-- Where the forward walk starts. -/
def seeded (indexed : BlockTree) (snap : Snapshot) : Store.Walked where
  tree := indexed.adopt_checkpoint snap.hash snap.state snap.ledger snap.model
  cache := ∅
  changed := false

/-- The passes of a fast boot, on a log in the order of its heights. -/
theorem fast_replay_eq {dc : Option String} {prune_depth : UInt64} {front : List StoredBlock} {indexed : BlockTree}
    (hheights : ∀ (i : Nat) sb, stored[i]? = some sb → sb.header.height.toNat = i + 1)
    (hwhile : stored.takeWhile (fun sb => decide (sb.header.height ≤ snap.height)) = front)
    (hindex : front.foldl Store.index_header (fresh genesis_w dc params prune_depth) = indexed)
    (hcontains : snap.hash ∈ indexed.blocks) (hforward : st.walk_forward snap.height (seeded indexed snap) stored = .ok w)
    (hreconnect : st.reconnect stored (stored.length + 1) w = .ok { w with changed := false })
    (hbelow : ∀ sb ∈ stored, sb.header.height ≤ (w.tree.blocks[w.tree.head]?.map (·.height)).getD 0) :
    st.fast_replay genesis_w stored dc prune_depth snap params =
      .ok (some { tree := w.tree, index := index_of ∅ stored, cache := w.cache }) := by
  unfold fresh at hindex
  unfold seeded at hforward
  have hin : (!indexed.blocks.contains snap.hash) = false := by
    rw [Bool.not_eq_false', Std.ExtTreeMap.contains_iff_mem]
    exact hcontains
  unfold Store.fast_replay
  simp only [by_height_eq hheights, hwhile, hindex, hin, Bool.false_eq_true, if_false]
  rw [hforward]
  change (st.reconnect stored (stored.length + 1) w >>= fun w => _) = _
  rw [hreconnect]
  have hindex := index_keeps hbelow
  unfold index_of at hindex ⊢
  simp only [bind, Except.bind, pure, Except.pure]
  rw [hindex]

/-- The heights of a log on genesis count from one. -/
theorem log_heights (hreads : Reads st stored blocks) (hl : Lines t blocks) (hheld : t.held = none)
    (hroot : t.blocks[t.head]?.map (·.height.toNat) = some 0) (hshort : blocks.length < 2 ^ 64) :
    ∀ (i : Nat) sb, stored[i]? = some sb → sb.header.height.toNat = i + 1 := by
  obtain ⟨hheights, -⟩ := hl.heights hheld hroot (by omega)
  intro i sb hi
  obtain ⟨b, hb, hheader⟩ := hreads.same_headers.at hi
  rw [hheader, hheights i b hb, Nat.zero_add]

/-- A tree with the front of the one after the log knows every block of the log. -/
theorem log_known (hreads : Reads st stored blocks) (hl : Lines t blocks) (hheld : t.held = none)
    (hsame : SameFront (t.run (deliver blocks)) t') : ∀ sb ∈ stored, sb.hash ∈ t'.blocks := by
  intro sb hsb
  obtain ⟨i, hi⟩ := List.mem_iff_getElem?.mp hsb
  obtain ⟨b, hb, hheader⟩ := hreads.same_headers.at hi
  have hhash : sb.hash = b.hash := congrArg Header.block_hash hheader
  rw [hhash, hsame.blocks]
  exact (hl.adds hheld).2.2 b (List.mem_of_getElem? hb)

/-- No block of the log is above its head. -/
theorem log_below (hreads : Reads st stored blocks) (hl : Lines t blocks) (hheld : t.held = none)
    (hroot : t.blocks[t.head]?.map (·.height.toNat) = some 0) (hshort : blocks.length < 2 ^ 64)
    (hsame : SameFront (t.run (deliver blocks)) t') :
    ∀ sb ∈ stored, sb.header.height ≤ (t'.blocks[t'.head]?.map (·.height)).getD 0 := by
  obtain ⟨-, htop⟩ := hl.heights hheld hroot (by omega)
  obtain ⟨hd, hhd, hx⟩ := Option.map_eq_some_iff.mp htop
  have hlen := hreads.length_eq
  intro sb hsb
  obtain ⟨i, hi⟩ := List.mem_iff_getElem?.mp hsb
  obtain ⟨hlt, -⟩ := List.getElem?_eq_some_iff.mp hi
  rw [hsame.blocks, hsame.head, hhd, Option.map_some, Option.getD_some, UInt64.le_iff_toNat_le,
    log_heights hreads hl hheld hroot hshort i sb hi, hx]
  omega

/-- The walk passes over what the snapshot covers. -/
theorem walk_skips {snap_h : UInt64} {k : Nat} {w' : Store.Walked} (hlow : ∀ sb ∈ stored.take k, sb.header.height ≤ snap_h)
    (hwalk : st.walk_forward snap_h w (stored.drop k) = .ok w') : st.walk_forward snap_h w stored = .ok w' := by
  have hskip : st.walk_forward snap_h w (stored.take k) = .ok w := walk_low hlow w
  unfold Store.walk_forward at hskip hwalk ⊢
  rw [← List.take_append_drop k stored, List.foldlM_append, hskip]
  exact hwalk

/-- A fast boot from a snapshot of any tree on the line of the log gives the same front as a full replay, and serves
the same blocks. Both trees then take the same further blocks, and stay alike. -/
theorem fast_boot_same_front (st : Store) (genesis_w : List Int64) (dc : Option String) (params : GenesisParams)
    (prune_depth : UInt64) (hw : genesis_w.length = (ModelState.genesis params.spec).dim) {stored : List StoredBlock}
    {blocks : List Block} (hreads : Reads st stored blocks) (hl : Lines (fresh genesis_w dc params prune_depth) blocks)
    (ha : Addressed (fresh genesis_w dc params prune_depth) blocks) (hshort : blocks.length < 2 ^ 64)
    (hfits : WorkFits 0 blocks) (k : Nat) {snap : Snapshot}
    (hsnap : ((fresh genesis_w dc params prune_depth).run (deliver (blocks.take k))).take_snapshot.1 = some snap) :
    ∃ full fast, st.replay genesis_w stored none dc prune_depth params = .ok full ∧
      st.replay genesis_w stored (some snap) dc prune_depth params = .ok fast ∧
      SameFront full.tree fast.tree ∧ fast.index = full.index ∧
      ∀ later, Lines full.tree later →
        Lines fast.tree later ∧ SameFront (full.tree.run (deliver later)) (fast.tree.run (deliver later)) := by
  let t₀ : BlockTree := fresh genesis_w dc params prune_depth
  let n : Logged := { Logged.new genesis_w dc params with tree := t₀ }
  have hc : Coherent genesis_w params n fun _ => (genesis_w, ModelState.genesis params.spec) :=
    (coherent_new hw dc).congr_marks (some prune_depth) ∅ ∅
  have hr : CacheRight n fun _ => (genesis_w, ModelState.genesis params.spec) := rfl
  have hheld : t₀.held = none := rfl
  have hroot : t₀.blocks[t₀.head]?.map (·.height) = some 0 := by simp [t₀, fresh, BlockTree.new, genesis_header]
  have hroot' : t₀.blocks[t₀.head]?.map (·.height.toNat) = some 0 := by
    simp [t₀, fresh, BlockTree.new, genesis_header]
  have hwork : t₀.cum_work[t₀.head]? = some 0 := by simp [t₀, fresh, BlockTree.new]
  -- where the snapshot was taken
  have hlk : Lines t₀ (blocks.take k) := (lines_append.mp (by rw [List.take_append_drop]; exact hl)).1
  obtain ⟨front, mid, hmid, htaken⟩ := hc.snapshot_on_line hlk hroot hsnap
  obtain ⟨rest, hblocks⟩ : ∃ rest, blocks = front ++ rest :=
    ⟨mid ++ blocks.drop k, by rw [← List.append_assoc, ← hmid, List.take_append_drop]⟩
  subst hblocks
  obtain ⟨hlfront, hlrest⟩ := lines_append.mp hl
  have hrun := run_deliver_append t₀ front rest
  have hreads₁ : Reads st (stored.take front.length) front := List.forall₂_take_append stored front rest hreads
  have hreads₂ : Reads st (stored.drop front.length) rest := List.forall₂_drop_append stored front rest hreads
  -- the heights of the log
  have hstored := log_heights hreads hl hheld hroot' hshort
  obtain ⟨-, hat⟩ := hlfront.heights hheld hroot' (by rw [List.length_append] at hshort; omega)
  have hheight : snap.height.toNat = front.length := by
    obtain ⟨hd, hhd, hx⟩ := Option.map_eq_some_iff.mp htaken.height
    rw [hhd, Option.map_some, Option.some.injEq, hx, Nat.zero_add] at hat
    exact hat
  obtain ⟨hlow, hhigh, hwhile⟩ := below_height hstored hheight
  -- the seeded tree
  obtain ⟨Sf, hcf, hrf⟩ := hr.run hc (deliver front) (hlfront.keeps_leaves (addressed_append ha))
  have hnf : (n.run (deliver front)).tree = t₀.run (deliver front) := n.run_tree _
  have hfits₁ : WorkFits 0 front := by
    unfold WorkFits at hfits ⊢
    rw [List.map_append, List.sum_append] at hfits
    omega
  have hindex := index_line (f := t₀) hreads₁.same_headers hlfront hheld hwork hfits₁ rfl rfl
  have hknown₁ : (t₀.run (deliver front)).head ∈ (t₀.run (deliver front)).blocks := hnf ▸ hcf.shape.head_known
  let indexed : BlockTree := { t₀ with
    blocks := (t₀.run (deliver front)).blocks
    cum_work := (t₀.run (deliver front)).cum_work }
  have hseed : SameFront (t₀.run (deliver front)) (seeded indexed snap).tree := by
    have hadopted := adopted_front (f := t₀) hcf hrf (hnf.symm ▸ htaken) (hnf.symm ▸ (hlfront.adds hheld).1) hheld
    rw [hnf] at hadopted
    exact hadopted
  obtain ⟨hlf, hsame⟩ := hseed.lines hlrest
  -- the forward walk
  obtain ⟨w, hwalk, hwtree⟩ := walk_line hreads₂ hlf hhigh
  have hforward : st.walk_forward snap.height (seeded indexed snap) stored = .ok w := walk_skips hlow hwalk
  rw [← hwtree, ← hrun] at hsame
  -- nothing is left to reconnect, and nothing stored is above the head
  have hreconnect : st.reconnect stored (stored.length + 1) w = .ok { w with changed := false } :=
    reconnect_known (log_known hreads hl hheld hsame) stored.length
  have hbelow := log_below hreads hl hheld hroot' hshort hsame
  let r₀ : Rebuilt := { tree := t₀, index := ∅, cache := ∅ }
  obtain ⟨cache, hfull⟩ := full_replay_from_taken hreads (show TakesLog r₀.tree _ from hl.takes)
  refine ⟨_, { tree := w.tree, index := index_of ∅ stored, cache := w.cache }, hfull, ?_, hsame, rfl,
    fun later hlater => hsame.lines hlater⟩
  have hfast := fast_replay_eq hstored hwhile hindex (htaken.hash ▸ hknown₁) hforward hreconnect hbelow
  unfold Store.replay
  simp only
  rw [hfast]
  rfl

end Any

open scoped Toy

namespace Toy

/-- A block without transactions on genesis. -/
def mined : Block := block_by start genesis_parent start.head (key 1)

def mined_stored : StoredBlock :=
  { header := mined.header, txs := [], transfers := [], data_txs := [], scores := ∅, sketches := ∅, page_leaves := [] }

/-- A node that keeps a hundred blocks. -/
def keeper : BlockTree := fresh [5] none params 100

theorem mined_fresh : mined.hash ≠ keeper.head := by
  decide +kernel

theorem mined_unknown : keeper.blocks.contains mined.hash = false := by
  refine Bool.eq_false_iff.mpr fun hc => mined_fresh ?_
  have hmem : mined.hash ∈ (∅ : Dict Header).insert keeper.head (genesis_header [5] params) :=
    Std.ExtTreeMap.contains_iff_mem.mp hc
  rcases (mem_insert_iff _ _ _ _).mp hmem with he | he
  · exact he
  · exact absurd he Std.ExtTreeMap.not_mem_empty

theorem keeper_takes : (keeper.add_block mined).1 = .ok true := by
  have hentries : keeper.parent_entries keeper.head = .ok genesis_parent :=
    (parent_entries_depth start (some 100) start.head).trans start_entries
  have hvalid : keeper.validate_at_base mined genesis_parent = .ok (empty_staged start genesis_parent mined) :=
    (validate_at_base_depth start (some 100) mined genesis_parent).trans
      (block_by_valid start genesis_parent start.head (key 1))
  exact add_block_head mined_unknown (fun x => Std.ExtTreeSet.not_mem_empty) rfl rfl hentries hvalid

theorem keeper_snapshot : ∃ snap, keeper.take_snapshot.1 = some snap := by
  let n : Logged := { Logged.new [5] none params with tree := keeper }
  have hc : Coherent [5] params n fun _ => ([5], ModelState.genesis params.spec) :=
    (coherent_new (by decide) none).congr_marks (some 100) ∅ ∅
  have hbasis : keeper.snapshot_basis_hash = keeper.head := by
    unfold BlockTree.snapshot_basis_hash
    simp [keeper, fresh, BlockTree.new, genesis_header]
  have hledger : keeper.ledger[keeper.head]? = some (genesis_ledger none) := by
    simp [keeper, fresh, BlockTree.new]
  have hmodel : keeper.model[keeper.head]? = some (ModelState.genesis params.spec) := by
    simp [keeper, fresh, BlockTree.new]
  unfold BlockTree.take_snapshot
  simp only [hbasis, hledger, hmodel]
  rcases hc.with_state_at_cases keeper.head id with ⟨e, he⟩ | ⟨-, he⟩
  · rw [he]
    simp only [n, hledger, hmodel]
    exact ⟨_, rfl⟩
  · rw [he]
    exact ⟨_, rfl⟩

end Toy

theorem fast_boot_same_front_mined : ∃ snap full fast,
    Store.empty.replay [5] [Toy.mined_stored] none none 100 Toy.params = .ok full ∧
      Store.empty.replay [5] [Toy.mined_stored] (some snap) none 100 Toy.params = .ok fast ∧
      SameFront full.tree fast.tree ∧ fast.index = full.index ∧
      ∀ later, Lines full.tree later →
        Lines fast.tree later ∧ SameFront (full.tree.run (deliver later)) (fast.tree.run (deliver later)) := by
  obtain ⟨snap, hsnap⟩ := Toy.keeper_snapshot
  have hreads : Reads .empty [Toy.mined_stored] [Toy.mined] := .cons rfl .nil
  have hnext : Next Toy.keeper Toy.mined := by
    refine ⟨fun hin => ?_, rfl, ?_⟩
    · have hno := Toy.mined_unknown
      rw [Std.ExtTreeMap.contains_iff_mem.mpr hin] at hno
      cases hno
    · rw [Toy.keeper_takes]
      rfl
  have haddressed : Addressed Toy.keeper [Toy.mined] := ⟨fun htxs => absurd rfl htxs, trivial⟩
  have hfits : WorkFits 0 [Toy.mined] := by
    have hwork : Toy.mined.header.work = 1 := Toy.block_by_work _ _ _ _
    have hmax : max Toy.mined.header.work 1 = 1 := by
      rw [hwork]
      rfl
    unfold WorkFits
    simp [hmax]
  exact ⟨snap, fast_boot_same_front .empty [5] none Toy.params 100 (by decide) hreads ⟨hnext, trivial⟩ haddressed
    (by decide) hfits 0 hsnap⟩

end Sestrian
