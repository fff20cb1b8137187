import Sestrian.Tree.Coherent

/-!
# What one call does

`add_block` either changes nothing or connects the block: it records it against its parent,
and then either the block becomes the head or canon is back where it was.
-/

open Walk Check

namespace Sestrian

open Aggregate Pages

variable [Crypto]

namespace BlockTree

/-- The leaf cache when canon has been moved to a known block. -/
def leaves_at (t : BlockTree) (S : String → List Int64 × ModelState) (target : String) : List Hash :=
  if target = t.head then t.page_leaves
  else match t.fork_walk target with
    | .ok (up, down) => t.rewound_leaves (S target).1 up down (S target).2
    | .error _ => t.page_leaves

/-- The tree with canon moved to a known block. -/
def moved_to (t : BlockTree) (S : String → List Int64 × ModelState) (target : String) : BlockTree :=
  { t with canon := (S target).1, page_leaves := t.leaves_at S target }

/-- The block passes every check of `add_block`. -/
structure Accepts (t : BlockTree) (S : String → List Int64 × ModelState) (b : Block) (p : Parent)
    (staged : Staged) : Prop where
  fresh : b.hash ∉ t.blocks
  unconvicted : b.hash ∉ t.convicted ∧ b.header.prev_hash ∉ t.convicted
  parent_known : b.header.prev_hash ∈ t.blocks
  entries : t.parent_entries b.header.prev_hash = .ok p
  kept : b.header.prev_hash ≠ t.head → ∀ up down, t.fork_walk b.header.prev_hash = .ok (up, down) →
    ∀ h ∈ up ++ down, h ∈ t.undo
  valid : (t.moved_to S b.header.prev_hash).validate_at_base b p = .ok staged

def work_with (p : Parent) (b : Block) : UInt64 := saturating_add p.work (max b.header.work 1)

/-- The block becomes the head. -/
def adopts (t : BlockTree) (b : Block) (p : Parent) : Bool :=
  b.header.prev_hash = t.head || t.outweighs b.hash (work_with p b)

/-- The tree with the block recorded, before it is pruned. -/
def connected (t : BlockTree) (S : String → List Int64 × ModelState) (b : Block) (p : Parent)
    (staged : Staged) : BlockTree :=
  let t' := t.recorded (S b.header.prev_hash).1 b staged (work_with p b)
  if t.adopts b p then
    { t' with
      canon := apply_redo (S b.header.prev_hash).1 staged.agg.toList ++ staged.init_pages.flatten
      page_leaves := staged.new_leaves
      head := b.hash }
  else t'

end BlockTree

variable {genesis_w : List Int64} {params : GenesisParams} {n : Logged} {S : String → List Int64 × ModelState}

open BlockTree

/-- Rolling forward after the block is recorded gives the old canon with the new records. -/
theorem roll_forward_recorded (hc : Coherent genesis_w params n S) {b : Block} (staged : Staged) (work : UInt64)
    {up down : List String} (hf : n.tree.fork_walk b.header.prev_hash = .ok (up, down))
    (hu : ∀ h ∈ up ++ down, h ∈ n.tree.undo) (hfresh : b.hash ∉ n.tree.blocks) (leaves : List Hash) :
    (({ n.tree with canon := (S b.header.prev_hash).1, page_leaves := leaves }).record b.hash b.header staged
      work).roll_forward { up, down, saved_leaves := n.tree.page_leaves } =
      n.tree.recorded (S b.header.prev_hash).1 b staged work := by
  have hne {h : String} (hh : h ∈ n.tree.undo) : b.hash ≠ h := by
    rintro rfl
    obtain ⟨⟨u, tail⟩, hu⟩ := Option.isSome_iff_exists.mp (Std.ExtTreeMap.mem_iff_isSome_getElem?.mp hh)
    obtain ⟨r, p, -, -, hp, -⟩ := hc.records.moves _ _ _ hu
    exact hfresh (parent_some hp)
  rw [roll_forward_rewound hc.shape hc.records hc.canon hf hu]
  · rfl
  · exact fun h hh => by simp [record, hne hh]
  · exact fun h hh => by simp [record, hne hh]
  · rfl

theorem commit_moved {t : BlockTree} {b : Block} {p : Parent} {staged : Staged} (h : t.adopts b p = true) :
    (t.moved_to S b.header.prev_hash).commit_staged b.hash b.header staged (work_with p b) =
      (t.connected S b p staged).prune_deep := by
  rw [connected, if_pos h]
  rfl

/-- The fast path. Canon is at the parent already. -/
theorem Coherent.connect_extend_cases (hc : Coherent genesis_w params n S) (b : Block)
    (hhead : b.header.prev_hash = n.tree.head) :
    (∃ e, n.tree.connect_extend b = (.error e, n.tree)) ∨
    ∃ p staged, n.tree.parent_entries b.header.prev_hash = .ok p ∧
      (n.tree.moved_to S b.header.prev_hash).validate_at_base b p = .ok staged ∧
      n.tree.connect_extend b = (.ok true, (n.tree.connected S b p staged).prune_deep) := by
  have hmoved : n.tree.moved_to S b.header.prev_hash = n.tree := by
    rw [moved_to, leaves_at, if_pos hhead, hhead, ← hc.canon]
  unfold connect_extend
  cases hp : n.tree.parent_entries n.tree.head with
  | error e => exact .inl ⟨e, rfl⟩
  | ok p =>
    simp only
    cases hv : n.tree.validate_at_base b p with
    | error e => exact .inl ⟨e, rfl⟩
    | ok staged =>
      refine .inr ⟨p, staged, by rw [hhead, hp], by rw [hmoved, hv], ?_⟩
      have had : n.tree.adopts b p = true := by simp [adopts, hhead]
      rw [← commit_moved had, hmoved]
      rfl

/-- The side path. A failed validation leaves no trace, since canon is rolled forward. -/
theorem Coherent.connect_side_cases (hc : Coherent genesis_w params n S) (b : Block)
    (hhead : b.header.prev_hash ≠ n.tree.head) (hfresh : b.hash ∉ n.tree.blocks) :
    (∃ e, n.tree.connect_side b = (.error e, n.tree)) ∨
    ∃ p staged, n.tree.parent_entries b.header.prev_hash = .ok p ∧ b.header.prev_hash ∈ n.tree.blocks ∧
      (∀ up down, n.tree.fork_walk b.header.prev_hash = .ok (up, down) → ∀ h ∈ up ++ down, h ∈ n.tree.undo) ∧
      (n.tree.moved_to S b.header.prev_hash).validate_at_base b p = .ok staged ∧
      n.tree.connect_side b = (.ok (n.tree.adopts b p), (n.tree.connected S b p staged).prune_deep) := by
  unfold connect_side
  cases hp : n.tree.parent_entries b.header.prev_hash with
  | error e => exact .inl ⟨e, rfl⟩
  | ok p =>
    rcases hc.rewind_cases b.header.prev_hash with ⟨e, hr⟩ | ⟨up, down, hf, hk, hu, hr⟩
    · exact .inl ⟨e, by simp [hr]⟩
    · have hmoved : n.tree.moved_to S b.header.prev_hash = { n.tree with
          canon := (S b.header.prev_hash).1
          page_leaves := n.tree.rewound_leaves (S b.header.prev_hash).1 up down (S b.header.prev_hash).2 } := by
        simp only [moved_to, leaves_at, if_neg hhead, hf]
      simp only [hr, ← hmoved]
      cases hv : (n.tree.moved_to S b.header.prev_hash).validate_at_base b p with
      | error e =>
        refine .inl ⟨e, ?_⟩
        have hback := roll_forward_rewound hc.shape hc.records hc.canon hf hu
          (n.tree.moved_to S b.header.prev_hash) (fun _ _ => rfl) (fun _ _ => rfl) rfl
        exact congrArg (Prod.mk _) hback
      | ok staged =>
        refine .inr ⟨p, staged, rfl, hk, fun up' down' hf' => ?_, hv, ?_⟩
        · obtain ⟨rfl, rfl⟩ := Prod.mk.inj (Except.ok.inj (hf.symm.trans hf'))
          exact hu
        have hout : (n.tree.moved_to S b.header.prev_hash).outweighs b.hash
            (saturating_add p.work (max b.header.work 1)) = n.tree.adopts b p := by
          simp [adopts, hhead, outweighs, moved_to, work_with]
        simp only [hout]
        cases had : n.tree.adopts b p with
        | true => exact congrArg (Prod.mk _) (commit_moved had)
        | false =>
          have := roll_forward_recorded hc staged (work_with p b) hf hu hfresh
            (n.tree.leaves_at S b.header.prev_hash)
          simp only [connected, had, Bool.false_eq_true, if_false, ← this]
          rfl

/-- Everything `add_block` can do on a full node. -/
theorem Coherent.add_block_cases (hc : Coherent genesis_w params n S) (b : Block) :
    (∃ e, n.tree.add_block b = (.error e, n.tree)) ∨
    (b.hash ∈ n.tree.blocks ∧ n.tree.add_block b = (.ok false, n.tree)) ∨
    ∃ p staged, n.tree.Accepts S b p staged ∧
      n.tree.add_block b = (.ok (n.tree.adopts b p), (n.tree.connected S b p staged).prune_deep) := by
  unfold add_block
  by_cases hdup : b.hash ∈ n.tree.blocks
  · exact .inr (.inl ⟨hdup, by simp [hdup]⟩)
  by_cases hconv : b.hash ∈ n.tree.convicted ∨ b.header.prev_hash ∈ n.tree.convicted
  · exact .inl ⟨_, by simp [hdup, hconv]; rfl⟩
  simp only [Std.ExtTreeMap.contains_iff_mem, hdup, if_false, hconv, hc.shape.full, Option.isSome_none,
    Bool.false_eq_true]
  rw [not_or] at hconv
  by_cases hhead : b.header.prev_hash = n.tree.head
  · simp only [hhead, if_true]
    rcases hc.connect_extend_cases b hhead with h | ⟨p, staged, hp, hv, h⟩
    · exact .inl h
    · refine .inr (.inr ⟨p, staged, ⟨hdup, hconv, hhead ▸ hc.shape.head_known, hp, absurd hhead, hv⟩, ?_⟩)
      rw [h]
      simp [adopts, hhead]
  · simp only [hhead, if_false]
    rcases hc.connect_side_cases b hhead hdup with h | ⟨p, staged, hp, hk, hkept, hv, h⟩
    · exact .inl h
    · exact .inr (.inr ⟨p, staged, ⟨hdup, hconv, hk, hp, fun _ => hkept, hv⟩, h⟩)

/-! ## The invariant along a run -/

/-- An accepted block stands for its dense application to its parent. -/
theorem Coherent.staged_eq (hc : Coherent genesis_w params n S) {b : Block} {p : Parent} {staged : Staged}
    (ha : n.tree.Accepts S b p staged) :
    (apply_redo (S b.header.prev_hash).1 staged.agg.toList ++ staged.init_pages.flatten, staged.post_model) =
      dense_apply params (S b.header.prev_hash) b := by
  have hmodel : p.model = (S b.header.prev_hash).2 :=
    Option.some.inj ((parent_entries_spec ha.entries).1.symm.trans (hc.model _ ha.parent_known))
  have := validate_at_base_spec ha.valid (hmodel ▸ hc.describes _ ha.parent_known)
  rw [hmodel] at this
  exact this.trans (by rw [← hc.same_params]; rfl)

theorem Coherent.accept (hc : Coherent genesis_w params n S) {b : Block} {p : Parent} {staged : Staged}
    (ha : n.tree.Accepts S b p staged) :
    Coherent genesis_w params
      { tree := (n.tree.connected S b p staged).prune_deep, log := n.log.insert b.hash b }
      (Function.update S b.hash (dense_apply params (S b.header.prev_hash) b)) := by
  have hst := hc.staged_eq ha
  have hrec := hc.record (work_with p b) ha.fresh ha.parent_known hst
  refine Coherent.prune (n := { tree := n.tree.connected S b p staged, log := _ }) ?_
  unfold connected
  split
  · have := hrec.move_head (h := b.hash) ((mem_insert_iff _ _ _ _).mpr (.inl rfl)) staged.new_leaves
    simp only [Function.update_self, ← congrArg Prod.fst hst] at this
    exact this
  · exact hrec

omit [Crypto] in
/-- Pruning touches nothing but records and the genesis pin. -/
@[simp]
theorem prune_deep_frame (t : BlockTree) :
    t.prune_deep.blocks = t.blocks ∧ t.prune_deep.ledger = t.ledger ∧ t.prune_deep.model = t.model ∧
    t.prune_deep.cum_work = t.cum_work ∧ t.prune_deep.head = t.head ∧
    t.prune_deep.genesis_hash = t.genesis_hash ∧ t.prune_deep.convicted = t.convicted ∧
    t.prune_deep.canon = t.canon ∧ t.prune_deep.page_leaves = t.page_leaves := by
  obtain ⟨doomed, pin, h⟩ := t.prune_deep_cases
  rw [h]
  simp

/-- A connected block adds its entries, whether or not it becomes the head. -/
theorem connected_frame (t : BlockTree) (b : Block) (p : Parent) (staged : Staged) :
    (t.connected S b p staged).blocks = t.blocks.insert b.hash b.header ∧
    (t.connected S b p staged).ledger = t.ledger.insert b.hash staged.led ∧
    (t.connected S b p staged).model = t.model.insert b.hash staged.post_model ∧
    (t.connected S b p staged).cum_work = t.cum_work.insert b.hash (work_with p b) ∧
    (t.connected S b p staged).genesis_hash = t.genesis_hash ∧
    (t.connected S b p staged).convicted = t.convicted ∧
    (t.connected S b p staged).head = if t.adopts b p then b.hash else t.head := by
  unfold connected
  split <;> exact ⟨rfl, rfl, rfl, rfl, rfl, rfl, rfl⟩

theorem connected_parent (t : BlockTree) (b : Block) (p : Parent) (staged : Staged) (x : String) :
    (t.connected S b p staged).prune_deep.parent x =
      if b.hash = x then some b.header.prev_hash else t.parent x := by
  simp only [parent, prune_deep_frame, connected_frame, SumMap.get_insert]
  split <;> rfl

/-- A connected block does not change the line of a known block. -/
theorem Coherent.connected_line (hc : Coherent genesis_w params n S) {b : Block} {p : Parent} {staged : Staged}
    (ha : n.tree.Accepts S b p staged) {x : String} (hx : x ∈ n.tree.blocks) (l : List String) :
    Path (n.tree.connected S b p staged).prune_deep.parent n.tree.genesis_hash x l ↔
      Path n.tree.parent n.tree.genesis_hash x l := by
  have hold {l : List String} (hl : Path n.tree.parent n.tree.genesis_hash x l) :
      Path (n.tree.connected S b p staged).prune_deep.parent n.tree.genesis_hash x l := by
    refine hl.mono fun y hy _ => ?_
    rw [connected_parent, if_neg]
    rintro rfl
    exact ha.fresh (hc.shape.line_known hl _ hy)
  refine ⟨fun hl => ?_, hold⟩
  obtain ⟨l', hl'⟩ := hc.shape.line x hx
  rwa [hl.unique (hold hl')]

/-- The line of the connected block is the block and the line of its parent. -/
theorem Coherent.connected_new_line (hc : Coherent genesis_w params n S) {b : Block} {p : Parent}
    {staged : Staged} (ha : n.tree.Accepts S b p staged) (l : List String) :
    Path (n.tree.connected S b p staged).prune_deep.parent n.tree.genesis_hash b.hash l ↔
      ∃ lp, l = b.hash :: lp ∧ Path n.tree.parent n.tree.genesis_hash b.header.prev_hash lp := by
  have hgne : b.hash ≠ n.tree.genesis_hash := fun he => ha.fresh (he ▸ hc.shape.genesis_known)
  have hnew {lp : List String} (hlp : Path n.tree.parent n.tree.genesis_hash b.header.prev_hash lp) :
      Path (n.tree.connected S b p staged).prune_deep.parent n.tree.genesis_hash b.hash (b.hash :: lp) :=
    .step hgne (by simp [connected_parent]) ((hc.connected_line ha ha.parent_known lp).mpr hlp)
  refine ⟨fun hl => ?_, fun ⟨lp, hl, hlp⟩ => hl ▸ hnew hlp⟩
  obtain ⟨lp, hlp⟩ := hc.shape.line _ ha.parent_known
  exact ⟨lp, hl.unique (hnew hlp), hlp⟩

/-- `with_state_at` changes nothing, and passes the weights of the block. -/
theorem Coherent.with_state_at_cases (hc : Coherent genesis_w params n S) {R : Type} (target : String)
    (f : List Int64 → R) :
    (∃ e, n.tree.with_state_at target f = (.error e, n.tree)) ∨
    target ∈ n.tree.blocks ∧ n.tree.with_state_at target f = (.ok (f (S target).1), n.tree) := by
  unfold with_state_at
  rcases hc.rewind_cases target with ⟨e, hr⟩ | ⟨up, down, hf, hk, hu, hr⟩
  · exact .inl ⟨e, by rw [hr]⟩
  · refine .inr ⟨hk, ?_⟩
    rw [hr]
    exact congrArg (Prod.mk _) (roll_forward_rewound hc.shape hc.records hc.canon hf hu _
      (fun _ _ => rfl) (fun _ _ => rfl) rfl)

/-- The tree after `convict`, when the head moved to `target`. -/
def BlockTree.moved_off (t : BlockTree) (S : String → List Int64 × ModelState) (convicted : StrSet)
    (target : String) (up down : List String) : BlockTree :=
  { t with
    convicted
    canon := (S target).1
    page_leaves := t.rewound_leaves (S target).1 up down (S target).2
    head := target }

/-- `convict` marks the block, and may move the head to the best block off the convicted lines. -/
theorem Coherent.convict_cases (hc : Coherent genesis_w params n S) (h : String) :
    (n.tree.convict h).2 = { n.tree with convicted := n.tree.convicted.insert h } ∨
    ∃ target up down, n.tree.fork_walk target = .ok (up, down) ∧ target ∈ n.tree.blocks ∧
      (∀ x ∈ up ++ down, x ∈ n.tree.undo) ∧
      (h ∈ n.tree.blocks ∧ ({ n.tree with convicted := n.tree.convicted.insert h }).is_convicted_line n.tree.head) ∧
      target = ({ n.tree with convicted := n.tree.convicted.insert h }).best_head ∧
      (n.tree.convict h).2 = n.tree.moved_off S (n.tree.convicted.insert h) target up down := by
  have hc' := hc.congr_marks n.tree.prune_depth n.tree.hash_verified (n.tree.convicted.insert h)
  unfold convict
  simp only
  split
  · exact .inl rfl
  next hknown =>
  split
  · exact .inl rfl
  next hline =>
  split
  · exact .inl rfl
  rcases hc'.rewind_cases ({ n.tree with convicted := n.tree.convicted.insert h }).best_head with
    ⟨e, hr⟩ | ⟨up, down, hf, hk, hu, hr⟩
  · rw [hr]
    exact .inl rfl
  · rw [hr]
    exact .inr ⟨_, up, down, hf, hk, hu, ⟨by simpa using hknown, by simpa using hline⟩, rfl, rfl⟩

theorem Coherent.convict (hc : Coherent genesis_w params n S) (h : String) :
    Coherent genesis_w params (n.step (.convict h)) S := by
  have hc' := hc.congr_marks n.tree.prune_depth n.tree.hash_verified (n.tree.convicted.insert h)
  rcases hc.convict_cases h with he | ⟨target, up, down, -, hk, -, -, -, he⟩
  · simpa [Logged.step, BlockTree.step, he] using hc'
  · have := hc'.move_head (h := target) hk (n.tree.rewound_leaves (S target).1 up down (S target).2)
    simpa [Logged.step, BlockTree.step, he, moved_off] using this

/-- Every call keeps the invariant, and what known blocks stand for. -/
theorem Coherent.step (hc : Coherent genesis_w params n S) (op : Op) :
    ∃ S', Coherent genesis_w params (n.step op) S' ∧ ∀ h ∈ n.tree.blocks, S' h = S h := by
  cases op with
  | add_block b =>
    rcases hc.add_block_cases b with ⟨e, h⟩ | ⟨-, h⟩ | ⟨p, staged, ha, h⟩
    · exact ⟨S, by simpa [Logged.step, BlockTree.step, h] using hc, fun _ _ => rfl⟩
    · exact ⟨S, by simpa [Logged.step, BlockTree.step, h] using hc, fun _ _ => rfl⟩
    · refine ⟨_, by simpa [Logged.step, BlockTree.step, h, ha.fresh, connected_frame] using hc.accept ha, fun x hx => ?_⟩
      have hne : x ≠ b.hash := fun he => ha.fresh (he ▸ hx)
      exact Function.update_of_ne hne _ _
  | with_state_at target =>
    refine ⟨S, ?_, fun _ _ => rfl⟩
    rcases hc.with_state_at_cases target id with ⟨e, h⟩ | ⟨-, h⟩ <;>
      simpa [Logged.step, BlockTree.step, h] using hc
  | convict h => exact ⟨S, hc.convict h, fun _ _ => rfl⟩
  | set_prune_depth depth =>
    exact ⟨S, hc.congr_marks depth n.tree.hash_verified n.tree.convicted, fun _ _ => rfl⟩
  | mark_verified txid =>
    exact ⟨S, hc.congr_marks n.tree.prune_depth (n.tree.hash_verified.insert txid) n.tree.convicted,
      fun _ _ => rfl⟩

/-- The entries of the two trees are the same: they know the same blocks. -/
structure SameEntries (t t' : BlockTree) : Prop where
  blocks : t'.blocks = t.blocks
  ledger : t'.ledger = t.ledger
  model : t'.model = t.model
  cum_work : t'.cum_work = t.cum_work
  genesis_hash : t'.genesis_hash = t.genesis_hash

/-- The entries of a tree change only when a block is connected. -/
theorem Coherent.step_entries (hc : Coherent genesis_w params n S) (op : Op) :
    SameEntries n.tree (n.step op).tree ∨
    ∃ b p staged, op = .add_block b ∧ n.tree.Accepts S b p staged ∧
      (n.step op).tree = (n.tree.connected S b p staged).prune_deep := by
  have hsame : SameEntries n.tree n.tree := ⟨rfl, rfl, rfl, rfl, rfl⟩
  cases op with
  | add_block b =>
    rcases hc.add_block_cases b with ⟨e, h⟩ | ⟨-, h⟩ | ⟨p, staged, ha, h⟩
    · exact .inl (by simpa [Logged.step, BlockTree.step, h] using hsame)
    · exact .inl (by simpa [Logged.step, BlockTree.step, h] using hsame)
    · exact .inr ⟨b, p, staged, rfl, ha, by simp [Logged.step, BlockTree.step, h]⟩
  | with_state_at target =>
    rcases hc.with_state_at_cases target id with ⟨e, h⟩ | ⟨-, h⟩ <;>
      exact .inl (by simpa [Logged.step, BlockTree.step, h] using hsame)
  | convict h =>
    rcases hc.convict_cases h with he | ⟨target, up, down, -, -, -, -, -, he⟩ <;>
      exact .inl ⟨by simp [Logged.step, BlockTree.step, he, moved_off],
        by simp [Logged.step, BlockTree.step, he, moved_off], by simp [Logged.step, BlockTree.step, he, moved_off],
        by simp [Logged.step, BlockTree.step, he, moved_off], by simp [Logged.step, BlockTree.step, he, moved_off]⟩
  | set_prune_depth depth => exact .inl ⟨rfl, rfl, rfl, rfl, rfl⟩
  | mark_verified txid => exact .inl ⟨rfl, rfl, rfl, rfl, rfl⟩

theorem Coherent.step_genesis (hc : Coherent genesis_w params n S) (op : Op) :
    (n.step op).tree.genesis_hash = n.tree.genesis_hash := by
  rcases hc.step_entries op with hs | ⟨b, p, staged, -, -, ht⟩
  · exact hs.genesis_hash
  · rw [ht]
    simp only [prune_deep_frame, connected_frame]

/-- What a node knows it keeps knowing. -/
theorem Coherent.known_run (hc : Coherent genesis_w params n S) (ops : List Op) {h : String}
    (hh : h ∈ n.tree.blocks) : h ∈ (n.run ops).tree.blocks := by
  induction ops generalizing n S with
  | nil => exact hh
  | cons op ops ih =>
    obtain ⟨S', hc', -⟩ := hc.step op
    refine ih hc' ?_
    rcases hc.step_entries op with hs | ⟨b, p, staged, -, -, ht⟩
    · rwa [hs.blocks]
    · rw [ht]
      simp only [prune_deep_frame, connected_frame, mem_insert_iff]
      exact .inr hh

theorem Coherent.run (hc : Coherent genesis_w params n S) (ops : List Op) :
    ∃ S', Coherent genesis_w params (n.run ops) S' := by
  induction ops generalizing n S with
  | nil => exact ⟨S, hc⟩
  | cons op ops ih =>
    obtain ⟨S', hc', -⟩ := hc.step op
    exact ih hc'

/-- Every state of a full node is coherent. -/
theorem coherent_run (hw : genesis_w.length = (ModelState.genesis params.spec).dim) (dc : Option String)
    (ops : List Op) : ∃ S, Coherent genesis_w params ((Logged.new genesis_w dc params).run ops) S :=
  (coherent_new hw dc).run ops

end Sestrian
