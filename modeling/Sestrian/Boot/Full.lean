import Sestrian.Code.Boot
import Sestrian.Node.Early
import Sestrian.Tree.Decoders
import Sestrian.Tree.Empty
import Sestrian.Tree.Order
import Sestrian.Tree.Replay

/-!
# A full replay restores the tree

The blocks that a node accepted, read back with their bodies and added in the same order to a
fresh tree, lead to the tree that the node had.
-/

open Check Panic

namespace Sestrian

open Aggregate BlockTree

section Any

variable [Crypto]

/-! ## Dense and sparse bodies -/

omit [Crypto] in
theorem value_at_mem {cs : List (UInt32 × Int64)} (hd : Patch.Distinct place cs) {c : UInt32 × Int64} (hc : c ∈ cs) :
    value_at cs c.1.toNat = c.2 := by
  have hhit : Patch.hit place cs c.1.toNat = some c := Patch.hit_of_mem hd hc
  rw [value_at, hhit]
  rfl

omit [Crypto] in
/-- The entries of a body written out are its coordinates again. -/
theorem dense_coords_densify (s : SparseBody) : dense_coords (Decoders.densify s.n s.coords) = s.coords := by
  have hat (j : Nat) : value_at s.coords j ≠ 0 ↔ ∃ c ∈ s.coords, c.1.toNat = j := by
    constructor
    · intro hne
      by_contra hno
      push Not at hno
      exact hne (value_at_eq_zero fun c hc => hno c hc)
    · rintro ⟨c, hc, rfl⟩
      rw [value_at_mem (represents_sparse s).distinct hc]
      exact s.nonzero c hc
  have hsmall {j : Nat} (hne : value_at s.coords j ≠ 0) : (UInt32.ofNat j).toNat = j := by
    obtain ⟨c, -, rfl⟩ := (hat j).mp hne
    rw [UInt32.ofNat_toNat]
  have hentries : dense_coords (Decoders.densify s.n s.coords) =
      ((List.range s.n).filter fun j => value_at s.coords j ≠ 0).map fun j => (UInt32.ofNat j, value_at s.coords j) := by
    have hzip : (Decoders.densify s.n s.coords).zipIdx = (List.range s.n).map fun j => (value_at s.coords j, j) := by
      unfold Decoders.densify
      refine List.ext_getElem (by simp) fun j h₁ h₂ => ?_
      simp
    rw [dense_coords, hzip, List.filter_map, List.map_map]
    rfl
  rw [hentries]
  have hsorted : (((List.range s.n).filter fun j => value_at s.coords j ≠ 0).map fun j =>
      (UInt32.ofNat j, value_at s.coords j)).Pairwise fun a b => a.1 < b.1 := by
    refine List.pairwise_map.mpr (List.Pairwise.imp_of_mem ?_ (List.pairwise_lt_range.filter _))
    intro i j hi hj hlt
    have hi := of_decide_eq_true (List.mem_filter.mp hi).2
    have hj := of_decide_eq_true (List.mem_filter.mp hj).2
    rw [UInt32.lt_iff_toNat_lt, hsmall hi, hsmall hj]
    exact hlt
  have hirrefl (l : List (UInt32 × Int64)) (h : l.Pairwise fun a b => a.1 < b.1) : l.Nodup :=
    h.imp fun hlt he => absurd (he ▸ hlt) (UInt32.lt_irrefl _)
  refine ((List.perm_ext_iff_of_nodup (hirrefl _ hsorted) (hirrefl _ s.sorted)).mpr fun c => ?_).eq_of_pairwise
    (fun a b _ _ h₁ h₂ => absurd (UInt32.lt_trans h₁ h₂) (UInt32.lt_irrefl _)) hsorted s.sorted
  rw [List.mem_map]
  constructor
  · rintro ⟨j, hj, rfl⟩
    have hne := of_decide_eq_true (List.mem_filter.mp hj).2
    obtain ⟨c, hc, rfl⟩ := (hat j).mp hne
    rw [UInt32.ofNat_toNat, value_at_mem (represents_sparse s).distinct hc]
    exact hc
  · intro hc
    have hvalue := value_at_mem (represents_sparse s).distinct hc
    refine ⟨c.1.toNat, List.mem_filter.mpr ⟨List.mem_range.mpr (s.in_range c hc), decide_eq_true ?_⟩, ?_⟩
    · exact (hat _).mpr ⟨c, hc, rfl⟩
    · rw [UInt32.ofNat_toNat, hvalue]

omit [Crypto] in
theorem body_coords_dense {b : Block} {bodies : Dict DenseBody} (hb : b.bodies = ∅)
    (h : Decoders.SameBodies bodies b.sparse) (tx : BackpropTx) :
    body_coords { b with bodies, sparse := ∅ } tx = body_coords b tx := by
  have hptr := h tx.da_pointer
  have hnone : (∅ : Dict SparseBody)[tx.da_pointer]? = none := Std.ExtTreeMap.getElem?_empty
  unfold body_coords
  simp only [hnone]
  cases hs : b.sparse[tx.da_pointer]? with
  | none =>
    rw [hs, Option.map_none, Option.map_eq_none_iff] at hptr
    rw [hptr, hb]
    simp [ok_or]
  | some s =>
    rw [hs, Option.map_some] at hptr
    obtain ⟨d, hd, hvals⟩ := Option.map_eq_some_iff.mp hptr
    rw [hd]
    change Except.ok (d.vals.length, dense_coords d.vals) = Except.ok (s.n, s.coords)
    rw [hvals, dense_coords_densify, Decoders.densify, List.length_map, List.length_range]

/-! ## Verified marks -/

/-- The bodies whose check the tree skips have the right hash. -/
def HonestMarks (verified : StrSet) (b : Block) : Prop :=
  ∀ tx ∈ b.txs, tx.txid ∈ verified → ∀ n coords, body_coords b tx = .ok (n, coords) →
    delta_hash_sparse n coords = tx.delta_hash

omit [Crypto] in
theorem mapM_ok_of {α β ε : Type} {f g : α → Except ε β} {xs : List α} {ys : List β} (h : xs.mapM f = .ok ys)
    (hfg : ∀ x ∈ xs, ∀ y, f x = .ok y → g x = .ok y) : xs.mapM g = .ok ys := by
  rw [mapM_eq_ok] at h ⊢
  induction h with
  | nil => exact .nil
  | cons hx _ ih =>
    exact .cons (hfg _ List.mem_cons_self _ hx) (ih fun x hx => hfg x (List.mem_cons_of_mem _ hx))

namespace BlockTree

variable {t t' : BlockTree} {b b' : Block} {p : Parent} {staged : Staged}

/-- The marks do not outlive the process. -/
def unmarked (t : BlockTree) : BlockTree := { t with hash_verified := ∅ }

/-- The block as it is decoded live and after a restart. -/
structure SameRules (b b' : Block) : Prop where
  header : b'.header = b.header
  txs : b'.txs = b.txs
  coords : ∀ tx, body_coords b' tx = body_coords b tx
  inner : ∀ height led dc jurors model params, validate_inner b' none height led dc jurors model params =
    validate_inner b none height led dc jurors model params

theorem SameRules.hash (h : SameRules b b') : b'.hash = b.hash := by
  unfold Block.hash
  rw [h.header]

theorem check_sparse_tx_unmarked (h : SameRules b b') {model : ModelState} {tx : BackpropTx} {coords : List (UInt32 × Int64)}
    (hmark : tx.txid ∈ t.hash_verified → ∀ n coords, body_coords b tx = .ok (n, coords) →
      delta_hash_sparse n coords = tx.delta_hash)
    (hok : t.check_sparse_tx b model tx = .ok coords) : t.unmarked.check_sparse_tx b' model tx = .ok coords := by
  unfold check_sparse_tx at hok ⊢
  rw [h.coords]
  simp only [bind_eq_ok, require_eq_ok, exists_unit] at hok ⊢
  obtain ⟨r, hr, hlen, hhash, hrest⟩ := hok
  refine ⟨r, hr, hlen, .inr ?_, hrest⟩
  rcases hhash with hverified | hhash
  · exact hmark hverified r.1 r.2 hr
  · exact hhash

theorem validate_at_base_unmarked (h : SameRules b b') (hmarks : HonestMarks t.hash_verified b)
    (hok : t.validate_at_base b p = .ok staged) : t.unmarked.validate_at_base b' p = .ok staged := by
  have hroot : t.unmarked.state_root_with = t.state_root_with := state_root_with_congr rfl rfl
  have hagg (spans : List (Nat × Nat)) (coords : List (List (UInt32 × Int64))) :
      page_aggregate b' spans coords = page_aggregate b spans coords := by
    have hpage : aggregate_page b' = aggregate_page b := by
      funext coords agg page
      unfold aggregate_page claimants_of
      rw [h.txs]
    unfold page_aggregate
    rw [hpage]
  unfold validate_at_base at hok ⊢
  rw [h.txs, h.header, hroot]
  simp only [hagg, h.inner, bind_eq_ok] at hok ⊢
  obtain ⟨coords, hcoords, hrest⟩ := hok
  refine ⟨coords, ?_, hrest⟩
  exact mapM_ok_of hcoords fun tx htx cs hcs => check_sparse_tx_unmarked h (hmarks tx htx) hcs

omit [Crypto] in
theorem prune_deep_unmarked (t : BlockTree) : t.unmarked.prune_deep = t.prune_deep.unmarked := by
  have hdepth : t.unmarked.prune_depth = t.prune_depth := rfl
  unfold prune_deep
  cases hd : t.prune_depth with
  | none => simp only [hdepth, hd]
  | some depth =>
    simp only [hdepth, hd]
    rfl

omit [Crypto] in
theorem commit_staged_unmarked (t : BlockTree) (bh : String) (header : Header) (staged : Staged) (work : UInt64) :
    t.unmarked.commit_staged bh header staged work = (t.commit_staged bh header staged work).unmarked := by
  unfold commit_staged
  exact prune_deep_unmarked { t.record bh header staged work with
    canon := apply_redo t.canon staged.agg.toList ++ staged.init_pages.flatten
    page_leaves := staged.new_leaves
    head := bh }

theorem rewind_to_unmarked (t : BlockTree) (target : String) :
    t.unmarked.rewind_to target = ((t.rewind_to target).1, (t.rewind_to target).2.unmarked) := by
  have hwalk : t.unmarked.fork_walk target = t.fork_walk target := rfl
  have hmodel : t.unmarked.model = t.model := rfl
  have hundo : t.unmarked.undo = t.undo := rfl
  have hredo : t.unmarked.redo = t.redo := rfl
  unfold rewind_to
  rw [hwalk]
  cases t.fork_walk target with
  | error e => rfl
  | ok walks =>
    simp only [hmodel, hundo, hredo]
    split
    · rfl
    · cases t.model[target]? with
      | none => rfl
      | some m => rfl

/-- A rewind moves canon and the leaf cache only. -/
theorem rewind_to_verified (t : BlockTree) (target : String) :
    (t.rewind_to target).2.hash_verified = t.hash_verified := by
  unfold rewind_to
  cases t.fork_walk target with
  | error e => rfl
  | ok walks =>
    simp only
    split
    · rfl
    · cases t.model[target]? with
      | none => rfl
      | some m => rfl

/-- What the live tree accepts, the tree without marks accepts too. -/
theorem add_block_unmarked {r : Bool} (h : SameRules b b') (hmarks : HonestMarks t.hash_verified b) (hfull : t.held = none)
    (hok : (t.add_block b).1 = .ok r) : t.unmarked.add_block b' = (.ok r, (t.add_block b).2.unmarked) := by
  have hblocks : t.unmarked.blocks = t.blocks := rfl
  have hconvicted : t.unmarked.convicted = t.convicted := rfl
  have hheld : t.unmarked.held = t.held := rfl
  have hhead : t.unmarked.head = t.head := rfl
  have hentries (x : String) : t.unmarked.parent_entries x = t.parent_entries x := rfl
  unfold add_block at hok ⊢
  rw [h.hash, h.header, hblocks, hconvicted, hheld, hhead]
  simp only [hfull, Option.isSome_none, Bool.false_eq_true, if_false] at hok ⊢
  by_cases hknown : t.blocks.contains b.hash = true
  · rw [if_pos hknown] at hok ⊢
    rw [if_pos hknown]
    exact Prod.ext hok rfl
  rw [if_neg hknown] at hok ⊢
  rw [if_neg hknown]
  by_cases hline : b.hash ∈ t.convicted ∨ b.header.prev_hash ∈ t.convicted
  · rw [if_pos hline] at hok
    cases hok
  rw [if_neg hline] at hok ⊢
  rw [if_neg hline]
  by_cases hextends : b.header.prev_hash = t.head
  · rw [if_pos hextends] at hok ⊢
    rw [if_pos hextends]
    unfold connect_extend at hok ⊢
    rw [hhead, hentries]
    cases hp : t.parent_entries t.head with
    | error e =>
      rw [hp] at hok
      cases hok
    | ok p =>
      rw [hp] at hok
      simp only at hok ⊢
      cases hv : t.validate_at_base b p with
      | error e =>
        rw [hv] at hok
        cases hok
      | ok staged =>
        rw [hv] at hok
        rw [validate_at_base_unmarked h hmarks hv, h.hash, h.header]
        exact Prod.ext hok (commit_staged_unmarked ..)
  · rw [if_neg hextends] at hok ⊢
    rw [if_neg hextends]
    unfold connect_side at hok ⊢
    rw [h.header, h.hash, hentries, rewind_to_unmarked]
    have hverified := rewind_to_verified t b.header.prev_hash
    cases hp : t.parent_entries b.header.prev_hash with
    | error e =>
      rw [hp] at hok
      cases hok
    | ok p =>
      rw [hp] at hok
      simp only at hok ⊢
      rcases hr : t.rewind_to b.header.prev_hash with ⟨e | plan, t₁⟩
      · rw [hr] at hok
        cases hok
      · rw [hr] at hok hverified
        simp only at hok hverified ⊢
        cases hv : t₁.validate_at_base b p with
        | error e =>
          rw [hv] at hok
          cases hok
        | ok staged =>
          have houtweighs (bh : String) (w : UInt64) : t₁.unmarked.outweighs bh w = t₁.outweighs bh w := rfl
          rw [hv] at hok
          rw [validate_at_base_unmarked h (hverified ▸ hmarks) hv]
          simp only [houtweighs] at hok ⊢
          split at hok
          · next hbest =>
            rw [if_pos hbest, if_pos hbest]
            exact Prod.ext hok (commit_staged_unmarked ..)
          · next hbest =>
            rw [if_neg hbest, if_neg hbest]
            exact Prod.ext hok (prune_deep_unmarked
              ((t₁.record b.hash b.header staged (saturating_add p.work (max b.header.work 1))).roll_forward plan))

theorem add_block_head (hnew : t.blocks.contains b.hash = false) (hconvicted : ∀ x, x ∉ t.convicted)
    (hfull : t.held = none) (hprev : b.header.prev_hash = t.head) (hentries : t.parent_entries t.head = .ok p)
    (hvalid : t.validate_at_base b p = .ok staged) : (t.add_block b).1 = .ok true := by
  unfold add_block connect_extend
  simp only [hnew, Bool.false_eq_true, hconvicted, or_self, if_false, hfull, Option.isSome_none, hprev, if_true,
    hentries, hvalid]

omit [Crypto] in
theorem parent_entries_depth (t : BlockTree) (depth : Option UInt64) (x : String) :
    parent_entries { t with prune_depth := depth } x = t.parent_entries x := rfl

theorem validate_at_base_depth (t : BlockTree) (depth : Option UInt64) (b : Block) (p : Parent) :
    validate_at_base { t with prune_depth := depth } b p = t.validate_at_base b p := validate_at_base_congr b p rfl rfl rfl rfl rfl

end BlockTree

/-! ## The run and its log -/

/-- The calls of a node without fraud proofs: the depth of retention is set once, at the start. -/
def PlainCall : BlockTree → Op → Prop
  | t, .add_block b => HonestMarks t.hash_verified b
  | _, .with_state_at _ => True
  | _, .mark_verified _ => True
  | _, .convict _ => False
  | _, .set_prune_depth _ => False

/-- What a call appends to the log: a block that the tree takes and did not have. -/
def appended (t : BlockTree) : Op → List Block
  | .add_block b => if !t.blocks.contains b.hash && (t.add_block b).1.isOk then [b] else []
  | _ => []

/-- The log of a run. -/
def persisted : BlockTree → List Op → List Block
  | _, [] => []
  | t, op :: ops => appended t op ++ persisted (t.step op) ops

/-- A fresh node. -/
def fresh (genesis_w : List Int64) (dc : Option String) (params : GenesisParams) (prune_depth : UInt64) : BlockTree :=
  { BlockTree.new genesis_w dc params with prune_depth := some prune_depth }

variable [Serde] {st : Store}

/-- What is on disk for a block: its record, and bodies from which the block decodes. -/
structure Written (st : Store) (sb : StoredBlock) (b : Block) : Prop where
  decodes : sb.to_core_sparse (st.gather sb) = some b
  stated : ∀ (id : String) p, (st.gather sb)[id]? = some p → Decoders.WellStated p

theorem Written.frame {sb : StoredBlock} {b : Block} (h : Written st sb b) : b.bodies = ∅ ∧ b.hash = sb.hash := by
  have hdecodes := h.decodes
  simp only [StoredBlock.to_core_sparse, Option.bind_eq_bind, Option.bind_eq_some_iff] at hdecodes
  obtain ⟨txs, -, transfers, -, data_txs, -, sparse, -, hb⟩ := hdecodes
  rw [← Option.some.inj hb]
  exact ⟨rfl, rfl⟩

theorem Written.same_rules {sb : StoredBlock} {b : Block} (h : Written st sb b) :
    ∃ b', sb.to_core (st.gather sb) = .ok b' ∧ SameRules b b' := by
  obtain ⟨bodies, hdense, hbodies⟩ := (Decoders.same_block h.stated sb).accepts b h.decodes
  refine ⟨_, hdense, rfl, rfl, body_coords_dense h.frame.1 hbodies, fun height led dc jurors model params => ?_⟩
  exact validate_inner_dense b bodies ∅ height led dc jurors model params

variable {genesis_w : List Int64} {params : GenesisParams} {n : Logged} {S : String → List Int64 × ModelState}

/-- What the served index holds of a log. -/
def index_of (index : Dict StoredBlock) (stored : List StoredBlock) : Dict StoredBlock :=
  stored.foldl (fun m sb => m.insert sb.hash sb) index

omit [Crypto] [Serde] in
theorem exists_of_isOk {α ε : Type} {x : Except ε α} (h : x.isOk = true) : ∃ a, x = .ok a := by
  cases x with
  | error e => cases h
  | ok a => exact ⟨a, rfl⟩

omit [Serde] in
theorem appended_ne_nil {t : BlockTree} {op : Op} (h : appended t op ≠ []) :
    ∃ b, op = .add_block b ∧ t.blocks.contains b.hash = false ∧ (t.add_block b).1.isOk = true := by
  cases op with
  | add_block b =>
    refine ⟨b, rfl, ?_⟩
    have hif : appended t (.add_block b) =
        if !t.blocks.contains b.hash && (t.add_block b).1.isOk then [b] else [] := rfl
    rw [hif] at h
    split at h
    · next hc => simpa using hc
    · exact absurd rfl h
  | with_state_at target => exact absurd rfl h
  | mark_verified txid => exact absurd rfl h
  | convict x => exact absurd rfl h
  | set_prune_depth depth => exact absurd rfl h

omit [Serde] in
/-- A call that appends nothing changes nothing but the marks. -/
theorem Coherent.appends_nothing (hc : Coherent genesis_w params n S) {op : Op} (hplain : PlainCall n.tree op)
    (hnone : appended n.tree op = []) : (n.step op).tree.unmarked = n.tree.unmarked := by
  cases op with
  | add_block b =>
    have hstep : (n.step (.add_block b)).tree = (n.tree.add_block b).2 := rfl
    rw [hstep]
    rcases hc.add_block_cases b with ⟨e, he⟩ | ⟨-, he⟩ | ⟨p, staged, ha, he⟩
    · rw [he]
    · rw [he]
    · have hfresh : n.tree.blocks.contains b.hash = false :=
        Bool.eq_false_iff.mpr fun h => ha.fresh (Std.ExtTreeMap.contains_iff_mem.mp h)
      have happends : appended n.tree (.add_block b) = [b] := by
        unfold appended
        simp only [hfresh, he]
        rfl
      rw [happends] at hnone
      cases hnone
  | with_state_at target =>
    have hstep : (n.step (.with_state_at target)).tree = (n.tree.with_state_at target id).2 := rfl
    rw [hstep]
    rcases hc.with_state_at_cases target id with ⟨e, he⟩ | ⟨-, he⟩ <;> rw [he]
  | mark_verified txid => rfl
  | convict h => exact hplain.elim
  | set_prune_depth depth => exact hplain.elim

/-- The blocks that a restart decodes from the records. -/
def Reads (st : Store) (stored : List StoredBlock) (blocks : List Block) : Prop :=
  List.Forall₂ (fun sb b => sb.to_core (st.gather sb) = .ok b) stored blocks

omit [Serde] in
/-- Every block of the list is taken in its turn. -/
def TakesLog : BlockTree → List Block → Prop
  | _, [] => True
  | t, b :: blocks => (t.add_block b).1.isOk = true ∧ TakesLog (t.add_block b).2 blocks

/-- The log of a run is taken again, and leads where the run ended. -/
theorem Coherent.log_replays (hc : Coherent genesis_w params n S) {ops : List Op} (hplain : Along PlainCall n.tree ops)
    {stored : List StoredBlock} (hw : List.Forall₂ (Written st) stored (persisted n.tree ops)) :
    ∃ blocks, Reads st stored blocks ∧ List.Forall₂ SameRules (persisted n.tree ops) blocks ∧
      TakesLog n.tree.unmarked blocks ∧ n.tree.unmarked.run (deliver blocks) = (n.run ops).tree.unmarked := by
  induction ops generalizing n S stored with
  | nil =>
    rw [persisted, List.forall₂_nil_right_iff] at hw
    subst hw
    exact ⟨[], .nil, .nil, trivial, rfl⟩
  | cons op ops ih =>
    obtain ⟨hop, hrest⟩ := hplain
    obtain ⟨S', hc', -⟩ := hc.step op
    have hrun : n.run (op :: ops) = (n.step op).run ops := rfl
    have hpersisted : persisted n.tree (op :: ops) = appended n.tree op ++ persisted (n.step op).tree ops := rfl
    rw [hpersisted] at hw ⊢
    rw [hrun]
    by_cases hnone : appended n.tree op = []
    · rw [hnone, List.nil_append] at hw ⊢
      obtain ⟨blocks, hreads, hrules, htakes, hend⟩ := ih hc' hrest hw
      rw [hc.appends_nothing hop hnone] at htakes hend
      exact ⟨blocks, hreads, hrules, htakes, hend⟩
    · obtain ⟨b, rfl, hfresh, hok⟩ := appended_ne_nil hnone
      have happends : appended n.tree (.add_block b) = [b] := if_pos (by simp [hfresh, hok])
      rw [happends, List.singleton_append] at hw ⊢
      obtain ⟨sb, rest, hsb, htail, rfl⟩ := List.forall₂_cons_right_iff.mp hw
      obtain ⟨b', hdense, hrules⟩ := hsb.same_rules
      obtain ⟨took, htook⟩ := exists_of_isOk hok
      have hadd := add_block_unmarked hrules hop hc.shape.full htook
      obtain ⟨blocks, hreads, hrest_rules, htakes, hend⟩ := ih hc' hrest htail
      refine ⟨b' :: blocks, .cons hdense hreads, .cons hrules hrest_rules, ⟨by rw [hadd]; rfl, ?_⟩, ?_⟩
      · rw [hadd]
        exact htakes
      · have hdeliver : n.tree.unmarked.run (deliver (b' :: blocks)) =
            (n.tree.unmarked.add_block b').2.run (deliver blocks) := rfl
        rw [hdeliver, hadd]
        exact hend

/-- Where every block is taken, a full replay adds them one after the other. -/
theorem full_replay_from_taken {stored : List StoredBlock} {blocks : List Block} (hreads : Reads st stored blocks)
    {r : Rebuilt} (htakes : TakesLog r.tree blocks) : ∃ cache, st.full_replay_from r stored =
      .ok { tree := r.tree.run (deliver blocks), index := index_of r.index stored, cache } := by
  induction hreads generalizing r with
  | nil => exact ⟨r.cache, rfl⟩
  | @cons sb b stored blocks hdense _ ih =>
    obtain ⟨hok, hrest⟩ := htakes
    obtain ⟨took, htook⟩ := exists_of_isOk hok
    have hadd : r.tree.add_block b = (.ok took, (r.tree.add_block b).2) := Prod.ext htook rfl
    let r' : Rebuilt := {
      tree := (r.tree.add_block b).2, index := r.index.insert sb.hash sb
      cache := Store.keep_all r.cache (st.gather sb) }
    obtain ⟨cache, hreplay⟩ := ih (show TakesLog r'.tree blocks from hrest)
    refine ⟨cache, ?_⟩
    rw [Store.full_replay_from]
    simp only [hdense]
    rw [hadd]
    exact hreplay

/-- A full replay of the log of a run, with the bodies that are on disk, gives the tree that the node had, without
the marks of verified bodies, and serves the blocks of the log. -/
theorem full_replay_restores (st : Store) (genesis_w : List Int64) (dc : Option String) (params : GenesisParams)
    (prune_depth : UInt64) (hw : genesis_w.length = (ModelState.genesis params.spec).dim) (ops : List Op)
    (hplain : Along PlainCall (fresh genesis_w dc params prune_depth) ops) (stored : List StoredBlock)
    (hwritten : List.Forall₂ (Written st) stored (persisted (fresh genesis_w dc params prune_depth) ops)) :
    ∃ cache, st.full_replay genesis_w stored dc prune_depth params =
      .ok { tree := ((fresh genesis_w dc params prune_depth).run ops).unmarked, index := index_of ∅ stored, cache } := by
  let n : Logged := { Logged.new genesis_w dc params with tree := fresh genesis_w dc params prune_depth }
  have hc : Coherent genesis_w params n fun _ => (genesis_w, ModelState.genesis params.spec) :=
    (coherent_new hw dc).congr_marks (some prune_depth) ∅ ∅
  obtain ⟨blocks, hreads, -, htakes, hend⟩ := hc.log_replays hplain hwritten
  let r : Rebuilt := { tree := fresh genesis_w dc params prune_depth, index := ∅, cache := ∅ }
  obtain ⟨cache, hreplay⟩ := full_replay_from_taken hreads (show TakesLog r.tree blocks from htakes)
  rw [Logged.run_tree] at hend
  refine ⟨cache, ?_⟩
  rw [← hend]
  exact hreplay

end Any

open scoped Toy

namespace Toy

/-- A node that keeps a hundred blocks, with the owned genesis data. -/
def archive : BlockTree := fresh [5] (some "owner") params 100

/-- The disk with the body of the one delta. -/
def zero_disk : Store := { Store.empty with payloads := (∅ : Dict (List UInt8)).insert zero_id (Serde.to_vec zero_payload) }

theorem archive_new : archive.blocks.contains zero_block.hash = false := by
  refine Bool.eq_false_iff.mpr fun hc => ?_
  have hmem : zero_block.hash ∈ (∅ : Dict Header).insert owned.head (genesis_header [5] params) :=
    Std.ExtTreeMap.contains_iff_mem.mp hc
  rcases (mem_insert_iff _ _ _ _).mp hmem with he | he
  · have hdist := hashes_distinct
    simp [he] at hdist
  · exact absurd he Std.ExtTreeMap.not_mem_empty

theorem archive_takes : (archive.add_block zero_block).1 = .ok true := by
  have hentries : archive.parent_entries archive.head = .ok owned_parent :=
    (parent_entries_depth owned (some 100) owned.head).trans owned_entries
  have hvalid : archive.validate_at_base zero_block owned_parent =
      .ok (delta_staged owned owned_parent zero_draft zero_body.coords) :=
    (validate_at_base_depth owned (some 100) zero_block owned_parent).trans (validate_delta zero_ready zero_body_rules)
  exact add_block_head archive_new (fun x => Std.ExtTreeSet.not_mem_empty) rfl rfl hentries hvalid

theorem archive_logs : persisted archive [.add_block zero_block] = [zero_block] := by
  have happends : appended archive (.add_block zero_block) =
      if !archive.blocks.contains zero_block.hash && (archive.add_block zero_block).1.isOk then [zero_block] else [] := rfl
  rw [archive_new, archive_takes] at happends
  rw [persisted, happends, persisted, List.append_nil]
  rfl

theorem zero_gathered : zero_disk.gather zero_stored = (∅ : Dict Payload).insert zero_id zero_payload := by
  have hfile : zero_disk.payloads[zero_id]? = some (Serde.to_vec zero_payload) := Std.ExtTreeMap.getElem?_insert_self
  have hread : zero_disk.get_payload (zero_tx (key 7)).txid = some zero_payload := by
    rw [Store.get_payload, show (zero_tx (key 7)).txid = zero_id from rfl, hfile, Option.bind_some]
    simp [Serde.from_slice, Serde.to_vec]
  have hdeltas : zero_stored.deltas = [zero_tx (key 7)] := by
    unfold StoredBlock.deltas
    simp only [zero_stored, List.filterMap_cons, Node.to_core_from_core, List.filterMap_nil]
  rw [Store.gather, hdeltas, List.foldl_cons, List.foldl_nil, hread]
  rfl

theorem zero_stated : Decoders.WellStated zero_payload := by
  have hzero : unb64 "AAAAAA==" = some [0, 0, 0, 0] := by decide +kernel
  refine ⟨show 1 * 8 < 2 ^ 63 by norm_num, fun idx val hidx hval => ?_⟩
  obtain rfl : [0, 0, 0, 0] = idx := Option.some.inj (hzero.symm.trans hidx)
  obtain rfl : [0, 0, 0, 0] = val := Option.some.inj (hzero.symm.trans hval)
  refine ⟨rfl, fun i hi => ?_⟩
  have hword : words [0, 0, 0, 0] = [0] := rfl
  rw [hword, List.mem_singleton] at hi
  rw [hi]
  exact Nat.one_pos

theorem zero_written : Written zero_disk zero_stored zero_block := by
  refine ⟨zero_decodes ?_, fun id p hp => ?_⟩
  · rw [zero_gathered]
    exact Std.ExtTreeMap.getElem?_insert_self
  · rw [zero_gathered, SumMap.get_insert] at hp
    split at hp
    · rw [← Option.some.inj hp]
      exact zero_stated
    · simp at hp

end Toy

/-- The log of one block with a delta, whose body is on disk. -/
theorem full_replay_restores_delta : ∃ cache, Toy.zero_disk.full_replay [5] [Toy.zero_stored] (some "owner") 100 Toy.params =
    .ok { tree := (Toy.archive.run [.add_block Toy.zero_block]).unmarked, index := index_of ∅ [Toy.zero_stored], cache } := by
  refine full_replay_restores Toy.zero_disk [5] (some "owner") Toy.params 100 (by decide) [.add_block Toy.zero_block]
    ⟨fun tx _ hmark => absurd hmark Std.ExtTreeSet.not_mem_empty, trivial⟩ _ ?_
  change List.Forall₂ (Written Toy.zero_disk) [Toy.zero_stored] (persisted Toy.archive [.add_block Toy.zero_block])
  rw [Toy.archive_logs]
  exact .cons Toy.zero_written .nil

end Sestrian
