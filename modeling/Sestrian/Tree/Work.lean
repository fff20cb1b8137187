import Sestrian.Tree.Tip

/-!
# Work is earned in the lottery

The validator skips the lottery for a proposer named "genesis", in any block. As long as no
block uses that name, every block's work is the one its proof gives.
-/

open Walk Check

namespace Sestrian

open Aggregate Pages BlockTree

section Any

variable [Crypto]

/-! ## The bound on one block -/

theorem attempt_work_le (proof : List UInt8) (attempt : UInt64) :
    (lottery.attempt_work proof attempt).toNat ≤ 257 := by
  have h := vrf_work_le proof
  have hshift : (lottery.vrf_work proof >>> min attempt 63).toNat ≤ (lottery.vrf_work proof).toNat := by
    rw [UInt64.toNat_shiftRight]
    exact Nat.shiftRight_le _ _
  rw [lottery.attempt_work, toNat_max]
  exact max_le (hshift.trans h) (by decide)

/-! ## Earned work -/

def proof_of (hd : Header) : List UInt8 := (hex_decode hd.vrf_proof).getD []

/-- The header's proof is its proposer's own, wins the slot against the parent's ledger, and
gives the header's work. -/
structure Earned (hd : Header) (parent_ledger : TokenLedger) : Prop where
  signed : verify_sig hd.proposer (lottery.seed hd.prev_hash hd.height hd.vrf_attempt) (proof_of hd) = true
  eligible : lottery.eligible hd.proposer (proof_of hd) hd.prev_hash hd.height hd.vrf_attempt
    (parent_ledger.balance (address hd.proposer)) parent_ledger.supply = true
  work : hd.work = lottery.attempt_work (proof_of hd) hd.vrf_attempt
  bounded : hd.work.toNat ≤ 257

/-- No block of the tree has work that it did not earn. -/
structure WorkIsEarned (t : BlockTree) : Prop where
  blocks : ∀ h hd, t.blocks[h]? = some hd → h ≠ t.genesis_hash →
    ∃ led, t.ledger[hd.prev_hash]? = some led ∧ Earned hd led
  chains : ∀ h l w, Path t.parent t.genesis_hash h l → t.cum_work[h]? = some w → w.toNat ≤ 257 * (l.length - 1)

theorem earned_of_lottery {hd : Header} {led : TokenLedger} (hp : hd.proposer ≠ "genesis")
    (h : check_lottery hd led = .ok ()) : Earned hd led := by
  simp only [check_lottery, hp, if_false, bind_eq_ok, require_eq_ok, exists_unit] at h
  obtain ⟨-, helig, hwork⟩ := h
  have hsigned : verify_sig hd.proposer (lottery.seed hd.prev_hash hd.height hd.vrf_attempt) (proof_of hd) = true := by
    by_contra hno
    simp only [Bool.not_eq_true] at hno
    unfold proof_of at hno
    simp [lottery.eligible, hno] at helig
  exact ⟨hsigned, helig, hwork, by rw [hwork]; exact attempt_work_le _ _⟩

theorem accepts_lottery {t : BlockTree} {S : String → List Int64 × ModelState} {b : Block} {p : Parent}
    {staged : Staged} (ha : t.Accepts S b p staged) : check_lottery b.header p.ledger = .ok () := by
  have h := ha.valid
  simp only [validate_at_base, validate_inner, check_header, bind_eq_ok, require_eq_ok, exists_unit] at h
  obtain ⟨-, -, v, ⟨⟨-, -, -, hl⟩, -⟩, -⟩ := h
  exact hl

variable {genesis_w : List Int64} {params : GenesisParams} {n : Logged} {S : String → List Int64 × ModelState}

theorem WorkIsEarned.of_same {t t' : BlockTree} (h : WorkIsEarned t) (hs : SameEntries t t') : WorkIsEarned t' := by
  have hpar : t'.parent = t.parent := by
    funext x
    simp [parent, hs.blocks]
  refine ⟨?_, ?_⟩
  · rw [hs.blocks, hs.ledger, hs.genesis_hash]
    exact h.blocks
  · rw [hpar, hs.cum_work, hs.genesis_hash]
    exact h.chains

theorem workIsEarned_new (dc : Option String) : WorkIsEarned (BlockTree.new genesis_w dc params) := by
  have hkey {ν : Type} {g x : String} {v w : ν} (h : ((∅ : Dict ν).insert g v)[x]? = some w) : g = x ∧ v = w := by
    simp only [SumMap.get_insert] at h
    split at h
    · next hx => exact ⟨hx, Option.some.inj h⟩
    · simp at h
  refine ⟨fun h hd hb hne => absurd (hkey hb).1.symm hne, fun h l w hl hw => ?_⟩
  rw [← (hkey hw).2]
  simp

/-- One connected block, with work it earned, keeps all work earned. -/
theorem WorkIsEarned.connect (h : WorkIsEarned n.tree) (hc : Coherent genesis_w params n S) {b : Block}
    {p : Parent} {staged : Staged} (ha : n.tree.Accepts S b p staged) (hp : b.header.proposer ≠ "genesis") :
    WorkIsEarned (n.tree.connected S b p staged).prune_deep := by
  have hearned := earned_of_lottery hp (accepts_lottery ha)
  have hshape := (hc.accept ha).shape
  have hpl := (parent_entries_spec ha.entries).2.1
  have hpw := (parent_entries_spec ha.entries).2.2.1
  have hne : b.header.prev_hash ≠ b.hash := fun he => ha.fresh (he ▸ ha.parent_known)
  refine ⟨fun x hd hb hxg => ?_, fun x l w hl hw => ?_⟩
  · simp only [prune_deep_frame, connected_frame, SumMap.get_insert] at hb hxg ⊢
    split at hb
    · obtain rfl := Option.some.inj hb
      exact ⟨p.ledger, by simpa [hne.symm] using hpl, hearned⟩
    · obtain ⟨led, hled, he⟩ := h.blocks x hd hb hxg
      have hpk := hc.shape.parent_known (h := x) (p := hd.prev_hash) (by simp [parent, hb]) hxg
      have : b.hash ≠ hd.prev_hash := fun hbh => ha.fresh (hbh ▸ hpk)
      exact ⟨led, by simpa [this] using hled, he⟩
  · have hx := hshape.line_known hl x hl.start_mem
    simp only [prune_deep_frame, connected_frame, SumMap.get_insert] at hl hw hx
    rcases (mem_insert_iff _ _ _ _).mp hx with rfl | hx
    · obtain ⟨lp, rfl, hlp⟩ := (hc.connected_new_line ha l).mp hl
      have hprev := h.chains _ _ _ hlp hpw
      have hlen : 0 < lp.length := List.length_pos_of_mem hlp.root_mem
      obtain rfl : work_with p b = w := by simpa using hw
      have hb := hearned.bounded
      simp only [work_with, toNat_saturating_add, toNat_max, List.length_cons,
        show (1 : UInt64).toNat = 1 from rfl]
      omega
    · have hbx : b.hash ≠ x := fun he => ha.fresh (he ▸ hx)
      exact h.chains x l w ((hc.connected_line ha hx l).mp hl) (by simpa [hbx] using hw)

/-- No block delivered so far names "genesis" as its proposer. -/
def NoGenesisProposer (ops : List Op) : Prop :=
  ∀ b, Op.add_block b ∈ ops → b.header.proposer ≠ "genesis"

theorem workIsEarned_run (ops : List Op) (hops : NoGenesisProposer ops) (hc : Coherent genesis_w params n S)
    (h : WorkIsEarned n.tree) : WorkIsEarned (n.run ops).tree := by
  induction ops generalizing n S with
  | nil => exact h
  | cons op ops ih =>
    obtain ⟨S', hc', -⟩ := hc.step op
    refine ih (fun b hb => hops b (List.mem_cons_of_mem _ hb)) hc' ?_
    rcases hc.step_entries op with hs | ⟨b, p, staged, rfl, ha, ht⟩
    · exact h.of_same hs
    · rw [ht]
      exact h.connect hc ha (hops b List.mem_cons_self)

theorem work_is_earned (genesis_w : List Int64) (dc : Option String) (params : GenesisParams)
    (hw : genesis_w.length = (ModelState.genesis params.spec).dim) (ops : List Op) (hops : NoGenesisProposer ops) :
    WorkIsEarned ((BlockTree.new genesis_w dc params).run ops) := by
  have := workIsEarned_run ops hops (coherent_new hw dc) (workIsEarned_new dc)
  rwa [Logged.run_tree] at this

/-! ## The name that needs no key -/

/-- An empty block by "genesis" on top of the head enters with the work it declares. -/
theorem Coherent.keyless_enters {genesis_w : List Int64} {params : GenesisParams} {n : Logged}
    {S : String → List Int64 × ModelState} (hc : Coherent genesis_w params n S) (hu : n.tree.Unpruned) {p : Parent}
    (hp : n.tree.parent_entries n.tree.head = .ok p) (vrf_proof : String) (vrf_attempt work : UInt64) (b : Block)
    (hb : empty_block n.tree p n.tree.head "genesis" vrf_proof vrf_attempt work = b) (hfresh : b.hash ∉ n.tree.blocks)
    (hconv : n.tree.convicted = ∅) : ¬ WorkIsEarned (n.tree.run [.add_block b]) := by
  have hprev : b.header.prev_hash = n.tree.head := hb ▸ rfl
  have hprop : b.header.proposer = "genesis" := hb ▸ rfl
  have hlot : check_lottery b.header p.ledger = .ok () := by
    rw [check_lottery, if_pos hprop]
    rfl
  have hvalid : n.tree.validate_at_base b p = .ok (empty_staged n.tree p b) := by
    rw [← hb] at hlot ⊢
    exact validate_empty _ _ _ _ _ _ _ hlot
  have hmoved : n.tree.moved_to S b.header.prev_hash = n.tree := by
    rw [moved_to, leaves_at, if_pos hprev, hprev, ← hc.canon]
  have ha : n.tree.Accepts S b p (empty_staged n.tree p b) := by
    refine ⟨hfresh, by simp [hconv], hprev ▸ hc.shape.head_known, hprev.symm ▸ hp, absurd hprev, ?_⟩
    rw [hmoved]
    exact hvalid
  intro h
  have hrun : n.tree.run [.add_block b] = n.tree.connected S b p (empty_staged n.tree p b) :=
    congrArg Prod.snd (hc.add_block_accepts hu ha)
  rw [hrun] at h
  have hne : b.hash ≠ n.tree.genesis_hash := fun he => hfresh (he ▸ hc.shape.genesis_known)
  obtain ⟨led, -, he⟩ := h.blocks b.hash b.header (by simp [connected_frame]) (by simpa [connected_frame] using hne)
  have hsig := he.signed
  simp [verify_sig, hprop, show hex_decode "genesis" = none by decide] at hsig

end Any

open scoped Toy

/-- A block that the holder of a key won, on top of genesis. -/
def won : Block := Toy.block_by Toy.start Toy.genesis_parent Toy.start.head (Toy.key 1)

theorem won_fresh : won.hash ∉ [Toy.start.head] := by decide +kernel

theorem won_prev : won.header.prev_hash = Toy.start.head := by
  unfold won
  rfl

theorem won_enters : won.hash ∈ (Toy.start.run [.add_block won]).blocks := by
  have hv := Toy.block_by_valid Toy.start Toy.genesis_parent Toy.start.head (Toy.key 1)
  rw [← won] at hv
  have hadd := Toy.start_tip.add_block_at won_fresh won_prev Toy.start_entries hv
  rw [run, List.foldl_cons, List.foldl_nil, step, hadd, Toy.start_tip.commit_eq]
  exact (mem_insert_iff _ _ _ _).mpr (.inl rfl)

theorem work_is_earned_won : won.hash ∈ (Toy.start.run [.add_block won]).blocks ∧ NoGenesisProposer [.add_block won] ∧
    WorkIsEarned (Toy.start.run [.add_block won]) := by
  have hops : NoGenesisProposer [.add_block won] := by
    intro b hb
    obtain rfl : b = won := by simpa using hb
    exact hex_ne_genesis (Toy.key 1).val
  exact ⟨won_enters, hops, work_is_earned [5] none Toy.params (by decide) _ hops⟩

/-- A block on top of genesis that anyone can make: no key, no proof, any work. -/
def forged : Block := empty_block Toy.start Toy.genesis_parent Toy.start.head "genesis" "" 0 1000000

theorem forged_fresh : forged.hash ≠ Toy.start.head := by decide +kernel

theorem forged_work_is_accepted : ¬ WorkIsEarned (Toy.start.run [.add_block forged]) := by
  have hc : Coherent [5] Toy.params (.new [5] none Toy.params) _ := coherent_new (by decide) none
  refine hc.keyless_enters (unpruned_new none) Toy.start_entries "" 0 1000000 forged rfl (fun hk => ?_) rfl
  rcases (mem_insert_iff _ _ _ _).mp hk with h | h
  · exact forged_fresh h
  · simp at h

end Sestrian
