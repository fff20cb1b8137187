import Sestrian.Lib.Stripe
import Sestrian.Tree.Identity
import Sestrian.Paged.Bodies

/-!
# Lanes

The lanes of an epoch share out the active expert pages, and the backbone is in each of them.
-/

open Check

namespace Sestrian

open BlockTree

section Any

variable {m : ModelState} {lane_width : Nat}

/-! ## The pages of a kind -/

theorem mem_active_of {kind : PageKind} {i : Nat} :
    i ∈ active_of m kind ↔ ∃ pg, m.pages[i]? = some pg ∧ pg.kind = kind ∧ pg.status = .active := by
  unfold active_of ModelState.is_active
  rw [List.mem_filter, List.mem_range, decide_eq_true_eq, decide_eq_true_eq]
  constructor
  · rintro ⟨-, hkind, hstatus⟩
    obtain ⟨pg, hpg, rfl⟩ := Option.map_eq_some_iff.mp hkind
    rw [hpg] at hstatus
    exact ⟨pg, hpg, rfl, Option.some.inj hstatus⟩
  · rintro ⟨pg, hpg, rfl, hstatus⟩
    rw [hpg]
    exact ⟨(List.getElem?_eq_some_iff.mp hpg).1, rfl, congrArg some hstatus⟩

theorem nodup_active_of (m : ModelState) (kind : PageKind) : (active_of m kind).Nodup :=
  List.Nodup.filter _ List.nodup_range

/-- The page ids on the wire. -/
def ids (pages : List Nat) : List UInt32 := pages.map UInt32.ofNat

theorem active_lt {kind : PageKind} {i : Nat} (hi : i ∈ active_of m kind) : i < m.pages.length := by
  obtain ⟨pg, hpg, -⟩ := mem_active_of.mp hi
  exact (List.getElem?_eq_some_iff.mp hpg).1

theorem id_inj (hsmall : m.pages.length ≤ 2 ^ 32) {i j : Nat} (hi : i < m.pages.length) (hj : j < m.pages.length)
    (h : UInt32.ofNat i = UInt32.ofNat j) : i = j := by
  have h := congrArg UInt32.toNat h
  rwa [UInt32.toNat_ofNat_of_lt' (lt_of_lt_of_le hi hsmall), UInt32.toNat_ofNat_of_lt' (lt_of_lt_of_le hj hsmall)] at h

/-! ## The number of lanes -/

theorem n_lanes_pos (e w : Nat) : 0 < lanes.n_lanes e w := by
  unfold lanes.n_lanes
  split
  · exact Nat.one_pos
  · exact lt_of_lt_of_le Nat.one_pos (Nat.le_max_right _ _)

/-- With a lane's worth of experts, each lane gets that many. -/
theorem width_le_share {e w : Nat} (h : w ≤ e) : w ≤ e / lanes.n_lanes e w := by
  rw [Nat.le_div_iff_mul_le (n_lanes_pos e w)]
  unfold lanes.n_lanes
  split
  · rwa [Nat.mul_one]
  · rcases Nat.eq_zero_or_pos w with rfl | hw
    · rw [Nat.zero_mul]
      exact Nat.zero_le _
    · rw [Nat.max_eq_left hw]
      rcases Nat.le_total 1 (e / w) with hone | hone
      · rw [Nat.max_eq_left hone]
        exact Nat.mul_div_le e w
      · rw [Nat.max_eq_right hone, Nat.mul_one]
        exact h

theorem lane_pages_eq {n lane : Nat} (hlane : lane < n) : lane_pages m n lane = Stripe.stripe n lane (active_of m .expert) := by
  unfold lane_pages
  split
  · rename_i hn
    obtain rfl : n = 1 := by omega
    obtain rfl : lane = 0 := by omega
    simp [Stripe.stripe, Nat.mod_one]
  · rfl

theorem lane_of_miner_lt [Crypto] (epoch : UInt64) (miner : String) {n : Nat} (hn : 0 < n) :
    lanes.lane_of_miner epoch miner n < n := by
  unfold lanes.lane_of_miner
  split
  · exact hn
  · exact Nat.mod_lt _ hn

/-! ## The partition -/

variable [Crypto]

/-- The lanes of the model share out its active experts. -/
structure LanesPartition (m : ModelState) (lane_width : Nat) : Prop where
  disjoint : ∀ l < lanes_of m lane_width, ∀ l' < lanes_of m lane_width, l ≠ l' →
    ∀ p ∈ ids (lane_pages m (lanes_of m lane_width) l), p ∉ ids (lane_pages m (lanes_of m lane_width) l')
  cover : ∀ p, (∃ l < lanes_of m lane_width, p ∈ ids (lane_pages m (lanes_of m lane_width) l)) ↔ p ∈ ids (active_of m .expert)
  distinct : ∀ l < lanes_of m lane_width, (ids (lane_pages m (lanes_of m lane_width) l)).Nodup
  balanced : ∀ l < lanes_of m lane_width, ∀ l' < lanes_of m lane_width,
    (lane_pages m (lanes_of m lane_width) l).length ≤ (lane_pages m (lanes_of m lane_width) l').length + 1
  enough : lane_width ≤ (active_of m .expert).length → ∀ l < lanes_of m lane_width,
    lane_width ≤ (lane_pages m (lanes_of m lane_width) l).length
  claimable : ∀ (epoch : UInt64) (miner : String), ∃ l < lanes_of m lane_width, ∀ p,
    p ∈ lanes.claimable_pages epoch miner m lane_width ↔
      p ∈ ids (lane_pages m (lanes_of m lane_width) l) ∨ p ∈ ids (active_of m .backbone)
  unfrozen : ∀ (epoch : UInt64) (miner : String), ∀ p ∈ lanes.claimable_pages epoch miner m lane_width, m.is_active p.toNat

theorem claimable_iff (epoch : UInt64) (miner : String) (p : UInt32) :
    p ∈ lanes.claimable_pages epoch miner m lane_width ↔
      p ∈ ids (lane_pages m (lanes_of m lane_width) (lanes.lane_of_miner epoch miner (lanes_of m lane_width))) ∨
        p ∈ ids (active_of m .backbone) := by
  rw [claimable_eq, List.map_append, List.mem_append]
  rfl

/-- An accepted block's claims, each in the lane of its miner. -/
def LaneClaims (params : GenesisParams) (m : ModelState) (b : Block) : Prop :=
  ∀ tx ∈ b.txs, ∃ l < lanes_of m params.lane_width, ∀ p ∈ tx.canonical_pages,
    p ∈ ids (lane_pages m (lanes_of m params.lane_width) l) ∨ p ∈ ids (active_of m .backbone)

theorem lane_claims {params : GenesisParams} {height : UInt64} {tx : BackpropTx}
    (h : check_lane height m params tx = .ok ()) (hv5 : params.v5_height ≠ 0) (hheight : height ≥ params.v5_height) :
    ∃ l < lanes_of m params.lane_width, ∀ p ∈ tx.canonical_pages,
      p ∈ ids (lane_pages m (lanes_of m params.lane_width) l) ∨ p ∈ ids (active_of m .backbone) := by
  rw [check_lane, if_pos ⟨hv5, hheight⟩, require_eq_ok] at h
  exact ⟨_, lane_of_miner_lt _ _ (n_lanes_pos _ _), fun p hp => (claimable_iff _ _ p).mp (h p hp)⟩

theorem lanes_partition (hsmall : m.pages.length ≤ 2 ^ 32) : LanesPartition m lane_width := by
  have hn : 0 < lanes_of m lane_width := n_lanes_pos _ _
  have hnd := nodup_active_of m .expert
  have hinj : ∀ i ∈ active_of m .expert, ∀ j ∈ active_of m .expert, UInt32.ofNat i = UInt32.ofNat j → i = j :=
    fun i hi j hj => id_inj hsmall (active_lt hi) (active_lt hj)
  have hlen {l : Nat} (hl : l < lanes_of m lane_width) : (Stripe.stripe (lanes_of m lane_width) l (active_of m .expert)).length =
      (active_of m .expert).length / lanes_of m lane_width +
        if l < (active_of m .expert).length % lanes_of m lane_width then 1 else 0 := Stripe.length_stripe hl
  have hsub {l : Nat} (hl : l < lanes_of m lane_width) :
      (lane_pages m (lanes_of m lane_width) l).Sublist (active_of m .expert) := by
    rw [lane_pages_eq hl]
    exact Stripe.stripe_sublist
  constructor
  · intro l hl l' hl' hne p hp hp'
    obtain ⟨i, hi, rfl⟩ := List.mem_map.mp hp
    obtain ⟨j, hj, he⟩ := List.mem_map.mp hp'
    obtain rfl := hinj j ((hsub hl').mem hj) i ((hsub hl).mem hi) he
    rw [lane_pages_eq hl] at hi
    rw [lane_pages_eq hl'] at hj
    exact hne (Stripe.stripe_disjoint hnd hi hj)
  · intro p
    constructor
    · rintro ⟨l, hl, hp⟩
      exact ((hsub hl).map _).mem hp
    · intro hp
      obtain ⟨i, hi, rfl⟩ := List.mem_map.mp hp
      obtain ⟨l, hl, hil⟩ := (Stripe.exists_stripe hn).mp hi
      exact ⟨l, hl, List.mem_map_of_mem (lane_pages_eq (m := m) hl ▸ hil)⟩
  · intro l hl
    exact (hnd.sublist (hsub hl)).map_on fun i hi j hj => hinj i ((hsub hl).mem hi) j ((hsub hl).mem hj)
  · intro l hl l' hl'
    rw [lane_pages_eq hl, lane_pages_eq hl', hlen hl, hlen hl']
    split <;> split <;> omega
  · intro henough l hl
    rw [lane_pages_eq hl, hlen hl]
    exact (width_le_share henough).trans (Nat.le_add_right _ _)
  · intro epoch miner
    exact ⟨_, lane_of_miner_lt _ _ hn, claimable_iff epoch miner⟩
  · intro epoch miner p hp
    have hactive : ∃ kind, ∃ i ∈ active_of m kind, UInt32.ofNat i = p := by
      rcases (claimable_iff epoch miner p).mp hp with h | h
      · obtain ⟨i, hi, he⟩ := List.mem_map.mp h
        exact ⟨_, i, (hsub (lane_of_miner_lt _ _ hn)).mem hi, he⟩
      · obtain ⟨i, hi, he⟩ := List.mem_map.mp h
        exact ⟨_, i, hi, he⟩
    obtain ⟨kind, i, hi, rfl⟩ := hactive
    have hlt := active_lt hi
    obtain ⟨pg, hpg, -, hstatus⟩ := mem_active_of.mp hi
    rw [UInt32.toNat_ofNat_of_lt' (lt_of_lt_of_le hlt hsmall), ModelState.is_active, hpg, decide_eq_true_eq]
    exact congrArg some hstatus

theorem validate_inner_lanes {b : Block} {parent_w : Option (List Int64)} {height : UInt64} {led : TokenLedger}
    {dc : Option String} {jurors : StrSet} {params : GenesisParams} {v : Validated}
    (h : validate_inner b parent_w height led dc jurors m params = .ok v) (tx : BackpropTx) (htx : tx ∈ b.txs) :
    check_lane b.header.height m params tx = .ok () := by
  simp only [validate_inner, check_tx, bind_eq_ok, require_eq_ok, pure_eq_ok, exists_unit, forM_eq_ok] at h
  obtain ⟨-, htxs, -⟩ := h
  have h := (htxs tx htx).2.2
  split at h
  · simp only [bind_eq_ok, exists_unit] at h
    exact h.2.2.1
  · simp only [bind_eq_ok, exists_unit] at h
    exact h.2.1

/-- At most 2^32 pages: the lanes share out the active experts of every such table. A block that passes validation
at a height of version 5 has each delta's claims in one lane and the backbone, and so has every block of a run. -/
theorem lanes_partition_experts {genesis_w : List Int64} {params : GenesisParams}
    (hw : genesis_w.length = (ModelState.genesis params.spec).dim) (dc : Option String) (ops : List Op) :
    (∀ (m : ModelState) (lane_width : Nat), m.pages.length ≤ 2 ^ 32 → LanesPartition m lane_width) ∧
    (∀ (b : Block) (parent_w : Option (List Int64)) (height : UInt64) (led : TokenLedger) (jurors : StrSet)
      (m : ModelState) (v : Validated), validate_inner b parent_w height led dc jurors m params = .ok v →
      params.v5_height ≠ 0 → b.header.height ≥ params.v5_height → LaneClaims params m b) ∧
    ∀ h chain, Chain ((Logged.new genesis_w dc params).run ops).log
        ((Logged.new genesis_w dc params).run ops).tree.genesis_hash h chain →
      ∀ before b after, chain = before ++ b :: after → params.v5_height ≠ 0 → b.header.height ≥ params.v5_height →
        LaneClaims params (model_of params before) b := by
  refine ⟨fun m lane_width hsmall => lanes_partition hsmall, ?_, ?_⟩
  · intro b parent_w height led jurors m v hv hv5 hheight tx htx
    exact lane_claims (validate_inner_lanes hv tx htx) hv5 hheight
  · intro h chain hch before b after he hv5 hheight tx htx
    exact lane_claims ((judged_run hw dc ops h chain hch before b after he).lanes tx htx) hv5 hheight

end Any

open scoped Toy

namespace Toy

def v5_params : GenesisParams := { params with v5_height := 1 }

/-- Block 1 of a chain that starts in version 5, with a delta that claims the backbone. -/
def v5_draft : Block :=
  let proof := vrf_prove (key 7) paged_start.head 1 lottery.ATTEMPT_MAX
  delta_draft 1 (expected_version_at 1 v5_params) paged_start.head (hex_encode (key 7).val) (hex_encode proof)
    lottery.ATTEMPT_MAX (lottery.attempt_work proof lottery.ATTEMPT_MAX) (unbound_tx (key 7)) one_body

theorem v5_lane : check_lane 1 (ModelState.genesis params.spec) v5_params (unbound_tx (key 7)) = .ok () := by
  rw [check_lane, if_pos ⟨by decide, by decide⟩, require_eq_ok]
  intro p hp
  rw [show (unbound_tx (key 7)).canonical_pages = [0] from rfl, List.mem_singleton] at hp
  subst hp
  exact (claimable_iff _ _ 0).mpr (.inr (List.mem_map_of_mem (f := UInt32.ofNat)
    (mem_active_of.mpr ⟨_, rfl, rfl, rfl⟩ : 0 ∈ active_of (ModelState.genesis params.spec) .backbone)))

theorem v5_ready : DeltaReady seeded_parent v5_params v5_draft (unbound_tx (key 7)) where
  version := rfl
  height := rfl
  lottery := lottery_last _ (key 7) (hex_decode_encode (key 7).val) (hex_ne_genesis (key 7).val) rfl rfl rfl
  signed := unbound_tx_signed (key 7)
  base := show (0 : UInt64) = 1 - 1 by decide
  claims := rfl
  lane := v5_lane
  bond := rfl
  provenance := ⟨"genesis", List.mem_singleton_self _, seeded_active⟩

/-- The kind of page that lanes share out. -/
def lane_page : Page := { start := 0, stop := 0, kind := .expert, layer := 0, expert := 0, status := .active }

def experts (n : Nat) : ModelState := { ModelState.genesis params.spec with pages := List.replicate n lane_page }

theorem active_experts (n : Nat) : active_of (experts n) .expert = List.range n := by
  have hlen : (experts n).pages.length = n := List.length_replicate
  rw [active_of, hlen, List.filter_eq_self]
  intro i hi
  have hpage : (experts n).pages[i]? = some lane_page := by
    simp [experts, List.mem_range.mp hi]
  rw [ModelState.is_active, hpage]
  rfl

end Toy

theorem lanes_partition_experts_five : LanesPartition (Toy.experts 5) 2 ∧
    LaneClaims Toy.v5_params Toy.seeded_parent.model
      (seal_delta Toy.seeded_parent (some "owner") Toy.v5_params "" Toy.v5_draft) := by
  have hv := validate_inner_delta (some "owner") Toy.seeded_parent.jurors "" [] Toy.v5_ready
  have h := @lanes_partition_experts _ [5] Toy.v5_params (by decide) (some "owner") []
  exact ⟨h.1 (Toy.experts 5) 2 (by decide), h.2.1 _ none _ _ _ _ _ hv (by decide) (show (1 : UInt64) ≥ 1 by decide)⟩

/-- One page past 2^32: page 0 is in lane 0, page 2^32 is in lane 1, and on the wire both are page 0. -/
theorem lanes_share_a_page : ¬ ∀ (m : ModelState) (lane_width : Nat), LanesPartition m lane_width := by
  intro h
  have hlanes : lanes_of (Toy.experts (2 ^ 32 + 1)) 1431655765 = 3 := by
    rw [lanes_of, Toy.active_experts, List.length_range]
    decide
  have hin (i lane : Nat) (hi : i < 2 ^ 32 + 1) (hlane : i % 3 = lane) :
      UInt32.ofNat i ∈ ids (lane_pages (Toy.experts (2 ^ 32 + 1)) 3 lane) := by
    have hlt : lane < 3 := hlane ▸ Nat.mod_lt i (by decide)
    rw [lane_pages_eq hlt, Toy.active_experts]
    exact List.mem_map_of_mem (Stripe.mem_stripe.mpr ⟨i, by rw [List.getElem?_range hi], hlane⟩)
  have hdisjoint := (h (Toy.experts (2 ^ 32 + 1)) 1431655765).disjoint
  rw [hlanes] at hdisjoint
  have hfirst := hin 0 0 (by norm_num) rfl
  have hlast := hin (2 ^ 32) 1 (by norm_num) (by norm_num)
  rw [show UInt32.ofNat (2 ^ 32) = UInt32.ofNat 0 by decide] at hlast
  exact hdisjoint 0 (by decide) 1 (by decide) (by decide) _ hfirst hlast

end Sestrian
