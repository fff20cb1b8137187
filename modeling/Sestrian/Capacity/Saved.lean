import Sestrian.Capacity.RoundTrip
import Sestrian.Ledger.RootBytes
import Sestrian.Ledger.Bonds
import Sestrian.Lottery.Draw

/-!
# The shape of a chain, saved and read back

What a fold keeps of a state: its revision says which counters are still empty, and its texts are hex.
-/

open Check

namespace Sestrian

open serde_json (Value)
open serde_json.Value (Unescaped)

/-! ## Hex needs no escapes -/

theorem hex_pairs_digits {l b : List UInt8} (h : hex_pairs l = some b) : ∀ x ∈ l, (hex_val x).isSome := by
  induction l using hex_pairs.induct generalizing b with
  | case1 => exact List.forall_mem_nil _
  | case2 => cases h
  | case3 x y rest ih =>
    simp only [hex_pairs, Option.bind_eq_bind, Option.bind_eq_some_iff] at h
    obtain ⟨hi, hhi, lo, hlo, tail, ht, -⟩ := h
    refine List.forall_mem_cons.mpr ⟨?_, List.forall_mem_cons.mpr ⟨?_, ih ht⟩⟩
    · rw [hhi]
      rfl
    · rw [hlo]
      rfl

/-- A character whose bytes are hex digits is one. -/
theorem unescaped_char {c : Char} (h : ∀ x ∈ String.utf8EncodeChar c, (hex_val x).isSome) :
    32 ≤ c.toNat ∧ c ≠ '"' ∧ c ≠ '\\' := by
  by_cases hc : c.toNat < 127
  · rw [← Char.ofNat_toNat c] at h ⊢
    generalize c.toNat = n at h hc
    have hall : ∀ n : Fin 127, ((String.utf8EncodeChar (Char.ofNat n.val)).all fun x => (hex_val x).isSome) = true →
        32 ≤ (Char.ofNat n.val).toNat ∧ Char.ofNat n.val ≠ '"' ∧ Char.ofNat n.val ≠ '\\' := by decide +kernel
    exact hall ⟨n, hc⟩ (List.all_eq_true.mpr h)
  · obtain ⟨x, hx, hbig⟩ := last_byte c (Nat.le_of_not_lt hc)
    obtain ⟨k, hk⟩ := Option.isSome_iff_exists.mp (h x hx)
    have hdigit : ∀ n : Fin 256, 127 ≤ n.val → hex_val (UInt8.ofNat n.val) = none := by decide +kernel
    have hnone := hdigit ⟨x.toNat, x.toNat_lt⟩ hbig
    rw [UInt8.ofNat_toNat, hk] at hnone
    cases hnone

theorem unescaped_of_hex {s : String} {b : List UInt8} (h : hex_decode s = some b) : Unescaped s := by
  intro c hc
  refine unescaped_char fun x hx => hex_pairs_digits h x ?_
  rw [as_bytes_eq]
  exact List.mem_flatMap.mpr ⟨c, hc, hx⟩

theorem unescaped_hex (b : List UInt8) : Unescaped (hex_encode b) := unescaped_of_hex (hex_decode_encode b)

/-! ## What a fold keeps -/

namespace ModelState

variable {params : GenesisParams} {n : Nat} {s : ModelState}

/-- A decision leaves the counters and may add the block's parent as a trigger. -/
theorem decision_frame (params : GenesisParams) (prev_hash : String) (d : Decision) (s : ModelState) :
    (apply_decision params prev_hash d s).rev = s.rev ∧
    ∀ g ∈ (apply_decision params prev_hash d s).pending_growth, g ∈ s.pending_growth ∨ g.trigger = prev_hash := by
  simp only [apply_decision]
  split_ifs <;> refine ⟨rfl, fun g hg => ?_⟩
  all_goals first
    | exact .inl hg
    | rcases List.mem_append.mp hg with hg | hg
      · exact .inl hg
      · exact .inr (List.mem_singleton.mp hg ▸ rfl)

theorem Clean.counters (h : s.Clean) (params : GenesisParams) (height n_txs zero_scored score_sum : UInt64)
    {proposer : String} (hprop : Unescaped proposer) :
    (fold_counters s params height n_txs zero_scored score_sum proposer).Clean := by
  refine ⟨h.triggers, fun x hx => ?_⟩
  simp only [fold_counters] at hx
  generalize (if height ≥ params.v4_height then _ else _ : UInt64) = rev at hx
  split at hx
  · rcases List.mem_append.mp hx with hx | hx
    · exact h.scorers x hx
    · exact List.mem_singleton.mp hx ▸ hprop
  · exact h.scorers x hx

theorem Clean.window (h : s.Clean) (params : GenesisParams) {prev_hash : String} (hprev : Unescaped prev_hash) :
    (fold_window params prev_hash s).1.Clean := by
  simp only [fold_window]
  generalize retarget_decide _ _ _ _ _ _ _ _ _ _ _ = d
  generalize (activate_all _ _ _).1 = pages
  generalize hs : ({ s with window_id := _, pending_growth := _, pages := pages } : ModelState) = s'
  have hkeep : ∀ g ∈ s'.pending_growth, g ∈ s.pending_growth := by
    rw [← hs]
    exact fun g hg => List.mem_of_mem_filter hg
  refine ⟨fun g hg => ?_, List.forall_mem_nil _⟩
  rcases (decision_frame params prev_hash d s').2 g hg with hg | hg
  · exact h.triggers g (hkeep g hg)
  · rw [hg]
    exact hprev

theorem Clean.fold (h : s.Clean) (params : GenesisParams) (height n_txs zero_scored score_sum : UInt64)
    {prev_hash proposer : String} (hprev : Unescaped prev_hash) (hprop : Unescaped proposer) :
    (Sestrian.fold s params height n_txs zero_scored prev_hash score_sum proposer).1.Clean := by
  have hcounters := h.counters params height n_txs zero_scored score_sum hprop
  unfold Sestrian.fold
  split
  · exact hcounters.window params hprev
  · exact hcounters

/-- The shape after `n` blocks. Nothing counts before the revision that counts it. -/
structure Kept (params : GenesisParams) (n : Nat) (s : ModelState) : Prop where
  rev : s.rev = 2 ∧ s.win_score_sum = 0 ∧ s.win_scorers = [] ∨ s.rev = 3 ∧ s.win_scorers = [] ∨
    s.rev = 4 ∧ params.v4_height.toNat ≤ n
  clean : s.Clean

theorem Kept.omits (h : Kept params n s) : s.Omits := by
  rcases h.rev with ⟨hrev, hsum, hnone⟩ | ⟨hrev, hnone⟩ | ⟨hrev, -⟩ <;> constructor <;> rw [hrev]
  · exact fun _ => ⟨rfl, hsum⟩
  · exact fun _ => hnone
  · exact fun h => absurd (by decide) h
  · exact fun _ => hnone
  · exact fun h => absurd (by decide) h
  · exact fun h => absurd (by decide) h

theorem kept_genesis (params : GenesisParams) : Kept params 0 (genesis params.spec) :=
  ⟨.inl ⟨rfl, rfl, rfl⟩, List.forall_mem_nil _, List.forall_mem_nil _⟩

theorem Kept.counters (h : Kept params n s) {height : UInt64} (hheight : height.toNat = n + 1)
    (n_txs zero_scored score_sum : UInt64) {proposer : String} (hprop : Unescaped proposer) :
    Kept params (n + 1) (fold_counters s params height n_txs zero_scored score_sum proposer) := by
  refine ⟨?_, h.clean.counters params height n_txs zero_scored score_sum hprop⟩
  by_cases h4 : height ≥ params.v4_height
  · have hle : params.v4_height.toNat ≤ n + 1 := hheight ▸ UInt64.le_iff_toNat_le.mp h4
    exact .inr (.inr ⟨by simp only [fold_counters, if_pos h4], hle⟩)
  · have hlt : ¬params.v4_height.toNat ≤ n + 1 := hheight ▸ fun hle => h4 (UInt64.le_iff_toNat_le.mpr hle)
    by_cases h3 : height ≥ params.v3_height
    · right; left
      have hnone : s.win_scorers = [] := by
        rcases h.rev with ⟨-, -, hnone⟩ | ⟨-, hnone⟩ | ⟨-, hle⟩
        · exact hnone
        · exact hnone
        · omega
      simp [fold_counters, h3, h4, hnone]
    · rcases h.rev with ⟨hrev, hsum, hnone⟩ | ⟨hrev, hnone⟩ | ⟨-, hle⟩
      · left
        simp [fold_counters, h3, h4, hrev, hsum, hnone]
      · right; left
        simp [fold_counters, h3, h4, hrev, hnone]
      · omega

theorem Kept.window (h : Kept params n s) {prev_hash : String} (hprev : Unescaped prev_hash) :
    Kept params n (fold_window params prev_hash s).1 := by
  refine ⟨?_, h.clean.window params hprev⟩
  simp only [fold_window]
  rw [(decision_frame params prev_hash _ _).1]
  rcases h.rev with ⟨hrev, -⟩ | ⟨hrev, -⟩ | h4
  · exact .inl ⟨hrev, trivial, trivial⟩
  · exact .inr (.inl ⟨hrev, trivial⟩)
  · exact .inr (.inr h4)

theorem Kept.fold (h : Kept params n s) {height : UInt64} (hheight : height.toNat = n + 1)
    (n_txs zero_scored score_sum : UInt64) {prev_hash proposer : String} (hprev : Unescaped prev_hash)
    (hprop : Unescaped proposer) :
    Kept params (n + 1) (fold s params height n_txs zero_scored prev_hash score_sum proposer).1 := by
  have hcounters := h.counters hheight n_txs zero_scored score_sum hprop
  unfold Sestrian.fold
  split
  · exact hcounters.window hprev
  · exact hcounters

end ModelState

/-! ## Chains -/

section Any

variable [Crypto]

/-- The hash that the block after this chain names. -/
def last_hash (genesis_hash : String) (chain : List Block) : String := (chain.getLast?.map Block.hash).getD genesis_hash

/-- A chain of blocks that the validator accepts, each on its parent, with the ledger and the shape after it. A
height is a `u64`. -/
inductive Grown (genesis_w : List Int64) (dc : Option String) (params : GenesisParams) :
    List Block → TokenLedger → ModelState → Prop where
  | genesis : Grown genesis_w dc params [] (genesis_ledger dc) (ModelState.genesis params.spec)
  | block {chain : List Block} {led : TokenLedger} {m : ModelState} {b : Block} {w : Option (List Int64)}
      {jurors : StrSet} {v : Validated} : Grown genesis_w dc params chain led m →
      b.header.prev_hash = last_hash (genesis_header genesis_w params).block_hash chain → chain.length + 1 < 2 ^ 64 →
      validate_inner b w (UInt64.ofNat chain.length) led dc jurors m params = .ok v →
      Grown genesis_w dc params (chain ++ [b]) v.ledger v.model

theorem unescaped_last (header : Header) (chain : List Block) : Unescaped (last_hash header.block_hash chain) := by
  unfold last_hash
  cases chain.getLast? with
  | none => exact unescaped_hex _
  | some b => exact unescaped_hex _

theorem unescaped_proposer {h : Header} {led : TokenLedger} (hl : check_lottery h led = .ok ()) :
    Unescaped h.proposer := by
  unfold check_lottery at hl
  split at hl
  · rename_i hgen
    rw [hgen]
    exact ModelState.unescaped_of_all rfl
  · simp only [bind_eq_ok, require_eq_ok, exists_unit] at hl
    obtain ⟨-, helig, -⟩ := hl
    obtain ⟨pk, -, hpk, -⟩ := verified_of_eligible helig
    exact unescaped_of_hex hpk

theorem Grown.kept {genesis_w : List Int64} {dc : Option String} {params : GenesisParams} {chain : List Block}
    {led : TokenLedger} {m : ModelState} (h : Grown genesis_w dc params chain led m) : m.Kept params chain.length := by
  induction h with
  | genesis => exact ModelState.kept_genesis params
  | @block chain led m b w jurors v _ hprev hsmall hv ih =>
    have hheight : b.header.height.toNat = chain.length + 1 := by
      rw [(validate_inner_checked hv).1.height, UInt64.toNat_add, ModelState.toNat_of_isU64 (show _ < 2 ^ 64 by omega)]
      exact Nat.mod_eq_of_lt hsmall
    have hlottery : check_lottery b.header led = .ok () := by
      simp only [validate_inner, check_header, bind_eq_ok, pure_eq_ok, require_eq_ok, exists_unit] at hv
      exact hv.1.2.2.2
    rw [(validate_inner_fold hv).1, List.length_append]
    exact ih.fold hheight _ _ _ (hprev ▸ unescaped_last _ chain) (unescaped_proposer hlottery)

/-- What `serde_json` does with the compact text of a value that nests this little. -/
def serde_json.Value.ReadBack (from_str : String → Option Value) (v : Value) : Prop :=
  v.Plain → from_str v.text = some v

/-- The shape after a chain of accepted blocks reads back from its text as it was. So the root is the same, and
so is every fold from there. -/
theorem ModelState.reads_back {from_str : String → Option Value} {genesis_w : List Int64} {dc : Option String}
    {params : GenesisParams} {chain : List Block} {led : TokenLedger} {m : ModelState}
    (h : Grown genesis_w dc params chain led m) (ht : m.Typed) (hparse : m.value_of.ReadBack from_str) :
    read_text from_str m.canonical_json = some m ∧
    ∀ m', read_text from_str m.canonical_json = some m' → m'.model_root = m.model_root ∧
      ∀ further : List Block, further.foldl (fun s b => (fold_block b s params).1) m' =
        further.foldl (fun s b => (fold_block b s params).1) m := by
  have hread : read_text from_str m.canonical_json = some m := by
    rw [read_text, ← text_value_of ht, hparse (plain_value_of h.kept.clean), Option.bind_some]
    exact read_value_of ht h.kept.omits
  refine ⟨hread, fun m' hm' => ?_⟩
  obtain rfl := Option.some.inj (hread.symm.trans hm')
  exact ⟨rfl, fun _ => rfl⟩

end Any

/-! ## A chain of one block -/

open scoped Toy

namespace Toy

/-- Both revisions are in force from the first block on. -/
def revised_params : GenesisParams := { params with v3_height := 1, v4_height := 1 }

def revised_start : BlockTree := .new [5] none revised_params

def revised_block : Block := block_by revised_start genesis_parent revised_start.head (key 1)

def revised_model : ModelState := (fold_block revised_block (ModelState.genesis params.spec) revised_params).1

theorem revised_grown : ∃ led, Grown [5] none revised_params [revised_block] led revised_model := by
  have hvalid := block_by_valid revised_start genesis_parent revised_start.head (key 1)
  simp only [BlockTree.validate_at_base, bind_eq_ok] at hvalid
  obtain ⟨-, -, v, hv, -⟩ := hvalid
  have hgrown : Grown [5] none revised_params [revised_block] v.ledger v.model := Grown.block .genesis rfl (by decide) hv
  rw [(validate_inner_fold hv).1] at hgrown
  exact ⟨v.ledger, hgrown⟩

theorem revised_typed : revised_model.Typed := by
  have hpages : revised_model.pages = (ModelState.genesis params.spec).pages := rfl
  have hpending : revised_model.pending_growth = [] := rfl
  constructor
  · rw [hpages]
    simp only [ModelState.IsU64, ModelState.IsI64]
    decide
  · rw [hpending]
    exact List.forall_mem_nil _

end Toy

theorem ModelState.reads_back_revised : Toy.revised_model.rev = 4 ∧ ∃ from_str : String → Option Value,
    read_text from_str Toy.revised_model.canonical_json = some Toy.revised_model := by
  obtain ⟨led, h⟩ := Toy.revised_grown
  refine ⟨rfl, fun t => if t = Toy.revised_model.value_of.text then some Toy.revised_model.value_of else none, ?_⟩
  have hparse : Toy.revised_model.value_of.ReadBack
      fun t => if t = Toy.revised_model.value_of.text then some Toy.revised_model.value_of else none := fun _ => if_pos rfl
  exact (ModelState.reads_back h Toy.revised_typed hparse).1

end Sestrian
