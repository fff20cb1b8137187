import Sestrian.Ledger.Signing
import Sestrian.Tree.Empty

/-!
# What a header binds

The lottery proof signs the slot, not the block. Everything else in a header can be computed by
anybody, so a block is its proposer's own only when nothing else could stand in its slot.
-/

open Check

namespace Sestrian

/-! ## Spellings of a proof -/

section Hex

def hex_digit_upper (d : Nat) : UInt8 := UInt8.ofNat (if d < 10 then 48 + d else 55 + d)

/-- The same bytes with the other letters. -/
def hex_encode_upper (b : List UInt8) : String :=
  String.ofList (b.flatMap fun x =>
    [Char.ofUInt8 (hex_digit_upper (x.toNat / 16)), Char.ofUInt8 (hex_digit_upper (x.toNat % 16))])

theorem upper_digit (k : Nat) (h : k < 16) : hex_val (hex_digit_upper k) = some k ∧
    String.utf8EncodeChar (Char.ofUInt8 (hex_digit_upper k)) = [hex_digit_upper k] ∧
    (hex_digit k = hex_digit_upper k → k ≤ 9) := by
  have : ∀ k : Fin 16, hex_val (hex_digit_upper k.val) = some k.val ∧
      String.utf8EncodeChar (Char.ofUInt8 (hex_digit_upper k.val)) = [hex_digit_upper k.val] ∧
      (hex_digit k.val = hex_digit_upper k.val → k.val ≤ 9) := by decide
  exact this ⟨k, h⟩

theorem nibbles (x : UInt8) : x.toNat / 16 < 16 ∧ x.toNat % 16 < 16 := by
  have := x.toNat_lt
  omega

theorem as_bytes_lower (b : List UInt8) :
    as_bytes (hex_encode b) = b.flatMap fun x => [hex_digit (x.toNat / 16), hex_digit (x.toNat % 16)] := by
  rw [hex_encode, as_bytes_ofList, List.flatMap_assoc]
  refine List.flatMap_congr fun x _ => ?_
  obtain ⟨hhi, hlo⟩ := nibbles x
  simp [encode_hex_digit _ hhi, encode_hex_digit _ hlo]

theorem as_bytes_upper (b : List UInt8) : as_bytes (hex_encode_upper b) =
    b.flatMap fun x => [hex_digit_upper (x.toNat / 16), hex_digit_upper (x.toNat % 16)] := by
  rw [hex_encode_upper, as_bytes_ofList, List.flatMap_assoc]
  refine List.flatMap_congr fun x _ => ?_
  obtain ⟨hhi, hlo⟩ := nibbles x
  simp [(upper_digit _ hhi).2.1, (upper_digit _ hlo).2.1]

theorem hex_decode_upper (b : List UInt8) : hex_decode (hex_encode_upper b) = some b := by
  rw [hex_decode, as_bytes_upper]
  induction b with
  | nil => rfl
  | cons x b ih =>
    obtain ⟨hhi, hlo⟩ := nibbles x
    have hdiv : x.toNat / 16 * 16 + x.toNat % 16 = x.toNat := Nat.div_add_mod' _ _
    simp only [List.flatMap_cons, List.cons_append, List.nil_append, hex_pairs, ih, (upper_digit _ hhi).1,
      (upper_digit _ hlo).1, Option.bind_eq_bind, Option.bind_some, hdiv, UInt8.ofNat_toNat]

/-- No letter in the hex of these bytes. -/
def NoLetter (b : List UInt8) : Prop := ∀ x ∈ b, x.toNat / 16 ≤ 9 ∧ x.toNat % 16 ≤ 9

theorem noLetter_of_same {b : List UInt8} (h : hex_encode b = hex_encode_upper b) : NoLetter b := by
  have hbytes := congrArg as_bytes h
  rw [as_bytes_lower, as_bytes_upper] at hbytes
  induction b with
  | nil => exact fun x hx => absurd hx List.not_mem_nil
  | cons x b ih =>
    simp only [List.flatMap_cons, List.cons_append, List.nil_append, List.cons.injEq] at hbytes
    obtain ⟨hhi, hlo, hrest⟩ := hbytes
    refine List.forall_mem_cons.mpr ⟨⟨(upper_digit _ (nibbles x).1).2.2 hhi, (upper_digit _ (nibbles x).2).2.2 hlo⟩, ?_⟩
    refine ih ?_ hrest
    exact as_bytes_inj (by rw [as_bytes_lower, as_bytes_upper, hrest])

/-- A value up to nine has one digit. -/
theorem digit_unique {c : UInt8} {k : Nat} (h : hex_val c = some k) (hk : k ≤ 9) : c = hex_digit k := by
  unfold hex_val at h
  split at h
  · rename_i hc
    obtain rfl := Option.some.inj h
    apply UInt8.toNat_inj.mp
    have hlo : 48 ≤ c.toNat := hc.1
    have hhi : c.toNat ≤ 57 := hc.2
    have hlt : c.toNat - 48 < 10 := by omega
    rw [hex_digit, if_pos hlt, UInt8.toNat_ofNat']
    omega
  · split at h
    · obtain rfl := Option.some.inj h
      omega
    · split at h
      · obtain rfl := Option.some.inj h
        omega
      · cases h

theorem hex_val_lt {c : UInt8} {k : Nat} (h : hex_val c = some k) : k < 16 := by
  unfold hex_val at h
  split at h
  · rename_i hc
    have hhi : c.toNat ≤ 57 := hc.2
    obtain rfl := Option.some.inj h
    omega
  · split at h
    · rename_i hc
      have hhi : c.toNat ≤ 102 := hc.2
      obtain rfl := Option.some.inj h
      omega
    · split at h
      · rename_i hc
        have hhi : c.toNat ≤ 70 := hc.2
        obtain rfl := Option.some.inj h
        omega
      · cases h

theorem spelled_once {s : String} {b : List UInt8} (h : hex_decode s = some b) (hb : NoLetter b) : s = hex_encode b := by
  apply as_bytes_inj
  rw [as_bytes_lower]
  unfold hex_decode at h
  generalize as_bytes s = l at h
  induction l using hex_pairs.induct generalizing b with
  | case1 =>
    obtain rfl : [] = b := by simpa [hex_pairs] using h
    rfl
  | case2 => simp [hex_pairs] at h
  | case3 x y rest ih =>
    simp only [hex_pairs, Option.bind_eq_bind, Option.bind_eq_some_iff] at h
    obtain ⟨hi, hhi, lo, hlo, tail, ht, hb'⟩ := h
    obtain rfl := Option.some.inj hb'
    obtain ⟨hx, hrest⟩ := List.forall_mem_cons.mp hb
    have hval : (UInt8.ofNat (hi * 16 + lo)).toNat = hi * 16 + lo := by
      rw [UInt8.toNat_ofNat']
      have := hex_val_lt hhi
      have := hex_val_lt hlo
      omega
    have hdiv : (hi * 16 + lo) / 16 = hi := by
      have := hex_val_lt hlo
      omega
    have hmod : (hi * 16 + lo) % 16 = lo := by
      have := hex_val_lt hlo
      omega
    rw [hval, hdiv, hmod] at hx
    rw [List.flatMap_cons, hval, hdiv, hmod, ih hrest ht, digit_unique hhi hx.1, digit_unique hlo hx.2]
    rfl

end Hex

section Any

variable [Crypto]

/-! ## The validator, step by step -/

/-- What `validate_block` reads of a parent. -/
structure Base where
  weights : List Int64
  height : UInt64
  ledger : TokenLedger
  data_contributor : Option String
  jurors : StrSet
  model : ModelState
  params : GenesisParams

namespace Base

def accepts (p : Base) (b : Block) : Prop :=
  ∃ r, validate_block b p.weights p.height p.ledger p.data_contributor p.jurors p.model p.params = .ok r

/-- Everything the validator asks apart from the lottery. -/
structure Fits (p : Base) (b : Block) : Prop where
  version : b.header.version = expected_version_at b.header.height p.params
  height : b.header.height = p.height + 1
  n_txs : b.header.n_txs.toNat = b.txs.length
  txs : ∀ tx ∈ b.txs, check_tx b (some p.weights) p.weights.length p.model p.params tx = .ok ()
  sets : check_sets b = .ok ()
  state_root : page_state_root (dense_post b p.weights p.model p.params (fold_block b p.model p.params).2)
    (fold_block b p.model p.params).1 = b.header.state_root
  model_root : (fold_block b p.model p.params).1.model_root = b.header.model_root
  transfer_root : Sestrian.transfer_root b.transfers = b.header.transfer_root
  data_root : Sestrian.data_root b.data_txs = b.header.data_root
  ledger : ∃ led, token_transition p.ledger b p.data_contributor p.jurors = .ok led ∧ led.root = b.header.ledger_root

theorem accepts_iff (p : Base) (b : Block) :
    p.accepts b ↔ check_lottery b.header p.ledger = .ok () ∧ p.Fits b := by
  unfold accepts
  simp only [validate_block, validate_inner, check_header, check_weights, bind_eq_ok, require_eq_ok, pure_eq_ok,
    exists_unit, forM_eq_ok, mapM_some_eq_ok, Option.map_some, Option.getD_some]
  constructor
  · rintro ⟨r, v, ⟨⟨hver, hheight, hn, hlot⟩, htxs, hsets, ws, ⟨w, ⟨hstate, rfl⟩, rfl⟩, hmodel, htr, hdr, led, hled,
      hroot, rfl⟩, rfl⟩
    exact ⟨hlot, hver, hheight, hn, htxs, hsets, hstate, hmodel, htr, hdr, led, hled, hroot⟩
  · rintro ⟨hlot, hver, hheight, hn, htxs, hsets, hstate, hmodel, htr, hdr, led, hled, hroot⟩
    exact ⟨_, _, ⟨⟨hver, hheight, hn, hlot⟩, htxs, hsets, _, ⟨_, ⟨hstate, rfl⟩, rfl⟩, hmodel, htr, hdr, led, hled,
      hroot, rfl⟩, rfl⟩

variable {p : Base} {b : Block}

/-! ## Other blocks for the slot -/

/-- The same block with another proof text and another weight. -/
def relabel (b : Block) (proof : String) (work : UInt64) : Block :=
  { b with header := { b.header with vrf_proof := proof, work } }

theorem Fits.relabel (h : p.Fits b) (proof : String) (work : UInt64) : p.Fits (relabel b proof work) :=
  ⟨h.version, h.height, h.n_txs, h.txs, h.sets, h.state_root, h.model_root, h.transfer_root, h.data_root, h.ledger⟩

/-- Deltas, with what a block says about them. -/
structure Batch where
  txs : List BackpropTx
  bodies : Dict DenseBody
  scores : Dict UInt64
  sketches : Dict (List Int32)

def Batch.none : Batch := ⟨[], ∅, ∅, ∅⟩

/-- A block for the slot of a header, before the roots that depend on the parent. -/
def slotted (h : Header) (c : Batch) (transfers : List TransferTx) (data_txs : List AccountTx) : Block where
  header :=
    { h with
      n_txs := UInt64.ofNat c.txs.length
      txset_root := txset_root (c.txs.map (·.txid))
      score_root := scores_root c.scores
      sketch_root := Sestrian.sketch_root c.sketches
      transfer_root := Sestrian.transfer_root transfers
      data_root := Sestrian.data_root data_txs }
  txs := c.txs
  bodies := c.bodies
  sparse := ∅
  transfers
  data_txs
  scores := c.scores
  sketches := c.sketches
  witness_leaves := []

/-- The block with the roots that depend on the parent. -/
def sealed (d : Block) (state_root model_root ledger_root : String) : Block :=
  { d with header := { d.header with state_root, model_root, ledger_root } }

def filled (p : Base) (d : Block) (led : TokenLedger) : Block :=
  let post := fold_block d p.model p.params
  sealed d (page_state_root (dense_post d p.weights p.model p.params post.2) post.1) post.1.model_root led.root

/-- The ledger when the block starts to pay. -/
def settled_ledger (p : Base) (height : UInt64) : TokenLedger :=
  (p.ledger.resolve_expired_challenges height).resolve_expired_bonds height

/-- The ledger once a block without deltas has paid. -/
def paid_ledger (p : Base) (h : Header) : TokenLedger :=
  reward_block (p.settled_ledger h.height) (slotted h .none [] []) p.data_contributor

/-- What the rules of the deltas read of a block. -/
theorem check_tx_congr {b b' : Block} (hheight : b'.header.height = b.header.height) (hbodies : b'.bodies = b.bodies)
    (w : Option (List Int64)) (dim : Nat) (m : ModelState) (params : GenesisParams) (tx : BackpropTx) :
    check_tx b' w dim m params tx = check_tx b w dim m params tx := by
  unfold check_tx check_body check_mask body_of
  rw [hheight, hbodies]

theorem reward_congr {b b' : Block} (hheight : b'.header.height = b.header.height)
    (hproposer : b'.header.proposer = b.header.proposer) (htxs : b'.txs = b.txs) (hscores : b'.scores = b.scores)
    (hsketches : b'.sketches = b.sketches) (led : TokenLedger) (dc : Option String) :
    reward_block led b' dc = reward_block led b dc := by
  unfold reward_block accrue
  rw [hheight, hproposer, htxs, hscores, hsketches]

section Sealed

variable (d : Block) (s m l : String)

theorem sealed_fold (model : ModelState) (params : GenesisParams) :
    fold_block (sealed d s m l) model params = fold_block d model params := by
  unfold fold_block zero_scored
  rfl

theorem sealed_dense (w : List Int64) (model : ModelState) (params : GenesisParams) (acts : List Activation) :
    dense_post (sealed d s m l) w model params acts = dense_post d w model params acts := by
  unfold dense_post body_of
  rfl

theorem sealed_sets : check_sets (sealed d s m l) = check_sets d := by
  unfold check_sets
  rfl

theorem sealed_transition (led : TokenLedger) (dc : Option String) (jurors : StrSet) :
    token_transition led (sealed d s m l) dc jurors = token_transition led d dc jurors := by
  unfold token_transition check_provenance reward_block accrue account_txs
  rfl

end Sealed

/-- Filled in, a block whose transactions are in order fits. -/
theorem fits_filled {d : Block} {led : TokenLedger} (hv : d.header.version = expected_version_at d.header.height p.params)
    (hh : d.header.height = p.height + 1) (hn : d.header.n_txs.toNat = d.txs.length)
    (htxs : ∀ tx ∈ d.txs, check_tx d (some p.weights) p.weights.length p.model p.params tx = .ok ())
    (hsets : check_sets d = .ok ()) (htransfers : Sestrian.transfer_root d.transfers = d.header.transfer_root)
    (hdata : Sestrian.data_root d.data_txs = d.header.data_root)
    (hled : token_transition p.ledger d p.data_contributor p.jurors = .ok led) : p.Fits (p.filled d led) := by
  refine ⟨hv, hh, hn, fun tx htx => ?_, ?_, ?_, ?_, htransfers, hdata, led, ?_, rfl⟩
  · exact (check_tx_congr rfl rfl _ _ _ _ _).trans (htxs tx htx)
  · exact (sealed_sets d _ _ _).trans hsets
  · unfold filled
    rw [sealed_fold, sealed_dense]
    rfl
  · unfold filled
    rw [sealed_fold]
    rfl
  · exact (sealed_transition d _ _ _ _ _ _).trans hled

theorem fits_slotted {h : Header} {c : Batch} {transfers : List TransferTx} {data_txs : List AccountTx} {led : TokenLedger}
    (hv : h.version = expected_version_at h.height p.params) (hh : h.height = p.height + 1) (hlen : c.txs.length < 2 ^ 64)
    (htxs : ∀ tx ∈ c.txs, check_tx (slotted h c transfers data_txs) (some p.weights) p.weights.length p.model p.params tx = .ok ())
    (hsets : check_sets (slotted h c transfers data_txs) = .ok ())
    (hled : token_transition p.ledger (slotted h c transfers data_txs) p.data_contributor p.jurors = .ok led) :
    p.Fits (p.filled (slotted h c transfers data_txs) led) :=
  fits_filled hv hh (UInt64.toNat_ofNat_of_lt' hlen) htxs hsets rfl rfl hled

/-- The slot and what the block carries. -/
theorem filled_slot (p : Base) (d : Block) (led : TokenLedger) :
    (p.filled d led).header.prev_hash = d.header.prev_hash ∧ (p.filled d led).header.proposer = d.header.proposer ∧
    (p.filled d led).header.vrf_attempt = d.header.vrf_attempt ∧ (p.filled d led).header.vrf_proof = d.header.vrf_proof ∧
    (p.filled d led).header.height = d.header.height ∧ (p.filled d led).header.work = d.header.work ∧
    (p.filled d led).header.n_txs = d.header.n_txs ∧ (p.filled d led).header.transfer_root = d.header.transfer_root ∧
    (p.filled d led).header.data_root = d.header.data_root := ⟨rfl, rfl, rfl, rfl, rfl, rfl, rfl, rfl, rfl⟩

theorem filled_carries (p : Base) (d : Block) (led : TokenLedger) : (p.filled d led).txs = d.txs ∧
    (p.filled d led).transfers = d.transfers ∧ (p.filled d led).data_txs = d.data_txs := ⟨rfl, rfl, rfl⟩

theorem paid_congr {h h' : Header} (hheight : h'.height = h.height) (hproposer : h'.proposer = h.proposer) (p : Base) :
    p.paid_ledger h' = p.paid_ledger h := by
  unfold paid_ledger
  rw [hheight]
  exact @reward_congr _ (slotted h .none [] []) (slotted h' .none [] []) hheight hproposer rfl rfl rfl _ _

structure IsEmpty (b : Block) : Prop where
  txs : b.txs = []
  transfers : b.transfers = []
  data_txs : b.data_txs = []

/-- Without deltas the account transactions meet the paid ledger. -/
theorem token_transition_accounts {d : Block} (h : d.txs = []) (p : Base) :
    token_transition p.ledger d p.data_contributor p.jurors =
      (account_txs d).foldlM (apply_account_tx d.header.height p.jurors) (p.paid_ledger d.header) := by
  have hpaid : reward_block (p.settled_ledger d.header.height) d p.data_contributor = p.paid_ledger d.header := by
    unfold paid_ledger reward_block accrue
    rw [h]
    rfl
  rw [← hpaid]
  simp [token_transition, check_provenance, h, settled_ledger]

theorem account_txs_nil {d : Block} (h : d.transfers = [] ∧ d.data_txs = []) : account_txs d = [] := by
  simp [account_txs, canonical_account_txs, h]

omit [Crypto] in
theorem keys_empty {ν : Type} : (∅ : Dict ν).keys = [] := Std.ExtTreeMap.keys_eq_nil_iff.mpr rfl

theorem check_sets_none (h : Header) (transfers : List TransferTx) (data_txs : List AccountTx) :
    check_sets (slotted h .none transfers data_txs) = .ok () := by
  have hvals {ν : Type} : (∅ : Dict ν).values = [] := rfl
  simp [check_sets, slotted, Batch.none, keys_empty, hvals]

/-- The block that carries nothing. -/
def bare_block (p : Base) (h : Header) : Block := p.filled (slotted h .none [] []) (p.paid_ledger h)

theorem bare_isEmpty (p : Base) (h : Header) : IsEmpty (p.bare_block h) := by
  obtain ⟨htxs, htransfers, hdata⟩ := filled_carries p (slotted h .none [] []) (p.paid_ledger h)
  exact ⟨htxs, htransfers, hdata⟩

/-- One without deltas, whose account transactions can be applied. -/
theorem fits_accounts {h : Header} {transfers : List TransferTx} {data_txs : List AccountTx} {led : TokenLedger}
    (hv : h.version = expected_version_at h.height p.params) (hh : h.height = p.height + 1)
    (hled : (account_txs (slotted h .none transfers data_txs)).foldlM (apply_account_tx h.height p.jurors) (p.paid_ledger h) =
      .ok led) : p.Fits (p.filled (slotted h .none transfers data_txs) led) :=
  fits_slotted hv hh (by simp [Batch.none]) (fun tx htx => absurd htx List.not_mem_nil) (check_sets_none h transfers data_txs)
    ((token_transition_accounts rfl p).trans hled)

theorem fits_bare {h : Header} (hv : h.version = expected_version_at h.height p.params) (hh : h.height = p.height + 1) :
    p.Fits (p.bare_block h) :=
  fits_accounts hv hh (by rw [account_txs_nil ⟨rfl, rfl⟩]; rfl)

/-- A block without transactions pays its proposer, and that is all. -/
theorem token_transition_bare {d : Block} (h : IsEmpty d) (p : Base) :
    token_transition p.ledger d p.data_contributor p.jurors = .ok (p.paid_ledger d.header) := by
  rw [token_transition_accounts h.txs, account_txs_nil ⟨h.transfers, h.data_txs⟩]
  rfl

/-! ## A block that carries nothing -/

omit [Crypto] in
theorem keys_nil {ν : Type} {m : Dict ν} (h : ∀ k ∈ m.keys, k ∈ ([] : List String)) : m = ∅ :=
  Std.ExtTreeMap.keys_eq_nil_iff.mp (List.eq_nil_iff_forall_not_mem.mpr fun k hk => List.not_mem_nil (h k hk))

theorem IsEmpty.sets (he : IsEmpty b) (h : check_sets b = .ok ()) : b.scores = ∅ ∧ b.sketches = ∅ ∧
    b.header.txset_root = txset_root [] ∧ b.header.score_root = scores_root ∅ ∧
    b.header.sketch_root = Sestrian.sketch_root ∅ := by
  simp only [check_sets, he.txs, List.map_nil, bind_eq_ok, require_eq_ok, exists_unit] at h
  obtain ⟨htx, ⟨hscores, -⟩, -, hsr, ⟨hsketches, -⟩, -, hkr⟩ := h
  have hs := keys_nil hscores
  have hk := keys_nil hsketches
  rw [hs] at hsr
  rw [hk] at hkr
  exact ⟨hs, hk, htx.symm, hsr.symm, hkr.symm⟩

omit [Crypto] in
theorem header_ext {h h' : Header} (h₁ : h'.height = h.height) (h₂ : h'.prev_hash = h.prev_hash)
    (h₃ : h'.state_root = h.state_root) (h₄ : h'.txset_root = h.txset_root) (h₅ : h'.n_txs = h.n_txs)
    (h₆ : h'.work = h.work) (h₇ : h'.proposer = h.proposer) (h₈ : h'.transfer_root = h.transfer_root)
    (h₉ : h'.ledger_root = h.ledger_root) (h₁₀ : h'.data_root = h.data_root) (h₁₁ : h'.vrf_proof = h.vrf_proof)
    (h₁₂ : h'.score_root = h.score_root) (h₁₃ : h'.sketch_root = h.sketch_root) (h₁₄ : h'.model_root = h.model_root)
    (h₁₅ : h'.vrf_attempt = h.vrf_attempt) (h₁₆ : h'.version = h.version) : h' = h := by
  cases h
  cases h'
  simp only [Header.mk.injEq]
  exact ⟨h₁, h₂, h₃, h₄, h₅, h₆, h₇, h₈, h₉, h₁₀, h₁₁, h₁₂, h₁₃, h₁₄, h₁₅, h₁₆⟩

/-- In one slot there is one header of a block that carries nothing. -/
theorem IsEmpty.header {b' : Block} (he : IsEmpty b) (he' : IsEmpty b') (hf : p.Fits b) (hf' : p.Fits b')
    (hprev : b'.header.prev_hash = b.header.prev_hash) (hprop : b'.header.proposer = b.header.proposer)
    (hatt : b'.header.vrf_attempt = b.header.vrf_attempt) (hproof : b'.header.vrf_proof = b.header.vrf_proof)
    (hwork : b'.header.work = b.header.work) : b'.header = b.header := by
  obtain ⟨hs, -, htx, hsr, hkr⟩ := he.sets hf.sets
  obtain ⟨hs', -, htx', hsr', hkr'⟩ := he'.sets hf'.sets
  have hheight : b'.header.height = b.header.height := hf'.height.trans hf.height.symm
  have hfold : fold_block b' p.model p.params = fold_block b p.model p.params := by
    unfold fold_block zero_scored
    simp only
    rw [hheight, hprev, hprop, hs, hs', he.txs, he'.txs]
  have hdense (acts : List Activation) :
      dense_post b' p.weights p.model p.params acts = dense_post b p.weights p.model p.params acts := by
    unfold dense_post
    rw [he.txs, he'.txs]
    rfl
  have hpaid : p.paid_ledger b'.header = p.paid_ledger b.header := paid_congr hheight hprop p
  have hledger : b'.header.ledger_root = b.header.ledger_root := by
    obtain ⟨led, hled, hroot⟩ := hf.ledger
    obtain ⟨led', hled', hroot'⟩ := hf'.ledger
    rw [token_transition_bare he] at hled
    rw [token_transition_bare he', hpaid, hled] at hled'
    obtain rfl := Except.ok.inj hled'
    exact hroot'.symm.trans hroot
  have hstate : b'.header.state_root = b.header.state_root := by
    rw [← hf.state_root, ← hf'.state_root, hfold, hdense]
  have hn : b'.header.n_txs = b.header.n_txs := by
    apply UInt64.toNat_inj.mp
    rw [hf.n_txs, hf'.n_txs, he.txs, he'.txs]
  refine header_ext hheight hprev hstate (htx'.trans htx.symm) hn hwork hprop ?_ hledger ?_ hproof (hsr'.trans hsr.symm)
    (hkr'.trans hkr.symm) ?_ hatt ?_
  · rw [← hf.transfer_root, ← hf'.transfer_root, he.transfers, he'.transfers]
  · rw [← hf.data_root, ← hf'.data_root, he.data_txs, he'.data_txs]
  · rw [← hf.model_root, ← hf'.model_root, hfold]
  · rw [hf.version, hf'.version, hheight]

/-! ## Whose block it is -/

/-- What anybody can use: lottery proofs of the proposer with their attempts, deltas and account transactions. -/
structure Public where
  proofs : List (UInt64 × List UInt8)
  deltas : List BackpropTx
  transfers : List TransferTx
  data_txs : List AccountTx

/-- A block for the same slot that needs no new signature of the proposer: the lottery proof and every
transaction are in `b` or public. -/
structure Derived (known : Public) (b b' : Block) : Prop where
  prev_hash : b'.header.prev_hash = b.header.prev_hash
  proposer : b'.header.proposer = b.header.proposer
  proof : b'.header.vrf_attempt = b.header.vrf_attempt ∧ hex_decode b'.header.vrf_proof = hex_decode b.header.vrf_proof ∨
    ∃ q ∈ known.proofs, b'.header.vrf_attempt = q.1 ∧ hex_decode b'.header.vrf_proof = some q.2
  txs : ∀ tx ∈ b'.txs, tx ∈ b.txs ∨ tx ∈ known.deltas
  transfers : ∀ tx ∈ b'.transfers, tx ∈ b.transfers ∨ tx ∈ known.transfers
  data_txs : ∀ tx ∈ b'.data_txs, tx ∈ b.data_txs ∨ tx ∈ known.data_txs

/-- Nobody else can put another header into the slot. -/
def Own (p : Base) (known : Public) (b : Block) : Prop :=
  ∀ b', Derived known b b' → p.accepts b' → b'.header = b.header

/-- The slot, claimed with another proof. -/
def with_proof (h : Header) (q : UInt64 × List UInt8) : Header :=
  { h with vrf_attempt := q.1, vrf_proof := hex_encode q.2, work := lottery.attempt_work q.2 q.1 }

/-- The rules of the deltas, in the slot of a header: each one is valid with its body, the scores and the
sketches cover them, they name staked data, and their bonds can be locked once the block has paid. -/
structure DeltasFit (p : Base) (h : Header) (c : Batch) : Prop where
  count : c.txs.length < 2 ^ 64
  txs : ∀ tx ∈ c.txs, check_tx (slotted h c [] []) (some p.weights) p.weights.length p.model p.params tx = .ok ()
  sets : check_sets (slotted h c [] []) = .ok ()
  provenance : check_provenance (p.settled_ledger h.height) (slotted h c [] []) = .ok ()
  bonds : ∃ led, c.txs.foldlM (lock_tx_bond h.height)
    (reward_block (p.settled_ledger h.height) (slotted h c [] []) p.data_contributor) = .ok led

/-- An account transaction that can come first. -/
def Applies (p : Base) (h : Header) (tx : AccountTx) : Prop :=
  ∃ led, apply_account_tx h.height p.jurors (p.paid_ledger h) tx = .ok led

/-- The proposer has a key, its proof has one spelling, the block carries nothing, and nothing that is public is of
use in the slot: no other proof wins the lottery, no deltas pass their rules, no account transaction can be applied. -/
structure Bound (p : Base) (known : Public) (b : Block) : Prop where
  keyed : b.header.proposer ≠ "genesis"
  spelled : NoLetter ((hex_decode b.header.vrf_proof).getD [])
  carries_nothing : IsEmpty b
  proofs : ∀ q ∈ known.proofs, check_lottery (with_proof b.header q) p.ledger = .ok () →
    q.1 = b.header.vrf_attempt ∧ some q.2 = hex_decode b.header.vrf_proof
  deltas : ∀ c : Batch, c.txs ≠ [] → (∀ tx ∈ c.txs, tx ∈ known.deltas) → ¬ DeltasFit p b.header c
  transfers : ∀ t ∈ known.transfers, ¬ Applies p b.header (.Transfer t)
  data_txs : ∀ t ∈ known.data_txs, ¬ Applies p b.header t

/-- The roots of these sets are not the root of the empty set. -/
structure RootsTell (known : Public) (b : Block) : Prop where
  transfers : transfer_root b.transfers = transfer_root [] → b.transfers = []
  data_txs : data_root b.data_txs = data_root [] → b.data_txs = []
  transfer : ∀ t ∈ known.transfers, transfer_root [t] ≠ transfer_root []
  data_tx : ∀ t ∈ known.data_txs, data_root [t] ≠ data_root []

variable {known : Public}

omit [Crypto] in
theorem Derived.of_same {b' : Block} (hprev : b'.header.prev_hash = b.header.prev_hash)
    (hprop : b'.header.proposer = b.header.proposer) (hatt : b'.header.vrf_attempt = b.header.vrf_attempt)
    (hproof : hex_decode b'.header.vrf_proof = hex_decode b.header.vrf_proof)
    (htxs : ∀ tx ∈ b'.txs, tx ∈ b.txs ∨ tx ∈ known.deltas)
    (htransfers : ∀ tx ∈ b'.transfers, tx ∈ b.transfers ∨ tx ∈ known.transfers)
    (hdata : ∀ tx ∈ b'.data_txs, tx ∈ b.data_txs ∨ tx ∈ known.data_txs) : Derived known b b' :=
  ⟨hprev, hprop, .inl ⟨hatt, hproof⟩, htxs, htransfers, hdata⟩

theorem verify_empty (pub_hex : String) (msg : List UInt8) : verify_sig pub_hex msg [] = false := by
  unfold verify_sig
  split <;> simp

theorem empty_proof_loses {h : Header} (hk : h.proposer ≠ "genesis") {led : TokenLedger} {attempt : UInt64} :
    check_lottery (with_proof h (attempt, [])) led ≠ .ok () := by
  intro hl
  have hdecode : hex_decode (with_proof h (attempt, [])).vrf_proof = some [] := hex_decode_encode []
  have hprop : (with_proof h (attempt, [])).proposer = h.proposer := rfl
  simp [check_lottery, hprop, hk, hdecode, bind_eq_ok, require_eq_ok, lottery.eligible, verify_empty] at hl

theorem lottery_proof {h : Header} {led : TokenLedger} (hk : h.proposer ≠ "genesis") (hl : check_lottery h led = .ok ()) :
    (∃ proof, hex_decode h.vrf_proof = some proof) ∧
      h.work = lottery.attempt_work ((hex_decode h.vrf_proof).getD []) h.vrf_attempt := by
  simp only [check_lottery, hk, if_false, bind_eq_ok, require_eq_ok, exists_unit] at hl
  obtain ⟨-, hel, hwork⟩ := hl
  refine ⟨?_, hwork⟩
  cases hd : hex_decode h.vrf_proof with
  | some proof => exact ⟨proof, rfl⟩
  | none =>
    rw [hd, Option.getD_none] at hel
    simp [lottery.eligible, verify_empty] at hel

theorem check_lottery_congr (h h' : Header) (hp : h'.proposer = h.proposer)
    (hv : hex_decode h'.vrf_proof = hex_decode h.vrf_proof) (ha : h'.vrf_attempt = h.vrf_attempt)
    (hprev : h'.prev_hash = h.prev_hash) (hh : h'.height = h.height) (hw : h'.work = h.work) (led : TokenLedger) :
    check_lottery h' led = check_lottery h led := by
  unfold check_lottery
  rw [hp, hv, ha, hprev, hh, hw]

theorem lottery_relabel {led : TokenLedger} {v : String} (hv : hex_decode v = hex_decode b.header.vrf_proof)
    (hl : check_lottery b.header led = .ok ()) : check_lottery (relabel b v b.header.work).header led = .ok () := by
  rw [← hl]
  exact check_lottery_congr b.header (relabel b v b.header.work).header rfl hv rfl rfl rfl rfl led

omit [Crypto] in
theorem derived_relabel {v : String} (hv : hex_decode v = hex_decode b.header.vrf_proof) (work : UInt64) :
    Derived known b (relabel b v work) :=
  .of_same rfl rfl rfl hv (fun _ => .inl) (fun _ => .inl) fun _ => .inl

theorem accepts_relabel {v : String} (hv : hex_decode v = hex_decode b.header.vrf_proof) (ha : p.accepts b) :
    p.accepts (relabel b v b.header.work) := by
  obtain ⟨hl, hf⟩ := (accepts_iff p b).mp ha
  exact (accepts_iff p _).mpr ⟨lottery_relabel hv hl, hf.relabel _ _⟩

/-! ### The block is its own only then -/

theorem Own.keyed (h : Own p known b) (ha : p.accepts b) : b.header.proposer ≠ "genesis" := by
  intro hg
  obtain ⟨-, hf⟩ := (accepts_iff p b).mp ha
  have hl : check_lottery (relabel b b.header.vrf_proof (b.header.work + 1)).header p.ledger = .ok () := by
    unfold check_lottery
    exact if_pos hg
  have heq := h (relabel b b.header.vrf_proof (b.header.work + 1)) (derived_relabel rfl _)
    ((accepts_iff p _).mpr ⟨hl, hf.relabel _ _⟩)
  have hwork : b.header.work + 1 = b.header.work := congrArg Header.work heq
  simp at hwork

theorem Own.spelled (h : Own p known b) (ha : p.accepts b) : NoLetter ((hex_decode b.header.vrf_proof).getD []) := by
  obtain ⟨hl, -⟩ := (accepts_iff p b).mp ha
  obtain ⟨⟨proof, hproof⟩, -⟩ := lottery_proof (h.keyed ha) hl
  have hsame {v : String} (hv : hex_decode v = some proof) : v = b.header.vrf_proof := by
    have hv' := hv.trans hproof.symm
    have heq := h (relabel b v b.header.work) (derived_relabel hv' _) (accepts_relabel hv' ha)
    exact congrArg Header.vrf_proof heq
  rw [hproof, Option.getD_some]
  exact noLetter_of_same ((hsame (hex_decode_encode proof)).trans (hsame (hex_decode_upper proof)).symm)

theorem lottery_filled (d : Block) (led led' : TokenLedger) :
    check_lottery (p.filled d led).header led' = check_lottery d.header led' :=
  check_lottery_congr d.header (p.filled d led).header rfl rfl rfl rfl rfl rfl led'

theorem lottery_slotted (h : Header) (c : Batch) (transfers : List TransferTx) (data_txs : List AccountTx) (led : TokenLedger) :
    check_lottery (slotted h c transfers data_txs).header led = check_lottery h led :=
  check_lottery_congr h (slotted h c transfers data_txs).header rfl rfl rfl rfl rfl rfl led

/-- A block for the slot of `b` wins the lottery with the proof of `b`. -/
theorem accepts_filled {c : Batch} {transfers : List TransferTx} {data_txs : List AccountTx} {led : TokenLedger}
    (ha : p.accepts b) (hf : p.Fits (p.filled (slotted b.header c transfers data_txs) led)) :
    p.accepts (p.filled (slotted b.header c transfers data_txs) led) := by
  obtain ⟨hl, -⟩ := (accepts_iff p b).mp ha
  refine (accepts_iff p _).mpr ⟨?_, hf⟩
  rw [lottery_filled, lottery_slotted]
  exact hl

/-- It is derived from `b` and what is public if its transactions are. -/
theorem derived_filled {c : Batch} {transfers : List TransferTx} {data_txs : List AccountTx} (led : TokenLedger)
    (htxs : ∀ tx ∈ c.txs, tx ∈ known.deltas) (htransfers : ∀ tx ∈ transfers, tx ∈ known.transfers)
    (hdata : ∀ tx ∈ data_txs, tx ∈ known.data_txs) :
    Derived known b (p.filled (slotted b.header c transfers data_txs) led) := by
  obtain ⟨hprev, hprop, hatt, hproof, -⟩ := filled_slot p (slotted b.header c transfers data_txs) led
  exact .of_same hprev hprop hatt (congrArg hex_decode hproof) (fun tx htx => .inr (htxs tx htx))
    (fun tx htx => .inr (htransfers tx htx)) fun tx htx => .inr (hdata tx htx)

theorem bare_slot (p : Base) (h : Header) : (p.bare_block h).header.n_txs = 0 ∧
    (p.bare_block h).header.transfer_root = transfer_root [] ∧ (p.bare_block h).header.data_root = data_root [] := by
  obtain ⟨-, -, -, -, -, -, hn, htr, hdr⟩ := filled_slot p (slotted h .none [] []) (p.paid_ledger h)
  exact ⟨hn, htr, hdr⟩

theorem Own.carries_nothing (h : Own p known b) (ha : p.accepts b) (hr : RootsTell known b) : IsEmpty b := by
  obtain ⟨-, hf⟩ := (accepts_iff p b).mp ha
  have hbare : p.accepts (p.bare_block b.header) := accepts_filled ha (fits_bare hf.version hf.height)
  have hnone {α : Type} {l : List α} : ∀ x ∈ ([] : List α), x ∈ l := fun _ hx => absurd hx List.not_mem_nil
  have heq : (p.bare_block b.header).header = b.header :=
    h (p.bare_block b.header) (derived_filled (p.paid_ledger b.header) hnone hnone hnone) hbare
  obtain ⟨hn, htr, hdr⟩ := bare_slot p b.header
  rw [heq] at hn htr hdr
  refine ⟨List.eq_nil_of_length_eq_zero ?_, hr.transfers (hf.transfer_root.trans htr), hr.data_txs (hf.data_root.trans hdr)⟩
  rw [← hf.n_txs, hn]
  rfl

theorem Own.proofs (h : Own p known b) (ha : p.accepts b) {q : UInt64 × List UInt8} (hq : q ∈ known.proofs)
    (hl : check_lottery (with_proof b.header q) p.ledger = .ok ()) :
    q.1 = b.header.vrf_attempt ∧ some q.2 = hex_decode b.header.vrf_proof := by
  obtain ⟨-, hf⟩ := (accepts_iff p b).mp ha
  obtain ⟨htxs, htransfers, hdata⟩ := bare_isEmpty p (with_proof b.header q)
  obtain ⟨hprev, hprop, hatt, hproof, -⟩ := filled_slot p (slotted (with_proof b.header q) .none [] [])
    (p.paid_ledger (with_proof b.header q))
  have hfits : p.Fits (p.bare_block (with_proof b.header q)) := fits_bare hf.version hf.height
  have hlot : check_lottery (p.bare_block (with_proof b.header q)).header p.ledger = .ok () := by
    unfold bare_block
    rw [lottery_filled, lottery_slotted]
    exact hl
  have hdecode : hex_decode (p.bare_block (with_proof b.header q)).header.vrf_proof = some q.2 :=
    (congrArg hex_decode hproof).trans (hex_decode_encode q.2)
  have heq := h (p.bare_block (with_proof b.header q))
    ⟨hprev, hprop, .inr ⟨q, hq, hatt, hdecode⟩, by simp [htxs], by simp [htransfers], by simp [hdata]⟩
    ((accepts_iff p _).mpr ⟨hlot, hfits⟩)
  rw [heq] at hdecode
  exact ⟨hatt.symm.trans (congrArg Header.vrf_attempt heq), hdecode.symm⟩

theorem Own.deltas (h : Own p known b) (ha : p.accepts b) (he : IsEmpty b) {c : Batch} (hne : c.txs ≠ [])
    (hc : ∀ tx ∈ c.txs, tx ∈ known.deltas) : ¬ DeltasFit p b.header c := by
  intro hfit
  obtain ⟨-, hf⟩ := (accepts_iff p b).mp ha
  obtain ⟨led, hled⟩ := hfit.bonds
  have htoken : token_transition p.ledger (slotted b.header c [] []) p.data_contributor p.jurors = .ok led := by
    simp only [token_transition, bind_eq_ok, exists_unit]
    rw [account_txs_nil ⟨rfl, rfl⟩]
    exact ⟨hfit.provenance, led, hled, rfl⟩
  have hfits := fits_slotted hf.version hf.height hfit.count hfit.txs hfit.sets htoken
  have hnone {α : Type} {l : List α} : ∀ x ∈ ([] : List α), x ∈ l := fun _ hx => absurd hx List.not_mem_nil
  have heq := h (p.filled (slotted b.header c [] []) led) (derived_filled led hc hnone hnone) (accepts_filled ha hfits)
  have hn := hfits.n_txs
  rw [heq, hf.n_txs, he.txs, (filled_carries p (slotted b.header c [] []) led).1] at hn
  exact hne (List.eq_nil_of_length_eq_zero hn.symm)

/-- A block with one account transaction. -/
theorem accepts_account {transfers : List TransferTx} {data_txs : List AccountTx} {tx : AccountTx} (ha : p.accepts b)
    (hone : account_txs (slotted b.header .none transfers data_txs) = [tx]) (happ : Applies p b.header tx) :
    ∃ led, p.accepts (p.filled (slotted b.header .none transfers data_txs) led) := by
  obtain ⟨-, hf⟩ := (accepts_iff p b).mp ha
  obtain ⟨led, hled⟩ := happ
  refine ⟨led, accepts_filled ha (fits_accounts hf.version hf.height ?_)⟩
  rw [hone, List.foldlM_cons, hled]
  rfl

/-- No public account transactions can be put in alone. -/
theorem Own.accounts (h : Own p known b) (ha : p.accepts b) (he : IsEmpty b) {transfers : List TransferTx}
    {data_txs : List AccountTx} {tx : AccountTx} (hone : account_txs (slotted b.header .none transfers data_txs) = [tx])
    (htransfers : ∀ t ∈ transfers, t ∈ known.transfers) (hdata : ∀ t ∈ data_txs, t ∈ known.data_txs)
    (hroots : transfer_root transfers ≠ transfer_root [] ∨ data_root data_txs ≠ data_root []) :
    ¬ Applies p b.header tx := by
  intro happ
  obtain ⟨-, hf⟩ := (accepts_iff p b).mp ha
  obtain ⟨led, hacc⟩ := accepts_account ha hone happ
  have hnone : ∀ x ∈ Batch.none.txs, x ∈ known.deltas := fun _ hx => absurd hx List.not_mem_nil
  have heq := h (p.filled (slotted b.header .none transfers data_txs) led) (derived_filled led hnone htransfers hdata) hacc
  obtain ⟨-, -, -, -, -, -, -, htr, hdr⟩ := filled_slot p (slotted b.header .none transfers data_txs) led
  rw [heq, ← hf.transfer_root, he.transfers] at htr
  rw [heq, ← hf.data_root, he.data_txs] at hdr
  exact hroots.elim (fun hne => hne htr.symm) fun hne => hne hdr.symm

theorem account_txs_one (tx : AccountTx) : canonical_account_txs [tx] = [tx] := by
  unfold canonical_account_txs
  rfl

theorem Own.transfers (h : Own p known b) (ha : p.accepts b) (he : IsEmpty b) (hr : RootsTell known b) {t : TransferTx}
    (ht : t ∈ known.transfers) : ¬ Applies p b.header (.Transfer t) := by
  have hone : account_txs (slotted b.header .none [t] []) = [.Transfer t] := account_txs_one _
  exact h.accounts ha he hone (fun _ hx => List.mem_singleton.mp hx ▸ ht) (fun _ hx => absurd hx List.not_mem_nil)
    (.inl (hr.transfer t ht))

theorem Own.data_txs (h : Own p known b) (ha : p.accepts b) (he : IsEmpty b) (hr : RootsTell known b) {t : AccountTx}
    (ht : t ∈ known.data_txs) : ¬ Applies p b.header t := by
  have hone : account_txs (slotted b.header .none [] [t]) = [t] := account_txs_one _
  exact h.accounts ha he hone (fun _ hx => absurd hx List.not_mem_nil) (fun _ hx => List.mem_singleton.mp hx ▸ ht)
    (.inr (hr.data_tx t ht))

/-! ### And then it is -/

/-- The deltas of an accepted block for the slot pass their rules. -/
theorem deltasFit_of_fits {b' : Block} {h : Header} (hf : p.Fits b') (hheight : b'.header.height = h.height)
    (hprop : b'.header.proposer = h.proposer) : DeltasFit p h ⟨b'.txs, b'.bodies, b'.scores, b'.sketches⟩ := by
  obtain ⟨led, hled, -⟩ := hf.ledger
  simp only [token_transition, bind_eq_ok, exists_unit] at hled
  obtain ⟨hprov, led', hbonds, -⟩ := hled
  have hsets := hf.sets
  simp only [check_sets, bind_eq_ok, require_eq_ok, exists_unit] at hsets
  obtain ⟨-, hscores, hcap, -, hsketches, hdim, -⟩ := hsets
  refine ⟨?_, fun tx htx => ?_, ?_, ?_, led', ?_⟩
  · rw [← hf.n_txs]
    exact b'.header.n_txs.toNat_lt
  · rw [← hf.txs tx htx]
    exact @check_tx_congr _ b' (slotted h ⟨b'.txs, b'.bodies, b'.scores, b'.sketches⟩ [] []) hheight.symm rfl _ _ _ _ _
  · simp only [check_sets, bind_eq_ok, require_eq_ok, exists_unit]
    exact ⟨rfl, hscores, hcap, rfl, hsketches, hdim, rfl⟩
  · rw [← hheight]
    exact hprov
  · rw [← hheight, ← hbonds]
    rw [@reward_congr _ b' (slotted h ⟨b'.txs, b'.bodies, b'.scores, b'.sketches⟩ [] []) hheight.symm hprop.symm rfl rfl rfl,
      hheight]
    rfl

/-- Of several account transactions one comes first. -/
theorem applies_first {b' : Block} {h : Header} (hf : p.Fits b') (htxs : b'.txs = []) (hheight : b'.header.height = h.height)
    (hprop : b'.header.proposer = h.proposer) : account_txs b' = [] ∨ ∃ tx ∈ account_txs b', Applies p h tx := by
  obtain ⟨led, hled, -⟩ := hf.ledger
  rw [token_transition_accounts htxs] at hled
  cases hacc : account_txs b' with
  | nil => exact .inl rfl
  | cons tx rest =>
    rw [hacc, List.foldlM_cons] at hled
    simp only [bind_eq_ok] at hled
    obtain ⟨led', happ, -⟩ := hled
    refine .inr ⟨tx, List.mem_cons_self, led', ?_⟩
    rw [← hheight, ← paid_congr hheight hprop p]
    exact happ

theorem mem_account_txs {b' : Block} {tx : AccountTx} :
    tx ∈ account_txs b' ↔ tx ∈ b'.data_txs ∨ ∃ t ∈ b'.transfers, .Transfer t = tx := by
  unfold account_txs canonical_account_txs
  rw [(List.perm_insertionSort _ _).mem_iff, List.mem_append, List.mem_map]

theorem Bound.isEmpty (h : Bound p known b) (hb : p.Fits b) {b' : Block} (hd : Derived known b b') (hf : p.Fits b') :
    IsEmpty b' := by
  have he := h.carries_nothing
  have hheight : b'.header.height = b.header.height := hf.height.trans hb.height.symm
  have htxs : b'.txs = [] := by
    by_contra hne
    refine h.deltas ⟨b'.txs, b'.bodies, b'.scores, b'.sketches⟩ hne (fun tx htx => ?_) (deltasFit_of_fits hf hheight hd.proposer)
    exact (hd.txs tx htx).resolve_left (by simp [he.txs])
  rcases applies_first hf htxs hheight hd.proposer with hnone | ⟨tx, htx, happ⟩
  · have hout (tx : AccountTx) (htx : tx ∈ account_txs b') : False := by
      rw [hnone] at htx
      cases htx
    refine ⟨htxs, List.eq_nil_iff_forall_not_mem.mpr fun t ht => ?_, List.eq_nil_iff_forall_not_mem.mpr fun t ht => ?_⟩
    · exact hout _ (mem_account_txs.mpr (.inr ⟨t, ht, rfl⟩))
    · exact hout _ (mem_account_txs.mpr (.inl ht))
  · rcases mem_account_txs.mp htx with hin | ⟨t, ht, rfl⟩
    · exact absurd happ (h.data_txs tx ((hd.data_txs tx hin).resolve_left (by simp [he.data_txs])))
    · exact absurd happ (h.transfers t ((hd.transfers t ht).resolve_left (by simp [he.transfers])))

/-- Whichever proof was used, it is that of `b`. -/
theorem Bound.same_proof (h : Bound p known b) (hb : p.Fits b) {b' : Block} (hd : Derived known b b') (hf : p.Fits b')
    (hl : check_lottery b'.header p.ledger = .ok ()) :
    b'.header.vrf_attempt = b.header.vrf_attempt ∧ hex_decode b'.header.vrf_proof = hex_decode b.header.vrf_proof := by
  rcases hd.proof with hsame | ⟨q, hq, hatt, hproof⟩
  · exact hsame
  · have hkey : b'.header.proposer ≠ "genesis" := by
      rw [hd.proposer]
      exact h.keyed
    obtain ⟨-, hwork⟩ := lottery_proof hkey hl
    rw [hproof, Option.getD_some, hatt] at hwork
    have hdecode : hex_decode (with_proof b.header q).vrf_proof = some q.2 := hex_decode_encode q.2
    have hwin : check_lottery (with_proof b.header q) p.ledger = .ok () := by
      rw [← check_lottery_congr (with_proof b.header q) b'.header hd.proposer (hproof.trans hdecode.symm) hatt hd.prev_hash
        (hf.height.trans hb.height.symm) hwork]
      exact hl
    obtain ⟨hatt', hproof'⟩ := h.proofs q hq hwin
    exact ⟨hatt.trans hatt', hproof.trans hproof'⟩

theorem Bound.own (h : Bound p known b) (ha : p.accepts b) : Own p known b := by
  intro b' hd ha'
  obtain ⟨hl, hf⟩ := (accepts_iff p b).mp ha
  obtain ⟨hl', hf'⟩ := (accepts_iff p b').mp ha'
  obtain ⟨⟨proof, hproof⟩, hwork⟩ := lottery_proof h.keyed hl
  obtain ⟨-, hwork'⟩ := lottery_proof (by rw [hd.proposer]; exact h.keyed) hl'
  obtain ⟨hatt, hsame⟩ := h.same_proof hf hd hf' hl'
  have hletters := h.spelled
  rw [hproof, Option.getD_some] at hletters
  have htext : b'.header.vrf_proof = b.header.vrf_proof :=
    (spelled_once (hsame.trans hproof) hletters).trans (spelled_once hproof hletters).symm
  refine h.carries_nothing.header (h.isEmpty hf hd hf') hf hf' hd.prev_hash hd.proposer hatt htext ?_
  rw [hwork, hwork', hatt, hsame]

end Base

open Base

/-- An accepted block is its proposer's own exactly when it is bound to its slot. -/
theorem own_block_iff (p : Base) (known : Public) (b : Block) (ha : p.accepts b) (hr : RootsTell known b) :
    Own p known b ↔ Bound p known b := by
  refine ⟨fun h => ?_, fun h => h.own ha⟩
  have he := h.carries_nothing ha hr
  exact ⟨h.keyed ha, h.spelled ha, he, fun _ hq hl => h.proofs ha hq hl, fun _ hne hc => h.deltas ha he hne hc,
    fun _ ht => h.transfers ha he hr ht, fun _ ht => h.data_txs ha he hr ht⟩

end Any

open scoped Toy

open Base

namespace Toy

/-- The parent of the first blocks. -/
def first_base : Base where
  weights := [5]
  height := 0
  ledger := .new
  data_contributor := none
  jurors := ∅
  model := .genesis params.spec
  params := params

def slot_proof (prev_hash : String) : List UInt8 := vrf_prove (key 7) prev_hash 1 lottery.ATTEMPT_MAX

def slot_header (prev_hash : String) : Header :=
  (draft_block 1 (expected_version_at 1 params) prev_hash (hex_encode (key 7).val) (hex_encode (slot_proof prev_hash))
    lottery.ATTEMPT_MAX (lottery.attempt_work (slot_proof prev_hash) lottery.ATTEMPT_MAX)).header

/-- The holder of a key takes a slot with an empty block. -/
def slot_block (prev_hash : String) : Block := first_base.bare_block (slot_header prev_hash)

theorem slot_wins (prev_hash : String) (led : TokenLedger) : check_lottery (slot_header prev_hash) led = .ok () :=
  lottery_last _ (key 7) (hex_decode_encode (key 7).val) (hex_ne_genesis (key 7).val) rfl rfl rfl

theorem slot_fields (prev_hash : String) : (slot_block prev_hash).header.prev_hash = prev_hash ∧
    (slot_block prev_hash).header.proposer = hex_encode (key 7).val ∧
    (slot_block prev_hash).header.vrf_attempt = lottery.ATTEMPT_MAX ∧
    (slot_block prev_hash).header.vrf_proof = hex_encode (slot_proof prev_hash) ∧ (slot_block prev_hash).header.height = 1 ∧
    (slot_block prev_hash).header.work = (slot_header prev_hash).work := by
  obtain ⟨hprev, hprop, hatt, hproof, hheight, hwork, -⟩ := filled_slot first_base
    (slotted (slot_header prev_hash) .none [] []) (first_base.paid_ledger (slot_header prev_hash))
  exact ⟨hprev, hprop, hatt, hproof, hheight, hwork⟩

theorem slot_accepts (prev_hash : String) : first_base.accepts (slot_block prev_hash) := by
  obtain ⟨hprev, hprop, hatt, hproof, hheight, hwork⟩ := slot_fields prev_hash
  refine (accepts_iff _ _).mpr ⟨?_, fits_bare rfl rfl⟩
  rw [check_lottery_congr (slot_header prev_hash) _ hprop (congrArg hex_decode hproof) hatt hprev hheight hwork]
  exact slot_wins prev_hash _

theorem slot_isEmpty (prev_hash : String) : IsEmpty (slot_block prev_hash) := bare_isEmpty _ _

/-- The block with its proof in capitals. -/
def capital_block (prev_hash : String) : Block :=
  relabel (slot_block prev_hash) (hex_encode_upper (slot_proof prev_hash)) (slot_block prev_hash).header.work

theorem capital_hash : (capital_block "").hash ≠ (slot_block "").hash := by decide +kernel

theorem capital_spells (prev_hash : String) :
    hex_decode (hex_encode_upper (slot_proof prev_hash)) = hex_decode (slot_block prev_hash).header.vrf_proof := by
  rw [(slot_fields prev_hash).2.2.2.1, hex_decode_upper, hex_decode_encode]

theorem capital_derived (prev_hash : String) (known : Public) :
    Derived known (slot_block prev_hash) (capital_block prev_hash) :=
  derived_relabel (capital_spells prev_hash) _

theorem capital_accepts (prev_hash : String) : first_base.accepts (capital_block prev_hash) :=
  accepts_relabel (capital_spells prev_hash) (slot_accepts prev_hash)

/-- What somebody else may have heard: an empty proof, and a delta and a transfer that nobody signed. -/
def unsigned_delta : BackpropTx :=
  { miner := hex_encode (key 9).val, base_height := 0, delta_hash := "", da_pointer := "body", bond := 0, pages := [0],
    data_refs := ["genesis"], sig := [] }

def unsigned_transfer : TransferTx := { from_pub := hex_encode (key 9).val, to_addr := "", amount := 1, nonce := 0, sig := [] }

def heard : Public := ⟨[(0, [])], [unsigned_delta], [unsigned_transfer], []⟩

theorem heard_useless (h : Header) : ¬ Applies first_base h (.Transfer unsigned_transfer) ∧
    ∀ c : Batch, c.txs ≠ [] → (∀ tx ∈ c.txs, tx ∈ heard.deltas) → ¬ DeltasFit first_base h c := by
  have htransfer : (AccountTx.Transfer unsigned_transfer).verify = false := by decide +kernel
  have hdelta : unsigned_delta.verify = false := by decide +kernel
  constructor
  · rintro ⟨led, happ⟩
    simp [apply_account_tx, TokenLedger.apply_transfer, htransfer, require] at happ
  · intro c hne hc hfit
    obtain ⟨tx, htx⟩ := List.exists_mem_of_ne_nil _ hne
    obtain rfl := List.mem_singleton.mp (hc tx htx)
    have hrules := hfit.txs _ htx
    simp only [check_tx, bind_eq_ok, require_eq_ok, exists_unit] at hrules
    rw [hdelta] at hrules
    exact Bool.false_ne_true hrules.1

/-- A slot whose proof has no letter. -/
def plain_slot : String := "14999"

theorem slot_bound : Bound first_base heard (slot_block plain_slot) := by
  obtain ⟨-, hprop, -, hproof, -⟩ := slot_fields plain_slot
  refine ⟨?_, ?_, slot_isEmpty plain_slot, ?_, (heard_useless _).2, ?_, fun t ht => absurd ht List.not_mem_nil⟩
  · rw [hprop]
    exact hex_ne_genesis _
  · rw [hproof, hex_decode_encode, Option.getD_some]
    unfold NoLetter
    decide +kernel
  · intro q hq hwin
    obtain rfl := List.mem_singleton.mp hq
    exact absurd hwin (empty_proof_loses (by rw [hprop]; exact hex_ne_genesis _))
  · intro t ht
    obtain rfl := List.mem_singleton.mp ht
    exact (heard_useless _).1

theorem slot_roots : RootsTell heard (slot_block plain_slot) where
  transfers _ := (slot_isEmpty plain_slot).transfers
  data_txs _ := (slot_isEmpty plain_slot).data_txs
  transfer t ht := by
    obtain rfl := List.mem_singleton.mp ht
    decide +kernel
  data_tx t ht := absurd ht List.not_mem_nil

end Toy

/-- A block in a slot whose proof has no letter is its proposer's own. -/
theorem own_block_iff_slot : Own Toy.first_base Toy.heard (Toy.slot_block Toy.plain_slot) :=
  (own_block_iff Toy.first_base Toy.heard (Toy.slot_block Toy.plain_slot) (Toy.slot_accepts Toy.plain_slot)
    Toy.slot_roots).mpr Toy.slot_bound

/-- Anybody can put the proof into capitals and has another valid block of the same proposer. -/
theorem proposer_block_respelled : Toy.first_base.accepts (Toy.slot_block "") ∧
    Derived ⟨[], [], [], []⟩ (Toy.slot_block "") (Toy.capital_block "") ∧ Toy.first_base.accepts (Toy.capital_block "") ∧
    (Toy.capital_block "").hash ≠ (Toy.slot_block "").hash :=
  ⟨Toy.slot_accepts "", Toy.capital_derived "" _, Toy.capital_accepts "", Toy.capital_hash⟩

end Sestrian
