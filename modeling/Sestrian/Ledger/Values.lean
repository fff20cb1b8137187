import Sestrian.Code.ValueLedger
import Sestrian.Lib.SumMap

/-!
# What a checked ledger keeps

The checks that a snapshot passes once are kept by every step, and under them no step panics.
-/

namespace Sestrian

open Panic serde_json

/-! ## Values -/

theorem field_insert_field (k k' : String) (w : Value) (fields : List (String × Value)) :
    field k' (insert_field k w fields) = if k' = k then some w else field k' fields := by
  induction fields with
  | nil => simp [insert_field, field, eq_comm]
  | cons f fields ih =>
    obtain ⟨j, v⟩ := f
    unfold insert_field
    split_ifs with h1 h2 h3 h4 h5
    · subst h1 h2
      simp [field]
    · subst h1
      simp [field, Ne.symm h2]
    · subst h4
      simp [field]
    · simp [field, Ne.symm h4]
    · subst h5
      rw [field, if_neg (Ne.symm h1), ih, if_pos rfl]
    · rw [field, ih, if_neg h5, field]

namespace serde_json.Value

theorem index_set {v v' w : Value} {k : String} (h : v.set k w = some v') (k' : String) :
    v'.index k' = if k' = k then w else v.index k' := by
  cases v with
  | object fields =>
    obtain rfl := Option.some.inj h
    simp only [index, get, field_insert_field]
    split <;> rfl
  | null =>
    obtain rfl := Option.some.inj h
    simp only [index, get, field, eq_comm (a := k)]
    split <;> rfl
  | bool b => cases h
  | number n => cases h
  | string s => cases h
  | array items => cases h

/-- A value with a field that is not null is an object. -/
theorem set_of_index {v : Value} {k₀ : String} (h : v.index k₀ ≠ .null) (k : String) (w : Value) :
    ∃ v', v.set k w = some v' := by
  cases v with
  | object fields => exact ⟨_, rfl⟩
  | null => exact absurd rfl h
  | bool b => exact absurd rfl h
  | number n => exact absurd rfl h
  | string s => exact absurd rfl h
  | array items => exact absurd rfl h

theorem as_str_of {v : Value} (h : v.is_string = true) : ∃ s, v.as_str = some s := Option.isSome_iff_exists.mp h

theorem as_u64_of {v : Value} (h : v.is_u64 = true) : ∃ n, v.as_u64 = some n := Option.isSome_iff_exists.mp h

theorem eq_string_of {v : Value} (h : v.is_string = true) : ∃ s, v = .string s := by
  cases v with
  | string s => exact ⟨s, rfl⟩
  | null => cases h
  | bool b => cases h
  | number n => cases h
  | array items => cases h
  | object fields => cases h

end serde_json.Value

/-! ## Checked ledgers -/

namespace ValueLedger

/-- Every value of the dictionary. -/
def All (Q : Value → Prop) (m : Dict Value) : Prop := ∀ k v, m[(k : String)]? = some v → Q v

section All

variable {Q : Value → Prop} {m : Dict Value}

theorem All.empty : All Q ∅ := by
  intro k v h
  simp at h

theorem All.insert (h : All Q m) {v : Value} (hv : Q v) (k : String) : All Q (m.insert k v) := by
  intro k' v' h'
  rw [SumMap.get_insert] at h'
  split at h'
  · rw [← Option.some.inj h']
    exact hv
  · exact h k' v' h'

theorem All.erase (h : All Q m) (k : String) : All Q (m.erase k) := by
  intro k' v' h'
  rw [SumMap.get_erase] at h'
  split at h'
  · cases h'
  · exact h k' v' h'

end All

/-- A string, or a number that is not a float. -/
def Scalar : Value → Prop
  | .string _ => True
  | .number (.pos_int _) => True
  | .number (.neg_int _) => True
  | _ => False

def Leaf : Value → Prop
  | .array items => ∀ x ∈ items, Scalar x
  | v => Scalar v

/-- What holds of every value that the ledger builds, and stays when it sets a field. -/
structure Kept (X : Value → Prop) : Prop where
  object : ∀ fields : List (String × Value), (fields.map Prod.fst).Pairwise (· < ·) → (∀ f ∈ fields, Leaf f.2) →
    X (.object fields)
  set : ∀ (v v' w : Value) (k : String), X v → Leaf w → v.set k w = some v' → X v'

/-- The checks that a snapshot passes, together with `X`. -/
structure Checked (X : Value → Prop) (led : ValueLedger) : Prop where
  registry : All (fun e => valid_registry_entry e = true ∧ X e) led.registry
  challenges : All (fun c => valid_challenge c = true ∧ X c) led.challenges
  bonds : All (fun b => valid_bond b = true ∧ X b) led.bonds

/-! ## What the checks give -/

/-- The fields of a checked entry. -/
structure EntryFields (e : Value) : Prop where
  owner : (e.index "owner").is_string = true
  data_hash : (e.index "data_hash").is_string = true
  size : (e.index "size").is_u64 = true
  media_type : (e.index "media_type").is_string = true
  stake : (e.index "stake").is_u64 = true
  weight : (e.index "weight").is_u64 = true
  status : (e.index "status").is_string = true

theorem valid_registry_entry_iff (e : Value) : valid_registry_entry e = true ↔ EntryFields e := by
  simp only [valid_registry_entry, Bool.and_eq_true]
  constructor
  · rintro ⟨⟨⟨⟨⟨⟨h1, h2⟩, h3⟩, h4⟩, h5⟩, h6⟩, h7⟩
    exact ⟨h1, h2, h3, h4, h5, h6, h7⟩
  · intro h
    exact ⟨⟨⟨⟨⟨⟨h.owner, h.data_hash⟩, h.size⟩, h.media_type⟩, h.stake⟩, h.weight⟩, h.status⟩

structure ChallengeFields (c : Value) : Prop where
  data_id : (c.index "data_id").is_string = true
  challenger : (c.index "challenger").is_string = true
  stake : (c.index "stake").is_u64 = true
  reason : (c.index "reason").is_string = true
  expiry : (c.index "expiry").is_u64 = true
  votes_for : str_array (c.index "votes_for") = true
  votes_against : str_array (c.index "votes_against") = true

theorem valid_challenge_iff (c : Value) : valid_challenge c = true ↔ ChallengeFields c := by
  simp only [valid_challenge, Bool.and_eq_true]
  constructor
  · rintro ⟨⟨⟨⟨⟨⟨h1, h2⟩, h3⟩, h4⟩, h5⟩, h6⟩, h7⟩
    exact ⟨h1, h2, h3, h4, h5, h6, h7⟩
  · intro h
    exact ⟨⟨⟨⟨⟨⟨h.data_id, h.challenger⟩, h.stake⟩, h.reason⟩, h.expiry⟩, h.votes_for⟩, h.votes_against⟩

structure BondFields (b : Value) : Prop where
  miner : (b.index "miner").is_string = true
  amount : (b.index "amount").is_u64 = true
  expiry : (b.index "expiry").is_u64 = true

theorem valid_bond_iff (b : Value) : valid_bond b = true ↔ BondFields b := by
  simp only [valid_bond, Bool.and_eq_true]
  constructor
  · rintro ⟨⟨h1, h2⟩, h3⟩
    exact ⟨h1, h2, h3⟩
  · intro h
    exact ⟨⟨h.miner, h.amount⟩, h.expiry⟩

theorem str_array_iff (x : Value) : str_array x = true ↔ ∃ items, x = .array items ∧ ∀ v ∈ items, v.is_string = true := by
  unfold str_array
  cases x with
  | array items => simp [Value.as_array]
  | null => simp [Value.as_array]
  | bool b => simp [Value.as_array]
  | number n => simp [Value.as_array]
  | string s => simp [Value.as_array]
  | object fields => simp [Value.as_array]

/-! ## Money -/

section Money

variable {X : Value → Prop} {led : ValueLedger}

theorem Checked.credit (h : Checked X led) (addr : String) (amount : UInt64) : Checked X (led.credit addr amount) := by
  unfold ValueLedger.credit
  split
  · exact { h with }
  · exact h

theorem Checked.credit_all (h : Checked X led) (pays : List (String × UInt64)) : Checked X (led.credit_all pays) := by
  unfold ValueLedger.credit_all
  induction pays generalizing led with
  | nil => exact h
  | cons p pays ih => exact ih (h.credit p.1 p.2)

theorem credit_values (led : ValueLedger) (addr : String) (amount : UInt64) :
    (led.credit addr amount).registry = led.registry ∧ (led.credit addr amount).challenges = led.challenges ∧
      (led.credit addr amount).bonds = led.bonds := by
  unfold ValueLedger.credit
  split
  · exact ⟨rfl, rfl, rfl⟩
  · exact ⟨rfl, rfl, rfl⟩

/-- Who can pay has a balance to take it from. -/
theorem safe_debit (h : Checked X led) {addr : String} {amount : UInt64} (h0 : amount ≠ 0)
    (hb : ¬ led.balance addr < amount) : Safe (led.debit addr amount) (Checked X) := by
  have hget : ∃ b, led.balances[addr]? = some b := by
    cases hbal : led.balances[addr]? with
    | some b => exact ⟨b, rfl⟩
    | none =>
      refine absurd ?_ hb
      rw [balance, hbal]
      exact UInt64.pos_iff_ne_zero.mpr h0
  obtain ⟨b, hget⟩ := hget
  unfold debit
  exact safe_bind (P := fun _ => True) (safe_unwrap hget trivial) fun b _ => safe_pure { h with }

end Money

/-! ## Bonds and challenges -/

section Settle

variable {X : Value → Prop} {led : ValueLedger}

theorem safe_read_u64 {v : Value} (h : v.is_u64 = true) {Q : UInt64 → Prop} (hQ : ∀ n, Q n) :
    Safe (unwrap v.as_u64 : Step UInt64) Q := by
  obtain ⟨n, hn⟩ := Value.as_u64_of h
  exact safe_unwrap hn (hQ n)

theorem safe_read_str {v : Value} (h : v.is_string = true) {Q : String → Prop} (hQ : ∀ s, Q s) :
    Safe (unwrap v.as_str : Step String) Q := by
  obtain ⟨s, hs⟩ := Value.as_str_of h
  exact safe_unwrap hs (hQ s)

theorem safe_read_votes {v : Value} (h : str_array v = true) :
    Safe (unwrap v.as_array : Step (List Value)) fun items => ∀ x ∈ items, x.is_string = true := by
  obtain ⟨items, rfl, hall⟩ := (str_array_iff v).mp h
  exact safe_unwrap rfl hall

/-- The ids that a sweep still has to visit are there. -/
structure ToVisit (m : Dict Value) (ids : List String) : Prop where
  nodup : ids.Nodup
  mem : ∀ id ∈ ids, id ∈ m

theorem toVisit_keys (m : Dict Value) : ToVisit m m.keys :=
  ⟨Std.ExtTreeMap.distinct_keys.imp fun h => by simpa using h, fun id hid => Std.ExtTreeMap.mem_keys.mp hid⟩

theorem ToVisit.next {m : Dict Value} {id : String} {ids : List String} (h : ToVisit m (id :: ids)) :
    ToVisit m ids ∧ ToVisit (m.erase id) ids := by
  obtain ⟨hnot, hnodup⟩ := List.nodup_cons.mp h.nodup
  have hmem : ∀ id ∈ ids, id ∈ m := fun id hid => h.mem id (List.mem_cons_of_mem _ hid)
  refine ⟨⟨hnodup, hmem⟩, ⟨hnodup, fun id' hid' => ?_⟩⟩
  rw [Std.ExtTreeMap.mem_erase]
  refine ⟨fun he => hnot ?_, hmem id' hid'⟩
  rw [Std.LawfulEqCmp.eq_of_compare he]
  exact hid'

theorem safe_return_bond (height : UInt64) {tid : String} {ids : List String} (h : Checked X led)
    (hv : ToVisit led.bonds (tid :: ids)) :
    Safe (return_bond height led tid) fun led' => Checked X led' ∧ ToVisit led'.bonds ids := by
  obtain ⟨b, hb⟩ := Option.isSome_iff_exists.mp (Std.ExtTreeMap.isSome_getElem?_iff_mem.mpr (hv.mem tid List.mem_cons_self))
  have hf := (valid_bond_iff b).mp (h.bonds tid b hb).1
  unfold return_bond
  refine safe_bind (P := fun b' => b' = b) (safe_unwrap hb rfl) ?_
  rintro _ rfl
  refine safe_bind (safe_read_u64 hf.expiry (Q := fun _ => True) fun _ => trivial) fun expiry _ => ?_
  split
  · refine safe_bind (safe_read_str hf.miner (Q := fun _ => True) fun _ => trivial) fun miner _ => ?_
    refine safe_bind (safe_read_u64 hf.amount (Q := fun _ => True) fun _ => trivial) fun amount _ => ?_
    exact safe_pure ⟨{ h.credit miner amount with bonds := h.bonds.erase tid }, hv.next.2⟩
  · exact safe_pure ⟨h, hv.next.1⟩

theorem safe_resolve_expired_bonds (h : Checked X led) (height : UInt64) :
    Safe (led.resolve_expired_bonds height) (Checked X) := by
  unfold resolve_expired_bonds
  refine safe_mono (safe_foldlM (fun ids led => Checked X led ∧ ToVisit led.bonds ids) ⟨h, toVisit_keys _⟩ ?_) ?_
  · rintro tid ids led ⟨hled, hv⟩
    exact safe_return_bond height hled hv
  · exact fun led hled => hled.1

/-- The three fields of an entry that the ledger sets. -/
inductive EntryWrite : String → Value → Prop where
  | status (s : String) : EntryWrite "status" (.string s)
  | stake (n : UInt64) : EntryWrite "stake" (.of_u64 n)
  | sketch (xs : List Int64) : EntryWrite "sketch" (.array (xs.map .of_i64))

theorem EntryFields.set {e e' w : Value} {k : String} (h : EntryFields e) (hw : EntryWrite k w) (hs : e.set k w = some e') :
    EntryFields e' := by
  have hget := Value.index_set hs
  cases hw with
  | status s =>
    constructor <;> rw [hget]
    · exact h.owner
    · exact h.data_hash
    · exact h.size
    · exact h.media_type
    · exact h.stake
    · exact h.weight
    · rfl
  | stake n =>
    constructor <;> rw [hget]
    · exact h.owner
    · exact h.data_hash
    · exact h.size
    · exact h.media_type
    · rfl
    · exact h.weight
    · exact h.status
  | sketch xs =>
    constructor <;> rw [hget]
    · exact h.owner
    · exact h.data_hash
    · exact h.size
    · exact h.media_type
    · exact h.stake
    · exact h.weight
    · exact h.status

theorem scalar_of_i64 (i : Int64) : Scalar (.of_i64 i) := by
  unfold Value.of_i64
  split
  · trivial
  · trivial

theorem EntryWrite.leaf {k : String} {w : Value} (h : EntryWrite k w) : Leaf w := by
  cases h with
  | status s => trivial
  | stake n => trivial
  | sketch xs =>
    intro x hx
    obtain ⟨i, -, rfl⟩ := List.mem_map.mp hx
    exact scalar_of_i64 i

theorem EntryFields.not_null {e : Value} (h : EntryFields e) : e.index "owner" ≠ .null := by
  intro hn
  have howner := h.owner
  rw [hn] at howner
  cases howner

/-- Setting one of its fields keeps an entry good. -/
theorem safe_set_entry (hX : Kept X) {e w : Value} {k : String} (he : valid_registry_entry e = true ∧ X e)
    (hw : EntryWrite k w) : Safe (unwrap (e.set k w) : Step Value) fun e' => valid_registry_entry e' = true ∧ X e' := by
  have hf := (valid_registry_entry_iff e).mp he.1
  obtain ⟨e', he'⟩ := Value.set_of_index hf.not_null k w
  exact safe_unwrap he' ⟨(valid_registry_entry_iff e').mpr (hf.set hw he'), hX.set e e' w k he.2 hw.leaf he'⟩

theorem safe_settle_challenge (hX : Kept X) (h : Checked X led) {ch : Value} (hc : ChallengeFields ch) (data_id : String)
    (upheld : Bool) : Safe (led.settle_challenge ch data_id upheld) fun led' =>
      Checked X led' ∧ led'.challenges = led.challenges := by
  unfold settle_challenge
  split
  · exact safe_pure ⟨h, rfl⟩
  rename_i entry hget
  have hentry := h.registry data_id entry hget
  have hf := (valid_registry_entry_iff entry).mp hentry.1
  split
  · refine safe_bind (safe_read_u64 hf.stake (Q := fun _ => True) fun _ => trivial) fun stake _ => ?_
    have hrevoke : Safe (revoke entry) fun e' => valid_registry_entry e' = true ∧ X e' := by
      unfold revoke
      exact safe_bind (safe_set_entry hX hentry (.status _)) fun e' he' => safe_set_entry hX he' (.stake _)
    refine safe_bind hrevoke fun revoked hrevoked => ?_
    refine safe_bind (safe_read_str hc.challenger (Q := fun _ => True) fun _ => trivial) fun challenger _ => ?_
    refine safe_bind (safe_read_u64 hc.stake (Q := fun _ => True) fun _ => trivial) fun ch_stake _ => ?_
    refine safe_pure ⟨Checked.credit ?_ _ _, (credit_values _ _ _).2.1⟩
    exact { h with registry := h.registry.insert hrevoked data_id }
  · refine safe_bind (safe_read_str hf.owner (Q := fun _ => True) fun _ => trivial) fun owner _ => ?_
    refine safe_bind (safe_read_u64 hc.stake (Q := fun _ => True) fun _ => trivial) fun ch_stake _ => ?_
    exact safe_pure ⟨h.credit _ _, (credit_values _ _ _).2.1⟩

theorem safe_resolve_challenge (hX : Kept X) (height : UInt64) {cid : String} {ids : List String} (h : Checked X led)
    (hv : ToVisit led.challenges (cid :: ids)) :
    Safe (resolve_challenge height led cid) fun led' => Checked X led' ∧ ToVisit led'.challenges ids := by
  obtain ⟨ch, hch⟩ := Option.isSome_iff_exists.mp (Std.ExtTreeMap.isSome_getElem?_iff_mem.mpr (hv.mem cid List.mem_cons_self))
  have hf := (valid_challenge_iff ch).mp (h.challenges cid ch hch).1
  unfold resolve_challenge
  refine safe_bind (P := fun ch' => ch' = ch) (safe_unwrap hch rfl) ?_
  rintro _ rfl
  refine safe_bind (safe_read_u64 hf.expiry (Q := fun _ => True) fun _ => trivial) fun expiry _ => ?_
  split
  · exact safe_pure ⟨h, hv.next.1⟩
  refine safe_bind (safe_read_str hf.data_id (Q := fun _ => True) fun _ => trivial) fun data_id _ => ?_
  refine safe_bind (safe_read_votes hf.votes_for) fun votes_for _ => ?_
  refine safe_bind (safe_read_votes hf.votes_against) fun votes_against _ => ?_
  refine safe_bind (safe_settle_challenge hX h hf data_id _) ?_
  rintro led' ⟨hled', hsame⟩
  refine safe_pure ⟨{ hled' with challenges := hled'.challenges.erase cid }, ?_⟩
  rw [← hsame] at hv
  exact hv.next.2

theorem safe_resolve_expired_challenges (hX : Kept X) (h : Checked X led) (height : UInt64) :
    Safe (led.resolve_expired_challenges height) (Checked X) := by
  unfold resolve_expired_challenges
  refine safe_mono (safe_foldlM (fun ids led => Checked X led ∧ ToVisit led.challenges ids) ⟨h, toVisit_keys _⟩ ?_) ?_
  · rintro cid ids led ⟨hled, hv⟩
    exact safe_resolve_challenge hX height hled hv
  · exact fun led hled => hled.1

/-- A bond, an entry and a challenge as the ledger builds them pass the checks. -/
theorem bond_value_good (hX : Kept X) (miner : String) (amount expiry : UInt64) :
    valid_bond (bond_value miner amount expiry) = true ∧ X (bond_value miner amount expiry) := by
  refine ⟨rfl, hX.object _ ?_ ?_⟩
  · simp only [List.map_cons, List.map_nil]
    decide
  · simp only [List.forall_mem_cons]
    exact ⟨trivial, trivial, trivial, List.forall_mem_nil _⟩

theorem safe_lock_bond (hX : Kept X) (h : Checked X led) (delta_txid miner_addr : String) (amount height : UInt64) :
    Safe (led.lock_bond delta_txid miner_addr amount height) fun r => Checked X r.2 := by
  unfold lock_bond
  split
  · exact safe_pure h
  rename_i h0
  split
  · exact safe_pure h
  rename_i hb
  refine safe_bind (safe_debit h h0 hb) fun led' hled' => safe_pure ?_
  exact { hled' with bonds := hled'.bonds.insert (bond_value_good hX _ _ _) delta_txid }

end Settle

end ValueLedger

end Sestrian
