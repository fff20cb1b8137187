import Sestrian.Ledger.ValueRuns
import Sestrian.Ledger.Bonds
import Sestrian.Ledger.Traded

/-!
# A ledger from a snapshot

What `from_value` lets through, and that it takes back what `to_value` wrote.
-/

namespace Sestrian

open Panic serde_json

namespace ValueLedger

/-! ## What is read -/

/-- A dictionary written field by field comes back. -/
theorem foldl_toList {ν : Type} (m : Dict ν) : m.toList.foldl (fun acc e => acc.insert e.1 e.2) ∅ = m := by
  rw [← Std.ExtTreeMap.ofList_eq_foldl]
  refine Std.ExtTreeMap.ext_getElem? fun k => ?_
  cases hget : m[k]? with
  | some v =>
    exact Std.ExtTreeMap.getElem?_ofList_of_mem Std.ReflCmp.compare_self Std.ExtTreeMap.distinct_keys_toList
      (Std.ExtTreeMap.mem_toList_iff_getElem?_eq_some.mpr hget)
  | none =>
    refine Std.ExtTreeMap.getElem?_ofList_of_contains_eq_false ?_
    rw [Std.ExtTreeMap.map_fst_toList_eq_keys, List.contains_eq_mem, decide_eq_false_iff_not, Std.ExtTreeMap.mem_keys]
    intro hmem
    rw [← Std.ExtTreeMap.isSome_getElem?_iff_mem, hget] at hmem
    cases hmem

theorem read_u64s_of_dict (m : Dict UInt64) : read_u64s (m.toList.map fun e => (e.1, .of_u64 e.2)) = some m := by
  have hfold (es : List (String × UInt64)) (acc : Dict UInt64) :
      (es.map fun e => (e.1, Value.of_u64 e.2)).foldlM (fun m f => do
        let n ← f.2.as_u64
        pure (m.insert f.1 n)) acc = some (es.foldl (fun acc e => acc.insert e.1 e.2) acc) := by
    induction es generalizing acc with
    | nil => rfl
    | cons e es ih => exact ih _
  unfold read_u64s
  rw [hfold, foldl_toList]

theorem read_values_of_dict {valid : Value → Bool} {m : Dict Value} (h : ∀ k v, m[(k : String)]? = some v → valid v = true) :
    read_values valid (m.toList.map fun e => (e.1, id e.2)) = some m := by
  have hfold (es : List (String × Value)) (hes : ∀ e ∈ es, valid e.2 = true) (acc : Dict Value) :
      (es.map fun e => (e.1, id e.2)).foldlM (fun m f => if valid f.2 then some (m.insert f.1 f.2) else none) acc =
        some (es.foldl (fun acc e => acc.insert e.1 e.2) acc) := by
    induction es generalizing acc with
    | nil => rfl
    | cons e es ih =>
      obtain ⟨he, hes⟩ := List.forall_mem_cons.mp hes
      rw [List.map_cons, List.foldlM_cons, if_pos (by exact he)]
      exact ih hes _
  unfold read_values
  rw [hfold _ (fun e he => h e.1 e.2 (Std.ExtTreeMap.mem_toList_iff_getElem?_eq_some.mp he)), foldl_toList]

theorem read_values_good {valid : Value → Bool} {fields : List (String × Value)} {m : Dict Value}
    (h : read_values valid fields = some m) : All (fun v => valid v = true ∧ True) m := by
  have hfold (fields : List (String × Value)) (acc : Dict Value) (hacc : All (fun v => valid v = true ∧ True) acc)
      (hf : fields.foldlM (fun m f => if valid f.2 then some (m.insert f.1 f.2) else none) acc = some m) :
      All (fun v => valid v = true ∧ True) m := by
    induction fields generalizing acc with
    | nil =>
      obtain rfl := Option.some.inj hf
      exact hacc
    | cons f fields ih =>
      rw [List.foldlM_cons] at hf
      by_cases hv : valid f.2 = true
      · rw [if_pos hv] at hf
        exact ih _ (hacc.insert ⟨hv, trivial⟩ f.1) hf
      · rw [if_neg hv] at hf
        cases hf
  exact hfold fields ∅ All.empty h

/-- What is read passed the checks. -/
theorem from_value_checked {v : Value} {led : ValueLedger} (h : from_value v = some led) : Checked (fun _ => True) led := by
  unfold from_value at h
  simp only [Option.bind_eq_bind, Option.bind_eq_some_iff, Option.pure_def, Option.some.injEq] at h
  obtain ⟨_, -, _, -, _, -, _, -, _, -, registry, hregistry, _, -, challenges, hchallenges, bonds, hbonds, _, -, _, -, rfl⟩ := h
  refine ⟨read_values_good hregistry, read_values_good hchallenges, ?_⟩
  unfold read_bonds at hbonds
  split at hbonds
  · exact read_values_good hbonds
  · obtain rfl := Option.some.inj hbonds
    exact All.empty

/-- What passes the checks is read back. -/
theorem from_value_to_value {X : Value → Prop} {led : ValueLedger} (h : Checked X led) :
    from_value led.to_value = some led := by
  have hregistry := read_values_of_dict fun k e he => (h.registry k e he).1
  have hchallenges := read_values_of_dict fun k c hc => (h.challenges k c hc).1
  have hbonds := read_values_of_dict fun k b hb => (h.bonds k b hb).1
  have hbalances := read_u64s_of_dict led.balances
  have hnonces := read_u64s_of_dict led.nonces
  unfold from_value
  simp only [Option.bind_eq_bind, Option.bind_eq_some_iff, Option.pure_def, Option.some.injEq]
  refine ⟨_, rfl, _, hbalances, _, rfl, _, hnonces, _, rfl, _, hregistry, _, rfl, _, hchallenges, led.bonds, hbonds,
    led.fee_data_pool, rfl, led.fee_train_pool, rfl, rfl⟩

/-! ## What the ledger builds -/

theorem kept_true : Kept fun _ => True := ⟨fun _ _ _ => trivial, fun _ _ _ _ _ _ _ => trivial⟩

/-- An object whose keys are in order and whose fields are leaves. -/
def Flat (v : Value) : Prop :=
  ∃ fields, v = .object fields ∧ (fields.map Prod.fst).Pairwise (· < ·) ∧ ∀ f ∈ fields, Leaf f.2

theorem mem_insert_field {k : String} {w : Value} {fields : List (String × Value)} {f : String × Value}
    (h : f ∈ insert_field k w fields) : f = (k, w) ∨ f ∈ fields := by
  induction fields with
  | nil => exact .inl (List.mem_singleton.mp h)
  | cons g fields ih =>
    unfold insert_field at h
    split_ifs at h with h1 h2
    · rcases List.mem_cons.mp h with rfl | h
      · exact .inl rfl
      · exact .inr (List.mem_cons_of_mem _ h)
    · rcases List.mem_cons.mp h with rfl | h
      · exact .inl rfl
      · exact .inr h
    · rcases List.mem_cons.mp h with rfl | h
      · exact .inr List.mem_cons_self
      · rcases ih h with h | h
        · exact .inl h
        · exact .inr (List.mem_cons_of_mem _ h)

theorem sorted_insert_field {k : String} {w : Value} {fields : List (String × Value)}
    (h : (fields.map Prod.fst).Pairwise (· < ·)) : ((insert_field k w fields).map Prod.fst).Pairwise (· < ·) := by
  induction fields with
  | nil => exact List.pairwise_singleton _ _
  | cons g fields ih =>
    rw [List.map_cons, List.pairwise_cons] at h
    obtain ⟨hg, hrest⟩ := h
    unfold insert_field
    split_ifs with h1 h2
    · rw [List.map_cons, List.pairwise_cons, h1]
      exact ⟨hg, hrest⟩
    · rw [List.map_cons, List.map_cons, List.pairwise_cons, List.pairwise_cons]
      refine ⟨List.forall_mem_cons.mpr ⟨h2, fun k' hk' => h2.trans (hg k' hk')⟩, hg, hrest⟩
    · rw [List.map_cons, List.pairwise_cons]
      refine ⟨fun k' hk' => ?_, ih hrest⟩
      obtain ⟨f, hf, rfl⟩ := List.mem_map.mp hk'
      rcases mem_insert_field hf with rfl | hf
      · exact lt_of_le_of_ne (not_lt.mp h2) (Ne.symm h1)
      · exact hg f.1 (List.mem_map.mpr ⟨f, hf, rfl⟩)

theorem kept_flat : Kept Flat := by
  constructor
  · exact fun fields hsorted hleaf => ⟨fields, rfl, hsorted, hleaf⟩
  · rintro v v' w k ⟨fields, rfl, hsorted, hleaf⟩ hw hset
    obtain rfl := Option.some.inj hset
    refine ⟨_, rfl, sorted_insert_field hsorted, fun f hf => ?_⟩
    rcases mem_insert_field hf with rfl | hf
    · exact hw
    · exact hleaf f hf

/-- No floats, keys in order, and at most `d` levels of arrays and objects. -/
def Exact : Nat → Value → Prop
  | _, .number (.float _) => False
  | d + 1, .array items => ∀ x ∈ items, Exact d x
  | d + 1, .object fields => (fields.map Prod.fst).Pairwise (· < ·) ∧ ∀ f ∈ fields, Exact d f.2
  | 0, .array _ => False
  | 0, .object _ => False
  | _, _ => True

theorem exact_scalar {v : Value} (h : Scalar v) (d : Nat) : Exact d v := by
  unfold Scalar at h
  split at h
  · cases d <;> trivial
  · cases d <;> trivial
  · cases d <;> trivial
  · exact absurd h id

theorem exact_leaf {v : Value} (h : Leaf v) (d : Nat) : Exact (d + 1) v := by
  unfold Leaf at h
  split at h
  · exact fun x hx => exact_scalar (h x hx) d
  · exact exact_scalar h _

theorem exact_flat {v : Value} (h : Flat v) (d : Nat) : Exact (d + 2) v := by
  obtain ⟨fields, rfl, hsorted, hleaf⟩ := h
  exact ⟨hsorted, fun f hf => exact_leaf (hleaf f hf) d⟩

theorem exact_dict {ν : Type} {f : ν → Value} {m : Dict ν} {d : Nat} (h : ∀ k v, m[(k : String)]? = some v → Exact d (f v)) :
    Exact (d + 1) (.of_dict f m) := by
  constructor
  · rw [List.map_map]
    have hkeys : m.toList.map (Prod.fst ∘ fun e => (e.1, f e.2)) = m.keys := by
      rw [← Std.ExtTreeMap.map_fst_toList_eq_keys]
      rfl
    rw [hkeys]
    exact Std.ExtTreeMap.ordered_keys.imp fun h => compare_lt_iff_lt.mp h
  · intro e he
    obtain ⟨e, hmem, rfl⟩ := List.mem_map.mp he
    exact h e.1 e.2 (Std.ExtTreeMap.mem_toList_iff_getElem?_eq_some.mp hmem)

theorem exact_u64 (n : UInt64) (d : Nat) : Exact d (.of_u64 n) :=
  exact_scalar (v := .of_u64 n) trivial d

theorem exact_to_value {led : ValueLedger} (h : Checked Flat led) (d : Nat) : Exact (d + 4) led.to_value := by
  constructor
  · simp only [List.map_cons, List.map_nil]
    decide
  · simp only [List.forall_mem_cons]
    refine ⟨exact_dict fun _ n _ => exact_u64 n _, exact_dict fun k b hb => exact_flat (h.bonds k b hb).2 _,
      exact_dict fun k c hc => exact_flat (h.challenges k c hc).2 _, exact_u64 _ _, exact_u64 _ _,
      exact_dict fun _ n _ => exact_u64 n _, exact_dict fun k e he => exact_flat (h.registry k e he).2 _,
      List.forall_mem_nil _⟩

/-! ## Runs -/

section Runs

variable [Crypto]

def genesis (data_contributor : Option String) : ValueLedger :=
  match data_contributor with
  | some dc => new.seed_genesis_data dc
  | none => new

/-- A chain of accepted blocks, and the ledger after it. -/
inductive Booked (to_string : Value → Option String) (dc : Option String) : List Block → ValueLedger → Prop where
  | genesis : Booked to_string dc [] (genesis dc)
  | block {chain : List Block} {led led' : ValueLedger} {b : Block} : Booked to_string dc chain led →
      led.token_transition to_string b dc (jurors_of chain) = .ok led' → Booked to_string dc (chain ++ [b]) led'

/-- What a block makes of a ledger, before the roots are compared. -/
def transact (parent_ledger : ValueLedger) (b : Block) (dc : Option String) (jurors : StrSet) : Step ValueLedger := do
  let led ← parent_ledger.resolve_expired_challenges b.header.height
  let led ← led.resolve_expired_bonds b.header.height
  lift_check (led.check_provenance b)
  let led ← led.reward_block b dc
  let led ← b.txs.foldlM (lock_tx_bond b.header.height) led
  (account_txs b).foldlM (apply_account_tx b.header.height jurors) led

theorem token_transition_of {to_string : Value → Option String} {parent_ledger led : ValueLedger} {b : Block}
    {dc : Option String} {jurors : StrSet} (hsets : check_sets b = .ok ())
    (hled : parent_ledger.transact b dc jurors = .ok led) (hroot : led.root to_string = .ok b.header.ledger_root) :
    parent_ledger.token_transition to_string b dc jurors = .ok led := by
  have hsplit : parent_ledger.token_transition to_string b dc jurors = (do
      lift_check (check_sets b)
      let led ← parent_ledger.transact b dc jurors
      let r ← led.root to_string
      reject_unless (r = b.header.ledger_root) "ledger_root does not reproduce from block"
      pure led) := by
    simp only [token_transition, transact, bind_assoc]
  rw [hsplit, hsets, hled]
  change (led.root to_string >>= _) = _
  rw [hroot]
  change (reject_unless (b.header.ledger_root = b.header.ledger_root) _ >>= _) = _
  rw [reject_unless, if_pos rfl]
  rfl

theorem transact_sealed (parent_ledger : ValueLedger) (b : Block) (r : String) (dc : Option String) (jurors : StrSet) :
    parent_ledger.transact { b with header := { b.header with ledger_root := r } } dc jurors =
      parent_ledger.transact b dc jurors := rfl

theorem root_of_text {to_string : Value → Option String} {led : ValueLedger} {text : String}
    (h : to_string led.to_value = some text) : led.root to_string = .ok (sha256_hex (as_bytes text)) := by
  rw [root, h]
  rfl

/-- A block that the node gets, with what else its transition reads. -/
structure Arrival where
  block : Block
  data_contributor : Option String
  recent_proposers : StrSet

/-- A rejected block leaves the ledger as it was. -/
def take (to_string : Value → Option String) (led : ValueLedger) (a : Arrival) : Step ValueLedger :=
  match led.token_transition to_string a.block a.data_contributor a.recent_proposers with
  | .error (.reject _) => .ok led
  | r => r

def take_all (to_string : Value → Option String) (led : ValueLedger) (arrivals : List Arrival) : Step ValueLedger :=
  arrivals.foldlM (take to_string) led

variable {X : Value → Prop} {led : ValueLedger}

theorem safe_take (hX : Kept X) (h : Checked X led) {to_string : Value → Option String} (hs : ∀ v, (to_string v).isSome)
    (a : Arrival) : Safe (led.take to_string a) (Checked X) := by
  have hstep := safe_token_transition hX h hs a.block a.data_contributor a.recent_proposers
  unfold take
  split
  · exact h
  · exact hstep

theorem safe_take_all (hX : Kept X) (h : Checked X led) {to_string : Value → Option String}
    (hs : ∀ v, (to_string v).isSome) (arrivals : List Arrival) : Safe (led.take_all to_string arrivals) (Checked X) :=
  safe_foldlM (fun _ led => Checked X led) h fun a _ _ hled => safe_take hX hled hs a

/-- Whatever JSON a snapshot held: when it is read as a ledger, no sequence of blocks makes the node panic. -/
theorem decoded_never_panics {to_string : Value → Option String} (hs : ∀ v, (to_string v).isSome) {v : Value}
    {led : ValueLedger} (h : from_value v = some led) (arrivals : List Arrival) :
    led.take_all to_string arrivals ≠ .error .panic :=
  safe_ne_panic (safe_take_all kept_true (from_value_checked h) hs arrivals)

omit [Crypto] in
theorem genesis_checked (dc : Option String) : Checked Flat (genesis dc) := by
  have hnew : Checked Flat new := ⟨All.empty, All.empty, All.empty⟩
  cases dc with
  | none => exact hnew
  | some addr =>
    refine { hnew with registry := All.empty.insert ⟨rfl, kept_flat.object _ ?_ ?_⟩ "genesis" }
    · simp only [List.map_cons, List.map_nil]
      decide
    · simp only [List.forall_mem_cons]
      exact ⟨trivial, trivial, trivial, trivial, trivial, trivial, trivial, List.forall_mem_nil _⟩

theorem Booked.checked {to_string : Value → Option String} (hs : ∀ v, (to_string v).isSome) {dc : Option String}
    {chain : List Block} (h : Booked to_string dc chain led) : Checked Flat led := by
  induction h with
  | genesis => exact genesis_checked dc
  | block _ hb ih => exact (safe_token_transition kept_flat ih hs _ dc _).ok hb

/-- A ledger that blocks led to comes back from its snapshot: the same ledger, with the same root and the same
transitions. -/
theorem snapshot_round_trip {to_string : Value → Option String} {from_str : String → Option Value}
    (hs : ∀ v, (to_string v).isSome) {dc : Option String} {chain : List Block} {led : ValueLedger}
    (h : Booked to_string dc chain led)
    (hserde : Exact 127 led.to_value → (to_string led.to_value).bind from_str = some led.to_value) :
    ((to_string led.to_value).bind from_str).bind from_value = some led ∧
      ∀ led', ((to_string led.to_value).bind from_str).bind from_value = some led' →
        led'.root to_string = led.root to_string ∧
          ∀ b dc jurors, led'.token_transition to_string b dc jurors = led.token_transition to_string b dc jurors := by
  have hchecked := h.checked hs
  have hback : ((to_string led.to_value).bind from_str).bind from_value = some led := by
    rw [hserde (exact_to_value hchecked 123)]
    exact from_value_to_value hchecked
  refine ⟨hback, fun led' hled' => ?_⟩
  obtain rfl := Option.some.inj (hback.symm.trans hled')
  exact ⟨rfl, fun _ _ _ => rfl⟩

end Runs

/-! ## Two snapshots -/

/-- A challenge of an entry that is not there, with the same vote twice, and an entry whose sketch is no list. -/
def odd_snapshot : Value :=
  .object [("balances", .object [("a", .of_u64 3)]),
    ("challenges", .object [("c", .object [("challenger", .string "a"), ("data_id", .string "gone"), ("expiry", .of_u64 0),
      ("reason", .string ""), ("stake", .of_u64 1), ("votes_against", .array []),
      ("votes_for", .array [.string "b", .string "b", .string "b"])])]),
    ("nonces", .object []),
    ("registry", .object [("d", .object [("data_hash", .string "h"), ("media_type", .string ""), ("owner", .string "a"),
      ("size", .of_u64 0), ("sketch", .bool true), ("stake", .of_u64 0), ("status", .string "lost"),
      ("weight", .of_u64 0)])])]

theorem odd_snapshot_reads : ∃ led, from_value odd_snapshot = some led := by
  have hread : (from_value odd_snapshot).isSome = true := by decide +kernel
  exact Option.isSome_iff_exists.mp hread

open Toy

mutual

/-- The compact text of a value without floats. -/
def text : Value → List UInt8
  | .null => as_bytes "null"
  | .bool b => as_bytes (if b then "true" else "false")
  | .number (.pos_int n) => as_bytes (toString n.toNat)
  | .number (.neg_int i) => as_bytes (toString i.toInt)
  | .number (.float bits) => as_bytes (toString bits.toNat)
  | .string s => Json.quote s
  | .array items => as_bytes "[" ++ text_items items ++ as_bytes "]"
  | .object fields => as_bytes "\x7b" ++ text_fields fields ++ as_bytes "\x7d"

def text_items : List Value → List UInt8
  | [] => []
  | [x] => text x
  | x :: y :: rest => text x ++ as_bytes "," ++ text_items (y :: rest)

def text_fields : List (String × Value) → List UInt8
  | [] => []
  | [(k, v)] => Json.quote k ++ as_bytes ":" ++ text v
  | (k, v) :: f :: rest => Json.quote k ++ as_bytes ":" ++ text v ++ as_bytes "," ++ text_fields (f :: rest)

end

/-- The text as a string, where all of it is ASCII. -/
def print (v : Value) : Option String := some (String.ofList ((text v).map fun b => Char.ofNat b.toNat))

/-- Block 1 by one key, with a bonded delta that has a sketch. The key pays two others: one submits a corpus, the other
challenges it. -/
def stocked_draft : Block :=
  let d := listing_draft 1
  let sketches : Dict (List Int32) := (∅ : Dict (List Int32)).insert bonded_tx.txid (List.replicate SKETCH_DIM 3)
  let transfers := [payment (key 7) (key 3) 0, payment (key 7) (key 2) 1]
  let data_txs := [corpus, challenge]
  { d with
    sketches
    transfers
    data_txs
    header := { d.header with sketch_root := sketch_root sketches, transfer_root := transfer_root transfers
                              data_root := data_root data_txs } }

@[irreducible]
def stocked_ledger : ValueLedger := ((genesis (some "owner")).transact stocked_draft (some "owner") ∅).toOption.getD new

@[irreducible]
def stocked_text : String := (print stocked_ledger.to_value).getD ""

def stocked_block : Block :=
  { stocked_draft with header := { stocked_draft.header with ledger_root := sha256_hex (as_bytes stocked_text) } }

/-- Reads the one text that is written. -/
def reread (s : String) : Option Value := if s = stocked_text then some stocked_ledger.to_value else none

set_option maxRecDepth 20000 in
theorem stocked_transacts : (genesis (some "owner")).transact stocked_draft (some "owner") ∅ = .ok stocked_ledger ∧
    stocked_ledger.registry.size = 2 ∧ stocked_ledger.challenges.size = 1 ∧ stocked_ledger.bonds.size = 1 := by
  have hrun : ((genesis (some "owner")).transact stocked_draft (some "owner") ∅).toOption.map (fun led =>
      (led.registry.size, led.challenges.size, led.bonds.size)) = some (2, 1, 1) := by decide +kernel
  unfold stocked_ledger
  generalize (genesis (some "owner")).transact stocked_draft (some "owner") ∅ = r at hrun ⊢
  cases r with
  | error e => cases hrun
  | ok led =>
    simp only [Except.toOption, Option.map_some, Option.some.injEq, Prod.mk.injEq] at hrun
    exact ⟨rfl, hrun⟩

theorem stocked_printed : print stocked_ledger.to_value = some stocked_text := by
  unfold stocked_text
  simp only [print, Option.getD_some]

theorem stocked_booked : Booked print (some "owner") [stocked_block] stocked_ledger := by
  have hsets : check_sets stocked_block = .ok () :=
    bonded_sets one_ne_zero List.map_replicate rfl (by decide) rfl List.length_replicate ⟨rfl, rfl, rfl⟩
  have hled := (transact_sealed (genesis (some "owner")) stocked_draft (sha256_hex (as_bytes stocked_text)) (some "owner") ∅).trans
    stocked_transacts.1
  exact Booked.block Booked.genesis (token_transition_of hsets hled (root_of_text stocked_printed))

theorem odd_snapshot_never_panics : ∃ led, from_value odd_snapshot = some led ∧
    led.take_all print [⟨stocked_block, some "owner", ∅⟩, ⟨opening_trade, none, ∅⟩] ≠ .error .panic := by
  obtain ⟨led, hled⟩ := odd_snapshot_reads
  exact ⟨led, hled, decoded_never_panics (fun _ => rfl) hled _⟩

/-- A ledger with two entries, a challenge, a bond and a sketch. -/
theorem stocked_round_trip : stocked_ledger.registry.size = 2 ∧ stocked_ledger.challenges.size = 1 ∧
    stocked_ledger.bonds.size = 1 ∧
    ((print stocked_ledger.to_value).bind reread).bind from_value = some stocked_ledger := by
  have hback : (print stocked_ledger.to_value).bind reread = some stocked_ledger.to_value := by
    rw [stocked_printed, Option.bind_some, reread, if_pos rfl]
  obtain ⟨-, hregistry, hchallenges, hbonds⟩ := stocked_transacts
  exact ⟨hregistry, hchallenges, hbonds, (snapshot_round_trip (fun _ => rfl) stocked_booked fun _ => hback).1⟩

end ValueLedger

end Sestrian
