import Sestrian.Code.AccountJson
import Sestrian.Capacity.RoundTrip
import Sestrian.Ledger.Snapshot
import Sestrian.Ledger.DryRun

/-!
# Account transactions survive the wire

What is written of a transaction reads back as that transaction, whatever its fields hold. The node's own decoder
reads the same of a value that has no floats and no nulls.
-/

namespace Sestrian

open serde_json (Value field insert_field)

/-! ## Objects -/

namespace serde_json.Value

open ValueLedger (Exact mem_insert_field sorted_insert_field)

theorem exact_object {fields : List (String × Value)} {d : Nat} (h : ∀ f ∈ fields, Exact d f.2) :
    Exact (d + 1) (json_object fields) := by
  have hfold (m : List (String × Value)) (hm : (m.map Prod.fst).Pairwise (· < ·) ∧ ∀ f ∈ m, Exact d f.2) :
      ((fields.foldl (fun m f => insert_field f.1 f.2 m) m).map Prod.fst).Pairwise (· < ·) ∧
        ∀ f ∈ fields.foldl (fun m f => insert_field f.1 f.2 m) m, Exact d f.2 := by
    induction fields generalizing m with
    | nil => exact hm
    | cons f fields ih =>
      obtain ⟨hf, hfields⟩ := List.forall_mem_cons.mp h
      refine ih hfields _ ⟨sorted_insert_field hm.1, fun g hg => ?_⟩
      rcases mem_insert_field hg with rfl | hg
      · exact hf
      · exact hm.2 g hg
  exact hfold [] ⟨List.Pairwise.nil, List.forall_mem_nil _⟩

theorem exact_of_i64 (i : Int64) (d : Nat) : Exact d (of_i64 i) := by
  unfold of_i64
  split <;> cases d <;> trivial

end serde_json.Value

namespace proto

open serde_json.Value ValueLedger

/-- The value of a transaction: no floats, keys in order, at most two levels. -/
theorem exact_account_tx (t : AccountTx) (d : Nat) : Exact (d + 2) (account_tx_to_json t) := by
  have hstring (s : String) : Exact (d + 1) (string s) := trivial
  have hu64 (n : UInt64) : Exact (d + 1) (of_u64 n) := trivial
  have hbool (b : Bool) : Exact (d + 1) (bool b) := trivial
  have hsketch (xs : List Int64) : Exact (d + 1) (array (xs.map of_i64)) := by
    intro x hx
    obtain ⟨i, -, rfl⟩ := List.mem_map.mp hx
    exact exact_of_i64 i d
  cases t <;>
  · refine exact_object ?_
    simp only [List.forall_mem_cons, hstring, hu64, hbool, hsketch, true_and]
    exact List.forall_mem_nil _

/-! ## The round trip -/

theorem account_tx_round_trip (t : AccountTx) : account_tx_from_json (account_tx_to_json t) = some t := by
  cases t with
  | Transfer t =>
    simp [account_tx_to_json, account_tx_from_json, json_object, index, Value.get, field_insert_field, as_str, as_u64, of_u64,
      hex_decode_encode]
  | DataSubmit t =>
    simp [account_tx_to_json, account_tx_from_json, json_object, index, Value.get, field_insert_field, as_str, as_u64, of_u64,
      hex_decode_encode]
  | DataChallenge t =>
    simp [account_tx_to_json, account_tx_from_json, json_object, index, Value.get, field_insert_field, as_str, as_u64, of_u64,
      hex_decode_encode]
  | DataVote t =>
    simp [account_tx_to_json, account_tx_from_json, json_object, index, Value.get, field_insert_field, as_str, as_u64, of_u64,
      as_bool, hex_decode_encode]
  | InferenceReceipt t =>
    simp [account_tx_to_json, account_tx_from_json, json_object, index, Value.get, field_insert_field, as_str, as_u64, of_u64,
      as_array, as_i64_of_i64, hex_decode_encode]

/-! ## The node's own JSON -/

end proto

namespace Json

mutual

/-- The same value for `serde_json`. A number past its integers is a float there, and nobody here reads floats. -/
def to_value : Json → Value
  | bool b => .bool b
  | num n =>
    if 0 ≤ n ∧ n < 2 ^ 64 then .number (.pos_int (UInt64.ofNat n.toNat))
    else if -2 ^ 63 ≤ n ∧ n < 0 then .number (.neg_int (Int64.ofInt n))
    else .number (.float 0)
  | str s => .string s
  | arr items => .array (to_values items)
  | obj fields => .object (to_fields fields)

def to_values : List Json → List Value
  | [] => []
  | v :: rest => to_value v :: to_values rest

def to_fields : List (String × Json) → List (String × Value)
  | [] => []
  | (k, v) :: rest => (k, to_value v) :: to_fields rest

end

theorem to_values_eq (items : List Json) : to_values items = items.map to_value := by
  induction items with
  | nil => rfl
  | cons v rest ih => rw [to_values, ih, List.map_cons]

theorem get_to_value (j : Json) (k : String) : j.to_value.get k = (j.get k).map to_value := by
  cases j with
  | obj fields =>
    rw [to_value, Value.get, Json.get]
    induction fields with
    | nil => rfl
    | cons f rest ih =>
      obtain ⟨k', v⟩ := f
      rw [to_fields, field, List.lookup_cons, ih]
      by_cases h : k' = k
      · rw [if_pos h, h, beq_self_eq_true]
        rfl
      · rw [if_neg h, beq_false_of_ne (Ne.symm h)]
  | bool | str | arr => rfl
  | num n =>
    rw [to_value]
    split_ifs <;> rfl

theorem str_to_value (j : Json) (k : String) : (j.to_value.index k).as_str = as_str (j.get k) := by
  rw [Value.index, get_to_value]
  cases j.get k with
  | none => rfl
  | some v =>
    rw [Option.map_some, Option.getD_some]
    cases v with
    | str | bool | arr | obj => rfl
    | num n =>
      rw [to_value]
      split_ifs <;> rfl

theorem bool_to_value (j : Json) (k : String) : (j.to_value.index k).as_bool = as_bool (j.get k) := by
  rw [Value.index, get_to_value]
  cases j.get k with
  | none => rfl
  | some v =>
    rw [Option.map_some, Option.getD_some]
    cases v with
    | str | bool | arr | obj => rfl
    | num n =>
      rw [to_value]
      split_ifs <;> rfl

theorem u64_to_value (j : Json) (k : String) : (j.to_value.index k).as_u64 = as_u64 (j.get k) := by
  rw [Value.index, get_to_value]
  cases j.get k with
  | none => rfl
  | some v =>
    rw [Option.map_some, Option.getD_some]
    cases v with
    | str | bool | arr | obj => rfl
    | num n =>
      rw [to_value, as_u64]
      split_ifs <;> rfl

theorem i64_to_value (v : Json) : v.to_value.as_i64 = as_i64 v := by
  cases v with
  | str | bool | arr | obj => rfl
  | num n =>
    rw [to_value, as_i64]
    split_ifs with hpos hsmall hneg hsmall hlarge
    · have hn : (UInt64.ofNat n.toNat).toNat = n.toNat := UInt64.toNat_ofNat_of_lt' (by omega : n.toNat < 2 ^ 64)
      rw [Value.as_i64, hn, if_pos (by omega), ← Int64.ofInt_eq_ofNat, Int.toNat_of_nonneg hpos.1]
    · have hn : (UInt64.ofNat n.toNat).toNat = n.toNat := UInt64.toNat_ofNat_of_lt' (by omega : n.toNat < 2 ^ 64)
      rw [Value.as_i64, hn, if_neg (by omega)]
    · rfl
    · omega
    · omega
    · rfl

theorem sketch_to_value (j : Json) (k : String) :
    (((j.to_value.get k).bind Value.as_array).map fun a => a.filterMap Value.as_i64).getD [] =
      (items (j.get k)).filterMap as_i64 := by
  rw [get_to_value]
  cases j.get k with
  | none => rfl
  | some v =>
    cases v with
    | str | bool | obj => rfl
    | num n =>
      rw [Option.map_some, Option.bind_some, to_value]
      split_ifs <;> rfl
    | arr xs =>
      rw [Option.map_some, Option.bind_some, to_value, Value.as_array, Option.map_some, Option.getD_some, to_values_eq,
        List.filterMap_map, items]
      exact List.filterMap_congr fun v _ => i64_to_value v

end Json

namespace proto

open ValueLedger (Exact)

/-- The decoder of the node's model is this one. -/
theorem from_json_to_value (j : Json) : account_tx_from_json j.to_value = Sestrian.account_tx_from_json j := by
  rw [account_tx_from_json, Sestrian.account_tx_from_json]
  simp only [Json.str_to_value, Json.bool_to_value, Json.u64_to_value, Json.sketch_to_value]

/-! ## On the wire -/

variable {to_string : Value → Option String} {from_str : String → Option Value}

/-- What a peer reads of the text of a transaction. -/
def sent (to_string : Value → Option String) (from_str : String → Option Value) (t : AccountTx) : Option AccountTx :=
  ((to_string (account_tx_to_json t)).bind from_str).bind account_tx_from_json

/-- `serde_json` writes the value of the transaction and reads it back. -/
def ReadBack (to_string : Value → Option String) (from_str : String → Option Value) (t : AccountTx) : Prop :=
  Exact 127 (account_tx_to_json t) → (to_string (account_tx_to_json t)).bind from_str = some (account_tx_to_json t)

theorem sent_eq {t : AccountTx} (h : ReadBack to_string from_str t) : sent to_string from_str t = some t := by
  rw [sent, h (exact_account_tx t 125), Option.bind_some, account_tx_round_trip]

/-- A transaction survives its text, and so keeps its id and its signature. Whatever value decoded to it, its own
value decodes to it too, and a block's list of them decodes to the same list. -/
theorem account_tx_survives_wire [Crypto] (t : AccountTx) (ts : List AccountTx) (ht : ReadBack to_string from_str t)
    (hts : ∀ t ∈ ts, ReadBack to_string from_str t) :
    sent to_string from_str t = some t ∧
    (∀ t', sent to_string from_str t = some t' → t'.txid = t.txid ∧ t'.verify = t.verify) ∧
    (∀ v, account_tx_from_json v = some t → account_tx_from_json (account_tx_to_json t) = some t) ∧
    ∀ vs : List Value, vs.mapM account_tx_from_json = some ts →
      (ts.map account_tx_to_json).mapM account_tx_from_json = vs.mapM account_tx_from_json ∧
        ts.mapM (sent to_string from_str) = vs.mapM account_tx_from_json := by
  refine ⟨sent_eq ht, fun t' h => ?_, fun v _ => account_tx_round_trip t, fun vs hvs => ⟨?_, ?_⟩⟩
  · rw [sent_eq ht] at h
    rw [← Option.some.inj h]
    exact ⟨rfl, rfl⟩
  · rw [hvs]
    exact ModelState.mapM_read fun t _ => account_tx_round_trip t
  · have hsent := ModelState.mapM_read (f := id) fun t ht => sent_eq (hts t ht)
    rw [hvs, ← hsent, List.map_id]

/-- The text of one transfer, which is all that the parser below is used on. -/
def transfer_text : String :=
  "\x7b\"amount\":5,\"from_pub\":\"ab\",\"kind\":\"transfer\",\"nonce\":1,\"sig\":\"07\",\"to_addr\":\"cd\"\x7d"

def one_transfer : AccountTx := .Transfer { from_pub := "ab", to_addr := "cd", amount := 5, nonce := 1, sig := [7] }

def transfer_from_str (s : String) : Option Value :=
  if s = transfer_text then some (account_tx_to_json one_transfer) else none

theorem one_transfer_text : (account_tx_to_json one_transfer).text = transfer_text := by decide +kernel

open scoped Toy in
theorem account_tx_survives_wire_transfer :
    sent (fun v => some v.text) transfer_from_str one_transfer = some one_transfer := by
  have hread : ReadBack (fun v => some v.text) transfer_from_str one_transfer := by
    intro _
    rw [Option.bind_some, one_transfer_text, transfer_from_str, if_pos rfl]
  exact (account_tx_survives_wire one_transfer [] hread (List.forall_mem_nil _)).1

end proto

end Sestrian
