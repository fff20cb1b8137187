import Sestrian.Code.Emit
import Sestrian.Capacity.RoundTrip
import Sestrian.Ledger.Snapshot
import Sestrian.Code.Bytes

/-!
# A fraud proof on the wire

What the reader makes of the JSON of a proof. The ids of a transaction's pages and references arrive sorted, which its
id and its signature do not see.
-/

open Panic

namespace Sestrian

open serde_json (Value field insert_field)

namespace fraud

/-- A transaction as a proof carries it. -/
def sent (t : BackpropTx) : BackpropTx := { t with pages := t.canonical_pages, data_refs := t.canonical_refs }

/-! ## Parts -/

theorem strings_map (xs : List String) : strings (xs.map .string) = xs := by
  unfold strings
  rw [List.filterMap_map]
  exact List.filterMap_some

theorem header_of_value (h : Header) : header (header_value h) = some h := by
  simp [header, header_value, Value.index, Value.get, field, Value.as_u64, Value.as_str, Value.of_u64]

theorem tx_of_value (t : BackpropTx) : tx (tx_value t) = some (sent t) := by
  simp [tx, tx_value, Value.index, Value.get, field, Value.as_u64, Value.as_str, Value.as_array, Value.of_u64,
    strings_map, hex_decode_encode, sent]

theorem body_of_value (n : Nat) (coords : List (UInt32 × Int64)) : body (body_value n coords) =
    some { n := (UInt64.ofNat n).toNat, idx := coords.map fun c => c.1.toUInt64, val := coords.map Prod.snd } := by
  simp [body, body_value, Value.index, Value.get, field, Value.as_array, Value.as_u64, Value.of_u64,
    Value.as_i64_of_i64, List.filterMap_map]
  exact congrFun List.filterMap_eq_map coords

theorem path_of_branch (branch : List (Bool × Hash)) :
    (branch.map step_value).mapM path_step = .ok (branch.map fun s => (s.1, hex_encode s.2.val)) := by
  induction branch with
  | nil => rfl
  | cons s branch ih =>
    rw [List.map_cons, List.mapM_cons, ih]
    obtain ⟨side, h⟩ := s
    cases side <;> rfl

/-! ## Bodies -/

theorem mapM_fields {fields : List (String × Value)} (h : ∀ f ∈ fields, ∃ b, body f.2 = some b) :
    ∃ bs, fields.mapM (fun f => do some (f.1, ← body f.2)) = some bs ∧ ∀ k, bs.lookup k = (field k fields).bind body := by
  induction fields with
  | nil => exact ⟨[], rfl, fun k => rfl⟩
  | cons f fields ih =>
    obtain ⟨⟨b, hb⟩, hrest⟩ := List.forall_mem_cons.mp h
    obtain ⟨bs, hbs, hlookup⟩ := ih hrest
    refine ⟨(f.1, b) :: bs, ?_, fun k => ?_⟩
    · rw [List.mapM_cons, hb, hbs]
      rfl
    · rw [List.lookup_cons, field]
      by_cases hk : f.1 = k
      · rw [if_pos hk, beq_iff_eq.mpr hk.symm]
        exact hb.symm
      · rw [if_neg hk, beq_eq_false_iff_ne.mpr (Ne.symm hk)]
        exact hlookup k

section Any

variable [Crypto]

/-- The body of an id, as JSON. -/
def held (payloads : Dict Payload) (k : String) : Option Value := do
  let p ← payloads[k]?
  let coords ← p.coords
  some (body_value p.n coords)

/-- The claimants' bodies are those held under their ids. -/
theorem add_claimants {payloads : Dict Payload} {pid : Nat} {txs : List BackpropTx} (fields : List (String × Value))
    (h : ∀ t ∈ txs, UInt32.ofNat pid ∈ t.canonical_pages → (held payloads t.txid).isSome) :
    ∃ fields', txs.foldlM (add_claimant payloads pid) fields = some fields' ∧
      (∀ f ∈ fields', f ∈ fields ∨ held payloads f.1 = some f.2) ∧
      (∀ k, field k fields = held payloads k → field k fields' = held payloads k) ∧
      ∀ t ∈ txs, UInt32.ofNat pid ∈ t.canonical_pages → field t.txid fields' = held payloads t.txid := by
  induction txs generalizing fields with
  | nil => exact ⟨fields, rfl, fun f hf => .inl hf, fun k hk => hk, List.forall_mem_nil _⟩
  | cons t txs ih =>
    obtain ⟨ht, htxs⟩ := List.forall_mem_cons.mp h
    by_cases hc : UInt32.ofNat pid ∈ t.canonical_pages
    · obtain ⟨v, hv⟩ := Option.isSome_iff_exists.mp (ht hc)
      obtain ⟨fields', hrun, hmem, hkeep, hget⟩ := ih (insert_field t.txid v fields) htxs
      have hstep : add_claimant payloads pid fields t = some (insert_field t.txid v fields) := by
        unfold held at hv
        simp only [Option.bind_eq_bind, Option.bind_eq_some_iff] at hv
        obtain ⟨p, hp, coords, hcoords, hv⟩ := hv
        obtain rfl := Option.some.inj hv
        unfold add_claimant
        rw [if_neg (not_not.mpr hc), hp, Option.bind_eq_bind, Option.bind_some, hcoords]
        rfl
      have hhere : field t.txid fields' = held payloads t.txid :=
        hkeep t.txid (by rw [field_insert_field, if_pos rfl, hv])
      refine ⟨fields', ?_, fun f hf => ?_, fun k hk => hkeep k ?_, ?_⟩
      · rw [List.foldlM_cons, hstep]
        exact hrun
      · rcases hmem f hf with hf | hf
        · rcases ValueLedger.mem_insert_field hf with rfl | hf
          · exact .inr hv
          · exact .inl hf
        · exact .inr hf
      · rw [field_insert_field]
        split
        · rename_i he
          rw [he, hv]
        · exact hk
      · exact List.forall_mem_cons.mpr ⟨fun _ => hhere, hget⟩
    · obtain ⟨fields', hrun, hmem, hkeep, hget⟩ := ih fields htxs
      refine ⟨fields', ?_, hmem, hkeep, List.forall_mem_cons.mpr ⟨fun h => absurd h hc, hget⟩⟩
      rw [List.foldlM_cons]
      unfold add_claimant
      rw [if_pos hc]
      exact hrun

/-! ## The proof -/

/-- What the reader makes of a proof. -/
def record (header parent_header : Header) (parent_model_json : String) (committed_leaves : List String) (pid : Nat)
    (txs : List BackpropTx) (bodies : List (String × Body)) (parent_page : List Int64) (branch : List (Bool × Hash)) :
    PageFraudProof where
  header
  parent_header
  parent_model_json
  committed_leaves
  page_id := pid
  txids := txs.map BackpropTx.txid
  txs := txs.map sent
  bodies
  parent_page
  parent_path := branch.map fun s => (s.1, hex_encode s.2.val)

theorem fraud_verify_value (from_str : String → Option Value) (memory : Nat) (h ph : Header) (json : String)
    (leaves : List String) {pid : Nat} (hpid : pid < 2 ^ 64) (txs : List BackpropTx) {fields : List (String × Value)}
    {bs : List (String × Body)} (hbs : fields.mapM (fun f => do some (f.1, ← body f.2)) = some bs) (page : List Int64)
    (branch : List (Bool × Hash)) :
    fraud_verify from_str memory (proof_value h ph json leaves pid txs fields page branch) =
      verify from_str memory (record h ph json leaves pid txs bs page branch) := by
  set v := proof_value h ph json leaves pid txs fields page branch with hv
  have hbodies : parse_bodies v = some bs := by
    rw [← hbs]
    rfl
  have htxs : parse_txs v = some (txs.map sent) := by
    have hall : (txs.map tx_value).mapM tx = some (txs.map sent) := by
      clear hv hbodies v
      induction txs with
      | nil => rfl
      | cons t txs ih =>
        rw [List.map_cons, List.mapM_cons, tx_of_value, ih]
        rfl
    rw [← hall]
    rfl
  have hentries : (v.index "parent_path").as_array = some (branch.map step_value) := rfl
  have hnat : (UInt64.ofNat pid).toNat = pid := UInt64.toNat_ofNat_of_lt' hpid
  have hproof : proof_of v bs (txs.map sent) (branch.map fun s => (s.1, hex_encode s.2.val)) =
      some (record h ph json leaves pid txs bs page branch) := by
    have hids : strings (txs.map fun t => Value.string t.txid) = txs.map BackpropTx.txid := by
      have := strings_map (txs.map BackpropTx.txid)
      rwa [List.map_map] at this
    rw [hv]
    simp [proof_of, proof_value, record, Value.index, Value.get, field, Value.as_u64, Value.as_str, Value.as_array,
      Value.of_u64, Value.as_i64_of_i64, List.filterMap_map, header_of_value, strings_map, hids, hnat]
  unfold fraud_verify
  rw [hbodies, htxs, hentries]
  change ((branch.map step_value).mapM path_step >>= fun path =>
    or_none (proof_of v bs (txs.map sent) path) >>= verify from_str memory) = _
  rw [path_of_branch]
  change (or_none (proof_of v bs (txs.map sent) _) >>= verify from_str memory) = _
  rw [hproof]
  rfl

end Any

end fraud

end Sestrian
