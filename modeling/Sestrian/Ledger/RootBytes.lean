import Sestrian.Code.Bytes
import Sestrian.Code.RigJson
import Sestrian.Ledger.Signing

/-!
# The bytes under the ledger root, in both languages

The two encoders agree on everything but the characters past `~`: one writes them out in UTF-8,
the other escapes them.
-/

namespace Sestrian

open TokenLedger

/-! ## Texts without them -/

def PlainText (s : String) : Prop := ∀ c ∈ s.toList, c.toNat < 127

mutual

/-- No text and no key of the value has a character past `~`. -/
def PlainJson : Json → Prop
  | .bool _ => True
  | .num _ => True
  | .str s => PlainText s
  | .arr items => PlainItems items
  | .obj fields => PlainFields fields

def PlainItems : List Json → Prop
  | [] => True
  | x :: rest => PlainJson x ∧ PlainItems rest

def PlainFields : List (String × Json) → Prop
  | [] => True
  | (k, v) :: rest => PlainText k ∧ PlainJson v ∧ PlainFields rest

end

theorem plainItems_iff (items : List Json) : PlainItems items ↔ ∀ x ∈ items, PlainJson x := by
  induction items with
  | nil => simp [PlainItems]
  | cons x items ih => simp [PlainItems, ih]

theorem plainFields_iff (fields : List (String × Json)) :
    PlainFields fields ↔ ∀ f ∈ fields, PlainText f.1 ∧ PlainJson f.2 := by
  induction fields with
  | nil => simp [PlainFields]
  | cons f fields ih => simp [PlainFields, ih, and_assoc]

theorem escape_plain {c : Char} (h : c.toNat < 127) : (String.utf8EncodeChar c).flatMap Json.escape = rig.escape c := by
  rw [← Char.ofNat_toNat c]
  generalize c.toNat = n at h
  interval_cases n <;> rfl

theorem as_bytes_eq (s : String) : as_bytes s = s.toList.flatMap String.utf8EncodeChar := by
  rw [← as_bytes_ofList, String.ofList_toList]

theorem quote_plain {s : String} (h : PlainText s) : rig.quote s = Json.quote s := by
  rw [rig.quote, Json.quote, as_bytes_eq, List.flatMap_assoc]
  congr 2
  exact List.flatMap_congr fun c hc => (escape_plain (h c hc)).symm

/-! ## Values without them -/

theorem compactItems_eq (items : List Json) :
    Json.compactItems items = (as_bytes ",").intercalate (items.map Json.compact) := by
  induction items with
  | nil => rfl
  | cons x items ih =>
    cases items with
    | nil => simp [Json.compactItems]
    | cons y items =>
      rw [Json.compactItems, ih, List.map_cons, List.map_cons, List.map_cons, List.intercalate_cons_cons]

theorem compactFields_eq (fields : List (String × Json)) : Json.compactFields fields =
    (as_bytes ",").intercalate (fields.map fun f => Json.quote f.1 ++ as_bytes ":" ++ f.2.compact) := by
  induction fields with
  | nil => rfl
  | cons f fields ih =>
    cases fields with
    | nil => simp [Json.compactFields]
    | cons f' fields =>
      rw [Json.compactFields, ih, List.map_cons, List.map_cons, List.map_cons, List.intercalate_cons_cons]

theorem dumpsFields_eq (fields : List (String × Json)) :
    rig.dumpsFields fields = fields.map fun f => (f.1, rig.dumps f.2) := by
  induction fields with
  | nil => rfl
  | cons f fields ih => rw [rig.dumpsFields, ih, List.map_cons]

theorem dumpsItems_eq (items : List Json) : rig.dumpsItems items = items.map rig.dumps := by
  induction items with
  | nil => rfl
  | cons x items ih => rw [rig.dumpsItems, ih, List.map_cons]

/-- The two write the same text for these two values. -/
def SameText (j j' : Json) : Prop := rig.dumps j = j'.compact

theorem sameText_str {s : String} (h : PlainText s) : SameText (.str s) (.str s) := by
  unfold SameText
  rw [rig.dumps, Json.compact]
  exact quote_plain h

theorem sameText_num (n : Int) : SameText (.num n) (.num n) := by
  unfold SameText
  rw [rig.dumps, Json.compact]

theorem sameText_arr {α : Type} {xs : List α} {f g : α → Json} (h : ∀ x ∈ xs, SameText (f x) (g x)) :
    SameText (.arr (xs.map f)) (.arr (xs.map g)) := by
  unfold SameText at h ⊢
  rw [rig.dumps, Json.compact, dumpsItems_eq, compactItems_eq, List.map_map, List.map_map]
  congr 3
  exact List.map_congr_left h

instance : Std.Total rig.key_le := ⟨fun a b => le_total a.1 b.1⟩

instance : IsTrans (String × List UInt8) rig.key_le := ⟨fun _ _ _ h h' => le_trans h h'⟩

/-- Keys in any order on the one side, sorted on the other. -/
theorem sameText_obj {fields fields' : List (String × Json)}
    (hperm : (fields.map fun f => (f.1, rig.dumps f.2)).Perm (fields'.map fun f => (f.1, f.2.compact)))
    (hsorted : (fields'.map Prod.fst).Pairwise (· < ·)) (hkeys : ∀ f ∈ fields', PlainText f.1) :
    SameText (.obj fields) (.obj fields') := by
  have hle : (fields'.map fun f => (f.1, f.2.compact)).Pairwise rig.key_le := by
    rw [List.pairwise_map] at hsorted ⊢
    exact hsorted.imp fun h => le_of_lt h
  have hsort : (fields.map fun f => (f.1, rig.dumps f.2)).insertionSort rig.key_le =
      fields'.map fun f => (f.1, f.2.compact) := by
    refine List.Perm.eq_of_pairwise ?_ (List.pairwise_insertionSort _ _) hle ((List.perm_insertionSort _ _).trans hperm)
    intro a b ha hb hab hba
    have ha : a ∈ fields'.map fun f => (f.1, f.2.compact) := hperm.mem_iff.mp (List.mem_insertionSort _ |>.mp ha)
    obtain ⟨f, hf, rfl⟩ := List.mem_map.mp ha
    obtain ⟨f', hf', rfl⟩ := List.mem_map.mp hb
    have hkey : f.1 = f'.1 := le_antisymm hab hba
    have hinj := List.inj_on_of_nodup_map (hsorted.imp fun h => ne_of_lt h) hf hf' hkey
    rw [hinj]
  unfold SameText
  rw [rig.dumps, Json.compact, dumpsFields_eq, compactFields_eq, hsort, List.map_map]
  congr 3
  refine List.map_congr_left fun f hf => ?_
  simp only [Function.comp_apply, rig.field_text, quote_plain (hkeys f hf)]

/-! ## The ledger -/

theorem sameText_u64 (n : UInt64) : SameText (u64_json n) (u64_json n) := sameText_num _

theorem dict_sorted {ν : Type} (f : ν → Json) (m : Dict ν) :
    ((m.toList.map fun e => (e.1, f e.2)).map Prod.fst).Pairwise (· < ·) := by
  rw [List.map_map]
  have hkeys : m.toList.map (Prod.fst ∘ fun e => (e.1, f e.2)) = m.keys := by
    rw [← Std.ExtTreeMap.map_fst_toList_eq_keys]
    rfl
  rw [hkeys]
  exact Std.ExtTreeMap.ordered_keys.imp fun h => compare_lt_iff_lt.mp h

theorem sameText_dict {ν : Type} {f g : ν → Json} {m : Dict ν} (hplain : PlainJson (dict_json g m))
    (h : ∀ k v, m[(k : String)]? = some v → PlainJson (g v) → SameText (f v) (g v)) :
    SameText (dict_json f m) (dict_json g m) := by
  rw [dict_json, PlainJson, plainFields_iff] at hplain
  refine sameText_obj ?_ (dict_sorted g m) fun e he => (hplain e he).1
  rw [List.map_map, List.map_map]
  refine List.Perm.of_eq (List.map_congr_left fun e he => ?_)
  have hget := Std.ExtTreeMap.mem_toList_iff_getElem?_eq_some.mp (show (e.1, e.2) ∈ m.toList from he)
  have hsame := h e.1 e.2 hget (hplain (e.1, g e.2) (List.mem_map.mpr ⟨e, he, rfl⟩)).2
  unfold SameText at hsame
  simp only [Function.comp_apply, hsame]

theorem sameText_texts {xs : List String} (h : PlainJson (.arr (xs.map .str))) :
    SameText (.arr (xs.map .str)) (.arr (xs.map .str)) := by
  rw [PlainJson, plainItems_iff] at h
  refine sameText_arr fun s hs => sameText_str ?_
  exact (h (.str s) (List.mem_map.mpr ⟨s, hs, rfl⟩))

/-- The same fields, `σ` being the sorted order of the keys. -/
theorem sameText_fields {L L' : List (String × Json)} (σ : List Nat) (hσ : σ.Perm (List.range L.length))
    (h : L' = σ.map fun i => L.getD i ("", .num 0)) (hsorted : (L'.map Prod.fst).Pairwise (· < ·))
    (hkeys : ∀ f ∈ L', PlainText f.1) (hsame : ∀ f ∈ L', SameText f.2 f.2) : SameText (.obj L) (.obj L') := by
  have hL : (List.range L.length).map (fun i => L.getD i ("", .num 0)) = L := by
    refine List.ext_getElem (by simp) fun i hi hi' => ?_
    simp [hi']
  have hperm : L.Perm L' := by
    rw [h]
    nth_rewrite 1 [← hL]
    exact (hσ.map _).symm
  refine sameText_obj ?_ hsorted hkeys
  refine (hperm.map _).trans (List.Perm.of_eq (List.map_congr_left fun f hf => ?_))
  exact congrArg _ (hsame f hf)

theorem sameText_bond {b : Bond} (h : PlainJson (bond_json b)) : SameText (rig.bond_dict b) (bond_json b) := by
  rw [bond_json, PlainJson, plainFields_iff] at h
  refine sameText_fields [1, 2, 0] (show [1, 2, 0].Perm (List.range 3) by decide) rfl ?_ (fun f hf => (h f hf).1) ?_
  · simp only [List.map_cons, List.map_nil]
    decide
  · simp only [List.forall_mem_cons] at h ⊢
    obtain ⟨-, -, ⟨-, hminer⟩, -⟩ := h
    exact ⟨sameText_u64 _, sameText_u64 _, sameText_str hminer, nofun⟩

theorem sameText_challenge {c : Challenge} (h : PlainJson (challenge_json c)) :
    SameText (rig.challenge_dict c) (challenge_json c) := by
  rw [challenge_json, PlainJson, plainFields_iff] at h
  refine sameText_fields [1, 0, 4, 3, 2, 6, 5] (show [1, 0, 4, 3, 2, 6, 5].Perm (List.range 7) by decide) rfl ?_
    (fun f hf => (h f hf).1) ?_
  · simp only [List.map_cons, List.map_nil]
    decide
  · simp only [List.forall_mem_cons] at h ⊢
    obtain ⟨⟨-, hchallenger⟩, ⟨-, hid⟩, -, ⟨-, hreason⟩, -, ⟨-, hagainst⟩, ⟨-, hfor⟩, -⟩ := h
    exact ⟨sameText_str hchallenger, sameText_str hid, sameText_u64 _, sameText_str hreason, sameText_u64 _,
      sameText_texts hagainst, sameText_texts hfor, nofun⟩

theorem sameText_values {e : RegistryEntry} {fields : List (String × Json)} (he : entry_json e = .obj fields)
    (h : PlainJson (entry_json e)) : ∀ f ∈ fields, SameText f.2 f.2 := by
  rw [he, PlainJson, plainFields_iff] at h
  have hplain := fun f hf => (h f hf).2
  obtain rfl := Json.obj.inj he
  simp only [List.forall_mem_append, List.forall_mem_cons] at hplain ⊢
  obtain ⟨⟨⟨hroot, hhash, htype, howner, -⟩, -⟩, -, hstatus, -⟩ := hplain
  refine ⟨⟨⟨?_, sameText_str hhash, sameText_str htype, sameText_str howner, sameText_u64 _, nofun⟩, ?_⟩,
    sameText_u64 _, sameText_str hstatus, sameText_u64 _, nofun⟩
  · intro f hf
    have hplain := hroot f hf
    obtain ⟨r, -, rfl⟩ := Option.map_eq_some_iff.mp (Option.mem_toList.mp hf)
    exact sameText_str hplain
  · intro f hf
    obtain ⟨sk, -, rfl⟩ := Option.map_eq_some_iff.mp (Option.mem_toList.mp hf)
    exact sameText_arr fun x _ => sameText_num x.toInt

theorem sameText_entry {e : RegistryEntry} (h : PlainJson (entry_json e)) :
    SameText (rig.entry_dict e) (entry_json e) := by
  have hsame := sameText_values rfl h
  rw [entry_json, PlainJson, plainFields_iff] at h
  have hkeys := fun f hf => (h f hf).1
  unfold rig.entry_dict entry_json
  -- the two optional fields, each in its place
  cases hr : e.da_root with
  | none =>
    cases hsk : e.sketch with
    | none =>
      rw [hr, hsk] at hkeys hsame
      exact sameText_fields [1, 3, 0, 2, 4, 6, 5] (show [1, 3, 0, 2, 4, 6, 5].Perm (List.range 7) by decide) rfl
        (show ["data_hash", "media_type", "owner", "size", "stake", "status", "weight"].Pairwise (· < ·) by decide)
        hkeys hsame
    | some sk =>
      rw [hr, hsk] at hkeys hsame
      exact sameText_fields [1, 3, 0, 2, 7, 4, 6, 5] (show [1, 3, 0, 2, 7, 4, 6, 5].Perm (List.range 8) by decide) rfl
        (show ["data_hash", "media_type", "owner", "size", "sketch", "stake", "status", "weight"].Pairwise (· < ·)
          by decide) hkeys hsame
  | some r =>
    cases hsk : e.sketch with
    | none =>
      rw [hr, hsk] at hkeys hsame
      exact sameText_fields [5, 1, 3, 0, 2, 4, 7, 6] (show [5, 1, 3, 0, 2, 4, 7, 6].Perm (List.range 8) by decide) rfl
        (show ["da_root", "data_hash", "media_type", "owner", "size", "stake", "status", "weight"].Pairwise (· < ·)
          by decide) hkeys hsame
    | some sk =>
      rw [hr, hsk] at hkeys hsame
      exact sameText_fields [5, 1, 3, 0, 2, 8, 4, 7, 6] (show [5, 1, 3, 0, 2, 8, 4, 7, 6].Perm (List.range 9) by decide) rfl
        (show ["da_root", "data_hash", "media_type", "owner", "size", "sketch", "stake", "status", "weight"].Pairwise (· < ·)
          by decide) hkeys hsame

/-! ## The root -/

def state_json (led : TokenLedger) : Json :=
  .obj [("balances", dict_json u64_json led.balances), ("bonds", dict_json bond_json led.bonds),
    ("challenges", dict_json challenge_json led.challenges),
    ("fee_data_pool", u64_json led.fee_data_pool), ("fee_train_pool", u64_json led.fee_train_pool),
    ("nonces", dict_json u64_json led.nonces), ("registry", dict_json entry_json led.registry)]

theorem root_eq [Crypto] (led : TokenLedger) : led.root = sha256_hex (state_json led).compact := rfl

theorem root_bytes_eq {led : TokenLedger} (h : PlainJson (state_json led)) :
    rig.root_bytes led = (state_json led).compact := by
  rw [state_json, PlainJson, plainFields_iff] at h
  have hkeys := fun f hf => (h f hf).1
  simp only [List.forall_mem_cons] at h
  obtain ⟨⟨-, hbalances⟩, ⟨-, hbonds⟩, ⟨-, hchallenges⟩, -, -, ⟨-, hnonces⟩, ⟨-, hregistry⟩, -⟩ := h
  have hbalances := sameText_dict hbalances fun _ v _ _ => sameText_u64 v
  have hbonds := sameText_dict hbonds fun _ _ _ hv => sameText_bond hv
  have hchallenges := sameText_dict hchallenges fun _ _ _ hv => sameText_challenge hv
  have hdata := sameText_u64 led.fee_data_pool
  have htrain := sameText_u64 led.fee_train_pool
  have hnonces := sameText_dict hnonces fun _ v _ _ => sameText_u64 v
  have hregistry := sameText_dict hregistry fun _ _ _ hv => sameText_entry hv
  unfold SameText at hbalances hbonds hchallenges hdata htrain hnonces hregistry
  refine sameText_obj (List.Perm.of_eq ?_) (by simp only [List.map_cons, List.map_nil]; decide) hkeys
  simp only [List.map_cons, List.map_nil, hbalances, hbonds, hchallenges, hdata, htrain, hnonces, hregistry]

/-! ## Only then -/

/-- Every byte is that of a character up to `~`. -/
def Ascii (bs : List UInt8) : Prop := ∀ b ∈ bs, b.toNat < 127

theorem ascii_of_all {bs : List UInt8} (h : bs.all (fun b => b.toNat < 127) = true) : Ascii bs := by
  intro b hb
  simpa using List.all_eq_true.mp h b hb

theorem ascii_append {bs bs' : List UInt8} : Ascii (bs ++ bs') ↔ Ascii bs ∧ Ascii bs' := List.forall_mem_append

theorem ascii_intercalate {sep : List UInt8} {ls : List (List UInt8)} (hsep : Ascii sep) (h : ∀ l ∈ ls, Ascii l) :
    Ascii (sep.intercalate ls) := by
  induction ls with
  | nil => exact nofun
  | cons l ls ih =>
    obtain ⟨hl, hls⟩ := List.forall_mem_cons.mp h
    cases ls with
    | nil => simpa using hl
    | cons l' ls =>
      rw [List.intercalate_cons_cons]
      exact ascii_append.mpr ⟨ascii_append.mpr ⟨hl, hsep⟩, ih hls⟩

theorem ascii_toString (n : Int) : Ascii (as_bytes (toString n)) := by
  have hnat : ∀ k : Nat, Ascii (as_bytes (toString k)) := by
    intro k b hb
    rw [Nat.toString_eq_ofList_toDigits, as_bytes_ofList] at hb
    have hdigit := (encode_digits fun c hc => Nat.isDigit_of_mem_toDigits (by decide) (by decide) hc).1 b hb
    simp only [isDigitByte, decide_eq_true_eq] at hdigit
    have hle : b.toNat ≤ (57 : UInt8).toNat := UInt8.le_iff_toNat_le.mp hdigit.2
    exact lt_of_le_of_lt hle (by decide)
  cases n with
  | ofNat k => exact hnat k
  | negSucc k =>
    have hneg : as_bytes (toString (Int.negSucc k)) = as_bytes "-" ++ as_bytes (toString (k + 1)) := by
      rw [show toString (Int.negSucc k) = "-" ++ toString (k + 1) from rfl]
      simp [as_bytes]
    rw [hneg]
    exact ascii_append.mpr ⟨ascii_of_all rfl, hnat (k + 1)⟩

theorem ascii_u_escape (n : Nat) : Ascii (rig.u_escape n) := by
  have hdigit : ∀ k : Nat, (hex_digit (k % 16)).toNat < 127 := by
    have : ∀ k : Fin 16, (hex_digit k.val).toNat < 127 := by decide
    exact fun k => this ⟨k % 16, Nat.mod_lt _ (by decide)⟩
  unfold Ascii rig.u_escape
  simp only [List.forall_mem_cons]
  exact ⟨by decide, by decide, hdigit _, hdigit _, hdigit _, hdigit _, nofun⟩

theorem ascii_escape (c : Char) : Ascii (rig.escape c) := by
  unfold rig.escape
  split_ifs with h1 h2 h3 h4 h5 h6 h7 h8 h9
  any_goals exact ascii_u_escape _
  any_goals exact ascii_append.mpr ⟨ascii_u_escape _, ascii_u_escape _⟩
  any_goals exact ascii_of_all rfl
  · intro b hb
    rw [List.mem_singleton.mp hb, UInt8.toNat_ofNat']
    omega

theorem ascii_quote (s : String) : Ascii (rig.quote s) := by
  refine List.forall_mem_cons.mpr ⟨by decide, ascii_append.mpr ⟨?_, ascii_of_all rfl⟩⟩
  intro b hb
  obtain ⟨c, -, hc⟩ := List.mem_flatMap.mp hb
  exact ascii_escape c b hc

mutual

theorem ascii_dumps : ∀ j : Json, Ascii (rig.dumps j)
  | .bool b => by
    rw [rig.dumps]
    cases b
    · exact ascii_of_all rfl
    · exact ascii_of_all rfl
  | .num n => by
    rw [rig.dumps]
    exact ascii_toString n
  | .str s => by
    rw [rig.dumps]
    exact ascii_quote s
  | .arr items => by
    rw [rig.dumps]
    refine ascii_append.mpr ⟨ascii_append.mpr ⟨ascii_of_all rfl, ?_⟩, ascii_of_all rfl⟩
    exact ascii_intercalate (ascii_of_all rfl) (ascii_dumpsItems items)
  | .obj fields => by
    rw [rig.dumps]
    refine ascii_append.mpr ⟨ascii_append.mpr ⟨ascii_of_all rfl, ?_⟩, ascii_of_all rfl⟩
    refine ascii_intercalate (ascii_of_all rfl) fun l hl => ?_
    obtain ⟨f, hf, rfl⟩ := List.mem_map.mp hl
    refine ascii_append.mpr ⟨ascii_append.mpr ⟨ascii_quote f.1, ascii_of_all rfl⟩, ?_⟩
    exact ascii_dumpsFields fields f (List.mem_insertionSort _ |>.mp hf)

theorem ascii_dumpsItems : ∀ items : List Json, ∀ l ∈ rig.dumpsItems items, Ascii l
  | [] => nofun
  | x :: rest => by
    rw [rig.dumpsItems]
    exact List.forall_mem_cons.mpr ⟨ascii_dumps x, ascii_dumpsItems rest⟩

theorem ascii_dumpsFields : ∀ fields : List (String × Json), ∀ f ∈ rig.dumpsFields fields, Ascii f.2
  | [] => nofun
  | (_, v) :: rest => by
    rw [rig.dumpsFields]
    exact List.forall_mem_cons.mpr ⟨ascii_dumps v, ascii_dumpsFields rest⟩

end

theorem last_byte (c : Char) (h : 127 ≤ c.toNat) : ∃ b ∈ String.utf8EncodeChar c, 127 ≤ b.toNat := by
  have hnat : c.val.toNat = c.toNat := rfl
  have hcont : 127 ≤ (UInt8.ofNat (c.toNat % 0x40 + 0x80)).toNat := by
    rw [UInt8.toNat_ofNat']
    omega
  unfold String.utf8EncodeChar
  simp only [hnat]
  split_ifs with h1 h2 h3
  · refine ⟨_, List.mem_cons_self, ?_⟩
    rw [UInt8.toNat_ofNat']
    omega
  all_goals exact ⟨_, List.mem_of_getLast? rfl, hcont⟩

theorem escape_big {b : UInt8} (h : 127 ≤ b.toNat) : Json.escape b = [b] := by
  have hall : ∀ n : Fin 256, 127 ≤ n.val → Json.escape (UInt8.ofNat n.val) = [UInt8.ofNat n.val] := by decide +kernel
  have hb := hall ⟨b.toNat, b.toNat_lt⟩ h
  rwa [UInt8.ofNat_toNat] at hb

/-- A character past `~` leaves a byte past it, which serde does not escape. -/
theorem plainText_of_ascii {s : String} (h : Ascii (Json.quote s)) : PlainText s := by
  intro c hc
  by_contra hbig
  obtain ⟨b, hb, hbyte⟩ := last_byte c (by omega)
  have hmem : b ∈ (as_bytes s).flatMap Json.escape := by
    refine List.mem_flatMap.mpr ⟨b, ?_, ?_⟩
    · rw [as_bytes_eq]
      exact List.mem_flatMap.mpr ⟨c, hc, hb⟩
    · rw [escape_big hbyte]
      exact List.mem_singleton_self b
  have hlt := h b (List.mem_cons_of_mem _ (List.mem_append_left _ hmem))
  omega

mutual

theorem plain_of_ascii : ∀ j : Json, Ascii j.compact → PlainJson j
  | .bool _, _ => by
    rw [PlainJson]
    trivial
  | .num _, _ => by
    rw [PlainJson]
    trivial
  | .str s, h => by
    rw [Json.compact] at h
    rw [PlainJson]
    exact plainText_of_ascii h
  | .arr items, h => by
    rw [Json.compact] at h
    rw [PlainJson]
    exact plainItems_of_ascii items (ascii_append.mp (ascii_append.mp h).1).2
  | .obj fields, h => by
    rw [Json.compact] at h
    rw [PlainJson]
    exact plainFields_of_ascii fields (ascii_append.mp (ascii_append.mp h).1).2

theorem plainItems_of_ascii : ∀ items : List Json, Ascii (Json.compactItems items) → PlainItems items
  | [], _ => by
    rw [PlainItems]
    trivial
  | [x], h => by
    rw [Json.compactItems] at h
    rw [PlainItems, PlainItems]
    exact ⟨plain_of_ascii x h, trivial⟩
  | x :: y :: rest, h => by
    rw [Json.compactItems] at h
    obtain ⟨h, hrest⟩ := ascii_append.mp h
    rw [PlainItems]
    exact ⟨plain_of_ascii x (ascii_append.mp h).1, plainItems_of_ascii (y :: rest) hrest⟩

theorem plainFields_of_ascii : ∀ fields : List (String × Json), Ascii (Json.compactFields fields) → PlainFields fields
  | [], _ => by
    rw [PlainFields]
    trivial
  | [(k, v)], h => by
    rw [Json.compactFields] at h
    obtain ⟨hk, hv⟩ := ascii_append.mp h
    rw [PlainFields, PlainFields]
    exact ⟨plainText_of_ascii (ascii_append.mp hk).1, plain_of_ascii v hv, trivial⟩
  | (k, v) :: f :: rest, h => by
    rw [Json.compactFields] at h
    obtain ⟨h, hrest⟩ := ascii_append.mp h
    obtain ⟨hk, hv⟩ := ascii_append.mp (ascii_append.mp h).1
    rw [PlainFields]
    exact ⟨plainText_of_ascii (ascii_append.mp hk).1, plain_of_ascii v hv, plainFields_of_ascii (f :: rest) hrest⟩

end

theorem root_bytes_iff (led : TokenLedger) :
    rig.root_bytes led = (state_json led).compact ↔ PlainJson (state_json led) := by
  constructor
  · intro h
    refine plain_of_ascii _ ?_
    rw [← h]
    exact ascii_dumps _
  · exact root_bytes_eq

end Sestrian
