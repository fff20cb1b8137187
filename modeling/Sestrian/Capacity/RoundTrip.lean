import Sestrian.Code.ModelJson

/-!
# A model state and its text

The three texts of a state are those of one value each, without an escape in it, and reading that value gives the
state back. A field that a revision leaves out holds what the reader puts there.
-/

namespace Sestrian

namespace serde_json

/-! ## The text of a value -/

namespace Value

mutual

/-- The compact text of a value whose strings need no escapes. -/
def text : Value → String
  | null => "null"
  | bool b => if b then "true" else "false"
  | number (.pos_int n) => toString n.toNat
  | number (.neg_int i) => toString i.toInt
  | number (.float _) => ""
  | string s => "\"" ++ s ++ "\""
  | array items => "[" ++ ",".intercalate (text_items items) ++ "]"
  | object fields => "\x7b" ++ ",".intercalate (text_fields fields) ++ "\x7d"

def text_items : List Value → List String
  | [] => []
  | v :: rest => text v :: text_items rest

def text_fields : List (String × Value) → List String
  | [] => []
  | (k, v) :: rest => ("\"" ++ k ++ "\":" ++ text v) :: text_fields rest

end

/-- A string that stands in JSON as it is. -/
def Unescaped (s : String) : Prop := ∀ c ∈ s.toList, 32 ≤ c.toNat ∧ c ≠ '"' ∧ c ≠ '\\'

mutual

/-- The values that `text` writes as `serde_json` reads them: no floats, nothing to escape, keys in order. -/
def Plain : Value → Prop
  | null => True
  | bool _ => True
  | number (.pos_int _) => True
  | number (.neg_int i) => i < 0
  | number (.float _) => False
  | string s => Unescaped s
  | array items => PlainItems items
  | object fields => (fields.map Prod.fst).Pairwise (· < ·) ∧ PlainFields fields

def PlainItems : List Value → Prop
  | [] => True
  | v :: rest => Plain v ∧ PlainItems rest

def PlainFields : List (String × Value) → Prop
  | [] => True
  | (k, v) :: rest => Unescaped k ∧ Plain v ∧ PlainFields rest

end

theorem text_items_eq (items : List Value) : text_items items = items.map text := by
  induction items with
  | nil => rfl
  | cons v rest ih =>
    rw [List.map_cons, ← ih]
    rfl

theorem text_fields_eq (fields : List (String × Value)) :
    text_fields fields = fields.map fun f => "\"" ++ f.1 ++ "\":" ++ text f.2 := by
  induction fields with
  | nil => rfl
  | cons f rest ih =>
    rw [List.map_cons, ← ih]
    rfl

theorem plainItems_iff (items : List Value) : PlainItems items ↔ ∀ v ∈ items, Plain v := by
  induction items with
  | nil => simp [PlainItems]
  | cons v rest ih => rw [List.forall_mem_cons, ← ih, PlainItems]

theorem plainFields_iff (fields : List (String × Value)) :
    PlainFields fields ↔ ∀ f ∈ fields, Unescaped f.1 ∧ Plain f.2 := by
  induction fields with
  | nil => simp [PlainFields]
  | cons f rest ih => rw [List.forall_mem_cons, ← ih, PlainFields, and_assoc]

/-! ## Integers -/

theorem toNat_of_nonneg {i : Int64} (h : ¬i < 0) : (i.toInt.toNat : Int) = i.toInt ∧ i.toInt.toNat < 2 ^ 63 := by
  have hlt := i.toInt_lt
  rw [Int64.lt_iff_toInt_lt, Int64.toInt_zero] at h
  omega

theorem toNat_of_lt_half {n : Nat} (h : n < 2 ^ 63) : (UInt64.ofNat n).toNat = n :=
  UInt64.toNat_ofNat_of_lt' (Nat.lt_trans h (by decide))

theorem as_i64_of_i64 (i : Int64) : (of_i64 i).as_i64 = some i := by
  unfold of_i64
  split
  · rfl
  · rename_i h
    obtain ⟨hcast, hlt⟩ := toNat_of_nonneg h
    have hnat : (UInt64.ofNat i.toInt.toNat).toNat = i.toInt.toNat := toNat_of_lt_half hlt
    unfold as_i64
    dsimp only
    rw [hnat, if_pos hlt]
    refine congrArg some (Int64.toInt_inj.mp ?_)
    rw [Int64.toInt_ofNat_of_lt hlt, hcast]

theorem text_of_i64 (i : Int64) : (of_i64 i).text = toString i.toInt := by
  unfold of_i64
  split
  · rfl
  · rename_i h
    obtain ⟨hcast, hlt⟩ := toNat_of_nonneg h
    have hnat : (UInt64.ofNat i.toInt.toNat).toNat = i.toInt.toNat := toNat_of_lt_half hlt
    rw [text, hnat, ← hcast]
    rfl

theorem plain_of_i64 (i : Int64) : Plain (of_i64 i) := by
  unfold of_i64
  split
  · rename_i h
    exact h
  · trivial

end Value

end serde_json

open serde_json (Value)
open serde_json.Value (Unescaped)

namespace ModelState

/-! ## The value of a state -/

def kind_text : PageKind → String
  | .backbone => "backbone"
  | .expert => "expert"

def status_text : PageStatus → String
  | .active => "A"
  | .frozen => "F"

def page_value (p : Page) : Value :=
  .array [.of_u64 (UInt64.ofNat p.start), .of_u64 (UInt64.ofNat p.stop), .string (kind_text p.kind),
    .of_i64 (Int64.ofInt p.layer), .of_i64 (Int64.ofInt p.expert), .string (status_text p.status)]

def pending_value (g : PendingGrowth) : Value :=
  .array [.of_u64 g.window, .of_i64 (Int64.ofInt g.layer), .string g.trigger]

/-- The names of all the fields that a revision may have. -/
def keys : List String :=
  ["events_total", "pages", "pending_growth", "pinned_streak", "quota_4dp", "rev", "slack_streak", "win_accepted",
    "win_score_sum", "win_scorers", "win_zero_scored", "window_id"]

def fields (s : ModelState) : List (String × Value) :=
  [("events_total", .of_u64 s.events_total), ("pages", .array (s.pages.map page_value)),
    ("pending_growth", .array (s.pending_growth.map pending_value)), ("pinned_streak", .of_i64 s.pinned_streak),
    ("quota_4dp", .of_i64 s.quota_4dp)] ++
    (if s.rev ≥ 3 then [("rev", .of_u64 s.rev)] else []) ++
    [("slack_streak", .of_i64 s.slack_streak), ("win_accepted", .of_u64 s.win_accepted)] ++
    (if s.rev ≥ 3 then [("win_score_sum", .of_u64 s.win_score_sum)] else []) ++
    (if s.rev ≥ 4 then [("win_scorers", .array (s.win_scorers.map .string))] else []) ++
    [("win_zero_scored", .of_u64 s.win_zero_scored), ("window_id", .of_u64 s.window_id)]

def value_of (s : ModelState) : Value := .object s.fields

/-- An offset and a number of the source, of the types it has for them. -/
def IsU64 (n : Nat) : Prop := n < 2 ^ 64

def IsI64 (i : Int) : Prop := -2 ^ 63 ≤ i ∧ i < 2 ^ 63

/-- The offsets and numbers of the tables are those of the source's types. -/
structure Typed (s : ModelState) : Prop where
  pages : ∀ p ∈ s.pages, IsU64 p.start ∧ IsU64 p.stop ∧ IsI64 p.layer ∧ IsI64 p.expert
  pending : ∀ g ∈ s.pending_growth, IsI64 g.layer

theorem toInt_of_isI64 {i : Int} (h : IsI64 i) : (Int64.ofInt i).toInt = i :=
  Int64.toInt_ofInt_of_le h.1 h.2

theorem toNat_of_isU64 {n : Nat} (h : IsU64 n) : (UInt64.ofNat n).toNat = n := UInt64.toNat_ofNat_of_lt' h

theorem text_page {p : Page} (h : IsU64 p.start ∧ IsU64 p.stop ∧ IsI64 p.layer ∧ IsI64 p.expert) :
    (page_value p).text = page_json p := by
  obtain ⟨hstart, hstop, hlayer, hexpert⟩ := h
  unfold page_value page_json
  rw [Value.text, Value.text_items_eq]
  simp only [List.map_cons, List.map_nil, Value.text_of_i64, toInt_of_isI64 hlayer, toInt_of_isI64 hexpert, Value.of_u64,
    Value.text, toNat_of_isU64 hstart, toNat_of_isU64 hstop]
  cases p.kind <;> cases p.status <;> (apply String.toList_inj.mp; simp [kind_text, status_text])

theorem text_pending {g : PendingGrowth} (h : IsI64 g.layer) : (pending_value g).text = pending_json g := by
  unfold pending_value pending_json
  rw [Value.text, Value.text_items_eq]
  simp only [List.map_cons, List.map_nil, Value.text_of_i64, toInt_of_isI64 h, Value.of_u64, Value.text]
  apply String.toList_inj.mp
  simp

/-- The committed text is the text of the value. -/
theorem text_value_of {s : ModelState} (h : s.Typed) : s.value_of.text = s.canonical_json := by
  have hpages : s.pages.map (fun p => (page_value p).text) = s.pages.map page_json :=
    List.map_congr_left fun p hp => text_page (h.pages p hp)
  have hpending : s.pending_growth.map (fun g => (pending_value g).text) = s.pending_growth.map pending_json :=
    List.map_congr_left fun g hg => text_pending (h.pending g hg)
  unfold value_of fields canonical_json
  rw [Value.text, Value.text_fields_eq]
  by_cases h3 : s.rev ≥ 3
  · by_cases h4 : s.rev ≥ 4
    · simp only [if_pos h3, if_pos h4, List.map_append, List.map_cons, List.map_nil, Value.text, Value.text_items_eq,
        Value.text_of_i64, Value.of_u64, List.map_map, Function.comp_def, hpages, hpending, json_field]
    · simp only [if_pos h3, if_neg h4, List.map_append, List.map_cons, List.map_nil, Value.text, Value.text_items_eq,
        Value.text_of_i64, Value.of_u64, List.map_map, Function.comp_def, hpages, hpending, json_field]
  · have h4 : ¬s.rev ≥ 4 := fun h => h3 (UInt64.le_trans (by decide) h)
    simp only [if_neg h3, if_neg h4, List.map_append, List.map_cons, List.map_nil, Value.text, Value.text_items_eq,
      Value.text_of_i64, Value.of_u64, List.map_map, Function.comp_def, hpages, hpending, json_field]

/-! ## Reading it back -/

theorem mapM_read {α β : Type} {f : α → β} {g : β → Option α} {xs : List α} (h : ∀ x ∈ xs, g (f x) = some x) :
    (xs.map f).mapM g = some xs := by
  induction xs with
  | nil => rfl
  | cons x xs ih =>
    obtain ⟨hx, hxs⟩ := List.forall_mem_cons.mp h
    rw [List.map_cons, List.mapM_cons, hx, ih hxs]
    rfl

theorem read_page_value {p : Page} (h : IsU64 p.start ∧ IsU64 p.stop ∧ IsI64 p.layer ∧ IsI64 p.expert) :
    read_page (page_value p) = some p := by
  obtain ⟨hstart, hstop, hlayer, hexpert⟩ := h
  have hkind : PageKind.of_text (kind_text p.kind) = some p.kind := by cases p.kind <;> rfl
  have hstatus : PageStatus.of_text (status_text p.status) = some p.status := by cases p.status <;> rfl
  simp only [read_page, page_value, Value.as_array, Value.as_str, Value.as_u64, Value.of_u64, Value.as_i64_of_i64,
    List.getElem?_cons_zero, List.getElem?_cons_succ, Option.bind_eq_bind, Option.bind_some, hkind, hstatus,
    toNat_of_isU64 hstart, toNat_of_isU64 hstop, toInt_of_isI64 hlayer, toInt_of_isI64 hexpert]

theorem read_pending_value {g : PendingGrowth} (h : IsI64 g.layer) : read_pending (pending_value g) = some g := by
  simp only [read_pending, pending_value, Value.as_array, Value.as_str, Value.as_u64, Value.of_u64, Value.as_i64_of_i64,
    List.getElem?_cons_zero, List.getElem?_cons_succ, Option.bind_eq_bind, Option.bind_some, toInt_of_isI64 h]

/-- What a revision leaves out is what the reader puts in its place. -/
structure Omits (s : ModelState) : Prop where
  early : ¬s.rev ≥ 3 → s.rev = 2 ∧ s.win_score_sum = 0
  unscored : ¬s.rev ≥ 4 → s.win_scorers = []

theorem read_value_of {s : ModelState} (h : s.Typed) (ho : s.Omits) : from_json_value s.value_of = some s := by
  have hpages : (s.pages.map page_value).mapM read_page = some s.pages := mapM_read fun p hp => read_page_value (h.pages p hp)
  have hpending : (s.pending_growth.map pending_value).mapM read_pending = some s.pending_growth :=
    mapM_read fun g hg => read_pending_value (h.pending g hg)
  have hscorers : (s.win_scorers.map Value.string).filterMap Value.as_str = s.win_scorers := by
    rw [List.filterMap_map]
    exact List.filterMap_some
  unfold value_of fields from_json_value
  by_cases h3 : s.rev ≥ 3
  · by_cases h4 : s.rev ≥ 4
    · simp [if_pos h3, if_pos h4, Value.get, serde_json.field, Value.as_array, Value.as_u64, Value.of_u64,
        Value.as_i64_of_i64, hpages, hpending, hscorers]
    · have hnone := ho.unscored h4
      simp [if_pos h3, if_neg h4, Value.get, serde_json.field, Value.as_array, Value.as_u64, Value.of_u64,
        Value.as_i64_of_i64, hpages, hpending, ← hnone]
  · have h4 : ¬s.rev ≥ 4 := fun h => h3 (UInt64.le_trans (by decide) h)
    have hnone := ho.unscored h4
    obtain ⟨hrev, hsum⟩ := ho.early h3
    simp [if_neg h3, if_neg h4, Value.get, serde_json.field, Value.as_array, Value.as_u64, Value.of_u64,
      Value.as_i64_of_i64, hpages, hpending, ← hnone, ← hrev, ← hsum]

/-- The texts in it stand in JSON as they are. -/
structure Clean (s : ModelState) : Prop where
  triggers : ∀ g ∈ s.pending_growth, Unescaped g.trigger
  scorers : ∀ x ∈ s.win_scorers, Unescaped x

theorem unescaped_of_all {s : String} (h : (s.toList.all fun c => 32 ≤ c.toNat && c != '"' && c != '\\') = true) :
    Unescaped s := by
  intro c hc
  have := List.all_eq_true.mp h c hc
  simpa [and_assoc] using this

theorem plain_page (p : Page) : Value.Plain (page_value p) := by
  rw [page_value, Value.Plain, Value.plainItems_iff]
  have hkind : Unescaped (kind_text p.kind) := by cases p.kind <;> exact unescaped_of_all rfl
  have hstatus : Unescaped (status_text p.status) := by cases p.status <;> exact unescaped_of_all rfl
  simp only [List.forall_mem_cons, Value.plain_of_i64, true_and]
  exact ⟨trivial, trivial, hkind, hstatus, List.forall_mem_nil _⟩

theorem plain_pending {g : PendingGrowth} (h : Unescaped g.trigger) : Value.Plain (pending_value g) := by
  rw [pending_value, Value.Plain, Value.plainItems_iff]
  simp only [List.forall_mem_cons, Value.plain_of_i64, true_and]
  exact ⟨trivial, h, List.forall_mem_nil _⟩

theorem keys_sorted : keys.Pairwise (· < ·) := by decide

theorem keys_unescaped : ∀ k ∈ keys, Unescaped k := by
  have hall : (keys.all fun k => k.toList.all fun c => 32 ≤ c.toNat && c != '"' && c != '\\') = true := by decide
  exact fun k hk => unescaped_of_all (List.all_eq_true.mp hall k hk)

theorem fields_keys (s : ModelState) : (s.fields.map Prod.fst).Sublist keys := by
  have hopt (p : Prop) [Decidable p] (k : String) (v : Value) :
      ((if p then [(k, v)] else []).map Prod.fst).Sublist [k] := by
    split
    · exact .refl _
    · exact List.nil_sublist _
  unfold fields
  rw [List.map_append, List.map_append, List.map_append, List.map_append, List.map_append]
  exact (((((List.Sublist.refl _).append (hopt ..)).append (.refl _)).append (hopt ..)).append (hopt ..)).append (.refl _)

theorem plain_value_of {s : ModelState} (h : s.Clean) : Value.Plain s.value_of := by
  have hpages : Value.Plain (.array (s.pages.map page_value)) := by
    rw [Value.Plain, Value.plainItems_iff, List.forall_mem_map]
    exact fun p _ => plain_page p
  have hpending : Value.Plain (.array (s.pending_growth.map pending_value)) := by
    rw [Value.Plain, Value.plainItems_iff, List.forall_mem_map]
    exact fun g hg => plain_pending (h.triggers g hg)
  have hscorers : Value.Plain (.array (s.win_scorers.map .string)) := by
    rw [Value.Plain, Value.plainItems_iff, List.forall_mem_map]
    exact fun x hx => h.scorers x hx
  have hnum (n : UInt64) : Value.Plain (.of_u64 n) := trivial
  have hopt {p : Prop} [Decidable p] {k : String} {v : Value} (hv : Value.Plain v) :
      ∀ f ∈ (if p then [(k, v)] else []), Value.Plain f.2 := by
    split
    · exact List.forall_mem_singleton.mpr hv
    · exact List.forall_mem_nil _
  have hvals : ∀ f ∈ s.fields, Value.Plain f.2 := by
    unfold fields
    simp only [List.forall_mem_append, List.forall_mem_cons, hpages, hpending, hnum, Value.plain_of_i64, true_and]
    exact ⟨⟨⟨⟨⟨List.forall_mem_nil _, hopt (hnum _)⟩, List.forall_mem_nil _⟩, hopt (hnum _)⟩, hopt hscorers⟩,
      List.forall_mem_nil _⟩
  rw [value_of, Value.Plain, Value.plainFields_iff]
  refine ⟨keys_sorted.sublist (fields_keys s), fun f hf => ⟨?_, hvals f hf⟩⟩
  exact keys_unescaped _ ((fields_keys s).subset (List.mem_map_of_mem hf))

end ModelState

end Sestrian
