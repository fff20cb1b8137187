import Sestrian.Tree.Aggregate

/-!
# The page table along a chain

A block never moves a page. It appends one span for each page it activates, as long as the
page's first weights.
-/

namespace Sestrian.Pages

open Aggregate

def span (p : Page) : Nat × Nat := (p.start, p.stop)

theorem spans_eq (s : ModelState) : s.spans = s.pages.map span := rfl

/-- The end of the last page. -/
def table_end (pages : List Page) : Nat := (pages.getLast?.map (·.stop)).getD 0

/-- The spans of blocks of weights put one after the other from `a` on. -/
def spans_from (a : Nat) : List (List Int64) → List (Nat × Nat)
  | [] => []
  | p :: ps => (a, a + p.length) :: spans_from (a + p.length) ps

theorem tiled_append {a b c : Nat} {s₁ s₂ : List (Nat × Nat)} (h₁ : Tiled a s₁ b) (h₂ : Tiled b s₂ c) :
    Tiled a (s₁ ++ s₂) c := by
  induction s₁ generalizing a with
  | nil => exact (show a = b from h₁) ▸ h₂
  | cons s rest ih => exact ⟨h₁.1, h₁.2.1, ih h₁.2.2⟩

theorem tiled_spans_from (a : Nat) (ps : List (List Int64)) :
    Tiled a (spans_from a ps) (a + ps.flatten.length) := by
  induction ps generalizing a with
  | nil => simp [Tiled, spans_from]
  | cons p ps ih =>
    refine ⟨rfl, Nat.le_add_right _ _, ?_⟩
    have := ih (a + p.length)
    simpa [Nat.add_assoc] using this

/-- A page table that covers `n` weights ends at `n`. -/
theorem tiled_table_end {pages : List Page} {a n : Nat} (h : Tiled a (pages.map span) n) (hne : pages ≠ []) :
    table_end pages = n := by
  induction pages generalizing a with
  | nil => exact absurd rfl hne
  | cons p rest ih =>
    obtain ⟨-, -, h⟩ := h
    cases rest with
    | nil => exact h
    | cons q rest => exact ih h (by simp)

theorem map_span_set_status (pages : List Page) (i : Nat) (st : PageStatus) :
    (set_status pages i st).map span = pages.map span := by
  apply List.ext_getElem?
  intro j
  simp only [set_status, List.getElem?_map, List.getElem?_modify]
  split <;> cases pages[j]? <;> rfl

section Crypto

variable [Crypto]

theorem length_page_init (trigger : String) (page_id : Nat) (spec : ModelSpec) :
    (page_init trigger page_id spec).length = spec.expert_page_len := by
  simp [page_init]

theorem spans_activate_all (params : GenesisParams) (pages : List Page) (due : List PendingGrowth) :
    (activate_all params.spec pages due).1.map span =
      pages.map span ++ spans_from (table_end pages)
        (init_pages params (activate_all params.spec pages due).2) := by
  induction due generalizing pages with
  | nil => simp [activate_all, init_pages, spans_from]
  | cons g rest ih =>
    simp only [activate_all, init_pages, List.map_cons, spans_from, length_page_init] at ih ⊢
    rw [ih]
    simp [activate, table_end, span]

theorem spans_fold_window (params : GenesisParams) (prev_hash : String) (s : ModelState) :
    (fold_window params prev_hash s).1.spans =
      s.spans ++ spans_from (table_end s.pages) (init_pages params (fold_window params prev_hash s).2) := by
  have hdec (d : Decision) (s : ModelState) :
      (apply_decision params prev_hash d s).pages.map span = s.pages.map span := by
    simp only [apply_decision]
    split_ifs <;> simp [map_span_set_status]
  exact (hdec _ _).trans (spans_activate_all params s.pages _)

/-- One block appends the spans of the pages it activates. -/
theorem spans_fold_block (block : Block) (parent_model : ModelState) (params : GenesisParams) :
    (fold_block block parent_model params).1.spans =
      parent_model.spans ++
        spans_from (table_end parent_model.pages) (init_pages params (fold_block block parent_model params).2) := by
  unfold fold_block fold
  simp only
  split
  · exact spans_fold_window params _ _
  · simp [init_pages, spans_from, fold_counters, ModelState.spans]

theorem fold_block_pages_ne {block : Block} {parent_model : ModelState} {params : GenesisParams}
    (h : parent_model.pages ≠ []) : (fold_block block parent_model params).1.pages ≠ [] := by
  intro hnil
  have := congrArg List.length (spans_fold_block block parent_model params)
  simp only [spans_eq, hnil, List.map_nil, List.length_nil, List.length_append, List.length_map] at this
  exact h (List.length_eq_zero_iff.mp (by omega))

/-- The model describes `n` weights: its pages cover them. -/
structure Describes (m : ModelState) (n : Nat) : Prop where
  tiled : Tiled 0 m.spans n
  pages_ne : m.pages ≠ []

theorem Describes.fold {m : ModelState} {n : Nat} (h : Describes m n) (block : Block) (params : GenesisParams) :
    Describes (fold_block block m params).1
      (n + (init_pages params (fold_block block m params).2).flatten.length) := by
  refine ⟨?_, fold_block_pages_ne h.pages_ne⟩
  rw [spans_fold_block]
  refine tiled_append h.tiled ?_
  rw [tiled_table_end h.tiled h.pages_ne]
  exact tiled_spans_from _ _

end Crypto

theorem tiled_genesis_experts (spec : ModelSpec) (off : Nat) (ids : List (Nat × Nat)) :
    Tiled off ((genesis_experts spec off ids).map span) (off + ids.length * spec.expert_page_len) := by
  induction ids generalizing off with
  | nil => simp [genesis_experts, Tiled]
  | cons le rest ih =>
    obtain ⟨l, e⟩ := le
    refine ⟨rfl, Nat.le_add_right _ _, ?_⟩
    have := ih (off + spec.expert_page_len)
    simp only [List.length_cons, Nat.succ_mul]
    rw [show off + (rest.length * spec.expert_page_len + spec.expert_page_len) =
      off + spec.expert_page_len + rest.length * spec.expert_page_len by omega]
    exact this

theorem describes_genesis (spec : ModelSpec) :
    Describes (ModelState.genesis spec) (ModelState.genesis spec).dim := by
  have h : Tiled 0 (ModelState.genesis spec).spans (spec.backbone_params.toNat +
      ((List.range spec.n_layers.toNat).flatMap fun l =>
        (List.range spec.n_experts_initial.toNat).map fun e => (l, e)).length * spec.expert_page_len) :=
    ⟨rfl, Nat.zero_le _, tiled_genesis_experts _ _ _⟩
  have hne : (ModelState.genesis spec).pages ≠ [] := by simp [ModelState.genesis]
  refine ⟨?_, hne⟩
  rw [show (ModelState.genesis spec).dim = _ from tiled_table_end h hne]
  exact h

end Sestrian.Pages
