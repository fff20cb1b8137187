import Mathlib.Data.List.Sort
import Mathlib.Data.Prod.Lex
import Sestrian.Code.Model

/-!
# The trainer's model and its page layout (`client/moe.py`)

A tensor is its name and its number of elements. A name is the list of its dotted parts.
-/

namespace Sestrian.client

inductive Part where
  | word (w : String)
  | num (i : Nat)
  deriving DecidableEq

structure Param where
  name : List Part
  numel : Nat

structure MoEGPTConfig where
  vocab_size : Nat := 256
  n_layer : Nat := 2
  n_head : Nat := 4
  n_embd : Nat := 128
  n_experts : Nat := 4
  e_max : Nat := 8

namespace MoEGPTConfig

def d_ff (cfg : MoEGPTConfig) : Nat := 4 * cfg.n_embd

/-- What the attention module asserts: the heads divide the width, and each has an even size. -/
def attn_ok (cfg : MoEGPTConfig) : Bool :=
  cfg.n_head ≠ 0 && cfg.n_embd % cfg.n_head = 0 && cfg.n_embd / cfg.n_head % 2 = 0

def expert_page_len (cfg : MoEGPTConfig) : Nat :=
  cfg.n_embd * cfg.d_ff + cfg.d_ff + cfg.d_ff * cfg.n_embd + cfg.n_embd

end MoEGPTConfig

/-! ## Modules, in the order in which they are registered -/

def weight (name : List Part) (numel : Nat) : Param := ⟨name ++ [.word "weight"], numel⟩

def bias (name : List Part) (numel : Nat) : Param := ⟨name ++ [.word "bias"], numel⟩

def Linear (name : List Part) (inputs outputs : Nat) : List Param :=
  [weight name (outputs * inputs), bias name outputs]

def LayerNorm (name : List Part) (size : Nat) : List Param := [weight name size, bias name size]

def Expert (cfg : MoEGPTConfig) (name : List Part) : List Param :=
  Linear (name ++ [.word "fc"]) cfg.n_embd cfg.d_ff ++ Linear (name ++ [.word "proj"]) cfg.d_ff cfg.n_embd

def MoEFeedForward (cfg : MoEGPTConfig) (name : List Part) (n_experts : Nat) : List Param :=
  weight (name ++ [.word "router"]) (cfg.e_max * cfg.n_embd) ::
    (List.range n_experts).flatMap fun e => Expert cfg (name ++ [.word "experts", .num e])

def CausalSelfAttention (cfg : MoEGPTConfig) (name : List Part) : List Param :=
  Linear (name ++ [.word "qkv"]) cfg.n_embd (3 * cfg.n_embd) ++
    Linear (name ++ [.word "proj"]) cfg.n_embd cfg.n_embd

def MoEBlock (cfg : MoEGPTConfig) (name : List Part) (n_experts : Nat) : List Param :=
  LayerNorm (name ++ [.word "ln1"]) cfg.n_embd ++ CausalSelfAttention cfg (name ++ [.word "attn"]) ++
    LayerNorm (name ++ [.word "ln2"]) cfg.n_embd ++ MoEFeedForward cfg (name ++ [.word "moe"]) n_experts

structure MoEGPT where
  cfg : MoEGPTConfig
  experts_per_layer : List Nat

namespace MoEGPT

def named_parameters (model : MoEGPT) : List Param :=
  weight [.word "tok"] (model.cfg.vocab_size * model.cfg.n_embd) ::
    (model.experts_per_layer.zipIdx.flatMap fun cl => MoEBlock model.cfg [.word "blocks", .num cl.2] cl.1) ++
    LayerNorm [.word "lnf"] model.cfg.n_embd ++ [weight [.word "head"] (model.cfg.vocab_size * model.cfg.n_embd)]

def num_params (model : MoEGPT) : Nat := (model.named_parameters.map (·.numel)).sum

end MoEGPT

/-- The model, unless an assertion of its modules fails. -/
def build_moe (cfg : MoEGPTConfig) (experts_per_layer : List Nat) : Option MoEGPT :=
  if experts_per_layer.length = cfg.n_layer ∧ (∀ e ∈ experts_per_layer, 0 < e ∧ e ≤ cfg.e_max) ∧
      (experts_per_layer = [] ∨ cfg.attn_ok) then
    some { cfg, experts_per_layer }
  else none

/-! ## ChainLayout -/

/-- The number after the first occurrence of a word. -/
def int_after (parts : List Part) (w : String) : Option Nat :=
  match parts[parts.idxOf (.word w) + 1]? with
  | some (.num i) => some i
  | _ => none

/-- `(layer, expert)`, for the parameters of an expert. -/
def expert_key (parts : List Part) : Option (Nat × Nat) :=
  if .word "experts" ∈ parts ∧ .word "blocks" ∈ parts then do
    let layer ← int_after parts "blocks"
    let e ← int_after parts "experts"
    pure (layer, e)
  else none

/-- A parameter's key, and where it starts and ends in the flat vector. -/
structure Run where
  key : Option (Nat × Nat)
  start : Nat
  stop : Nat

def Run.coords (r : Run) : List Nat := List.range' r.start (r.stop - r.start)

def offs (i : Nat) : List Param → List Run
  | [] => []
  | p :: rest => ⟨expert_key p.name, i, i + p.numel⟩ :: offs (i + p.numel) rest

def backbone_runs (runs : List Run) : List Run := runs.filter (·.key = none)

def expert_runs (runs : List Run) (k : Nat × Nat) : List Run := runs.filter (·.key = some k)

/-- Python's order on pairs. -/
def key_le (a b : Nat × Nat) : Prop := a.1 < b.1 ∨ a.1 = b.1 ∧ a.2 ≤ b.2

instance : DecidableRel key_le := fun a b => by unfold key_le; infer_instance

def sorted_keys (runs : List Run) : List (Nat × Nat) := (runs.filterMap (·.key)).dedup.insertionSort key_le

/-- Consecutive spans of one length, from `pos` on. -/
def spans_of (len : Nat) (pos : Nat) : List (Nat × Nat) → List (Nat × Nat)
  | [] => []
  | _ :: rest => (pos, pos + len) :: spans_of len (pos + len) rest

structure ChainLayout where
  n : Nat
  backbone_params : Nat
  experts : List (Nat × Nat)
  page_spans : List (Nat × Nat)
  to_chain : List Nat
  to_torch : List Nat

/-- `out[idx] = arange(n)`. Every place is written, since `idx` is a permutation. -/
def scatter (n : Nat) (idx : List Nat) : List Nat :=
  idx.zipIdx.foldl (fun out ji => out.set ji.1 ji.2) (List.replicate n 0)

namespace ChainLayout

def of (model : MoEGPT) : ChainLayout :=
  let runs := offs 0 model.named_parameters
  let experts := sorted_keys runs
  let backbone_params := ((backbone_runs runs).map fun r => r.stop - r.start).sum
  let to_chain := (backbone_runs runs).flatMap Run.coords ++
    experts.flatMap fun k => (expert_runs runs k).flatMap Run.coords
  { n := model.num_params
    backbone_params
    experts
    page_spans := (0, backbone_params) :: spans_of model.cfg.expert_page_len backbone_params experts
    to_chain
    to_torch := scatter model.num_params to_chain }

def chain_of (layout : ChainLayout) (torch_vec : List Int64) : List Int64 :=
  layout.to_chain.map fun i => torch_vec.getD i 0

def torch_of (layout : ChainLayout) (chain_vec : List Int64) : List Int64 :=
  layout.to_torch.map fun i => chain_vec.getD i 0

end ChainLayout

/-- The parameters of one expert, in module order. -/
def expert_params (model : MoEGPT) (torch_vec : List Int64) (k : Nat × Nat) : List Int64 :=
  ((expert_runs (offs 0 model.named_parameters) k).flatMap Run.coords).map fun i => torch_vec.getD i 0

/-- What the node tells the trainer about the shape: the number of expert pages of each layer. -/
def experts_per_layer (model : ModelState) (n_layers : UInt64) : List Nat :=
  (List.range n_layers.toNat).map fun l : Nat =>
    (model.pages.filter fun p => p.kind = .expert ∧ p.layer = (l : Int)).length

end Sestrian.client
