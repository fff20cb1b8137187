import Sestrian.Code.Token

/-!
# How a fee is split, in both languages

The amounts of an inference receipt, as `rig/token.py` has them: integers without a bound. Beside them the amounts that
`token.rs` credits.
-/

namespace Sestrian

/-- What a fee is cut into: the server's part, the parts of the aligned owners, and what goes to the two pools. -/
structure Split (ν : Type) where
  server : ν
  owners : List (String × ν)
  data_pool : ν
  train_pool : ν
  deriving DecidableEq

namespace Split

def toInt (s : Split UInt64) : Split Int :=
  ⟨s.server.toNat, s.owners.map fun o => (o.1, (o.2.toNat : Int)), s.data_pool.toNat, s.train_pool.toNat⟩

def amounts (s : Split Int) : List Int := s.server :: s.data_pool :: s.train_pool :: s.owners.map Prod.snd

end Split

namespace rig

open TokenLedger

def FEE_SHARE_DATA : Int := 2000
def FEE_SHARE_TRAIN : Int := 2000

/-- The answers and sketches are integers of the ledger. -/
def dot (sk ans : List Int64) : Int := ((sk.zip ans).map fun ab => ab.1.toInt * ab.2.toInt).sum

def align_entry (ans : List Int64) (aligns : Dict Int) (e : RegistryEntry) : Dict Int :=
  match e.status, e.sketch with
  | .active, some sk =>
    if ¬ sk.isEmpty ∧ dot sk ans > 0 then aligns.insert e.owner (aligns[e.owner]?.getD 0 + dot sk ans) else aligns
  | _, _ => aligns

def aligns (led : TokenLedger) (ans : List Int64) : Dict Int :=
  led.registry.toList.foldl (fun m e => align_entry ans m e.2) ∅

def receipt_split (led : TokenLedger) (t : InferenceReceiptTx) : Split Int :=
  let fee : Int := t.fee.toNat
  let data_cut := fee * FEE_SHARE_DATA / 10000
  let train_cut := fee * FEE_SHARE_TRAIN / 10000
  let server := fee - data_cut - train_cut
  let aligned := (aligns led t.answer_sketch).toList
  let total := (aligned.map (·.2)).sum
  if (t.answer_sketch.any fun x => x ≠ 0) ∧ total > 0 then
    { server, owners := aligned.map fun a => (a.1, data_cut * a.2 / total), data_pool := 0, train_pool := train_cut }
  else { server, owners := [], data_pool := data_cut, train_pool := train_cut }

end rig

namespace TokenLedger

/-- The amounts in `apply_receipt`. -/
def receipt_split (led : TokenLedger) (t : InferenceReceiptTx) : Split UInt64 :=
  let data_cut := fee_data_cut t.fee
  let train_cut := fee_train_cut t.fee
  let server := t.fee - data_cut - train_cut
  let aligned := (led.aligns t.answer_sketch).toList
  let total := i128_sum (aligned.map (·.2))
  if (t.answer_sketch.any fun x => x ≠ 0) ∧ total > 0 then
    { server, owners := aligned.map fun a => (a.1, align_share data_cut total a.2), data_pool := 0, train_pool := train_cut }
  else { server, owners := [], data_pool := data_cut, train_pool := train_cut }

def pay_split (led : TokenLedger) (server_addr : String) (s : Split UInt64) : TokenLedger :=
  let led := led.credit server_addr s.server
  let led := { led with fee_train_pool := saturating_add led.fee_train_pool s.train_pool }
  { led.credit_all s.owners with fee_data_pool := saturating_add led.fee_data_pool s.data_pool }

end TokenLedger

end Sestrian
