import Sestrian.Ledger.Signing
import Sestrian.Ledger.RootBytes
import Sestrian.Lib.Framing
import Sestrian.Code.Toy

/-!
# A signed preimage tells its transaction

Six layouts share one framing. Of parts shorter than `2^32` bytes the bytes tell the parts, and the parts tell the
kind and every signed field.
-/

namespace Sestrian

/-! ## Parts -/

/-- Short parts. -/
def Short (parts : List (List UInt8)) : Prop := ∀ p ∈ parts, p.length < 2 ^ 32

namespace BackpropTx

/-- The signed part of the transaction: its lists in canonical order, and no signature. -/
def unsigned (tx : BackpropTx) : BackpropTx :=
  { tx with pages := tx.canonical_pages, data_refs := tx.canonical_refs, sig := [] }

end BackpropTx

namespace AccountTx

/-- The signed part of the transaction. -/
def unsigned : AccountTx → AccountTx
  | Transfer t => Transfer { t with sig := [] }
  | DataSubmit t => DataSubmit { t with sig := [] }
  | DataChallenge t => DataChallenge { t with sig := [] }
  | DataVote t => DataVote { t with sig := [] }
  | InferenceReceipt t => InferenceReceipt { t with sig := [] }

end AccountTx

/-! ## One type for the six kinds -/

/-- What a key signs. -/
inductive SignedTx where
  | delta (tx : BackpropTx)
  | account (tx : AccountTx)

namespace SignedTx

def signing_parts : SignedTx → List (List UInt8)
  | delta tx => tx.signing_parts
  | account tx => tx.signing_parts

def signing_bytes : SignedTx → List UInt8
  | delta tx => tx.signing_bytes
  | account tx => tx.signing_bytes

def sender_pub : SignedTx → String
  | delta tx => tx.miner
  | account tx => tx.sender_pub

/-- The kind, and the fields that are signed. -/
def unsigned : SignedTx → SignedTx
  | delta tx => delta tx.unsigned
  | account tx => account tx.unsigned

variable [Crypto]

def txid : SignedTx → String
  | delta tx => tx.txid
  | account tx => tx.txid

def verify (t : SignedTx) (sig : List UInt8) : Bool := verify_sig t.sender_pub t.signing_bytes sig

end SignedTx

open scoped Toy

namespace Toy

end Toy

def nul_text (n : Nat) : String := String.ofList (List.replicate n (Char.ofNat 0))

theorem as_bytes_nul (n : Nat) : as_bytes (nul_text n) = List.replicate n 0 := by
  rw [nul_text, as_bytes_ofList, List.flatMap_replicate, show String.utf8EncodeChar (Char.ofNat 0) = [0] by decide]
  exact List.flatten_replicate_singleton

/-- A length that is written as zero. -/
theorem framed_nul {n : Nat} (h : n % 2 ^ 32 = 0) : framed (as_bytes (nul_text n)) = List.replicate (4 + n) 0 := by
  rw [framed, as_bytes_nul, List.length_replicate, h, show be_bytes 4 0 = List.replicate 4 0 by decide,
    List.replicate_append_replicate]

/-- A transfer between two texts of nothing but NULs. -/
def nul_transfer (n m : Nat) : SignedTx :=
  .account (.Transfer { from_pub := nul_text n, to_addr := nul_text m, amount := 0, nonce := 0, sig := [] })

theorem nul_transfer_bytes {n m : Nat} (hn : n % 2 ^ 32 = 0) (hm : m % 2 ^ 32 = 0) : (nul_transfer n m).signing_bytes =
    framed (as_bytes "transfer") ++ List.replicate (4 + n + (4 + m)) 0 ++ frame [num_bytes 0, num_bytes 0] := by
  have hparts : (nul_transfer n m).signing_bytes = framed (as_bytes "transfer") ++ (framed (as_bytes (nul_text n)) ++
      (framed (as_bytes (nul_text m)) ++ frame [num_bytes 0, num_bytes 0])) := rfl
  rw [hparts, framed_nul hn, framed_nul hm, ← List.append_assoc (List.replicate _ _), List.replicate_append_replicate,
    List.append_assoc]

/-- At `2^32` bytes the length is written as zero, and two transfers share their bytes. -/
theorem long_fields_collide : ∃ t u : SignedTx, t.signing_bytes = u.signing_bytes ∧ t.unsigned ≠ u.unsigned := by
  refine ⟨nul_transfer (2 ^ 32) 0, nul_transfer 0 (2 ^ 32), ?_, fun h => ?_⟩
  · rw [nul_transfer_bytes (Nat.mod_self _) (Nat.zero_mod _), nul_transfer_bytes (Nat.zero_mod _) (Nat.mod_self _),
      Nat.add_comm (4 + 2 ^ 32)]
  · simp only [nul_transfer, SignedTx.unsigned, AccountTx.unsigned, SignedTx.account.injEq, AccountTx.Transfer.injEq,
      TransferTx.mk.injEq] at h
    have hlen := congrArg (fun s => (as_bytes s).length) h.1
    simp only [as_bytes_nul, List.length_replicate] at hlen
    exact absurd hlen (by norm_num)

end Sestrian
