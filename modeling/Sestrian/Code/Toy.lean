import Sestrian.Code.Model

/-!
# A small scheme to run the model with

Where a fact is about one run, the hash and the signatures have to compute. A polynomial
stands for the hash, padded with zeros, and a signature is two hashes of the key and the message.
-/

namespace Sestrian

theorem length_be_bytes (n x : Nat) : (be_bytes n x).length = n := by simp [be_bytes]

namespace Toy

def prime : Nat := 2 ^ 32 - 5

def digest (b : List UInt8) : Nat := b.foldl (fun acc x => (acc * 65537 + x.toNat + 1) % prime) 7

def hash_bytes (n : Nat) : List UInt8 := be_bytes 4 n ++ List.replicate 28 0

def hash (b : List UInt8) : ByteArr 32 := ⟨hash_bytes (digest b), by simp [hash_bytes, length_be_bytes]⟩

/-- The signature that the holder of a key makes. -/
def sign (pk : ByteArr 32) (msg : List UInt8) : ByteArr 64 :=
  ⟨(hash (pk.val ++ msg)).val ++ (hash (msg ++ pk.val)).val, by simp [(hash _).2]⟩

scoped instance : Crypto where
  sha256 := hash
  ed25519_verify pk msg sig := sig = sign pk msg

theorem verify_sign {pub_hex : String} {pk : ByteArr 32} (hpk : hex_decode pub_hex = some pk.val)
    (msg : List UInt8) : verify_sig pub_hex msg (sign pk msg).val = true := by
  unfold verify_sig
  simp [hpk, pk.2, (sign pk msg).2, Crypto.ed25519_verify]

/-- One weight, and no expert pages at genesis. -/
def spec : ModelSpec :=
  { n_layers := 1, d_model := 1, d_ff := 1, n_experts_initial := 0, e_max := 1, backbone_params := 1 }

def params : GenesisParams := { spec }

end Toy

end Sestrian
