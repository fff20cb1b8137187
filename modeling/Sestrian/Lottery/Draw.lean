import Mathlib.Data.ZMod.Basic
import Sestrian.Code.Bytes
import Sestrian.Code.Lottery
import Sestrian.Code.Toy
import Sestrian.Lib.Schnorr

/-!
# How many draws a key has

A proof is an Ed25519 signature of the slot. The signature scheme fixes the response, but the
signer picks the commitment, and the draw is a hash of both.
-/

namespace Sestrian

section Any

variable [Crypto]

/-- `Scalar::from_canonical_bytes`, before the bound. -/
def from_le_bytes (b : List UInt8) : Nat := b.foldr (fun x acc => x.toNat + 256 * acc) 0

omit [Crypto] in
theorem from_le_bytes_inj {a b : List UInt8} (hlen : a.length = b.length) (h : from_le_bytes a = from_le_bytes b) :
    a = b := by
  induction a generalizing b with
  | nil => exact (List.length_eq_zero_iff.mp hlen.symm).symm
  | cons x a ih =>
    obtain ⟨y, b, rfl⟩ := List.exists_cons_of_length_eq_add_one hlen.symm
    simp only [from_le_bytes, List.foldr_cons] at h
    have hx : x.toNat < 256 := x.toNat_lt
    have hy : y.toNat < 256 := y.toNat_lt
    have hhead : x = y := UInt8.toNat_inj.mp (by omega)
    have htail : from_le_bytes a = from_le_bytes b := by
      unfold from_le_bytes
      omega
    rw [hhead, ih (by simpa using hlen) htail]

/-- The commitment of a proof. -/
def commitment (proof : List UInt8) : List UInt8 := proof.take 32

/-- What `ed25519-dalek` checks, over the group of a scheme. -/
def ChecksEquation {G : Type} [AddCommGroup G] (sch : Schnorr.Scheme G (List UInt8) (List UInt8)) : Prop :=
  ∀ (pk : ByteArr 32) (msg : List UInt8) (sig : ByteArr 64),
    ed25519_verify pk msg sig = true ↔ sch.Verifies pk.val msg (commitment sig.val) (from_le_bytes (sig.val.drop 32))

/-- The two proofs are one draw of the slot. -/
structure SameDraw (pub_hex prev_hash : String) (height attempt : UInt64) (p q : List UInt8) : Prop where
  output : lottery.vrf_output p = lottery.vrf_output q
  work : lottery.attempt_work p attempt = lottery.attempt_work q attempt
  decision : ∀ stake total, lottery.eligible pub_hex p prev_hash height attempt stake total =
    lottery.eligible pub_hex q prev_hash height attempt stake total

theorem verified_of_eligible {pub_hex prev_hash : String} {height attempt stake total : UInt64} {p : List UInt8}
    (h : lottery.eligible pub_hex p prev_hash height attempt stake total = true) :
    ∃ (pk : ByteArr 32) (sig : ByteArr 64), hex_decode pub_hex = some pk.val ∧ sig.val = p ∧
      ed25519_verify pk (lottery.seed prev_hash height attempt) sig = true := by
  have hsig : verify_sig pub_hex (lottery.seed prev_hash height attempt) p = true := by
    by_contra hno
    simp only [Bool.not_eq_true] at hno
    simp [lottery.eligible, hno] at h
  unfold verify_sig at hsig
  split at hsig
  · simp at hsig
  · next pk hpk =>
    split at hsig
    · next hp =>
      split at hsig
      · next hs => exact ⟨⟨pk, hp⟩, ⟨p, hs⟩, hpk, rfl, hsig⟩
      · simp at hsig
    · simp at hsig

theorem proof_of_commitment {G : Type} [AddCommGroup G] {sch : Schnorr.Scheme G (List UInt8) (List UInt8)}
    (hver : ChecksEquation sch) {pk : ByteArr 32} {msg : List UInt8} {p q : ByteArr 64}
    (hp : ed25519_verify pk msg p = true) (hq : ed25519_verify pk msg q = true)
    (hcom : commitment p.val = commitment q.val) : p.val = q.val := by
  have hp := (hver pk msg p).mp hp
  have hq := (hver pk msg q).mp hq
  rw [← hcom] at hq
  have hresp := from_le_bytes_inj (by simp [p.2, q.2]) (Schnorr.response_unique hp hq)
  unfold commitment at hcom
  rw [← List.take_append_drop 32 p.val, hcom, hresp, List.take_append_drop]

/-- Two accepted proofs are one draw exactly when their commitments are the same. -/
theorem one_draw_per_commitment {G : Type} [AddCommGroup G] (sch : Schnorr.Scheme G (List UInt8) (List UInt8))
    (hver : ChecksEquation sch) (pub_hex prev_hash : String) (height attempt stake total stake' total' : UInt64)
    (p q : List UInt8) (hp : lottery.eligible pub_hex p prev_hash height attempt stake total = true)
    (hq : lottery.eligible pub_hex q prev_hash height attempt stake' total' = true)
    (hcol : sha256 p = sha256 q → p = q) :
    SameDraw pub_hex prev_hash height attempt p q ↔ commitment p = commitment q := by
  constructor
  · intro h
    rw [hcol h.output]
  · intro hcom
    obtain ⟨pk, sig, hpk, rfl, hv⟩ := verified_of_eligible hp
    obtain ⟨pk', sig', hpk', rfl, hv'⟩ := verified_of_eligible hq
    obtain rfl : pk = pk' := Subtype.ext (Option.some.inj (hpk.symm.trans hpk'))
    rw [proof_of_commitment hver hv hv' hcom]
    exact ⟨rfl, rfl, fun _ _ => rfl⟩

end Any

/-! ## A key with more than one draw -/

namespace Seven

def point_bytes (n : Nat) : List UInt8 := UInt8.ofNat n :: List.replicate 31 0

/-- A group of seven points. -/
def scheme : Schnorr.Scheme (ZMod 7) (List UInt8) (List UInt8) where
  base := 1
  order := 7
  order_pos := by decide
  base_order := ZMod.addOrderOf_one 7
  compress x := point_bytes x.val
  compress_inj := by
    intro x y h
    have : ∀ x y : Fin 7, UInt8.ofNat x.val = UInt8.ofNat y.val → x = y := by decide
    exact this x y (List.cons.inj h).1
  decompress c := c.head?.map fun b => (b.toNat : ZMod 7)
  challenge com pk msg := Toy.digest (com ++ pk ++ msg)

scoped instance : Crypto where
  sha256 := Toy.hash
  ed25519_verify pk msg sig :=
    decide (scheme.Verifies pk.val msg (commitment sig.val) (from_le_bytes (sig.val.drop 32)))

theorem checks : ChecksEquation scheme := fun _ _ _ => decide_eq_true_iff

/-- The public key of the secret 3. -/
def pk : ByteArr 32 := ⟨point_bytes 3, by simp [point_bytes]⟩

def slot : List UInt8 := lottery.seed "" 1 16

/-- The proof for the first slot at the last attempt that a signer with this nonce makes. -/
def prove (nonce : Nat) : List UInt8 :=
  scheme.compress (nonce • scheme.base) ++ point_bytes (scheme.respond 3 nonce pk.val slot)

theorem length_point_bytes (n : Nat) : (point_bytes n).length = 32 := by simp [point_bytes]

theorem from_le_point_bytes (n : Nat) (h : n < 256) : from_le_bytes (point_bytes n) = n := by
  have hzero : ∀ k, from_le_bytes (List.replicate k 0) = 0 := by
    intro k
    induction k with
    | zero => rfl
    | succ k ih =>
      rw [from_le_bytes] at ih
      simp [from_le_bytes, List.replicate_succ, ih]
  have htail := hzero 31
  rw [from_le_bytes] at htail
  rw [from_le_bytes, point_bytes, List.foldr_cons, htail, UInt8.toNat_ofNat']
  omega

/-- Every nonce gives an accepted proof. -/
theorem prove_eligible (nonce : Nat) (stake total : UInt64) :
    lottery.eligible (hex_encode pk.val) (prove nonce) "" 1 16 stake total = true := by
  have hlen : (prove nonce).length = 64 := by
    simp [prove, scheme, length_point_bytes]
  have hcom : commitment (prove nonce) = scheme.compress (nonce • scheme.base) :=
    List.take_left' (length_point_bytes _)
  have hdrop : (prove nonce).drop 32 = point_bytes (scheme.respond 3 nonce pk.val slot) :=
    List.drop_left' (length_point_bytes _)
  have hlt : scheme.respond 3 nonce pk.val slot < 7 := Nat.mod_lt _ (by decide)
  have hver : scheme.Verifies pk.val slot (commitment (prove nonce)) (from_le_bytes ((prove nonce).drop 32)) := by
    rw [hcom, hdrop, from_le_point_bytes _ (by omega)]
    exact Schnorr.every_nonce_verifies rfl _ _
  have hsig : verify_sig (hex_encode pk.val) slot (prove nonce) = true := by
    simp only [verify_sig, hex_decode_encode, pk.2, hlen, dif_pos]
    exact (checks pk slot ⟨prove nonce, hlen⟩).mpr hver
  have hmax : ¬ (16 : UInt64) > lottery.ATTEMPT_MAX := by decide
  have hslot : lottery.seed "" 1 16 = slot := rfl
  simp only [lottery.eligible, hmax, hslot, hsig, if_false, Bool.not_true, Bool.false_eq_true]
  rfl

end Seven

open scoped Seven

theorem outputs_differ : lottery.vrf_output (Seven.prove 1) ≠ lottery.vrf_output (Seven.prove 2) := by
  decide +kernel

theorem one_draw_per_commitment_first :
    lottery.eligible (hex_encode Seven.pk.val) (Seven.prove 1) "" 1 16 0 0 = true ∧
      SameDraw (hex_encode Seven.pk.val) "" 1 16 (Seven.prove 1) (Seven.prove 1) := by
  have h := Seven.prove_eligible 1 0 0
  exact ⟨h, (one_draw_per_commitment Seven.scheme Seven.checks _ _ _ _ _ _ _ _ _ _ h h fun _ => rfl).mpr rfl⟩

/-- The signer draws again by taking another nonce. -/
theorem nonce_gives_another_draw : ¬ ∀ p q : List UInt8,
    lottery.eligible (hex_encode Seven.pk.val) p "" 1 16 0 0 = true →
      lottery.eligible (hex_encode Seven.pk.val) q "" 1 16 0 0 = true →
        SameDraw (hex_encode Seven.pk.val) "" 1 16 p q := by
  intro h
  exact outputs_differ (h _ _ (Seven.prove_eligible 1 0 0) (Seven.prove_eligible 2 0 0)).output

end Sestrian
