import Sestrian.Code.Crypto

/-!
# Facts about encodings and machine integers
-/

namespace Sestrian

theorem hex_val_digit (k : Nat) (h : k < 16) : hex_val (hex_digit k) = some k := by
  have : ∀ k : Fin 16, hex_val (hex_digit k.val) = some k.val := by decide
  exact this ⟨k, h⟩

/-- The digits are single bytes. -/
theorem encode_hex_digit (k : Nat) (h : k < 16) :
    String.utf8EncodeChar (Char.ofUInt8 (hex_digit k)) = [hex_digit k] := by
  have : ∀ k : Fin 16, String.utf8EncodeChar (Char.ofUInt8 (hex_digit k.val)) = [hex_digit k.val] := by decide
  exact this ⟨k, h⟩

theorem as_bytes_ofList (l : List Char) : as_bytes (String.ofList l) = l.flatMap String.utf8EncodeChar := by
  simp [as_bytes, List.utf8Encode]

/-- Hex decodes back. -/
theorem hex_decode_encode (b : List UInt8) : hex_decode (hex_encode b) = some b := by
  unfold hex_decode hex_encode
  rw [as_bytes_ofList]
  induction b with
  | nil => rfl
  | cons x b ih =>
    have hx : x.toNat < 256 := x.toNat_lt
    have hdiv : x.toNat / 16 * 16 + x.toNat % 16 = x.toNat := Nat.div_add_mod' _ _
    have hhi : x.toNat / 16 < 16 := by omega
    have hlo : x.toNat % 16 < 16 := by omega
    simp only [List.flatMap_cons, List.cons_append, List.nil_append, encode_hex_digit _ hhi, encode_hex_digit _ hlo,
      hex_pairs, ih, hex_val_digit _ hhi, hex_val_digit _ hlo, Option.bind_eq_bind, Option.bind_some, hdiv,
      UInt8.ofNat_toNat]

theorem hex_encode_inj {a b : List UInt8} (h : hex_encode a = hex_encode b) : a = b :=
  Option.some.inj ((hex_decode_encode a).symm.trans (h ▸ hex_decode_encode b))

theorem toNat_max (a b : UInt64) : (max a b).toNat = max a.toNat b.toNat := by
  rw [show max a b = if a ≤ b then b else a from rfl]
  split
  · next h => exact (max_eq_right (UInt64.le_iff_toNat_le.mp h)).symm
  · next h =>
    rw [UInt64.le_iff_toNat_le] at h
    exact (max_eq_left (by omega)).symm

theorem toNat_saturating_add (a b : UInt64) :
    (saturating_add a b).toNat = min (a.toNat + b.toNat) (2 ^ 64 - 1) := by
  unfold saturating_add
  split
  · rw [UInt64.toNat_add]
    omega
  · rw [show u64_max.toNat = 2 ^ 64 - 1 by decide]
    omega

end Sestrian
