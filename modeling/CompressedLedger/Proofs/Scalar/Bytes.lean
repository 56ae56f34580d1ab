import CompressedLedger.Proofs.Bytes.Positional
import CompressedLedger.Scalar.Basic
import Mathlib.Data.Set.List

/-!
# The bytes of a scalar

A scalar's 32 bytes denote its number (`toNat_toHash`), so they determine it, and reading them
gives the scalar back.  Conversely the only byte string of that length which reads as a scalar is
the scalar's own (`ofBytes_eq_ok_iff`): there is one encoding.

Every 32-byte string that starts with a zero byte lies below the modulus
(`toNat_lt_modulus_of_head_zero`), whatever the other bytes are.
-/

namespace CompressedLedger

namespace Scalar

theorem modulus_lt_width : modulus < 256 ^ 32 := by norm_num [modulus]

@[simp] theorem toNat_toHash (a : Scalar) : a.toHash.toNat = a.val :=
  FixedBytes.toNat_ofNat (a.isLt.trans modulus_lt_width)

theorem toHash_injective : Function.Injective toHash := by
  intro a b h
  apply Scalar.ext
  rw [← toNat_toHash a, h, toNat_toHash]

@[simp] theorem toHash_inj {a b : Scalar} : a.toHash = b.toHash ↔ a = b :=
  toHash_injective.eq_iff

/-- The bytes of a number below the modulus are those of the scalar it is. -/
theorem eq_toHash_iff {h : Hash} {a : Scalar} : h = a.toHash ↔ a.val = h.toNat := by
  rw [← toNat_toHash a, FixedBytes.toNat_injective.eq_iff, eq_comm]

@[simp] theorem toHash_zero : toHash 0 = FixedBytes.zero := rfl

/-- A 32-byte string reads as a scalar exactly when it is that scalar's encoding. -/
theorem ofBytes_eq_ok_iff {h : Hash} {a : Scalar} : ofBytes h.bytes = .ok a ↔ h = a.toHash := by
  rw [ofBytes, ofNat_eq_ok_iff, eq_toHash_iff]
  rfl

theorem ofExactBytes_bytes (h : Hash) : ofExactBytes h.bytes = ofBytes h.bytes :=
  if_pos h.length_bytes

theorem ofExactBytes_eq_ok_iff {h : Hash} {a : Scalar} :
    ofExactBytes h.bytes = .ok a ↔ h = a.toHash := by
  rw [ofExactBytes_bytes, ofBytes_eq_ok_iff]

/-- A 32-byte string below the modulus is the encoding of a scalar. -/
instance : CanLift Hash Scalar toHash fun h => h.toNat < modulus where
  prf h hlt := ⟨⟨h.toNat, hlt⟩, (eq_toHash_iff.mpr rfl).symm⟩

/-- A leading zero byte leaves 248 bits, which are fewer than the modulus has. -/
theorem toNat_lt_modulus_of_head_zero {h : Hash} (hzero : h.bytes.head? = some 0) :
    h.toNat < modulus := by
  obtain ⟨rest, hrest⟩ := List.head?_eq_some_iff.mp hzero
  have hlen : rest.length = 31 := by
    have := h.length_bytes
    rw [hrest, List.length_cons] at this
    omega
  have hlt : Bytes.ofBigEndian rest < 256 ^ 31 := hlen ▸ Bytes.ofBigEndian_lt rest
  rw [FixedBytes.toNat, hrest, Bytes.ofBigEndian_zero_cons]
  exact hlt.trans (by norm_num [modulus])

end Scalar

end CompressedLedger
