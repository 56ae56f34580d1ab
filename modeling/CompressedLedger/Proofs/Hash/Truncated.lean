import CompressedLedger.Hash.Truncated
import CompressedLedger.Proofs.Bytes.Order

/-!
# Field-sized hashes

A field-sized hash is the digest without its first byte, which is the digest's number modulo
`256 ^ 31` (`toNat_hash`).  So it lies below the modulus whatever was hashed (`toNat_hash_lt`,
`precedesModulus_hash`).  Hence the search for a usable last byte ends at its first candidate, and
its answer is the sealed hash (`search_eq_sealed`).

Nothing is assumed of the digest.  Where a statement would need that different byte strings have
different hashes, it offers the two strings as a collision instead (`Collides`); their digests then
agree in all bytes but the first (`collides_iff`).
-/

namespace CompressedLedger

namespace Truncated

theorem head?_hash (bs : List UInt8) : (hash bs).bytes.head? = some 0 :=
  head?_bytes_clearFirst _

/-- Without its first byte a hash is its number modulo the weight of that byte. -/
theorem ofBigEndian_drop_one (h : Hash) :
    Bytes.ofBigEndian (h.bytes.drop 1) = h.toNat % 256 ^ 31 := by
  obtain ⟨b, rest, hbytes⟩ := List.exists_cons_of_length_eq_add_one h.length_bytes
  have hlength : rest.length = 31 := by
    have h32 := h.length_bytes
    rw [hbytes, List.length_cons] at h32
    omega
  have hrest : Bytes.ofBigEndian rest < 256 ^ 31 := hlength ▸ Bytes.ofBigEndian_lt rest
  rw [FixedBytes.toNat, hbytes, Bytes.ofBigEndian_cons, hlength, Nat.mul_add_mod_self_right,
    Nat.mod_eq_of_lt hrest, List.drop_succ_cons, List.drop_zero]

theorem toNat_clearFirst (h : Hash) : (clearFirst h).toNat = h.toNat % 256 ^ 31 := by
  rw [← ofBigEndian_drop_one]
  exact Bytes.ofBigEndian_zero_cons _

/-- A field-sized hash is the digest modulo `256 ^ 31`. -/
theorem toNat_hash (bs : List UInt8) : (hash bs).toNat = (Keccak.hash bs).toNat % 256 ^ 31 :=
  toNat_clearFirst _

theorem toNat_hash_lt (bs : List UInt8) : (hash bs).toNat < Scalar.modulus := by
  have hle : 256 ^ 31 ≤ Scalar.modulus := by decide
  rw [toNat_hash]
  exact (Nat.mod_lt _ (by positivity)).trans_le hle

theorem precedesModulus_hash (bs : List UInt8) : Scalar.precedesModulus (hash bs) = true :=
  Scalar.precedesModulus_iff.mpr (toNat_hash_lt bs)

/-- The search accepts the byte `0xff`, which it tries first. -/
theorem search_eq_sealed (bs : List UInt8) : search bs = some (sealed bs, sealByte) := by
  rw [search, searchFrom]
  exact if_pos (precedesModulus_hash _)

/-! ### Collisions -/

/-- Two different byte strings with one field-sized hash. -/
def Collides (xs ys : List UInt8) : Prop :=
  xs ≠ ys ∧ hash xs = hash ys

theorem clearFirst_eq_clearFirst_iff {g h : Hash} :
    clearFirst g = clearFirst h ↔ g.bytes.drop 1 = h.bytes.drop 1 := by
  constructor
  · intro hcleared
    rw [← drop_bytes_clearFirst g, hcleared, drop_bytes_clearFirst]
  · intro hdrop
    apply FixedBytes.ext
    show 0 :: g.bytes.drop 1 = 0 :: h.bytes.drop 1
    rw [hdrop]

/-- A collision shows two digests that agree in all bytes but the first. -/
theorem collides_iff {xs ys : List UInt8} :
    Collides xs ys ↔ xs ≠ ys ∧ (Keccak.hash xs).bytes.drop 1 = (Keccak.hash ys).bytes.drop 1 :=
  and_congr_right fun _ => clearFirst_eq_clearFirst_iff

/-- Byte strings of one hash are equal or a collision. -/
theorem eq_or_collides {xs ys : List UInt8} (h : hash xs = hash ys) : xs = ys ∨ Collides xs ys := by
  by_cases heq : xs = ys
  · exact Or.inl heq
  · exact Or.inr ⟨heq, h⟩

end Truncated

end CompressedLedger
