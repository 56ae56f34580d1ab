import CompressedLedger.Proofs.Scalar.Bytes

/-!
# Byte order is numeric order

Byte strings of one length come one before the other exactly as the numbers they denote do, most
significant byte first (`lt_iff_ofBigEndian_lt`): the first byte in which they differ decides, and
what follows it is worth less than one of its units.  So comparing a hash with the bytes of the
modulus tells whether it is a scalar, although no number is formed (`precedesModulus_iff`).
-/

namespace CompressedLedger

namespace Bytes

theorem ofLittleEndian_append (xs ys : List UInt8) :
    ofLittleEndian (xs ++ ys) = ofLittleEndian xs + 256 ^ xs.length * ofLittleEndian ys := by
  induction xs with
  | nil => rw [List.nil_append, ofLittleEndian_nil, List.length_nil, pow_zero, zero_add, one_mul]
  | cons x xs ih =>
    rw [List.cons_append, ofLittleEndian_cons, ofLittleEndian_cons, ih, List.length_cons, pow_succ']
    ring

/-- A first byte counts in units of the width of the others. -/
theorem ofBigEndian_cons (b : UInt8) (bs : List UInt8) :
    ofBigEndian (b :: bs) = b.toNat * 256 ^ bs.length + ofBigEndian bs := by
  rw [ofBigEndian_eq_ofLittleEndian_reverse, ofBigEndian_eq_ofLittleEndian_reverse,
    List.reverse_cons, ofLittleEndian_append, List.length_reverse, ofLittleEndian_cons,
    ofLittleEndian_nil]
  ring

/-- Of two numbers with rests below a unit, the one with fewer units is smaller. -/
theorem mul_add_lt_mul_add_iff {a b m n unit : ℕ} (hm : m < unit) (hn : n < unit) :
    a * unit + m < b * unit + n ↔ a < b ∨ a = b ∧ m < n := by
  rcases lt_trichotomy a b with hab | rfl | hba
  · have hnext : (a + 1) * unit ≤ b * unit := Nat.mul_le_mul_right unit hab
    rw [Nat.add_mul, Nat.one_mul] at hnext
    exact iff_of_true (by omega) (Or.inl hab)
  · omega
  · have hnext : (b + 1) * unit ≤ a * unit := Nat.mul_le_mul_right unit hba
    rw [Nat.add_mul, Nat.one_mul] at hnext
    exact iff_of_false (by omega) (by omega)

/-- Byte strings of one length are in the order of their numbers. -/
theorem lt_iff_ofBigEndian_lt {xs ys : List UInt8} (h : xs.length = ys.length) :
    xs < ys ↔ ofBigEndian xs < ofBigEndian ys := by
  induction xs generalizing ys with
  | nil =>
    obtain rfl := List.length_eq_zero_iff.mp h.symm
    exact iff_of_false (List.lt_irrefl _) (Nat.lt_irrefl _)
  | cons x xs ih =>
    cases ys with
    | nil => cases h
    | cons y ys =>
      have hlength : xs.length = ys.length := Nat.succ.inj h
      have hxs : ofBigEndian xs < 256 ^ ys.length := hlength ▸ ofBigEndian_lt xs
      have hys : ofBigEndian ys < 256 ^ ys.length := ofBigEndian_lt ys
      rw [List.cons_lt_cons_iff, ih hlength, ofBigEndian_cons, ofBigEndian_cons, hlength,
        mul_add_lt_mul_add_iff hxs hys, UInt8.lt_iff_toNat_lt, ← UInt8.toNat_inj]

end Bytes

/-- A hash comes before the bytes of the modulus exactly if its number is below the modulus. -/
theorem Scalar.precedesModulus_iff {h : Hash} :
    Scalar.precedesModulus h = true ↔ h.toNat < Scalar.modulus := by
  have hlength : h.bytes.length = modulusBytes.length := h.length_bytes
  rw [precedesModulus, decide_eq_true_eq, Bytes.lt_iff_ofBigEndian_lt hlength,
    ofBigEndian_modulusBytes, FixedBytes.toNat]

end CompressedLedger
