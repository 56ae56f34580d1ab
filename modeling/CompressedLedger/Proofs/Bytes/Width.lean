import CompressedLedger.Bytes.Width
import CompressedLedger.Proofs.Bytes.Minimal
import CompressedLedger.Proofs.Outcome
import CompressedLedger.Proofs.Scalar.Bytes
import Mathlib.Data.List.DropRight

/-!
# Numbers in a chosen width

What is written for a number in a width is the one byte string of that length that denotes the
number (`writeLittleEndian_eq_ok_iff`, `writeBigEndian_eq_ok_iff`), and there is one exactly for the
numbers below `256 ^ width`.  So writing and reading undo each other in both directions, leading and
trailing zeros included.

Big numbers come as their minimal bytes, where zero is one byte.  Taking off the zeros at the end,
judging the length and filling up with zeros again is the same writer (`padTo_dropTrailingZeros`).
The other writers of the library are this one at the width 32.
-/

namespace CompressedLedger

namespace Bytes

variable {width n : ℕ} {bs : List UInt8} {e : Error}

/-! ### Writing into a width -/

theorem fits_iff : fits width n = true ↔ n < 256 ^ width := by
  induction width generalizing n with
  | zero => rw [fits, beq_iff_eq, pow_zero, Nat.lt_one_iff]
  | succ width ih => rw [fits, ih, Nat.div_lt_iff_lt_mul (by decide), pow_succ]

theorem writeLittleEndian_eq_ok_iff :
    writeLittleEndian width n = .ok bs ↔ bs.length = width ∧ ofLittleEndian bs = n := by
  unfold writeLittleEndian
  split
  · rename_i hfits
    have hn : n < 256 ^ width := fits_iff.mp hfits
    constructor
    · intro h
      cases h
      exact ⟨length_toLittleEndian width n,
        by rw [ofLittleEndian_toLittleEndian, Nat.mod_eq_of_lt hn]⟩
    · rintro ⟨rfl, rfl⟩
      rw [toLittleEndian_ofLittleEndian]
  · rename_i hfits
    refine iff_of_false (fun h => nomatch h) ?_
    rintro ⟨rfl, rfl⟩
    exact hfits (fits_iff.mpr (ofLittleEndian_lt bs))

theorem writeLittleEndian_eq_error_iff :
    writeLittleEndian width n = .error e ↔ e = .lengthMismatch ∧ 256 ^ width ≤ n := by
  rw [writeLittleEndian, ← not_lt, ← fits_iff]
  split
  · rename_i hfits
    exact iff_of_false (fun h => nomatch h) fun h => h.2 hfits
  · rename_i hfits
    rw [Except.error.injEq, and_iff_left hfits, eq_comm]

/-- The two byte orders differ by a reversal. -/
theorem writeBigEndian_eq_ok_iff_reverse :
    writeBigEndian width n = .ok bs ↔ writeLittleEndian width n = .ok bs.reverse := by
  rw [writeBigEndian]
  cases writeLittleEndian width n with
  | error e => exact iff_of_false (fun h => nomatch h) fun h => nomatch h
  | ok bs' =>
    show Except.ok bs'.reverse = Except.ok bs ↔ _
    rw [Except.ok.injEq, Except.ok.injEq, List.reverse_eq_iff]

theorem writeBigEndian_eq_ok_iff :
    writeBigEndian width n = .ok bs ↔ bs.length = width ∧ ofBigEndian bs = n := by
  rw [writeBigEndian_eq_ok_iff_reverse, writeLittleEndian_eq_ok_iff, List.length_reverse,
    ofBigEndian_eq_ofLittleEndian_reverse]

theorem writeBigEndian_eq_error_iff :
    writeBigEndian width n = .error e ↔ e = .lengthMismatch ∧ 256 ^ width ≤ n := by
  rw [← writeLittleEndian_eq_error_iff, writeBigEndian]
  cases writeLittleEndian width n with
  | error e' => exact Iff.rfl
  | ok bs' => exact iff_of_false (fun h => nomatch h) fun h => nomatch h

/-! ### By way of the minimal bytes -/

/-- The bytes of a number without trailing zeros, least significant first; zero is one byte. -/
def minimalLittleEndian (n : ℕ) : List UInt8 := (minimalBigEndian n).reverse

/-- Takes a zero byte off the end as long as there is one. -/
def dropTrailingZeros (bs : List UInt8) : List UInt8 := bs.rdropWhile (· == 0)

/-- Fills up with zeros to a width; a longer byte string is refused. -/
def padTo (width : ℕ) (bs : List UInt8) : Except Error (List UInt8) :=
  if bs.length ≤ width then .ok (bs ++ List.replicate (width - bs.length) 0)
  else .error .lengthMismatch

theorem ofBigEndian_replicate_zero (k : ℕ) : ofBigEndian (List.replicate k 0) = 0 := by
  have hzeros := ofBigEndian_replicate_zero_append k []
  rwa [List.append_nil] at hzeros

theorem ofBigEndian_map_ofNat (n : ℕ) :
    ofBigEndian ((Digits.ofNat 256 one_lt_base n).map UInt8.ofNat) = n := by
  rw [ofBigEndian_eq_value, map_toNat_map_ofNat fun d hd => Digits.lt_of_mem_ofNat one_lt_base hd,
    Digits.value_ofNat]

theorem ofBigEndian_minimalBigEndian (n : ℕ) : ofBigEndian (minimalBigEndian n) = n := by
  unfold minimalBigEndian
  split
  · rename_i hzero
    rw [hzero]
    rfl
  · exact ofBigEndian_map_ofNat n

/-- Without its trailing zeros zero has no byte, like any other number all of whose digits are
written. -/
theorem dropTrailingZeros_minimalLittleEndian (n : ℕ) :
    dropTrailingZeros (minimalLittleEndian n) =
      ((Digits.ofNat 256 one_lt_base n).map UInt8.ofNat).reverse := by
  have hdigits := map_ofNat_ofBigEndian (minimalBigEndian n)
  rw [ofBigEndian_minimalBigEndian] at hdigits
  rw [dropTrailingZeros, minimalLittleEndian, List.rdropWhile_reverse, hdigits]

theorem ofLittleEndian_append_replicate_zero (bs : List UInt8) (k : ℕ) :
    ofLittleEndian (bs ++ List.replicate k 0) = ofLittleEndian bs := by
  rw [← List.reverse_reverse (bs ++ _), ← ofBigEndian_eq_ofLittleEndian_reverse,
    List.reverse_append, List.reverse_replicate, ofBigEndian_replicate_zero_append,
    ofBigEndian_eq_ofLittleEndian_reverse, List.reverse_reverse]

/-- The bytes that remain fit in a width exactly if the number does, and filled up with zeros they
still denote it. -/
theorem padTo_dropTrailingZeros (width n : ℕ) :
    padTo width (dropTrailingZeros (minimalLittleEndian n)) = writeLittleEndian width n := by
  rw [dropTrailingZeros_minimalLittleEndian]
  set bs := ((Digits.ofNat 256 one_lt_base n).map UInt8.ofNat).reverse with hbs
  have hvalue : ofLittleEndian bs = n := by
    rw [hbs, ← ofBigEndian_eq_ofLittleEndian_reverse, ofBigEndian_map_ofNat]
  -- without its trailing zeros the string is as long as the number has digits
  have hlength : bs.length ≤ width ↔ n < 256 ^ width := by
    rw [hbs, List.length_reverse, List.length_map, Digits.ofNat_eq_digits, List.length_reverse,
      Nat.digits_length_le_iff one_lt_base]
  unfold padTo
  split
  · rename_i hle
    symm
    rw [writeLittleEndian_eq_ok_iff, List.length_append, List.length_replicate,
      ofLittleEndian_append_replicate_zero]
    exact ⟨Nat.add_sub_of_le hle, hvalue⟩
  · rename_i hlong
    symm
    rw [writeLittleEndian_eq_error_iff]
    exact ⟨rfl, Nat.le_of_not_lt (mt hlength.mpr hlong)⟩

end Bytes

/-! ### The other writers -/

theorem Scalar.toLittleEndian_eq_reverse (a : Scalar) :
    a.toLittleEndian = a.toHash.bytes.reverse :=
  (List.reverse_reverse _).symm

namespace FixedBytes

/-- A word stands in the last eight bytes, behind zeros. -/
theorem bytes_ofWord (w : UInt64) :
    (ofWord w).bytes = List.replicate 24 0 ++ Bytes.toBigEndian 8 w.toNat := by
  have hvalue : Bytes.ofBigEndian (List.replicate 24 0 ++ Bytes.toBigEndian 8 w.toNat) =
      w.toNat := by
    rw [Bytes.ofBigEndian_replicate_zero_append, Bytes.ofBigEndian_toBigEndian]
    exact Nat.mod_eq_of_lt w.toNat_lt
  have hread := Bytes.toBigEndian_ofBigEndian (List.replicate 24 0 ++ Bytes.toBigEndian 8 w.toNat)
  rwa [hvalue, List.length_append, List.length_replicate, Bytes.length_toBigEndian] at hread

theorem isZero_iff {n : ℕ} {a : FixedBytes n} : a.isZero = true ↔ a.toNat = 0 := by
  have hzero : (zero : FixedBytes n).toNat = 0 := Bytes.ofBigEndian_replicate_zero n
  rw [← hzero, toNat_injective.eq_iff, FixedBytes.ext_iff, isZero, List.all_eq_true]
  show _ ↔ a.bytes = List.replicate n 0
  simp only [List.eq_replicate_iff, length_bytes, true_and, beq_iff_eq]

end FixedBytes

namespace Bytes

/-- What the writers make of a number in a width. -/
structure WritesExactly (width n : ℕ) : Prop where
  little_ok_iff : ∀ bs,
    writeLittleEndian width n = .ok bs ↔ bs.length = width ∧ ofLittleEndian bs = n
  big_ok_iff : ∀ bs, writeBigEndian width n = .ok bs ↔ bs.length = width ∧ ofBigEndian bs = n
  little_fits_iff : (∃ bs, writeLittleEndian width n = .ok bs) ↔ n < 256 ^ width
  big_fits_iff : (∃ bs, writeBigEndian width n = .ok bs) ↔ n < 256 ^ width
  little_error_iff : ∀ e,
    writeLittleEndian width n = .error e ↔ e = .lengthMismatch ∧ 256 ^ width ≤ n
  big_error_iff : ∀ e, writeBigEndian width n = .error e ↔ e = .lengthMismatch ∧ 256 ^ width ≤ n
  reversed : ∀ bs, writeBigEndian width n = .ok bs ↔ writeLittleEndian width n = .ok bs.reverse
  /-- The same by trimming the minimal bytes and filling them up. -/
  trimmed : writeLittleEndian width n = padTo width (dropTrailingZeros (minimalLittleEndian n))

theorem exists_writeLittleEndian_eq_ok_iff :
    (∃ bs, writeLittleEndian width n = .ok bs) ↔ n < 256 ^ width := by
  simp only [Except.exists_eq_ok_iff, ne_eq, writeLittleEndian_eq_error_iff, not_and, not_le,
    forall_eq]

theorem exists_writeBigEndian_eq_ok_iff :
    (∃ bs, writeBigEndian width n = .ok bs) ↔ n < 256 ^ width := by
  simp only [Except.exists_eq_ok_iff, ne_eq, writeBigEndian_eq_error_iff, not_and, not_le,
    forall_eq]

theorem writesExactly (width n : ℕ) : WritesExactly width n where
  little_ok_iff := fun _ => writeLittleEndian_eq_ok_iff
  big_ok_iff := fun _ => writeBigEndian_eq_ok_iff
  little_fits_iff := exists_writeLittleEndian_eq_ok_iff
  big_fits_iff := exists_writeBigEndian_eq_ok_iff
  little_error_iff := fun _ => writeLittleEndian_eq_error_iff
  big_error_iff := fun _ => writeBigEndian_eq_error_iff
  reversed := fun _ => writeBigEndian_eq_ok_iff_reverse
  trimmed := (padTo_dropTrailingZeros width n).symm

/-- **Writing into a width and reading undo each other, and nothing is cut off.**  A number is
written into a width exactly if it is below `256 ^ width`, and then as the one byte string of that
length that denotes it, the two byte orders being reversals of each other; any other number is
refused.  Every byte string is what is written for its number in its own length.

The other writers agree: the two encodings of a scalar are those at the width 32, a word of 64 bits
in 32 bytes as well, and a hash is zero exactly if its number is. -/
theorem fixed_width_exact :
    (∀ width n, WritesExactly width n) ∧
    (∀ bs, writeLittleEndian bs.length (ofLittleEndian bs) = .ok bs ∧
      writeBigEndian bs.length (ofBigEndian bs) = .ok bs) ∧
    (∀ a : Scalar, writeBigEndian 32 a.val = .ok a.toHash.bytes ∧
      writeLittleEndian 32 a.val = .ok a.toLittleEndian ∧
      a.toHash.bytes = List.replicate (32 - (minimalBigEndian a.val).length) 0 ++
        minimalBigEndian a.val ∧
      a.toLittleEndian = a.toHash.bytes.reverse) ∧
    (∀ w : UInt64, writeBigEndian 32 w.toNat = .ok (FixedBytes.ofWord w).bytes ∧
      (FixedBytes.ofWord w).bytes = List.replicate 24 0 ++ toBigEndian 8 w.toNat) ∧
    ∀ h : Hash, h.isZero = true ↔ ofBigEndian h.bytes = 0 := by
  refine ⟨writesExactly, fun bs => ⟨?_, ?_⟩, fun a => ?_, fun w => ⟨?_, ?_⟩,
    fun _ => FixedBytes.isZero_iff⟩
  · exact writeLittleEndian_eq_ok_iff.mpr ⟨rfl, rfl⟩
  · exact writeBigEndian_eq_ok_iff.mpr ⟨rfl, rfl⟩
  · have hbig : writeBigEndian 32 a.val = .ok a.toHash.bytes :=
      writeBigEndian_eq_ok_iff.mpr ⟨a.toHash.length_bytes, a.toNat_toHash⟩
    have hreversed := a.toLittleEndian_eq_reverse
    refine ⟨hbig, ?_, ?_, hreversed⟩
    · rw [hreversed, ← writeBigEndian_eq_ok_iff_reverse]
      exact hbig
    · exact (toBigEndian_eq_minimal (by decide) (a.isLt.trans Scalar.modulus_lt_width)).2
  · have hvalue : (FixedBytes.ofWord w).toNat = w.toNat :=
      FixedBytes.toNat_ofNat (w.toNat_lt.trans (by norm_num))
    exact writeBigEndian_eq_ok_iff.mpr ⟨(FixedBytes.ofWord w).length_bytes, hvalue⟩
  · exact FixedBytes.bytes_ofWord w

end Bytes

end CompressedLedger
