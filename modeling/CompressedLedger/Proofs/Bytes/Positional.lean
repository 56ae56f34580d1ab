import CompressedLedger.Bytes.Fixed
import Mathlib.Tactic.NormNum
import Mathlib.Tactic.Ring

/-!
# Reading back what was written

Writing a number into `width` bytes and reading them again gives the number's residue modulo
`256 ^ width` (`ofLittleEndian_toLittleEndian`, `ofBigEndian_toBigEndian`), and a byte string is
the writing of its own number in its own width (`toLittleEndian_ofLittleEndian`,
`toBigEndian_ofBigEndian`).  So byte strings of one length and the numbers below `256 ^ length`
correspond, in both byte orders.
-/

namespace CompressedLedger

namespace Bytes

/-! ### Least significant byte first -/

theorem ofLittleEndian_toLittleEndian (width n : ℕ) :
    ofLittleEndian (toLittleEndian width n) = n % 256 ^ width := by
  induction width generalizing n with
  | zero => rw [toLittleEndian, ofLittleEndian_nil, pow_zero, Nat.mod_one]
  | succ width ih =>
    rw [toLittleEndian, ofLittleEndian_cons, ih, pow_succ', Nat.mod_mul]
    rw [UInt8.toNat_ofNat', show 2 ^ 8 = 256 from rfl]

theorem toLittleEndian_ofLittleEndian (bs : List UInt8) :
    toLittleEndian bs.length (ofLittleEndian bs) = bs := by
  induction bs with
  | nil => rfl
  | cons b bs ih =>
    have hb : b.toNat < 256 := b.toNat_lt
    -- dividing by 256 takes off the lowest byte again
    have hdiv : (b.toNat + 256 * ofLittleEndian bs) / 256 = ofLittleEndian bs := by omega
    have hlow : UInt8.ofNat (b.toNat + 256 * ofLittleEndian bs) = b := by
      apply UInt8.toNat_inj.mp
      rw [UInt8.toNat_ofNat', show 2 ^ 8 = 256 from rfl]
      omega
    rw [List.length_cons, ofLittleEndian_cons, toLittleEndian, hdiv, hlow, ih]

theorem ofLittleEndian_lt (bs : List UInt8) : ofLittleEndian bs < 256 ^ bs.length := by
  rw [← toLittleEndian_ofLittleEndian bs, ofLittleEndian_toLittleEndian, length_toLittleEndian]
  exact Nat.mod_lt _ (by positivity)

/-! ### Most significant byte first -/

theorem ofBigEndian_toBigEndian (width n : ℕ) :
    ofBigEndian (toBigEndian width n) = n % 256 ^ width := by
  rw [ofBigEndian_eq_ofLittleEndian_reverse, toBigEndian, List.reverse_reverse,
    ofLittleEndian_toLittleEndian]

theorem toBigEndian_ofBigEndian (bs : List UInt8) :
    toBigEndian bs.length (ofBigEndian bs) = bs := by
  rw [ofBigEndian_eq_ofLittleEndian_reverse, toBigEndian, ← List.length_reverse,
    toLittleEndian_ofLittleEndian, List.reverse_reverse]

theorem ofBigEndian_lt (bs : List UInt8) : ofBigEndian bs < 256 ^ bs.length := by
  rw [ofBigEndian_eq_ofLittleEndian_reverse, ← List.length_reverse]
  exact ofLittleEndian_lt _

/-- A leading zero byte does not change the number. -/
theorem ofBigEndian_zero_cons (bs : List UInt8) : ofBigEndian (0 :: bs) = ofBigEndian bs := rfl

/-! ### Equal writings -/

theorem toLittleEndian_inj {width m n : ℕ} (hm : m < 256 ^ width) (hn : n < 256 ^ width) :
    toLittleEndian width m = toLittleEndian width n ↔ m = n := by
  refine ⟨fun h => ?_, fun h => by rw [h]⟩
  have hread := congrArg ofLittleEndian h
  rwa [ofLittleEndian_toLittleEndian, ofLittleEndian_toLittleEndian, Nat.mod_eq_of_lt hm,
    Nat.mod_eq_of_lt hn] at hread

theorem toBigEndian_inj {width m n : ℕ} (hm : m < 256 ^ width) (hn : n < 256 ^ width) :
    toBigEndian width m = toBigEndian width n ↔ m = n := by
  rw [toBigEndian, toBigEndian, List.reverse_inj, toLittleEndian_inj hm hn]

end Bytes

namespace FixedBytes

variable {n : ℕ}

theorem toNat_ofNat {v : ℕ} (h : v < 256 ^ n) : (ofNat v : FixedBytes n).toNat = v := by
  rw [toNat, ofNat, Bytes.ofBigEndian_toBigEndian, Nat.mod_eq_of_lt h]

@[simp] theorem ofNat_toNat (a : FixedBytes n) : ofNat a.toNat = a := by
  apply FixedBytes.ext
  have hread := Bytes.toBigEndian_ofBigEndian a.bytes
  rwa [a.length_bytes] at hread

/-- The bytes of a fixed string are those of its number, in the other order as well. -/
theorem toLittleEndian_ofLittleEndian (a : FixedBytes n) :
    Bytes.toLittleEndian n (Bytes.ofLittleEndian a.bytes) = a.bytes := by
  have hread := Bytes.toLittleEndian_ofLittleEndian a.bytes
  rwa [a.length_bytes] at hread

theorem ofLittleEndian_lt (a : FixedBytes n) : Bytes.ofLittleEndian a.bytes < 256 ^ n := by
  have hlt := Bytes.ofLittleEndian_lt a.bytes
  rwa [a.length_bytes] at hlt

theorem toNat_injective : Function.Injective (toNat : FixedBytes n → ℕ) := by
  intro a b h
  rw [← ofNat_toNat a, h, ofNat_toNat]

end FixedBytes

end CompressedLedger
