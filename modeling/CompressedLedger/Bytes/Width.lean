import CompressedLedger.Bytes.Fixed
import CompressedLedger.Error

/-!
# Numbers in a chosen width

Writing a number into a chosen number of bytes never truncates: a number that needs more bytes is
refused (`lengthMismatch`).  Zero needs none, so it fits the width zero.
-/

namespace CompressedLedger

namespace Bytes

/-- A number in `width` bytes, least significant first. -/
def writeLittleEndian (width n : Nat) : Except Error (List UInt8) :=
  if fits width n then .ok (toLittleEndian width n) else .error .lengthMismatch

/-- A number in `width` bytes, most significant first. -/
def writeBigEndian (width n : Nat) : Except Error (List UInt8) :=
  (writeLittleEndian width n).map List.reverse

end Bytes

namespace FixedBytes

variable {n : Nat}

/-- A byte string as a fixed one, or `lengthMismatch`. -/
def ofBytes (bs : List UInt8) : Except Error (FixedBytes n) :=
  match ofList? bs with
  | some a => .ok a
  | none => .error .lengthMismatch

theorem ofBytes_eq_ok_iff {bs : List UInt8} {a : FixedBytes n} :
    ofBytes bs = .ok a ↔ bs = a.bytes := by
  rw [← ofList?_eq_some_iff, ofBytes]
  cases ofList? bs <;> simp

theorem eq_lengthMismatch_of_ofBytes {bs : List UInt8} {e : Error}
    (h : (ofBytes bs : Except Error (FixedBytes n)) = .error e) : e = .lengthMismatch := by
  unfold ofBytes at h
  split at h
  · cases h
  · cases h
    rfl

/-- A 64-bit word at the end of 32 bytes, most significant byte first. -/
def ofWord (w : UInt64) : FixedBytes 32 := ofNat w.toNat

end FixedBytes

end CompressedLedger
