/-!
# Positional values of byte strings

A byte string of any length is read as a number in base 256, with the most significant byte first
(`ofBigEndian`) or last (`ofLittleEndian`).  The two readings differ by a reversal.  In the other
direction a number is written into a chosen number of bytes; `toLittleEndian width n` keeps the
`width` low bytes, so it loses nothing exactly when the number fits (`fits`).
-/

namespace CompressedLedger.Bytes

/-- The number a byte string denotes when its first byte is the least significant one. -/
def ofLittleEndian (bs : List UInt8) : Nat :=
  bs.foldr (fun b n => b.toNat + 256 * n) 0

/-- The number a byte string denotes when its first byte is the most significant one. -/
def ofBigEndian (bs : List UInt8) : Nat :=
  bs.foldl (fun n b => 256 * n + b.toNat) 0

/-- The `width` low bytes of `n`, least significant first. -/
def toLittleEndian : Nat → Nat → List UInt8
  | 0, _ => []
  | width + 1, n => UInt8.ofNat n :: toLittleEndian width (n / 256)

/-- The `width` low bytes of `n`, most significant first. -/
def toBigEndian (width n : Nat) : List UInt8 :=
  (toLittleEndian width n).reverse

/-- Whether a number is below 256 to the power of `width`: cutting off `width` low bytes leaves
nothing. -/
def fits : Nat → Nat → Bool
  | 0, n => n == 0
  | width + 1, n => fits width (n / 256)

/-! ### Reading -/

@[simp] theorem ofLittleEndian_nil : ofLittleEndian [] = 0 := rfl

@[simp] theorem ofLittleEndian_cons (b : UInt8) (bs : List UInt8) :
    ofLittleEndian (b :: bs) = b.toNat + 256 * ofLittleEndian bs := rfl

theorem ofBigEndian_eq_ofLittleEndian_reverse (bs : List UInt8) :
    ofBigEndian bs = ofLittleEndian bs.reverse := by
  simp [ofBigEndian, ofLittleEndian, Nat.add_comm]

/-! ### Writing -/

@[simp] theorem length_toLittleEndian (width n : Nat) :
    (toLittleEndian width n).length = width := by
  induction width generalizing n with
  | zero => rfl
  | succ width ih => simp [toLittleEndian, ih]

@[simp] theorem length_toBigEndian (width n : Nat) : (toBigEndian width n).length = width := by
  simp [toBigEndian]

end CompressedLedger.Bytes
