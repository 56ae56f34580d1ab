import CompressedLedger.Bytes.Fixed
import CompressedLedger.Error

/-!
# Scalars

The scalar field of the curve BN254 has the prime order `Scalar.modulus`.  A `Scalar` is a natural
number together with the fact that it is below the modulus, so every hash, root and tree node that
takes part in a proof has this type, and each constructor from outside data either checks the
range or refuses the value (`scalarOutOfRange`).

Arithmetic is arithmetic of natural numbers followed by one reduction.  A difference first adds
the modulus, which keeps the subtraction of natural numbers exact.
-/

namespace CompressedLedger

/-- The order of the BN254 scalar field. -/
def Scalar.modulus : Nat :=
  21888242871839275222246405745257275088548364400416034343698204186575808495617

/-- A natural number below the order of the scalar field. -/
structure Scalar where
  val : Nat
  isLt : val < Scalar.modulus
deriving DecidableEq

namespace Scalar

theorem modulus_pos : 0 < modulus := by decide

@[ext] theorem ext {a b : Scalar} (h : a.val = b.val) : a = b := by
  cases a; cases b; cases h; rfl

/-! ### Construction -/

/-- The residue of a natural number. -/
def residue (n : Nat) : Scalar := ⟨n % modulus, Nat.mod_lt _ modulus_pos⟩

/-- A natural number, if it is below the modulus. -/
def ofNat (n : Nat) : Except Error Scalar :=
  if h : n < modulus then .ok ⟨n, h⟩ else .error .scalarOutOfRange

/-- An integer, if it is neither negative nor too large. -/
def ofInt : Int → Except Error Scalar
  | .ofNat n => ofNat n
  | .negSucc _ => .error .scalarOutOfRange

/-- A 64-bit word, which always fits. -/
def ofUInt64 (w : UInt64) : Scalar :=
  ⟨w.toNat, Nat.lt_trans w.toNat_lt (by decide)⟩

/-- A byte string of any length, most significant byte first; leading zeros do not matter. -/
def ofBytes (bs : List UInt8) : Except Error Scalar :=
  ofNat (Bytes.ofBigEndian bs)

/-- A byte string of exactly 32 bytes.  The length is judged before the range. -/
def ofExactBytes (bs : List UInt8) : Except Error Scalar :=
  if bs.length = 32 then ofBytes bs else .error .lengthMismatch

theorem ofNat_of_lt {n : Nat} (h : n < modulus) : ofNat n = .ok ⟨n, h⟩ := by
  simp [ofNat, h]

theorem ofNat_of_le {n : Nat} (h : modulus ≤ n) : ofNat n = .error .scalarOutOfRange := by
  simp [ofNat, Nat.not_lt.2 h]

@[simp] theorem ofNat_val (a : Scalar) : ofNat a.val = .ok a := ofNat_of_lt a.isLt

theorem ofNat_eq_ok_iff {n : Nat} {a : Scalar} : ofNat n = .ok a ↔ a.val = n := by
  constructor
  · intro h
    unfold ofNat at h
    split at h
    · cases h; rfl
    · cases h
  · rintro rfl
    exact ofNat_val a

/-! ### Arithmetic -/

instance : Zero Scalar := ⟨⟨0, modulus_pos⟩⟩

instance : Inhabited Scalar := ⟨0⟩

instance : Add Scalar := ⟨fun a b => residue (a.val + b.val)⟩

instance : Sub Scalar := ⟨fun a b => residue (a.val + modulus - b.val)⟩

instance : Mul Scalar := ⟨fun a b => residue (a.val * b.val)⟩

/-- Repeated multiplication, squaring at every binary digit of the exponent. -/
def pow (a : Scalar) (n : Nat) : Scalar :=
  if n = 0 then residue 1
  else
    let half := pow (a * a) (n / 2)
    if n % 2 = 0 then half else a * half
termination_by n
decreasing_by omega

/-- The multiplicative inverse by Fermat's little theorem; zero is its own. -/
def inverse (a : Scalar) : Scalar := a.pow (modulus - 2)

@[simp] theorem val_zero : (0 : Scalar).val = 0 := rfl

@[simp] theorem val_residue (n : Nat) : (residue n).val = n % modulus := rfl

theorem val_add (a b : Scalar) : (a + b).val = (a.val + b.val) % modulus := rfl

theorem val_sub (a b : Scalar) : (a - b).val = (a.val + modulus - b.val) % modulus := rfl

theorem val_mul (a b : Scalar) : (a * b).val = a.val * b.val % modulus := rfl

/-! ### Order -/

instance : LT Scalar := ⟨fun a b => a.val < b.val⟩

instance : LE Scalar := ⟨fun a b => a.val ≤ b.val⟩

instance (a b : Scalar) : Decidable (a < b) := inferInstanceAs (Decidable (a.val < b.val))

instance (a b : Scalar) : Decidable (a ≤ b) := inferInstanceAs (Decidable (a.val ≤ b.val))

instance : Ord Scalar := ⟨fun a b => compare a.val b.val⟩

theorem lt_def {a b : Scalar} : a < b ↔ a.val < b.val := Iff.rfl

theorem le_def {a b : Scalar} : a ≤ b ↔ a.val ≤ b.val := Iff.rfl

/-! ### Bytes -/

/-- The 32 bytes of a scalar, most significant first. -/
def toHash (a : Scalar) : Hash := FixedBytes.ofNat a.val

/-- The 32 bytes of a scalar, least significant first. -/
def toLittleEndian (a : Scalar) : List UInt8 := Bytes.toLittleEndian 32 a.val

/-- The length of the binary numeral; zero has none. -/
def bitLength (a : Scalar) : Nat := if a.val = 0 then 0 else Nat.log2 a.val + 1

/-- The bytes of the modulus, most significant first. -/
def modulusBytes : List UInt8 :=
  [0x30, 0x64, 0x4e, 0x72, 0xe1, 0x31, 0xa0, 0x29, 0xb8, 0x50, 0x45, 0xb6, 0x81, 0x81, 0x58, 0x5d,
    0x28, 0x33, 0xe8, 0x48, 0x79, 0xb9, 0x70, 0x91, 0x43, 0xe1, 0xf5, 0x93, 0xf0, 0x00, 0x00, 0x01]

/-- Whether 32 bytes come before those of the modulus in the order of byte strings.  No number is
formed, so this is the cheap test for a hash that arrives from outside. -/
def precedesModulus (h : Hash) : Bool := decide (h.bytes < modulusBytes)

theorem ofBigEndian_modulusBytes : Bytes.ofBigEndian modulusBytes = modulus := by decide

end Scalar

end CompressedLedger
