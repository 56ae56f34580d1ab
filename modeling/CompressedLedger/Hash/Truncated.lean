import CompressedLedger.Hash.Keccak
import CompressedLedger.Scalar.Basic

/-!
# Hashing byte strings into the scalar field

The Keccak digest of a byte string with its first byte set to zero denotes a number of at most 248
bits, which is below the scalar field's modulus; so every byte string has a field-sized hash and
no reduction is needed.  Several inputs are hashed as one, joined in order.

The sealed hash appends the byte `0xff`.  An older rule tries every byte from `0xff` down and
takes the first whose hash is field-sized.
-/

namespace CompressedLedger.Truncated

/-- A hash with its first byte set to zero. -/
def clearFirst (h : Hash) : Hash :=
  ⟨0 :: h.bytes.drop 1, by simp⟩

@[simp] theorem head?_bytes_clearFirst (h : Hash) : (clearFirst h).bytes.head? = some 0 := rfl

/-- The other 31 bytes are those of the hash. -/
@[simp] theorem drop_bytes_clearFirst (h : Hash) :
    (clearFirst h).bytes.drop 1 = h.bytes.drop 1 := rfl

/-- The field-sized hash of a byte string. -/
def hash (bs : List UInt8) : Hash := clearFirst (Keccak.hash bs)

/-- The field-sized hash of several inputs joined in order. -/
def hashAll (inputs : List (List UInt8)) : Hash := hash inputs.flatten

/-- The byte that seals an input. -/
def sealByte : UInt8 := 255

/-- The field-sized hash of a byte string with the seal appended. -/
def sealed (bs : List UInt8) : Hash := hash (bs ++ [sealByte])

/-- The field-sized hash of several inputs joined in order, with the seal appended. -/
def sealedAll (inputs : List (List UInt8)) : Hash := sealed inputs.flatten

/-- Tries a byte and then every smaller one. -/
def searchFrom (bs : List UInt8) (candidate : Nat) : Option (Hash × UInt8) :=
  let byte := UInt8.ofNat candidate
  let h := hash (bs ++ [byte])
  if Scalar.precedesModulus h then some (h, byte)
  else
    match candidate with
    | 0 => none
    | next + 1 => searchFrom bs next

/-- The first field-sized hash among the trailing bytes 255 down to 0, with its byte. -/
def search (bs : List UInt8) : Option (Hash × UInt8) := searchFrom bs 255

end CompressedLedger.Truncated
