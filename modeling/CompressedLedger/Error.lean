/-!
# Failures

Every operation that can fail names its cause with one constructor.  A cause has a numeric code,
counted from 6000 in the order of the constructors, and a fixed message.
-/

namespace CompressedLedger

/-- The cause of a failed operation. -/
inductive Error where
  /-- A value is negative or not below the scalar field's modulus. -/
  | scalarOutOfRange
  /-- A text is no numeral of the base it is read in. -/
  | malformedScalar
  /-- A byte string or a list does not have the length it must have. -/
  | lengthMismatch
  /-- An address seed does not have 32 bytes. -/
  | seedLength
  /-- No bump byte gives a usable address. -/
  | noAddressBump
  /-- Poseidon was given too few or too many inputs, or one that is not a scalar. -/
  | poseidonInput
  /-- A key would need an index above 255. -/
  | tooManyKeys
  /-- The accounts hold less than the amount asked for. -/
  | insufficientBalance
  /-- A sum does not fit in 64 bits. -/
  | sumOverflow
  /-- No tree of the wanted kind takes new leaves. -/
  | noActiveTree
  /-- A key belongs to no known tree. -/
  | unknownTree
  /-- Every leaf position of a tree is taken. -/
  | treeFull
  /-- A leaf position holds no leaf yet. -/
  | leafOutOfBounds
  /-- The indexer sent a value that has no meaning. -/
  | malformedResponse
  /-- A text is no public key. -/
  | malformedPubkey
  /-- A validity proof is needed and absent. -/
  | missingProof
  /-- A tree depth is not between 1 and 32. -/
  | treeDepth
deriving DecidableEq, Repr

namespace Error

/-- The code of a cause. -/
def code (e : Error) : Nat := 6000 + e.ctorIdx

/-- The message of a cause. -/
def message : Error → String
  | scalarOutOfRange => "Value is out of range for the BN254 scalar field"
  | malformedScalar => "Invalid field element format for the requested base"
  | lengthMismatch => "Invalid length: expected a fixed-width byte input"
  | seedLength => "Invalid seed length: expected 32 bytes"
  | noAddressBump => "Address derivation failed: no valid bump seed found"
  | poseidonInput => "Poseidon hash failed: inputs must be 32-byte field elements"
  | tooManyKeys => "Too many accounts: packed indices must fit in a u8"
  | insufficientBalance => "Insufficient balance in compressed accounts"
  | sumOverflow => "Arithmetic overflow"
  | noActiveTree => "No active state tree of the requested type"
  | unknownTree => "Tree not found in the provided tree infos"
  | treeFull => "Merkle tree is full"
  | leafOutOfBounds => "Leaf index out of bounds"
  | malformedResponse => "Malformed indexer response"
  | malformedPubkey => "Invalid pubkey string"
  | missingProof => "Validity proof required: not every input is provable by index"
  | treeDepth => "Tree depth must be between 1 and 32"

end Error

end CompressedLedger
