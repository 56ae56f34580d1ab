import CompressedLedger.Bytes.Width
import CompressedLedger.Scalar.Basic
import CompressedLedger.Tree.Chain

/-!
# Validity proofs

A proof consists of three compressed curve points of 32, 64 and 32 bytes.  It speaks for a list of
leaves that are in their trees and a list of addresses that are not; each entry names the root it
was proven against.  A leaf that is proven by its index alone needs no proof, so the proof may be
absent if every leaf is such a one and there are no addresses.
-/

namespace CompressedLedger

/-- The three points of a proof. -/
structure ValidityProof where
  a : FixedBytes 32
  b : FixedBytes 64
  c : FixedBytes 32
deriving DecidableEq

namespace ValidityProof

/-- The length of a proof in bytes. -/
def length : Nat := 128

/-- The points one after another. -/
def toBytes (p : ValidityProof) : List UInt8 := p.a.bytes ++ p.b.bytes ++ p.c.bytes

/-- A proof from its points. -/
def ofParts (a b c : List UInt8) : Except Error ValidityProof := do
  return ⟨← FixedBytes.ofBytes a, ← FixedBytes.ofBytes b, ← FixedBytes.ofBytes c⟩

/-- A proof from all its bytes. -/
def ofBytes (bs : List UInt8) : Except Error ValidityProof :=
  if bs.length = length then ofParts (bs.take 32) ((bs.drop 32).take 64) (bs.drop 96)
  else .error .lengthMismatch

end ValidityProof

/-- A leaf a proof speaks for. -/
structure ProvenLeaf where
  hash : Scalar
  root : Scalar
  rootIndex : UInt16
  leafIndex : UInt32
  chain : TreeChain
  proveByIndex : Bool
deriving DecidableEq

/-- An address a proof speaks for. -/
structure ProvenAddress where
  address : Hash
  root : Scalar
  rootIndex : UInt16
  chain : TreeChain
deriving DecidableEq

/-- A proof, if there is one, and all it speaks for. -/
structure ProofContext where
  proof : Option ValidityProof
  leaves : List ProvenLeaf
  addresses : List ProvenAddress
deriving DecidableEq

namespace ProofContext

/-- Whether anything needs the proof. -/
def isProofRequired (c : ProofContext) : Bool :=
  !c.addresses.isEmpty || c.leaves.any (!·.proveByIndex)

/-- Refuses a context whose proof is needed and absent. -/
def validate (c : ProofContext) : Except Error Unit :=
  if c.proof.isSome || !c.isProofRequired then .ok () else .error .missingProof

/-! ### Columns -/

/-- The root indices of the leaves. -/
def rootIndices (c : ProofContext) : List UInt16 := c.leaves.map (·.rootIndex)

/-- The root indices of the addresses. -/
def addressRootIndices (c : ProofContext) : List UInt16 := c.addresses.map (·.rootIndex)

/-- The roots of the leaves. -/
def roots (c : ProofContext) : List Scalar := c.leaves.map (·.root)

/-- The indices of the leaves. -/
def leafIndices (c : ProofContext) : List UInt32 := c.leaves.map (·.leafIndex)

/-- The hashes of the leaves. -/
def hashes (c : ProofContext) : List Scalar := c.leaves.map (·.hash)

/-- The trees of the leaves. -/
def chains (c : ProofContext) : List TreeChain := c.leaves.map (·.chain)

/-- Which leaves are proven by their index alone. -/
def proveByIndices (c : ProofContext) : List Bool := c.leaves.map (·.proveByIndex)

end ProofContext

end CompressedLedger
