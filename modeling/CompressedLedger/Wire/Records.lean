import CompressedLedger.Packing.Inputs
import CompressedLedger.Packing.NewAddress
import CompressedLedger.Proof.Validity
import CompressedLedger.Wire.Basic

/-!
# The binary format of the records

Each record is its fields one after another, in a fixed order.
-/

namespace CompressedLedger

open Wire (encode read)

instance : Wire AccountData where
  encode d := encode d.discriminator ++ encode d.payload ++ encode d.payloadHash
  read := do return ⟨← read, ← read, ← read⟩

instance : Wire Account where
  encode a := encode a.owner ++ encode a.lamports ++ encode a.address ++ encode a.data
  read := do return ⟨← read, ← read, ← read, ← read⟩

instance : Wire ValidityProof where
  encode p := encode p.a ++ encode p.b ++ encode p.c
  read := do return ⟨← read, ← read, ← read⟩

instance : Wire PackedContext where
  encode c := encode c.treeIndex ++ encode c.queueIndex ++ encode c.leafIndex ++
    encode c.proveByIndex
  read := do return ⟨← read, ← read, ← read, ← read⟩

instance : Wire PackedInput where
  encode i := encode i.account ++ encode i.context ++ encode i.rootIndex ++ encode i.readOnly
  read := do return ⟨← read, ← read, ← read, ← read⟩

instance : Wire PackedNewAddress where
  encode a := encode a.seed ++ encode a.queueIndex ++ encode a.treeIndex ++ encode a.rootIndex
  read := do return ⟨← read, ← read, ← read, ← read⟩

end CompressedLedger
