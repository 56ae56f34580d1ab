import CompressedLedger.Deployment.Basic
import CompressedLedger.Packing.NewAddress

/-!
# Creating addresses

From lists of seeds to the packed records of an instruction: each list gives an address in the
deployment's address tree and a record with the seed of the same version, and its place in the list
is the index of its root.
-/

namespace CompressedLedger.Workflow

/-- The addresses to create, their packed records and the table of keys. -/
structure NewAddresses where
  addresses : List Hash
  packed : List PackedNewAddress
  keys : List Pubkey

/-- Derives the addresses and packs their records behind the keys already there. -/
def createAddresses (d : Deployment) (program : Pubkey) (requests : List (List (List UInt8)))
    (keys : List Pubkey) : Except Error NewAddresses := do
  let chain := d.addressTree
  let addresses ← requests.mapM fun seeds =>
    d.addressVersion.derive seeds chain.first.tree program
  let records := requests.zipIdx.map fun (seeds, i) =>
    NewAddress.inTree (d.addressVersion.seed program seeds) chain (UInt16.ofNat i)
  let (packed, keys) ← KeyTable.pack (packNewAddresses records) keys
  return ⟨addresses, packed, keys⟩

end CompressedLedger.Workflow
