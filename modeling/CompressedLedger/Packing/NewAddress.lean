import CompressedLedger.Packing.KeyTable
import CompressedLedger.Tree.Chain

/-!
# New addresses in an instruction

A new address is given by its seed, its tree and queue, and the root its absence was proven
against.  All trees are interned before all queues, so with an empty table every tree stands before
every queue.
-/

namespace CompressedLedger

/-- A new address as a client asks for it. -/
structure NewAddress where
  seed : Hash
  rootIndex : UInt16
  tree : Pubkey
  queue : Pubkey
deriving DecidableEq

/-- A new address in the first tree of a chain. -/
def NewAddress.inTree (seed : Hash) (chain : TreeChain) (rootIndex : UInt16) : NewAddress :=
  ⟨seed, rootIndex, chain.first.tree, chain.first.queue⟩

/-- A new address as an instruction carries it. -/
structure PackedNewAddress where
  seed : Hash
  queueIndex : UInt8
  treeIndex : UInt8
  rootIndex : UInt16
deriving DecidableEq

/-- Packs new addresses: first their trees, then their queues. -/
def packNewAddresses (requests : List NewAddress) : Packer (List PackedNewAddress) := do
  let trees ← requests.mapM fun r => KeyTable.intern r.tree
  let queues ← requests.mapM fun r => KeyTable.intern r.queue
  return (requests.zip (trees.zip queues)).map fun (r, tree, queue) =>
    ⟨r.seed, queue, tree, r.rootIndex⟩

end CompressedLedger
