import CompressedLedger.Account.Basic
import CompressedLedger.Packing.KeyTable

/-!
# Input accounts in an instruction

Each input is packed with the positions of its own tree and queue, never those of a successor.
After all inputs comes the account that new leaves are written to: the output account of the last
tree of the output chain.
-/

namespace CompressedLedger

/-- The place of an input with positions for keys. -/
structure PackedContext where
  treeIndex : UInt8
  queueIndex : UInt8
  leafIndex : UInt32
  proveByIndex : Bool
deriving DecidableEq

/-- An input as an instruction carries it. -/
structure PackedInput where
  account : Account
  context : PackedContext
  rootIndex : UInt16
  readOnly : Bool
deriving DecidableEq

/-- The inputs of an instruction and the position of its output account. -/
structure PackedAccounts where
  inputs : List PackedInput
  outputIndex : UInt8
deriving DecidableEq

/-- Packs one input: its tree, then its queue. -/
def packInput (input : LocatedAccount) (rootIndex : UInt16) : Packer PackedInput := do
  let context := input.context
  let tree ← KeyTable.intern context.chain.first.tree
  let queue ← KeyTable.intern context.chain.first.queue
  return ⟨input.account, ⟨tree, queue, context.leafIndex, context.proveByIndex⟩, rootIndex,
    input.readOnly⟩

/-- Packs all inputs, each with the root index at its place, and then the output account. -/
def packAccounts (inputs : List LocatedAccount) (rootIndices : List UInt16)
    (output : TreeChain) : Packer PackedAccounts := do
  if inputs.length ≠ rootIndices.length then throw .lengthMismatch
  let packed ← (inputs.zip rootIndices).mapM fun (input, rootIndex) => packInput input rootIndex
  let outputIndex ← KeyTable.intern output.active.output
  return ⟨packed, outputIndex⟩

end CompressedLedger
