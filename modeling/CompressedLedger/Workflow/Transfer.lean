import CompressedLedger.Account.LeafHash
import CompressedLedger.Merkle.Path
import CompressedLedger.Merkle.Tree
import CompressedLedger.Packing.Coins
import CompressedLedger.Packing.Inputs

/-!
# Spending accounts

From accounts to a packed payment: every account is hashed at the next leaf index of a tree and
appended, all are checked against their hashes and the final root, the fewest that reach the amount
are chosen, and those are packed with root indices counted from zero.
-/

namespace CompressedLedger.Workflow

/-- An appended account, its leaf and the root after it. -/
structure AppendedAccount where
  located : LocatedAccount
  leaf : Scalar
  root : Scalar

/-- Whether an account hashes to its leaf, and whether its path leads to the root. -/
structure LeafCheck where
  hash : Bool
  path : Bool

/-- All that a transfer gives. -/
structure Transfer where
  appended : List AppendedAccount
  checks : List LeafCheck
  total : UInt64
  packed : PackedAccounts
  keys : List Pubkey

/-- Appends leaves in order. -/
def appendAll (tree : MerkleTree) (leaves : List Hash) : Except Error MerkleTree :=
  leaves.foldlM
    (fun tree leaf =>
      match tree.append leaf with
      | (.ok _, tree) => .ok tree
      | (.error e, _) => .error e)
    tree

/-- Hashes an account at the next leaf index of a tree and appends it. -/
def appendAccount (tree : MerkleTree) (chain : TreeChain) (account : Account) (readOnly : Bool) :
    Except Error (AppendedAccount × MerkleTree) := do
  let next := UInt32.ofNat tree.size
  let leaf ← account.leafHash chain.first.tree next chain.first.kind.isBatched
  match tree.append leaf.toHash with
  | (.error e, _) => .error e
  | (.ok index, tree) =>
    let context ← tree.context index chain
    return (⟨⟨account, context, readOnly⟩, leaf, tree.root⟩, tree)

/-- Appends accounts in order. -/
def appendAccounts (chain : TreeChain) : MerkleTree → List (Account × Bool) →
    Except Error (List AppendedAccount × MerkleTree)
  | tree, [] => .ok ([], tree)
  | tree, (account, readOnly) :: rest => do
    let (first, tree) ← appendAccount tree chain account readOnly
    let (others, tree) ← appendAccounts chain tree rest
    return (first :: others, tree)

/-- Checks an appended account against its hash and the root of a tree. -/
def checkAccount (tree : MerkleTree) (a : AppendedAccount) : Except Error LeafCheck := do
  let hash ← a.located.verifyHash
  let index := a.located.context.leafIndex
  let path ← tree.path index
  let path ← Merkle.verify a.leaf.toHash index (path.map Scalar.toHash) tree.root.toHash
  return ⟨hash, path⟩

/-- Carries out a transfer on a new tree that holds some leaves already. -/
def transfer (depth : Nat) (chain : TreeChain) (leaves : List Hash)
    (accounts : List (Account × Bool)) (amount : UInt64) (keys : List Pubkey) :
    Except Error Transfer := do
  let tree ← MerkleTree.empty depth
  let tree ← appendAll tree leaves
  let (appended, tree) ← appendAccounts chain tree accounts
  let checks ← appended.mapM (checkAccount tree)
  let (chosen, total) ← Coins.select (appended.map (·.located)) amount
  let rootIndices := (List.range chosen.length).map UInt16.ofNat
  let (packed, keys) ← KeyTable.pack (packAccounts chosen rootIndices chain) keys
  return ⟨appended, checks, total, packed, keys⟩

end CompressedLedger.Workflow
