import CompressedLedger.Poseidon.Permutation

/-!
# Empty subtrees

A leaf position that holds nothing counts as zero, and an empty subtree of height `k + 1` is the
join of two empty subtrees of height `k`.  The roots of all heights a tree can have are computed
once.
-/

namespace CompressedLedger.Merkle

/-- The smallest depth of a tree. -/
def minDepth : Nat := 1

/-- The largest depth of a tree: a leaf index has 32 bits. -/
def maxDepth : Nat := 32

/-- The root of an empty subtree of a given height. -/
def emptyRootOf : Nat → Scalar
  | 0 => 0
  | height + 1 =>
    let half := emptyRootOf height
    Poseidon.pair half half

/-- Successive joins of a node with itself, starting from the node. -/
def doublings : Nat → Scalar → List Scalar
  | 0, node => [node]
  | n + 1, node => node :: doublings n (Poseidon.pair node node)

/-- The roots of the empty subtrees of the heights 0 to 32. -/
def emptyRootTable : Array Scalar := (doublings maxDepth 0).toArray

/-- The root of an empty subtree, from the table. -/
def emptyRoot (height : Nat) : Scalar := emptyRootTable.getD height 0

end CompressedLedger.Merkle
