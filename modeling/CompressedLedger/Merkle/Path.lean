import CompressedLedger.Poseidon.Permutation

/-!
# Inclusion paths

A path lists the siblings of a leaf from the bottom up.  The bits of the leaf's index, lowest
first, say on which side the path's own node stands at each level: a set bit puts it on the right.
Siblings come from outside, so each level admits its two nodes anew; an empty path leaves the leaf
as it is and does not look at it.
-/

namespace CompressedLedger.Merkle

/-- Joins a node with its sibling at a position. -/
def joinAt (index : Nat) (node sibling : Hash) : Except Error Hash :=
  if index % 2 = 1 then Poseidon.hashPair sibling node else Poseidon.hashPair node sibling

/-- Climbs from a node at a position along its siblings. -/
def climb : Hash → Nat → List Hash → Except Error Hash
  | node, _, [] => .ok node
  | node, index, sibling :: rest => do
    let parent ← joinAt index node sibling
    climb parent (index / 2) rest

/-- The root that a leaf and its path lead to. -/
def rootFromPath (leaf : Hash) (index : UInt32) (path : List Hash) : Except Error Hash :=
  climb leaf index.toNat path

/-- Whether a leaf and its path lead to a root. -/
def verify (leaf : Hash) (index : UInt32) (path : List Hash) (root : Hash) : Except Error Bool := do
  let reached ← rootFromPath leaf index path
  return reached == root

end CompressedLedger.Merkle
