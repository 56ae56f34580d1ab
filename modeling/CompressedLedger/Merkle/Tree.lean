import CompressedLedger.Account.Basic
import CompressedLedger.Merkle.Empty

/-!
# Merkle trees that grow by appending

A tree keeps all its layers, the leaves first and the root last.  Layer `k` holds the nodes of
height `k` above the leaves appended so far, and every node to their right is the root of an empty
subtree.  Appending a leaf stores one node in every layer: at each level the node either replaces
the last one or extends the layer, and its parent joins it with its sibling.

Nodes are scalars, so joining them never fails; the only leaves refused are those that are no
scalars (`scalarOutOfRange`) and those for which there is no room (`treeFull`).
-/

namespace CompressedLedger

/-- A tree with all its layers. -/
structure MerkleTree where
  depth : Nat
  layers : List (Array Scalar)
  depth_pos : Merkle.minDepth ≤ depth
  depth_le : depth ≤ Merkle.maxDepth
  length_layers : layers.length = depth + 1

namespace MerkleTree

/-! ### Layers -/

/-- Stores a node at a position: in place of the one there, or at the end. -/
def store (layer : Array Scalar) (index : Nat) (node : Scalar) : Array Scalar :=
  if h : index < layer.size then layer.set index node else layer.push node

/-- The node at a position of a layer, or the root of an empty subtree. -/
def nodeIn (layer : Array Scalar) (level index : Nat) : Scalar :=
  layer[index]?.getD (Merkle.emptyRoot level)

/-- The join of the two nodes below a position. -/
def parentOf (layer : Array Scalar) (level index : Nat) : Scalar :=
  Poseidon.pair (nodeIn layer level (2 * index)) (nodeIn layer level (2 * index + 1))

/-- Stores a node in the first layer and its ancestors in the layers above. -/
def storeUp : Nat → List (Array Scalar) → Nat → Scalar → List (Array Scalar)
  | _, [], _, _ => []
  | _, [layer], index, node => [store layer index node]
  | level, layer :: above, index, node =>
    let layer := store layer index node
    layer :: storeUp (level + 1) above (index / 2) (parentOf layer level (index / 2))

@[simp] theorem length_storeUp (level : Nat) (layers : List (Array Scalar)) (index : Nat)
    (node : Scalar) : (storeUp level layers index node).length = layers.length := by
  fun_induction storeUp level layers index node <;> simp_all

/-! ### Reading -/

/-- The empty tree of a depth between 1 and 32. -/
def empty (depth : Nat) : Except Error MerkleTree :=
  if h : Merkle.minDepth ≤ depth ∧ depth ≤ Merkle.maxDepth then
    .ok ⟨depth, List.replicate (depth + 1) #[], h.1, h.2, List.length_replicate⟩
  else .error .treeDepth

/-- The layer of a level; level zero holds the leaves. -/
def layer (t : MerkleTree) (level : Nat) : Array Scalar := t.layers.getD level #[]

/-- The number of leaves. -/
def size (t : MerkleTree) : Nat := (t.layer 0).size

/-- Whether there is no leaf. -/
def isEmpty (t : MerkleTree) : Bool := (t.layer 0).isEmpty

/-- The number of leaf positions. -/
def capacity (t : MerkleTree) : Nat := 1 <<< t.depth

/-- Whether every leaf position is taken. -/
def isFull (t : MerkleTree) : Bool := decide (t.capacity ≤ t.size)

/-- The node at a position of a level, whether stored or empty. -/
def node (t : MerkleTree) (level index : Nat) : Scalar := nodeIn (t.layer level) level index

/-- The root. -/
def root (t : MerkleTree) : Scalar := t.node t.depth 0

/-- The leaf at an index, if one was appended there. -/
def leaf? (t : MerkleTree) (index : UInt32) : Option Scalar := (t.layer 0)[index.toNat]?

/-- The position next to another under the same parent. -/
def sibling (index : Nat) : Nat := index ^^^ 1

/-- The siblings of an appended leaf, from the bottom up. -/
def path (t : MerkleTree) (index : UInt32) : Except Error (List Scalar) :=
  if index.toNat < t.size then
    .ok ((List.range t.depth).map fun level => t.node level (sibling (index.toNat >>> level)))
  else .error .leafOutOfBounds

/-- The place of an appended leaf. -/
def context (t : MerkleTree) (index : UInt32) (chain : TreeChain) : Except Error LeafContext :=
  match t.leaf? index with
  | some leaf => .ok ⟨leaf, chain, index, false⟩
  | none => .error .leafOutOfBounds

/-! ### Appending -/

/-- The tree with one more leaf, wherever its index comes from. -/
def push (t : MerkleTree) (leaf : Scalar) : MerkleTree :=
  { t with
    layers := storeUp 0 t.layers t.size leaf
    length_layers := by rw [length_storeUp, t.length_layers] }

/-- Appends a leaf and answers its index.  A refused leaf leaves the tree as it was. -/
def append (t : MerkleTree) (leaf : Hash) : Except Error UInt32 × MerkleTree :=
  if t.isFull then (.error .treeFull, t)
  else
    match Scalar.ofBytes leaf.bytes with
    | .error e => (.error e, t)
    | .ok leaf => (.ok (UInt32.ofNat t.size), t.push leaf)

end MerkleTree

end CompressedLedger
