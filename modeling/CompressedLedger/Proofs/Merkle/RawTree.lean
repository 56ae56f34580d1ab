import CompressedLedger.Merkle.Tree
import CompressedLedger.Proofs.Bytes.Order
import CompressedLedger.Proofs.Merkle.Subtree

/-!
# Trees of raw bytes

A `MerkleTree` keeps scalars, so joining its nodes cannot fail, and a table holds every empty root
it may ask for.  A `RawTree` is the same tree without these guarantees: it keeps 32-byte values in
layers of which nothing is known, with a list of empty roots of its own, and each of its operations
goes through the steps one by one.  A step can fail with a cause, or look for an entry that is not
there (`Fault`).  An append that fails halfway leaves the tree as far as it was written.

`MerkleTree.raw` forgets what is known of a tree.  Reading from the raw form of a tree finds every
entry and answers what the tree answers, in bytes (`root_raw`, `leaf?_raw`, `path_raw`,
`context_raw`), and the empty trees of the two kinds correspond (`empty_raw`).
-/

namespace CompressedLedger

open Merkle

/-- What can end an operation on raw bytes. -/
inductive Fault where
  /-- A failure that is reported with its cause. -/
  | cause (e : Error)
  /-- An access to an entry that is not there. -/
  | missing
deriving DecidableEq, Repr

namespace Fault

variable {α : Type}

/-- An entry of a list or an array, which has to be there. -/
def entry : Option α → Except Fault α
  | some a => .ok a
  | none => .error .missing

/-- An answer that fails with reported causes only. -/
def reported (answer : Except Error α) : Except Fault α := answer.mapError .cause

@[simp] theorem reported_ok (a : α) : reported (.ok a) = .ok a := rfl

@[simp] theorem reported_error (e : Error) :
    reported (.error e : Except Error α) = .error (.cause e) := rfl

theorem reported_eq_error_iff {answer : Except Error α} {fault : Fault} :
    reported answer = .error fault ↔ ∃ e, answer = .error e ∧ fault = .cause e := by
  cases answer with
  | ok a => simp
  | error e => simp [eq_comm]

end Fault

/-- A tree of 32-byte values with the empty roots it uses. -/
structure RawTree where
  depth : ℕ
  layers : List (Array Hash)
  empties : List Hash

namespace RawTree

open Fault

/-! ### Reading -/

/-- Successive joins of a value with itself, starting from the value. -/
def doublings : ℕ → Hash → Except Error (List Hash)
  | 0, node => .ok [node]
  | n + 1, node => do
    let next ← Poseidon.hashPair node node
    let rest ← doublings n next
    return node :: rest

/-- The empty tree of a depth between 1 and 32. -/
def empty (depth : ℕ) : Except Error RawTree :=
  if minDepth ≤ depth ∧ depth ≤ maxDepth then do
    let empties ← doublings depth FixedBytes.zero
    return ⟨depth, List.replicate (depth + 1) #[], empties⟩
  else .error .treeDepth

/-- The layer of a level. -/
def layer (t : RawTree) (level : ℕ) : Except Fault (Array Hash) := entry t.layers[level]?

/-- The value stored at a position of a level. -/
def stored (t : RawTree) (level index : ℕ) : Except Fault Hash := do
  let layer ← t.layer level
  entry layer[index]?

/-- The value at a position of a level, or the empty root of the level.  The empty root is looked
up in either case. -/
def storedOrEmpty (t : RawTree) (level index : ℕ) : Except Fault Hash := do
  let layer ← t.layer level
  let empty ← entry t.empties[level]?
  return layer[index]?.getD empty

/-- The root. -/
def root (t : RawTree) : Except Fault Hash := t.storedOrEmpty t.depth 0

/-- The leaf at an index, if one was appended there. -/
def leaf? (t : RawTree) (index : UInt32) : Except Fault (Option Hash) := do
  let leaves ← t.layer 0
  return leaves[index.toNat]?

/-- The siblings on the way up from a position, over a number of levels. -/
def siblingsFrom (t : RawTree) (level index : ℕ) : ℕ → Except Fault (List Hash)
  | 0 => .ok []
  | count + 1 => do
    let sibling ← t.storedOrEmpty level (index ^^^ 1)
    let rest ← t.siblingsFrom (level + 1) (index / 2) count
    return sibling :: rest

/-- The siblings of an appended leaf, from the bottom up. -/
def path (t : RawTree) (index : UInt32) : Except Fault (List Hash) := do
  let leaves ← t.layer 0
  if index.toNat < leaves.size then t.siblingsFrom 0 index.toNat t.depth
  else .error (.cause .leafOutOfBounds)

/-- The place of an appended leaf.  The leaf is admitted as a scalar once more. -/
def context (t : RawTree) (index : UInt32) (chain : TreeChain) : Except Fault LeafContext := do
  match ← t.leaf? index with
  | none => .error (.cause .leafOutOfBounds)
  | some leaf =>
    let hash ← reported (Scalar.ofExactBytes leaf.bytes)
    return ⟨hash, chain, index, false⟩

/-- All values of a raw tree are below the modulus. -/
structure IsCanonical (t : RawTree) : Prop where
  layers_lt : ∀ layer ∈ t.layers, ∀ node ∈ layer, node.toNat < Scalar.modulus
  empties_lt : ∀ node ∈ t.empties, node.toNat < Scalar.modulus

/-! ### Appending -/

/-- The join of the two values below a position.  The left one has to be stored. -/
def parentOf (t : RawTree) (level index : ℕ) : Except Fault Hash := do
  let left ← t.stored level (2 * index)
  let right ← t.storedOrEmpty level (2 * index + 1)
  reported (Poseidon.hashPair left right)

/-- Writes a value at a position of a level: in place of the one there, or at the end. -/
def write (t : RawTree) (level index : ℕ) (node : Hash) : Except Fault RawTree := do
  let layer ← t.layer level
  let layer := if h : index < layer.size then layer.set index node else layer.push node
  return { t with layers := t.layers.set level layer }

/-- Writes the parent of a position into the layer above. -/
def raiseOnce (t : RawTree) (level index : ℕ) : Except Fault RawTree := do
  let parent ← t.parentOf level (index / 2)
  t.write (level + 1) (index / 2) parent

/-- Writes the ancestors of a position, level by level, until a level fails. -/
def raise (t : RawTree) (level index : ℕ) : ℕ → Except Fault Unit × RawTree
  | 0 => (.ok (), t)
  | count + 1 =>
    match t.raiseOnce level index with
    | .error fault => (.error fault, t)
    | .ok t => t.raise (level + 1) (index / 2) count

/-- The 32-bit word of an index. -/
def indexWord (index : ℕ) : Except Error UInt32 :=
  if index < 2 ^ 32 then .ok (UInt32.ofNat index) else .error .sumOverflow

/-- Appends a leaf and answers its index.  The leaf is written before its ancestors are known, and
a fault on the way leaves what was written. -/
def append (t : RawTree) (leaf : Hash) : Except Fault UInt32 × RawTree :=
  match t.layer 0 with
  | .error fault => (.error fault, t)
  | .ok leaves =>
    if 1 <<< t.depth ≤ leaves.size then (.error (.cause .treeFull), t)
    else if Scalar.precedesModulus leaf = false then (.error (.cause .scalarOutOfRange), t)
    else
      match { t with layers := t.layers.set 0 (leaves.push leaf) : RawTree }.raise 0 leaves.size
        t.depth with
      | (.error fault, t) => (.error fault, t)
      | (.ok (), t) => (reported (indexWord leaves.size), t)

/-- The tree after a sequence of append calls, whatever they answer. -/
def appendEach (t : RawTree) (calls : List Hash) : RawTree :=
  calls.foldl (fun t leaf => (t.append leaf).2) t

end RawTree

namespace MerkleTree

open Fault

/-- A tree in bytes, with nothing known of it. -/
def raw (t : MerkleTree) : RawTree where
  depth := t.depth
  layers := t.layers.map (·.map Scalar.toHash)
  empties := (List.range (t.depth + 1)).map fun level => (emptyRoot level).toHash

variable (t : MerkleTree)

/-! ### Entries of the raw form -/

theorem layer_raw {level : ℕ} (hlevel : level ≤ t.depth) :
    t.raw.layer level = .ok ((t.layer level).map Scalar.toHash) := by
  have hlt : level < t.layers.length := by
    rw [t.length_layers]
    omega
  rw [RawTree.layer, raw, List.getElem?_map, layer, List.getD_eq_getElem?_getD,
    List.getElem?_eq_getElem hlt]
  rfl

theorem empties_raw {level : ℕ} (hlevel : level ≤ t.depth) :
    t.raw.empties[level]? = some (emptyRoot level).toHash := by
  rw [raw, List.getElem?_map, List.getElem?_range (by omega)]
  rfl

theorem storedOrEmpty_raw {level : ℕ} (hlevel : level ≤ t.depth) (index : ℕ) :
    t.raw.storedOrEmpty level index = .ok (t.node level index).toHash := by
  rw [RawTree.storedOrEmpty, layer_raw t hlevel, empties_raw t hlevel]
  show Except.ok ((((t.layer level).map Scalar.toHash)[index]?).getD _) = _
  rw [Array.getElem?_map, Option.getD_map]
  rfl

theorem stored_raw {level index : ℕ} (hlevel : level ≤ t.depth)
    (hindex : index < (t.layer level).size) :
    t.raw.stored level index = .ok (t.node level index).toHash := by
  rw [RawTree.stored, layer_raw t hlevel]
  show entry ((t.layer level).map Scalar.toHash)[index]? = _
  rw [Array.getElem?_map, node, nodeIn, Array.getElem?_eq_getElem hindex]
  rfl

theorem isCanonical_raw : t.raw.IsCanonical where
  layers_lt layer hlayer node hnode := by
    obtain ⟨scalars, -, rfl⟩ := List.mem_map.mp hlayer
    obtain ⟨a, -, rfl⟩ := Array.mem_map.mp hnode
    rw [Scalar.toNat_toHash]
    exact a.isLt
  empties_lt node hnode := by
    obtain ⟨level, -, rfl⟩ := List.mem_map.mp hnode
    rw [Scalar.toNat_toHash]
    exact (emptyRoot level).isLt

/-! ### Reading from the raw form -/

theorem root_raw : t.raw.root = .ok t.root.toHash := storedOrEmpty_raw t le_rfl 0

theorem leaf?_raw (index : UInt32) :
    t.raw.leaf? index = .ok ((t.leaf? index).map Scalar.toHash) := by
  rw [RawTree.leaf?, layer_raw t (Nat.zero_le _)]
  show Except.ok ((t.layer 0).map Scalar.toHash)[index.toNat]? = _
  rw [Array.getElem?_map]
  rfl

/-- Halving the position at each level names the same siblings as shifting it by the level. -/
theorem siblingsFrom_raw {level count : ℕ} (hcount : level + count ≤ t.depth + 1) (index : ℕ) :
    t.raw.siblingsFrom level index count =
      .ok ((List.range count).map fun k =>
        (t.node (level + k) (sibling (index >>> k))).toHash) := by
  induction count generalizing level index with
  | zero => rfl
  | succ count ih =>
    have hrest : (fun k => (t.node (level + k) (sibling (index >>> k))).toHash) ∘ Nat.succ =
        fun k => (t.node (level + 1 + k) (sibling ((index / 2) >>> k))).toHash := by
      funext k
      rw [Function.comp_apply, Nat.succ_eq_add_one, Nat.shiftRight_succ_inside,
        show level + (k + 1) = level + 1 + k by omega]
    rw [RawTree.siblingsFrom, storedOrEmpty_raw t (by omega), ih (by omega), List.range_succ_eq_map,
      List.map_cons, List.map_map, hrest]
    rfl

theorem path_raw (index : UInt32) :
    t.raw.path index = reported ((t.path index).map (List.map Scalar.toHash)) := by
  have hsize : ((t.layer 0).map Scalar.toHash).size = t.size := Array.size_map
  rw [RawTree.path, layer_raw t (Nat.zero_le _)]
  show (if index.toNat < ((t.layer 0).map Scalar.toHash).size then
    t.raw.siblingsFrom 0 index.toNat t.depth else _) = _
  rw [hsize, path]
  split_ifs with hindex
  · rw [siblingsFrom_raw t (by omega)]
    show _ = Except.ok ((List.range t.depth).map _ |>.map Scalar.toHash)
    simp only [List.map_map, Function.comp_def, Nat.zero_add]
  · rfl

/-- A leaf of the tree is a scalar, so admitting it again never fails. -/
theorem context_raw (index : UInt32) (chain : TreeChain) :
    t.raw.context index chain = reported (t.context index chain) := by
  rw [RawTree.context, leaf?_raw, context]
  cases t.leaf? index with
  | none => rfl
  | some leaf =>
    have hread : Scalar.ofExactBytes leaf.toHash.bytes = .ok leaf :=
      Scalar.ofExactBytes_eq_ok_iff.mpr rfl
    show (reported (Scalar.ofExactBytes leaf.toHash.bytes) >>= fun hash =>
      Except.ok (⟨hash, chain, index, false⟩ : LeafContext)) = _
    rw [hread]
    rfl

/-! ### The empty tree -/

/-- Doubling an empty root in bytes never fails and gives the empty roots above it. -/
theorem doublings_emptyRootOf (n height : ℕ) :
    RawTree.doublings n (emptyRootOf height).toHash =
      .ok ((List.range (n + 1)).map fun k => (emptyRootOf (height + k)).toHash) := by
  induction n generalizing height with
  | zero => rfl
  | succ n ih =>
    have hnext : Poseidon.hashPair (emptyRootOf height).toHash (emptyRootOf height).toHash =
        .ok (emptyRootOf (height + 1)).toHash := Poseidon.hashPair_toHash _ _
    have hrest : (fun k => (emptyRootOf (height + k)).toHash) ∘ Nat.succ =
        fun k => (emptyRootOf (height + 1 + k)).toHash := by
      funext k
      rw [Function.comp_apply, Nat.succ_eq_add_one, show height + (k + 1) = height + 1 + k by omega]
    rw [RawTree.doublings, hnext, List.range_succ_eq_map, List.map_cons, List.map_map, hrest]
    show (RawTree.doublings n (emptyRootOf (height + 1)).toHash >>= fun rest =>
      Except.ok ((emptyRootOf height).toHash :: rest)) = _
    rw [ih]
    rfl

/-- The empty trees of a depth correspond, and so do the refusals of a depth. -/
theorem empty_raw (depth : ℕ) : RawTree.empty depth = (MerkleTree.empty depth).map raw := by
  unfold RawTree.empty MerkleTree.empty
  split_ifs with hdepth
  · have hempties := doublings_emptyRootOf depth 0
    have htable : ((List.range (depth + 1)).map fun k => (emptyRootOf (0 + k)).toHash) =
        (List.range (depth + 1)).map fun level => (emptyRoot level).toHash := by
      refine List.map_congr_left fun level hlevel => ?_
      rw [List.mem_range] at hlevel
      rw [Nat.zero_add, emptyRoot_eq_emptyRootOf (by omega)]
    rw [htable] at hempties
    rw [← Scalar.toHash_zero, show (0 : Scalar) = emptyRootOf 0 from rfl, hempties]
    show Except.ok (⟨depth, _, _⟩ : RawTree) = Except.ok (raw ⟨depth, _, _, _, _⟩)
    simp only [raw, List.map_replicate, List.map_toArray, List.map_nil]
  · rfl

end MerkleTree

end CompressedLedger
