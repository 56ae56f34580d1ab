import CompressedLedger.Proofs.Merkle.Climb
import CompressedLedger.Proofs.Merkle.Incremental

/-!
# A root binds its paths

The nodes of a reachable tree, stored or empty, are a labelling (`Reachable.isLabelling`).  So a
leaf and a path that verify against the tree's root are the tree's own leaf and siblings at that
position, or they open the root in a second way, and then two different pairs with one join can be
read off (`verify_binding`).  Whoever presents the path chooses the leaf, the index and all the
siblings freely.  For a tree given by the calls that made it, `verify_binds_accepted` says the same
of the leaves those calls stored.
-/

namespace CompressedLedger.MerkleTree

open Merkle

theorem Represents.isLabelling {t : MerkleTree} {leaves : List Scalar} (h : t.Represents leaves) :
    IsLabelling t.depth t.node :=
  fun _ hlevel p => h.node_succ hlevel p

theorem Reachable.isLabelling {depth : ℕ} {t : MerkleTree} (h : Reachable depth t) :
    IsLabelling depth t.node := by
  obtain ⟨leaves, ht⟩ := h.represents
  exact h.depth_eq ▸ ht.isLabelling

/-- The leaf at a position, or the zero leaf where none was appended. -/
def leafOrZero (t : MerkleTree) (index : UInt32) : Hash :=
  ((t.leaf? index).map Scalar.toHash).getD FixedBytes.zero

theorem leafOrZero_ofNat (t : MerkleTree) {i : ℕ} (hi : i < 2 ^ 32) :
    t.leafOrZero (UInt32.ofNat i) = (t.node 0 i).toHash := by
  have hzero : emptyRoot 0 = 0 := emptyRoot_eq_emptyRootOf (Nat.zero_le _)
  rw [leafOrZero, leaf?, UInt32.toNat_ofNat_of_lt' hi, node, nodeIn, hzero, ← Scalar.toHash_zero]
  exact Option.getD_map _ _ _

/-- A path that verifies follows the tree's own nodes from the leaf on, or leaves them at a
collision. -/
theorem Reachable.follows_or_collides {depth : ℕ} {t : MerkleTree} (ht : Reachable depth t)
    {leaf : Hash} {index : UInt32} {path : List Hash} (hlength : path.length = depth)
    (hverify : verify leaf index path t.root.toHash = .ok true) :
    let i := index.toNat % 2 ^ depth
    (leaf = (t.node 0 i).toHash ∧ ∀ level (hlevel : level < path.length),
      path[level] = (t.node level (sibling (i >>> level))).toHash) ∨
    ∃ level < depth, ∃ opened, openedPair leaf index.toNat path level = .ok opened ∧
      Poseidon.PairCollides opened (childPair t.node level (i / 2 ^ (level + 1))) := by
  intro i
  have hi : i < 2 ^ depth := Nat.mod_lt _ (by positivity)
  have hlabel := ht.isLabelling
  have hclimb := verify_eq_ok_true_iff.mp hverify
  -- the root stands at position zero, which is where the index modulo the width climbs to
  have hroot : t.root = t.node depth (i / 2 ^ depth) := by
    rw [root, ht.depth_eq, Nat.div_eq_of_lt hi]
  subst hlength
  have hlow : index.toNat % 2 ^ path.length = i % 2 ^ path.length := (Nat.mod_eq_of_lt hi).symm
  rw [climb_congr hlow, hroot] at hclimb
  rcases climb_binding hlabel hclimb with hfollows | ⟨level, hlevel, opened, hopened, h⟩
  · exact Or.inl hfollows
  · rw [openedPair_mod leaf index.toNat hlevel] at hopened
    exact Or.inr ⟨level, hlevel, opened, hopened, h⟩

/-- **Paths are bound by the root.**  If a leaf and a path verify against the root of a reachable
tree at any index, then with the index taken modulo the number of positions the leaf is the tree's
and every sibling is the tree's node at that place, zero or empty where nothing is stored; or at
some level the pair that the path joins and the tree's own pair are different and have one join. -/
theorem verify_binding {depth : ℕ} {t : MerkleTree} (ht : Reachable depth t) {leaf : Hash}
    {index : UInt32} {path : List Hash} (hlength : path.length = depth)
    (hverify : verify leaf index path t.root.toHash = .ok true) :
    let i := index.toNat % 2 ^ depth
    (leaf = t.leafOrZero (UInt32.ofNat i) ∧ ∀ level (hlevel : level < path.length),
      path[level] = (t.node level (sibling (i >>> level))).toHash) ∨
    ∃ level < depth, ∃ opened, openedPair leaf index.toNat path level = .ok opened ∧
      Poseidon.PairCollides opened (childPair t.node level (i / 2 ^ (level + 1))) := by
  intro i
  rcases ht.follows_or_collides hlength hverify with ⟨hleaf, hsiblings⟩ | hcollides
  · rw [leafOrZero_ofNat t (lt_of_le_of_lt (Nat.mod_le _ _) index.toNat_lt)]
    exact Or.inl ⟨hleaf, hsiblings⟩
  · exact Or.inr hcollides

/-- Three leaves in a tree of depth 2, and the path of the second one presented at index 5. -/
theorem verify_binding_of_index_five :
    ∃ start, MerkleTree.empty 2 = .ok start ∧
      let t := start.appendEach [FixedBytes.ofNat 1, FixedBytes.ofNat 2, FixedBytes.ofNat 3]
      let path := [(t.node 0 0).toHash, (t.node 1 1).toHash]
      Reachable 2 t ∧ path.length = 2 ∧
        verify (t.node 0 1).toHash 5 path t.root.toHash = .ok true ∧
        (((t.node 0 1).toHash = t.leafOrZero 1 ∧ ∀ level (hlevel : level < path.length),
          path[level] = (t.node level (sibling (1 >>> level))).toHash) ∨
        ∃ level < 2, ∃ opened, openedPair (t.node 0 1).toHash 5 path level = .ok opened ∧
          Poseidon.PairCollides opened (childPair t.node level (1 / 2 ^ (level + 1)))) := by
  obtain ⟨start, hstart⟩ := empty_eq_ok (show 1 ≤ 2 by decide) (show 2 ≤ 32 by decide)
  refine ⟨start, hstart, ?_⟩
  have ht : Reachable 2 (start.appendEach [FixedBytes.ofNat 1, FixedBytes.ofNat 2,
    FixedBytes.ofNat 3]) := ⟨start, _, hstart, rfl⟩
  -- nothing more is used of the tree, and without its history no hash is ever computed
  generalize start.appendEach _ = t at ht ⊢
  intro t path
  have hposition : (5 : UInt32).toNat % 2 ^ 2 = 1 := rfl
  have hverify := verify_siblings ht.isLabelling 5
  have hroot : t.root = t.node 2 0 := by rw [root, ht.depth_eq]
  rw [hposition, ← hroot] at hverify
  have hbound := verify_binding ht rfl hverify
  rw [hposition] at hbound
  exact ⟨ht, rfl, hverify, hbound⟩

/-- The same of the calls that made the tree.  A leaf and a path that verify are the leaf that was
accepted at the index, or zero if none was, and the roots of the subtrees next to it over the
accepted leaves; or they show a collision. -/
theorem verify_binds_accepted {depth : ℕ} {start : MerkleTree}
    (hstart : MerkleTree.empty depth = .ok start) (calls : List Hash) {leaf : Hash}
    {index : UInt32} {path : List Hash} (hlength : path.length = depth)
    (hverify : verify leaf index path (start.appendEach calls).root.toHash = .ok true) :
    let leafAt := fun p => (start.accepted calls).getD p FixedBytes.zero
    let i := index.toNat % 2 ^ depth
    (leaf = leafAt i ∧ ∀ level (hlevel : level < path.length),
      rootFromLeaves leafAt level (sibling (i >>> level) * 2 ^ level) = .ok path[level]) ∨
    ∃ level < depth, ∃ opened, openedPair leaf index.toNat path level = .ok opened ∧
      Poseidon.PairCollides opened
        (childPair (start.appendEach calls).node level (i / 2 ^ (level + 1))) := by
  intro leafAt i
  have ht : Reachable depth (start.appendEach calls) := ⟨start, calls, hstart, rfl⟩
  rcases ht.follows_or_collides hlength hverify with ⟨hleaf, hsiblings⟩ | hcollides
  · refine Or.inl ⟨?_, fun level hlevel => ?_⟩
    · -- at height zero the root of a subtree is its leaf
      have hbottom := rootFromLeaves_accepted hstart calls (Nat.zero_le depth) i
      rw [pow_zero, Nat.mul_one] at hbottom
      rw [hleaf]
      exact (Except.ok.inj hbottom).symm
    · rw [hsiblings level hlevel]
      exact rootFromLeaves_accepted hstart calls (hlength ▸ hlevel.le) _
  · exact Or.inr hcollides

end CompressedLedger.MerkleTree
