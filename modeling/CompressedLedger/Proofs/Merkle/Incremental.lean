import CompressedLedger.Proofs.Merkle.Layers

/-!
# The incremental tree is the tree built from scratch

After any history of appends the layers hold what a computation from the accepted leaves alone
gives (`layers_eq_rootFromLeaves`): every level has a node wherever a leaf stands below, each node
is the root of the perfect subtree over its positions, and the tree's root is the root over all
`2 ^ depth` positions, those behind the last leaf counting as zero.
-/

namespace CompressedLedger.MerkleTree

open Merkle

/-- Padding the encodings of scalars is encoding the padded scalars. -/
theorem getD_map_toHash (leaves : List Scalar) (p : ℕ) :
    (leaves.map Scalar.toHash).getD p FixedBytes.zero = (padded leaves p).toHash := by
  rw [← Scalar.toHash_zero, List.getD_map, padded]

/-- From its encoded leaves, a tree's nodes are found again as encodings. -/
theorem rootFromLeaves_getD (leaves : List Scalar) (height offset : ℕ) :
    rootFromLeaves (fun p => (leaves.map Scalar.toHash).getD p FixedBytes.zero) height offset =
      .ok (subtreeRoot (padded leaves) height offset).toHash := by
  rw [funext (getD_map_toHash leaves), rootFromLeaves_toHash]

theorem Represents.rootFromLeaves_root {t : MerkleTree} {leaves : List Scalar}
    (h : t.Represents leaves) :
    rootFromLeaves (fun p => (leaves.map Scalar.toHash).getD p FixedBytes.zero) t.depth 0 =
      .ok t.root.toHash := by
  rw [rootFromLeaves_getD, h.root_eq]

/-- After any calls on the empty tree every node, stored or empty, is what the accepted leaves
give. -/
theorem rootFromLeaves_accepted {depth : ℕ} {start : MerkleTree}
    (hstart : MerkleTree.empty depth = .ok start) (calls : List Hash) {level : ℕ}
    (hlevel : level ≤ depth) (j : ℕ) :
    rootFromLeaves (fun p => (start.accepted calls).getD p FixedBytes.zero) level (j * 2 ^ level) =
      .ok ((start.appendEach calls).node level j).toHash := by
  obtain ⟨leaves, haccepted, ht⟩ := exists_represents_accepted hstart calls
  have hreached : (start.appendEach calls).depth = depth := depth_of_history hstart calls
  rw [haccepted, rootFromLeaves_getD, ht.node_eq (hlevel.trans_eq hreached.symm)]

/-- **Incremental equals from scratch.**  For every depth and every sequence of append calls, of
which `leaves` were accepted: level `level` holds `⌈leaves.length / 2 ^ level⌉` nodes, the node at
`j` is the root of the perfect subtree of that height over the positions from `j * 2 ^ level` on,
and the tree's root is the root over all positions, with zero at each position not yet taken. -/
theorem layers_eq_rootFromLeaves {depth : ℕ} (hmin : 1 ≤ depth) (hmax : depth ≤ 32)
    (calls : List Hash) :
    ∃ start, MerkleTree.empty depth = .ok start ∧
      let t := start.appendEach calls
      let leaves := start.accepted calls
      let leafAt := fun p => leaves.getD p FixedBytes.zero
      t.depth = depth ∧
      (∀ level ≤ depth, (t.layer level).size = (leaves.length + 2 ^ level - 1) / 2 ^ level ∧
        ∀ j (hj : j < (t.layer level).size),
          rootFromLeaves leafAt level (j * 2 ^ level) = .ok (t.layer level)[j].toHash) ∧
      rootFromLeaves leafAt depth 0 = .ok t.root.toHash := by
  obtain ⟨start, hstart⟩ := empty_eq_ok hmin hmax
  obtain ⟨leaves, haccepted, ht⟩ := exists_represents_accepted hstart calls
  have hreached : (start.appendEach calls).depth = depth := depth_of_history hstart calls
  -- the accepted leaves are encodings, so the computation on bytes is the one on scalars
  refine ⟨start, hstart, hreached, fun level hlevel => ⟨?_, fun j hj => ?_⟩, ?_⟩
  · rw [ht.layer_eq (hlevel.trans_eq hreached.symm), size_layerOf, haccepted, List.length_map]
  · rw [haccepted, rootFromLeaves_getD, ht.getElem_layer (hlevel.trans_eq hreached.symm) j hj]
  · rw [haccepted, ← hreached]
    exact ht.rootFromLeaves_root

/-- Four calls on a tree of depth 3, of which the second brings the modulus and is refused. -/
theorem layers_eq_rootFromLeaves_of_refused :
    let calls := [FixedBytes.ofNat 1, FixedBytes.ofNat Scalar.modulus, FixedBytes.ofNat 2,
      FixedBytes.ofNat 3]
    let leaves := [FixedBytes.ofNat 1, FixedBytes.ofNat 2, FixedBytes.ofNat 3]
    let leafAt := fun p => leaves.getD p FixedBytes.zero
    1 ≤ 3 ∧ 3 ≤ 32 ∧ ∃ start, MerkleTree.empty 3 = .ok start ∧ start.accepted calls = leaves ∧
      let t := start.appendEach calls
      (∀ level ≤ 3, (t.layer level).size = (3 + 2 ^ level - 1) / 2 ^ level ∧
        ∀ j (hj : j < (t.layer level).size),
          rootFromLeaves leafAt level (j * 2 ^ level) = .ok (t.layer level)[j].toHash) ∧
      rootFromLeaves leafAt 3 0 = .ok t.root.toHash := by
  intro calls leaves leafAt
  obtain ⟨start, hstart, -, hlayers, hroot⟩ :=
    layers_eq_rootFromLeaves (show 1 ≤ 3 by decide) (show 3 ≤ 32 by decide) calls
  have haccepted : start.accepted calls = leaves := by
    cases hstart
    decide
  rw [haccepted] at hlayers hroot
  exact ⟨by decide, by decide, start, hstart, haccepted, hlayers, hroot⟩

end CompressedLedger.MerkleTree
