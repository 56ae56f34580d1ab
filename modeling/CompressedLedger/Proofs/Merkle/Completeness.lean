import CompressedLedger.Proofs.Merkle.Binding
import CompressedLedger.Proofs.Merkle.RawAppend

/-!
# Every appended leaf has a path

The server of a path reads siblings out of the layers, where some are stored and some are empty;
the verifier of a path knows only the bits of the index.  A tree's own nodes are a labelling, and
the path of a leaf is the labelling's list of siblings, so climbing it ends on the root
(`Represents.verify_path`).  This holds of the tree as it is now, for every leaf it has ever taken
(`path_complete`).
-/

namespace CompressedLedger.MerkleTree

open Merkle Fault

theorem leaf?_eq_some_iff {t : MerkleTree} {index : UInt32} {leaf : Scalar} :
    t.leaf? index = some leaf ↔ index.toNat < t.size ∧ t.node 0 index.toNat = leaf := by
  rw [leaf?, node, nodeIn, size]
  by_cases hindex : index.toNat < (t.layer 0).size
  · rw [Array.getElem?_eq_getElem hindex, Option.getD_some, Option.some_inj, and_iff_right hindex]
  · rw [Array.getElem?_eq_none (Nat.le_of_not_lt hindex)]
    simp only [reduceCtorEq, hindex, false_and]

/-- The path of an appended leaf leads to the root. -/
theorem Represents.verify_path {t : MerkleTree} {leaves : List Scalar} (h : t.Represents leaves)
    {index : UInt32} {leaf : Scalar} (hleaf : t.leaf? index = some leaf) :
    ∃ siblings, t.path index = .ok siblings ∧ siblings.length = t.depth ∧
      verify leaf.toHash index (siblings.map Scalar.toHash) t.root.toHash = .ok true := by
  obtain ⟨hindex, rfl⟩ := leaf?_eq_some_iff.mp hleaf
  have hwithin : index.toNat < 2 ^ t.depth := by
    have hle := h.length_le
    rw [← h.size_eq] at hle
    omega
  refine ⟨_, if_pos hindex, ?_, ?_⟩
  · rw [List.length_map, List.length_range]
  · have hverify := verify_siblings h.isLabelling index
    rw [Nat.mod_eq_of_lt hwithin] at hverify
    rw [List.map_map]
    exact hverify

theorem Reachable.verify_path {depth : ℕ} {t : MerkleTree} (ht : Reachable depth t)
    {index : UInt32} {leaf : Scalar} (hleaf : t.leaf? index = some leaf) :
    ∃ siblings, t.path index = .ok siblings ∧ siblings.length = depth ∧
      verify leaf.toHash index (siblings.map Scalar.toHash) t.root.toHash = .ok true := by
  obtain ⟨leaves, hleaves⟩ := ht.represents
  rw [← ht.depth_eq]
  exact hleaves.verify_path hleaf

/-- **Paths are complete.**  In a reachable tree every index with a leaf has a path, of one sibling
for each level, and the leaf and its path verify against the root of the tree as it is; an index
without a leaf is refused.  In bytes the leaf, the path and the root are read without a fault, and
all siblings are below the modulus. -/
theorem path_complete {depth : ℕ} {t : MerkleTree} (ht : Reachable depth t) (index : UInt32) :
    (index.toNat < t.size → ∃ leaf siblings, t.leaf? index = some leaf ∧
      t.path index = .ok siblings ∧ siblings.length = depth ∧
      verify leaf.toHash index (siblings.map Scalar.toHash) t.root.toHash = .ok true ∧
      t.raw.leaf? index = .ok (some leaf.toHash) ∧
      t.raw.path index = .ok (siblings.map Scalar.toHash) ∧ t.raw.root = .ok t.root.toHash ∧
      ∀ sibling ∈ siblings.map Scalar.toHash, sibling.toNat < Scalar.modulus) ∧
    (t.size ≤ index.toNat → t.path index = .error .leafOutOfBounds ∧
      t.raw.path index = .error (.cause .leafOutOfBounds)) := by
  constructor
  · intro hindex
    have hleaf : t.leaf? index = some (t.node 0 index.toNat) := leaf?_eq_some_iff.mpr ⟨hindex, rfl⟩
    obtain ⟨siblings, hpath, hlength, hverify⟩ := ht.verify_path hleaf
    refine ⟨_, siblings, hleaf, hpath, hlength, hverify, ?_, ?_, root_raw t, ?_⟩
    · rw [leaf?_raw, hleaf]
      rfl
    · rw [path_raw, hpath]
      rfl
    · intro sibling hsibling
      obtain ⟨a, -, rfl⟩ := List.mem_map.mp hsibling
      rw [Scalar.toNat_toHash]
      exact a.isLt
  · intro hindex
    have hpath : t.path index = .error .leafOutOfBounds := if_neg (Nat.not_lt_of_le hindex)
    refine ⟨hpath, ?_⟩
    rw [path_raw, hpath]
    rfl

/-- The last of three leaves in a tree of depth 2: its sibling is empty, and its path is
complete. -/
theorem path_complete_of_ragged :
    ∃ start, MerkleTree.empty 2 = .ok start ∧
      let t := start.appendEach [FixedBytes.ofNat 1, FixedBytes.ofNat 2, FixedBytes.ofNat 3]
      Reachable 2 t ∧ (2 : UInt32).toNat < t.size ∧
        ∃ leaf siblings, t.leaf? 2 = some leaf ∧ t.path 2 = .ok siblings ∧ siblings.length = 2 ∧
          verify leaf.toHash 2 (siblings.map Scalar.toHash) t.root.toHash = .ok true ∧
          t.raw.leaf? 2 = .ok (some leaf.toHash) ∧
          t.raw.path 2 = .ok (siblings.map Scalar.toHash) ∧ t.raw.root = .ok t.root.toHash ∧
          ∀ sibling ∈ siblings.map Scalar.toHash, sibling.toNat < Scalar.modulus := by
  obtain ⟨start, hstart⟩ := empty_eq_ok (show 1 ≤ 2 by decide) (show 2 ≤ 32 by decide)
  refine ⟨start, hstart, ?_⟩
  intro t
  have ht : Reachable 2 t := ⟨start, _, hstart, rfl⟩
  have hsize : t.size = 3 := by
    cases hstart
    decide
  have hindex : (2 : UInt32).toNat < t.size := by
    rw [hsize]
    decide
  exact ⟨ht, hindex, (path_complete ht 2).1 hindex⟩

end CompressedLedger.MerkleTree
