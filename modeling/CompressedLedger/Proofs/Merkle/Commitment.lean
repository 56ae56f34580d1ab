import CompressedLedger.Proofs.Merkle.Binding

/-!
# A root commits to its leaves

The root is a function of the leaves followed by zeros up to the width of the tree, and not of how
many of them were appended: zero leaves at the end make no difference (`root_commits`).  Conversely
two trees of one root have the same padded leaves, or their layers show a collision.  Both trees are
labellings, and two labellings that agree at the top agree at the bottom, unless at some level the
two values below one position differ and have one join (`labelling_binding`).

The padded leaves of a tree are the leaves that its calls stored, and zeros
(`paddedLeaves_appendEach`), so all this can be said of two histories of calls
(`root_commits_accepted`).
-/

namespace CompressedLedger

open Merkle

namespace Merkle

/-- Two labellings with one value at the top have the same values at the bottom, or the pairs below
some position are different and have one join. -/
theorem labelling_binding {height : ℕ} {f g : ℕ → ℕ → Scalar} (hf : IsLabelling height f)
    (hg : IsLabelling height g) (htop : f height 0 = g height 0) :
    (∀ p < 2 ^ height, f 0 p = g 0 p) ∨
    ∃ level < height, ∃ p < 2 ^ (height - (level + 1)),
      Poseidon.PairCollides (childPair f level p) (childPair g level p) := by
  -- without the lowest level both are labellings with the same top, so only that level is left
  induction height generalizing f g with
  | zero =>
    refine Or.inl fun p hp => ?_
    obtain rfl := Nat.lt_one_iff.mp hp
    exact htop
  | succ height ih =>
    rcases ih hf.succ hg.succ htop with hparents | ⟨level, hlevel, p, hp, hcollides⟩
    · by_cases hpairs : ∀ p < 2 ^ height, childPair f 0 p = childPair g 0 p
      · refine Or.inl fun p hp => ?_
        have hhalf : p / 2 < 2 ^ height := by
          rw [pow_succ] at hp
          omega
        have hpair := hpairs (p / 2) hhalf
        rw [childPair_div_two, childPair_div_two, orderedPair_inj, Scalar.toHash_inj] at hpair
        exact hpair.1
      · simp only [not_forall] at hpairs
        obtain ⟨p, hp, hne⟩ := hpairs
        refine Or.inr ⟨0, Nat.succ_pos height, p, hp, hne, (f 1 p).toHash, ?_, ?_⟩
        · exact hashPair_childPair hf (Nat.succ_pos height) p
        · rw [hparents p hp]
          exact hashPair_childPair hg (Nat.succ_pos height) p
    · refine Or.inr ⟨level + 1, Nat.succ_lt_succ hlevel, p, ?_, hcollides⟩
      rwa [Nat.add_sub_add_right]

end Merkle

namespace MerkleTree

/-- The leaves of a tree, and zero leaves up to its width. -/
def paddedLeaves (t : MerkleTree) : List Hash :=
  (t.layer 0).toList.map Scalar.toHash ++ List.replicate (t.capacity - t.size) FixedBytes.zero

/-- The padded leaves, position by position. -/
theorem Represents.paddedLeaves_eq {t : MerkleTree} {leaves : List Scalar}
    (h : t.Represents leaves) :
    t.paddedLeaves = (List.range (2 ^ t.depth)).map fun p => (padded leaves p).toHash := by
  obtain ⟨empty, hwidth⟩ := Nat.exists_eq_add_of_le h.length_le
  have htaken : leaves.map Scalar.toHash =
      (List.range leaves.length).map fun p => (padded leaves p).toHash := by
    apply List.ext_getElem
    · rw [List.length_map, List.length_map, List.length_range]
    · intro p hp _
      rw [List.length_map] at hp
      rw [List.getElem_map, List.getElem_map, List.getElem_range, padded,
        List.getD_eq_getElem _ _ hp]
  have hempty : List.replicate empty FixedBytes.zero =
      (List.range empty).map fun p => (padded leaves (leaves.length + p)).toHash := by
    simp only [padded_of_le (Nat.le_add_right _ _), Scalar.toHash_zero, List.map_const',
      List.length_range]
  rw [paddedLeaves, h.toList_layer_zero, h.size_eq, capacity, Nat.one_shiftLeft, hwidth,
    Nat.add_sub_cancel_left, List.range_add, List.map_append, List.map_map, htaken, hempty]
  rfl

/-- Two trees of one depth have the same padded leaves exactly if they do at every position. -/
theorem Represents.paddedLeaves_eq_iff {s t : MerkleTree} {xs ys : List Scalar}
    (hs : s.Represents xs) (ht : t.Represents ys) (hdepth : s.depth = t.depth) :
    s.paddedLeaves = t.paddedLeaves ↔ ∀ p < 2 ^ t.depth, padded xs p = padded ys p := by
  rw [hs.paddedLeaves_eq, ht.paddedLeaves_eq, hdepth, List.map_inj_left]
  simp only [List.mem_range, Scalar.toHash_inj]

/-- Zero leaves at the end make no difference to the root. -/
theorem Represents.root_eq_of_padded_eq {s t : MerkleTree} {xs ys : List Scalar}
    (hs : s.Represents xs) (ht : t.Represents ys) (hdepth : s.depth = t.depth)
    (h : ∀ p < 2 ^ t.depth, padded xs p = padded ys p) : s.root = t.root := by
  rw [hs.root_eq, ht.root_eq, hdepth]
  refine subtreeRoot_congr fun p _ hp => h p ?_
  rwa [Nat.zero_add] at hp

theorem padded_append_zero (leaves : List Scalar) (p : ℕ) :
    padded (leaves ++ [0]) p = padded leaves p := by
  rcases eq_or_ne p leaves.length with rfl | hp
  · rw [padded_length, padded_of_le le_rfl]
  · exact padded_append_of_ne hp 0

/-- Appending the zero leaf to a tree with room succeeds and keeps the root. -/
theorem Represents.root_append_zero {t : MerkleTree} {leaves : List Scalar}
    (h : t.Represents leaves) (hroom : t.isFull = false) :
    (t.append FixedBytes.zero).1 = .ok (UInt32.ofNat t.size) ∧
      (t.append FixedBytes.zero).2.root = t.root := by
  have hcall := append_toHash hroom 0
  rw [Scalar.toHash_zero] at hcall
  have hnext := h.push (h.isFull_eq_false_iff.mp hroom) 0
  rw [hcall]
  exact ⟨rfl, hnext.root_eq_of_padded_eq h rfl fun p _ => padded_append_zero leaves p⟩

theorem Reachable.root_eq_of_paddedLeaves_eq {depth : ℕ} {s t : MerkleTree}
    (hs : Reachable depth s) (ht : Reachable depth t) (h : s.paddedLeaves = t.paddedLeaves) :
    s.root = t.root := by
  obtain ⟨xs, hxs⟩ := hs.represents
  obtain ⟨ys, hys⟩ := ht.represents
  have hdepth : s.depth = t.depth := hs.depth_eq.trans ht.depth_eq.symm
  exact hxs.root_eq_of_padded_eq hys hdepth ((hxs.paddedLeaves_eq_iff hys hdepth).mp h)

/-- Trees of one root with different leaves show a collision. -/
theorem Reachable.exists_pairCollides {depth : ℕ} {s t : MerkleTree} (hs : Reachable depth s)
    (ht : Reachable depth t) (hroot : s.root = t.root) (hne : s.paddedLeaves ≠ t.paddedLeaves) :
    ∃ level < depth, ∃ p < 2 ^ (depth - (level + 1)),
      Poseidon.PairCollides (childPair s.node level p) (childPair t.node level p) := by
  obtain ⟨xs, hxs⟩ := hs.represents
  obtain ⟨ys, hys⟩ := ht.represents
  have hdepth : s.depth = t.depth := hs.depth_eq.trans ht.depth_eq.symm
  have htop : s.node depth 0 = t.node depth 0 := by
    rwa [root, root, hs.depth_eq, ht.depth_eq] at hroot
  refine (labelling_binding hs.isLabelling ht.isLabelling htop).resolve_left fun hleaves => hne ?_
  -- the values at the bottom are the padded leaves
  refine (hxs.paddedLeaves_eq_iff hys hdepth).mpr fun p hp => ?_
  have hleaf := hleaves p (ht.depth_eq ▸ hp)
  rwa [hxs.node_eq (Nat.zero_le _), hys.node_eq (Nat.zero_le _), pow_zero, Nat.mul_one] at hleaf

/-- **A root commits to the leaves up to trailing zeros.**  Reachable trees of one depth with the
same padded leaves have one root; in particular appending the zero leaf to a tree with room keeps
the root.  And if two trees of one root have different padded leaves, then at some level the pairs
of their nodes below some position are different and have one join. -/
theorem root_commits {depth : ℕ} {s t : MerkleTree} (hs : Reachable depth s)
    (ht : Reachable depth t) :
    (s.paddedLeaves = t.paddedLeaves → s.root = t.root) ∧
    (t.isFull = false → (t.append FixedBytes.zero).1 = .ok (UInt32.ofNat t.size) ∧
      (t.append FixedBytes.zero).2.root = t.root) ∧
    (s.root = t.root → s.paddedLeaves ≠ t.paddedLeaves →
      ∃ level < depth, ∃ p < 2 ^ (depth - (level + 1)),
        Poseidon.PairCollides (childPair s.node level p) (childPair t.node level p)) := by
  refine ⟨hs.root_eq_of_paddedLeaves_eq ht, fun hroom => ?_, hs.exists_pairCollides ht⟩
  obtain ⟨leaves, hleaves⟩ := ht.represents
  exact hleaves.root_append_zero hroom

/-- One leaf, and the same leaf with two zeros behind it, in trees of depth 2 that take one more. -/
theorem root_commits_of_zeros :
    ∃ start, MerkleTree.empty 2 = .ok start ∧
      let s := start.appendEach [FixedBytes.ofNat 7]
      let t := start.appendEach [FixedBytes.ofNat 7, FixedBytes.zero, FixedBytes.zero]
      Reachable 2 s ∧ Reachable 2 t ∧ s.paddedLeaves = t.paddedLeaves ∧ s.root = t.root ∧
        t.isFull = false ∧ (t.append FixedBytes.zero).2.root = t.root := by
  obtain ⟨start, hstart⟩ := empty_eq_ok (show 1 ≤ 2 by decide) (show 2 ≤ 32 by decide)
  refine ⟨start, hstart, ?_⟩
  intro s t
  have hs : Reachable 2 s := ⟨start, _, hstart, rfl⟩
  have ht : Reachable 2 t := ⟨start, _, hstart, rfl⟩
  have hpadded : s.paddedLeaves = t.paddedLeaves := by
    cases hstart
    decide
  have hroom : t.isFull = false := by
    cases hstart
    decide
  obtain ⟨hequal, hzero, -⟩ := root_commits hs ht
  exact ⟨hs, ht, hpadded, hequal hpadded, hroom, (hzero hroom).2⟩

/-! ### Histories -/

/-- Leaves, and zero leaves up to a width. -/
def zeroPadded (width : ℕ) (leaves : List Hash) : List Hash :=
  leaves ++ List.replicate (width - leaves.length) FixedBytes.zero

/-- The leaves of a tree are those that its calls stored. -/
theorem paddedLeaves_appendEach {depth : ℕ} {start : MerkleTree}
    (hstart : MerkleTree.empty depth = .ok start) (calls : List Hash) :
    (start.appendEach calls).paddedLeaves = zeroPadded (2 ^ depth) (start.accepted calls) := by
  obtain ⟨leaves, haccepted, ht⟩ := exists_represents_accepted hstart calls
  rw [paddedLeaves, zeroPadded, ht.toList_layer_zero, ht.size_eq, haccepted, List.length_map,
    capacity, Nat.one_shiftLeft, depth_of_history hstart]

/-- A call with the zero leaf keeps the root, be it accepted or refused. -/
theorem Represents.root_appendEach_zero {t : MerkleTree} {leaves : List Scalar}
    (h : t.Represents leaves) : (t.appendEach [FixedBytes.zero]).root = t.root := by
  by_cases hfull : t.isFull = true
  · have hcall : t.append FixedBytes.zero = (.error .treeFull, t) := if_pos hfull
    show (t.append FixedBytes.zero).2.root = t.root
    rw [hcall]
  · exact (h.root_append_zero (Bool.eq_false_of_not_eq_true hfull)).2

/-- The same of two histories of calls on the empty tree.  If their accepted leaves are equal up to
trailing zeros, they lead to one root; one more call with the zero leaf keeps the root; and one root
comes from accepted leaves that are equal up to trailing zeros, or the two trees show a
collision. -/
theorem root_commits_accepted {depth : ℕ} {start : MerkleTree}
    (hstart : MerkleTree.empty depth = .ok start) (xs ys : List Hash) :
    let s := start.appendEach xs
    let t := start.appendEach ys
    let leaves := zeroPadded (2 ^ depth) (start.accepted xs)
    let leaves' := zeroPadded (2 ^ depth) (start.accepted ys)
    (leaves = leaves' → s.root = t.root) ∧
    (start.appendEach (xs ++ [FixedBytes.zero])).root = s.root ∧
    (s.root = t.root → leaves = leaves' ∨
      ∃ level < depth, ∃ p < 2 ^ (depth - (level + 1)),
        Poseidon.PairCollides (childPair s.node level p) (childPair t.node level p)) := by
  intro s t leaves leaves'
  have hs : Reachable depth s := ⟨start, xs, hstart, rfl⟩
  have ht : Reachable depth t := ⟨start, ys, hstart, rfl⟩
  have hleaves : s.paddedLeaves = leaves := paddedLeaves_appendEach hstart xs
  have hleaves' : t.paddedLeaves = leaves' := paddedLeaves_appendEach hstart ys
  rw [← hleaves, ← hleaves']
  refine ⟨hs.root_eq_of_paddedLeaves_eq ht, ?_, fun hroot => ?_⟩
  · obtain ⟨stored, hstored⟩ := hs.represents
    rw [appendEach_append]
    exact hstored.root_appendEach_zero
  · by_cases hequal : s.paddedLeaves = t.paddedLeaves
    · exact Or.inl hequal
    · exact Or.inr (hs.exists_pairCollides ht hroot hequal)

end MerkleTree

end CompressedLedger
