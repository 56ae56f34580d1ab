import CompressedLedger.Proofs.Merkle.Commitment
import CompressedLedger.Proofs.Merkle.Completeness

/-!
# Keeping a path up to date

An append writes one node on every level, and the path of an earlier leaf reads another node on
every level.  The two rows of positions meet on one level only.  Two indices that differ have the
same ancestors above the highest bit in which they differ, and below it their ancestors are further
apart than siblings are; so at the level of that bit, and nowhere else, an ancestor of one is the
sibling of an ancestor of the other (`sibling_shiftRight_eq_iff`).

An append keeps every node that does not stand above the new leaf (`Represents.node_push`), hence
all siblings of an earlier path but one (`Represents.path_push`).  Whoever keeps a path follows an
append by a single write, and the path verifies again (`append_patches_path`).  Over a history, a
sibling stays as it is for as long as no leaf is appended below it
(`Represents.sibling_appendEach`).
-/

namespace CompressedLedger.MerkleTree

open Merkle

/-! ### Where two ways up meet -/

/-- The level on which the ways up from two positions stand side by side: the highest bit in which
the positions differ. -/
def forkLevel (i n : ℕ) : ℕ := Nat.log2 (i ^^^ n)

/-- The highest bit is the only one that a shift can bring to stand alone. -/
theorem shiftRight_eq_one_iff {m level : ℕ} (hm : m ≠ 0) :
    m >>> level = 1 ↔ level = Nat.log2 m := by
  have hpos : 0 < 2 ^ level := by positivity
  rw [eq_comm (a := level), Nat.log2_eq_iff hm, Nat.shiftRight_eq_div_pow, Nat.div_eq_iff hpos,
    pow_succ]
  omega

theorem sibling_eq_iff {a b : ℕ} : sibling a = b ↔ a ^^^ b = 1 := by
  constructor
  · rintro rfl
    exact Nat.xor_xor_cancel_left a 1
  · intro h
    rw [sibling, ← h, Nat.xor_xor_cancel_left]

/-- On one level only is the sibling on the way up from a position an ancestor of the other. -/
theorem sibling_shiftRight_eq_iff {i n level : ℕ} (h : i ≠ n) :
    sibling (i >>> level) = n >>> level ↔ level = forkLevel i n := by
  have hdiffer : i ^^^ n ≠ 0 := fun hzero => h (Nat.xor_eq_zero_iff.mp hzero)
  rw [sibling_eq_iff, ← Nat.shiftRight_xor_distrib, shiftRight_eq_one_iff hdiffer, forkLevel]

theorem forkLevel_lt {i n depth : ℕ} (hi : i < 2 ^ depth) (hn : n < 2 ^ depth) (h : i ≠ n) :
    forkLevel i n < depth := by
  have hdiffer : i ^^^ n ≠ 0 := fun hzero => h (Nat.xor_eq_zero_iff.mp hzero)
  exact (Nat.log2_lt hdiffer).mpr (Nat.xor_lt_two_pow hi hn)

/-! ### One append -/

namespace Represents

variable {t : MerkleTree} {leaves : List Scalar}

/-- A successful append stores a scalar at the index behind the leaves, and answers that index. -/
theorem of_append_eq_ok (h : t.Represents leaves) {leaf : Hash} {n : UInt32}
    (happend : (t.append leaf).1 = .ok n) :
    leaves.length < 2 ^ t.depth ∧ n.toNat = leaves.length ∧
      ∃ a, (t.append leaf).2 = t.push a := by
  rcases t.append_cases leaf with ⟨-, hcall⟩ | ⟨-, -, hcall⟩ | ⟨hroom, a, -, hcall⟩
  · rw [hcall] at happend
    cases happend
  · rw [hcall] at happend
    cases happend
  · rw [hcall] at happend
    refine ⟨h.isFull_eq_false_iff.mp hroom, ?_, a, congrArg Prod.snd hcall⟩
    rw [← Except.ok.inj happend, UInt32.toNat_ofNat_of_lt' (h.size_lt hroom), h.size_eq]

/-- An append keeps every node that does not stand above the new leaf. -/
theorem node_push (h : t.Represents leaves) (hroom : leaves.length < 2 ^ t.depth) (leaf : Scalar)
    {level j : ℕ} (hlevel : level ≤ t.depth) (hj : j ≠ leaves.length >>> level) :
    (t.push leaf).node level j = t.node level j := by
  have hpos : 0 < 2 ^ level := by positivity
  rw [(h.push hroom leaf).node_eq hlevel, h.node_eq hlevel]
  refine subtreeRoot_congr fun p hlo hhi => padded_append_of_ne (fun hp => hj ?_) leaf
  -- a subtree that holds the new leaf's position is the one above it
  rw [Nat.shiftRight_eq_div_pow, ← hp, eq_comm, Nat.div_eq_iff hpos]
  omega

/-- The path of an earlier leaf after an append is the path before it with one sibling replaced. -/
theorem path_push (h : t.Represents leaves) (hroom : leaves.length < 2 ^ t.depth) (leaf : Scalar)
    {i : UInt32} (hi : i.toNat < leaves.length) :
    let fork := forkLevel i.toNat leaves.length
    ∃ siblings, t.path i = .ok siblings ∧ siblings.length = t.depth ∧
      (t.push leaf).path i =
        .ok (siblings.set fork ((t.push leaf).node fork (leaves.length >>> fork))) := by
  intro fork
  have hnext : i.toNat < (t.push leaf).size := by
    rw [(h.push hroom leaf).size_eq, List.length_append]
    omega
  rw [path, path, if_pos (h.size_eq ▸ hi), if_pos hnext]
  refine ⟨_, rfl, by rw [List.length_map, List.length_range], congrArg Except.ok ?_⟩
  show (List.range t.depth).map _ = _
  apply List.ext_getElem
  · rw [List.length_set, List.length_map, List.length_map]
  · intro level hlevel _
    rw [List.length_map, List.length_range] at hlevel
    have hmeet : sibling (i.toNat >>> level) = leaves.length >>> level ↔ level = fork :=
      sibling_shiftRight_eq_iff hi.ne
    rw [List.getElem_map, List.getElem_set, List.getElem_map, List.getElem_range]
    split_ifs with hfork
    · rw [hmeet.mpr hfork.symm, hfork]
    · exact h.node_push hroom leaf hlevel.le fun heq => hfork (hmeet.mp heq).symm

/-- The root of a subtree, computed from all the leaves of the tree. -/
theorem rootFromLeaves_paddedLeaves (h : t.Represents leaves) (height offset : ℕ) :
    rootFromLeaves (fun p => t.paddedLeaves.getD p FixedBytes.zero) height offset =
      .ok (subtreeRoot (padded leaves) height offset).toHash := by
  have hleaf : ∀ p, t.paddedLeaves.getD p FixedBytes.zero = (padded leaves p).toHash := by
    intro p
    rw [h.paddedLeaves_eq, List.getD_eq_getElem?_getD, List.getElem?_map]
    by_cases hp : p < 2 ^ t.depth
    · rw [List.getElem?_range hp]
      rfl
    · have hlength := h.length_le
      rw [List.getElem?_eq_none (by rw [List.length_range]; omega), padded_of_le (by omega)]
      rfl
  rw [funext hleaf, rootFromLeaves_toHash]

/-- Over a history, a sibling stays as it is for as long as no leaf is appended below it. -/
theorem sibling_appendEach (h : t.Represents leaves) (calls : List Hash) {i level : ℕ}
    (hi : i < t.size) (hlevel : level ≤ t.depth)
    (hfar : ∀ n, t.size ≤ n → n < (t.appendEach calls).size → forkLevel i n ≠ level) :
    (t.appendEach calls).node level (sibling (i >>> level)) =
      t.node level (sibling (i >>> level)) := by
  induction calls generalizing t leaves with
  | nil => rfl
  | cons leaf rest ih =>
    rw [appendEach_cons] at hfar ⊢
    rcases t.append_cases leaf with ⟨-, hcall⟩ | ⟨-, -, hcall⟩ | ⟨hroom, a, -, hcall⟩
    · rw [hcall] at hfar ⊢
      exact ih h hi hlevel hfar
    · rw [hcall] at hfar ⊢
      exact ih h hi hlevel hfar
    · have hpushed : (t.append leaf).2 = t.push a := congrArg Prod.snd hcall
      have hlength := h.isFull_eq_false_iff.mp hroom
      have hnext := h.push hlength a
      rw [hpushed] at hfar ⊢
      have hsize := h.size_push hroom a
      have hgrown := hnext.size_appendEach rest
      rw [ih hnext (by omega) hlevel fun n hlo hhi => hfar n (by omega) hhi]
      -- the sibling would stand above the new leaf only on the level where the ways up meet
      refine h.node_push hlength a hlevel fun hmeet => ?_
      rw [← h.size_eq, sibling_shiftRight_eq_iff hi.ne] at hmeet
      exact hfar t.size le_rfl (by omega) hmeet.symm

end Represents

/-- **An append changes one sibling of an earlier path.**  Let a leaf be appended to a reachable
tree at index `n`, and let `i` be an earlier index.  The leaf at `i` stays, and its path stays but
for the sibling at the highest bit in which `i` and `n` differ; the new sibling there is the root of
the subtree of that height that holds `n`, computed from the leaves of the new tree.  The old path
with this one write verifies the leaf against the new root. -/
theorem append_patches_path {depth : ℕ} {t : MerkleTree} (ht : Reachable depth t) {leaf : Hash}
    {i n : UInt32} (happend : (t.append leaf).1 = .ok n) (hi : i < n) :
    let u := (t.append leaf).2
    let fork := forkLevel i.toNat n.toNat
    ∃ x siblings patch, t.leaf? i = some x ∧ u.leaf? i = some x ∧
      t.path i = .ok siblings ∧ siblings.length = depth ∧ fork < depth ∧
      u.path i = .ok (siblings.set fork patch) ∧
      rootFromLeaves (fun p => u.paddedLeaves.getD p FixedBytes.zero) fork
        (n.toNat / 2 ^ fork * 2 ^ fork) = .ok patch.toHash ∧
      verify x.toHash i ((siblings.set fork patch).map Scalar.toHash) u.root.toHash = .ok true := by
  intro u fork
  obtain ⟨leaves, hleaves⟩ := ht.represents
  obtain ⟨hlength, hn, a, hpushed⟩ := hleaves.of_append_eq_ok happend
  change u = t.push a at hpushed
  have hin : i.toNat < leaves.length := hn ▸ UInt32.lt_iff_toNat_lt.mp hi
  have hleaf : t.leaf? i = some leaves[i.toNat] := by
    rw [hleaves.leaf?_eq, List.getElem?_eq_getElem hin]
  have hkept : u.leaf? i = some leaves[i.toNat] := hleaves.leaf?_appendEach hleaf [leaf]
  have hbelow : fork < t.depth :=
    forkLevel_lt (hin.trans hlength) (hn ▸ hlength) (hn ▸ hin.ne)
  obtain ⟨siblings, hpath, hcount, hpatched⟩ := hleaves.path_push hlength a hin
  rw [← hn, ← hpushed] at hpatched
  -- the patched path is the path of the new tree, and that one verifies
  obtain ⟨after, hafter, -, hverify⟩ := (ht.appendEach [leaf]).verify_path hkept
  obtain rfl : siblings.set fork (u.node fork (n.toNat >>> fork)) = after :=
    Except.ok.inj (hpatched.symm.trans hafter)
  have hnext : u.Represents (leaves ++ [a]) := hpushed ▸ hleaves.push hlength a
  have hheight : fork ≤ u.depth := by
    rw [hpushed]
    exact hbelow.le
  refine ⟨_, siblings, _, hleaf, hkept, hpath, hcount.trans ht.depth_eq, ht.depth_eq ▸ hbelow,
    hpatched, ?_, hverify⟩
  rw [hnext.rootFromLeaves_paddedLeaves, hnext.node_eq hheight, Nat.shiftRight_eq_div_pow]

/-- The fourth leaf of a tree of depth 3, seen from the first one: the highest bit in which 0 and 3
differ is bit 1, so the write is on level 1, where the third leaf had an empty neighbour. -/
theorem append_patches_path_of_fourth :
    ∃ start, MerkleTree.empty 3 = .ok start ∧
      let t := start.appendEach [FixedBytes.ofNat 1, FixedBytes.ofNat 2, FixedBytes.ofNat 3]
      let u := (t.append (FixedBytes.ofNat 4)).2
      Reachable 3 t ∧ (t.append (FixedBytes.ofNat 4)).1 = .ok 3 ∧ (0 : UInt32) < 3 ∧
        ∃ x siblings patch, t.leaf? 0 = some x ∧ u.leaf? 0 = some x ∧
          t.path 0 = .ok siblings ∧ siblings.length = 3 ∧
          u.path 0 = .ok (siblings.set 1 patch) ∧
          rootFromLeaves (fun p => u.paddedLeaves.getD p FixedBytes.zero) 1 2 =
            .ok patch.toHash ∧
          verify x.toHash 0 ((siblings.set 1 patch).map Scalar.toHash) u.root.toHash =
            .ok true := by
  obtain ⟨start, hstart⟩ := empty_eq_ok (show 1 ≤ 3 by decide) (show 3 ≤ 32 by decide)
  refine ⟨start, hstart, ?_⟩
  intro t u
  have ht : Reachable 3 t := ⟨start, _, hstart, rfl⟩
  have happend : (t.append (FixedBytes.ofNat 4)).1 = .ok 3 := by
    cases hstart
    decide
  have hi : (0 : UInt32) < 3 := by decide
  have hfork : forkLevel (0 : UInt32).toNat (3 : UInt32).toNat = 1 := by decide
  have hpatch := append_patches_path ht happend hi
  rw [hfork] at hpatch
  obtain ⟨x, siblings, patch, hleaf, hkept, hpath, hcount, -, hpatched, hroot, hverify⟩ := hpatch
  exact ⟨ht, happend, hi, x, siblings, patch, hleaf, hkept, hpath, hcount, hpatched, hroot, hverify⟩

end CompressedLedger.MerkleTree
