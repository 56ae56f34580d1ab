import CompressedLedger.Proofs.Merkle.History
import CompressedLedger.Proofs.Merkle.Subtree
import Mathlib.Data.List.GetD

/-!
# The layers of a growing tree

`layerOf leaves level` is the layer of a level computed from the leaves alone: its nodes are the
roots of the perfect subtrees of that height, over the leaves followed by zeros, as far as a leaf
stands below them.  A tree `Represents` its leaves if all its layers are these.

Appending stores one node in every layer.  At level `k` it is the root of the subtree that holds
the new leaf, and every other node of the layer keeps its leaves (`store_layerOf`); its parent is
found from the layer just stored and the empty roots (`parentOf_layerOf`).  So an append keeps the
representation (`Represents.push`), and a whole history represents the leaves it accepted
(`Represents.appendEach`).

In a tree that represents its leaves every node, stored or empty, is the root of its subtree
(`Represents.node_eq`), and therefore the join of the two nodes below it (`Represents.node_succ`).
The lowest layer is the list of leaves, and it only grows (`Represents.leaf?_appendEach`).
-/

namespace CompressedLedger

open Merkle

namespace MerkleTree

/-- The leaf at a position, and zero behind the last one. -/
def padded (leaves : List Scalar) (p : ℕ) : Scalar := leaves.getD p 0

/-- The nodes of a level that have a leaf below them, computed from the leaves. -/
def layerOf (leaves : List Scalar) (level : ℕ) : Array Scalar :=
  Array.ofFn fun j : Fin ((leaves.length + 2 ^ level - 1) / 2 ^ level) =>
    subtreeRoot (padded leaves) level (j * 2 ^ level)

/-- A tree holds the layers that its leaves require. -/
structure Represents (t : MerkleTree) (leaves : List Scalar) : Prop where
  length_le : leaves.length ≤ 2 ^ t.depth
  layers_eq : t.layers = (List.range' 0 (t.depth + 1)).map (layerOf leaves)

/-! ### One layer -/

theorem padded_of_le {leaves : List Scalar} {p : ℕ} (h : leaves.length ≤ p) :
    padded leaves p = 0 :=
  List.getD_eq_default _ _ h

theorem padded_append_of_lt {leaves : List Scalar} {p : ℕ} (h : p < leaves.length)
    (more : List Scalar) : padded (leaves ++ more) p = padded leaves p :=
  List.getD_append _ _ _ _ h

theorem padded_length (leaves : List Scalar) (leaf : Scalar) :
    padded (leaves ++ [leaf]) leaves.length = leaf := by
  rw [padded, List.getD_append_right _ _ _ _ le_rfl, Nat.sub_self, List.getD_cons_zero]

/-- One more leaf changes the padded leaves at its own position only. -/
theorem padded_append_of_ne {leaves : List Scalar} {p : ℕ} (h : p ≠ leaves.length)
    (leaf : Scalar) : padded (leaves ++ [leaf]) p = padded leaves p := by
  rcases Nat.lt_or_gt_of_ne h with hp | hp
  · exact padded_append_of_lt hp [leaf]
  · rw [padded_of_le hp.le, padded_of_le]
    rw [List.length_append, List.length_singleton]
    exact hp

/-- A level has a node at `j` as soon as there is a leaf at or behind position `j * 2 ^ level`. -/
theorem lt_width_iff {n level j : ℕ} : j < (n + 2 ^ level - 1) / 2 ^ level ↔ j * 2 ^ level < n := by
  have hpos : 0 < 2 ^ level := by positivity
  rw [← Nat.add_one_le_iff, Nat.le_div_iff_mul_le hpos, Nat.add_mul]
  omega

@[simp] theorem size_layerOf (leaves : List Scalar) (level : ℕ) :
    (layerOf leaves level).size = (leaves.length + 2 ^ level - 1) / 2 ^ level :=
  Array.size_ofFn

theorem getElem?_layerOf (leaves : List Scalar) (level j : ℕ) :
    (layerOf leaves level)[j]? =
      if j * 2 ^ level < leaves.length then some (subtreeRoot (padded leaves) level (j * 2 ^ level))
      else none := by
  rw [layerOf, Array.getElem?_ofFn]
  simp only [lt_width_iff, dite_eq_ite]

theorem layerOf_nil (level : ℕ) : layerOf [] level = #[] := by
  apply Array.ext_getElem?
  intro j
  rw [getElem?_layerOf, List.length_nil, if_neg (Nat.not_lt_zero _), Array.getElem?_empty]

/-- Whether stored or empty, a node is the root of its subtree. -/
theorem nodeIn_layerOf (leaves : List Scalar) {level : ℕ} (hlevel : level ≤ maxDepth) (j : ℕ) :
    nodeIn (layerOf leaves level) level j = subtreeRoot (padded leaves) level (j * 2 ^ level) := by
  rw [nodeIn, getElem?_layerOf]
  split_ifs with hj
  · rfl
  · rw [Option.getD_none, emptyRoot_eq_emptyRootOf hlevel]
    exact (subtreeRoot_of_zero fun p hp => padded_of_le (by omega)).symm

theorem parentOf_layerOf (leaves : List Scalar) {level : ℕ} (hlevel : level ≤ maxDepth) (j : ℕ) :
    parentOf (layerOf leaves level) level j =
      subtreeRoot (padded leaves) (level + 1) (j * 2 ^ (level + 1)) := by
  rw [parentOf, nodeIn_layerOf leaves hlevel, nodeIn_layerOf leaves hlevel, subtreeRoot_succ_mul]

theorem getElem?_store {layer : Array Scalar} {i : ℕ} (hi : i ≤ layer.size) (node : Scalar)
    (j : ℕ) : (store layer i node)[j]? = if j = i then some node else layer[j]? := by
  unfold store
  split_ifs with hlt hji hji
  · rw [hji, Array.getElem?_set_self]
  · rw [Array.getElem?_set_ne hlt (Ne.symm hji)]
  · rw [Array.getElem?_push, if_pos (by omega)]
  · rw [Array.getElem?_push, if_neg (by omega)]

/-- Storing the new leaf's ancestor makes the layer that the longer list of leaves requires: the
subtrees of the other nodes end before the new leaf or hold no leaf at all. -/
theorem store_layerOf (leaves : List Scalar) (leaf : Scalar) (level : ℕ) :
    store (layerOf leaves level) (leaves.length / 2 ^ level)
        (subtreeRoot (padded (leaves ++ [leaf])) level (leaves.length / 2 ^ level * 2 ^ level)) =
      layerOf (leaves ++ [leaf]) level := by
  have hpos : 0 < 2 ^ level := by positivity
  have hwithin : leaves.length / 2 ^ level ≤ (layerOf leaves level).size := by
    rw [size_layerOf]
    exact Nat.div_le_div_right (by omega)
  have hlo : leaves.length / 2 ^ level * 2 ^ level ≤ leaves.length := Nat.div_mul_le_self _ _
  apply Array.ext_getElem?
  intro j
  rw [getElem?_store hwithin, getElem?_layerOf, getElem?_layerOf, List.length_append,
    List.length_singleton]
  rcases lt_trichotomy j (leaves.length / 2 ^ level) with hj | hj | hj
  · -- the subtree of an earlier node ends before the new leaf
    have hend : (j + 1) * 2 ^ level ≤ leaves.length := (Nat.le_div_iff_mul_le hpos).mp hj
    rw [Nat.add_mul, Nat.one_mul] at hend
    rw [if_neg hj.ne, if_pos (by omega), if_pos (by omega)]
    exact congrArg some (subtreeRoot_congr fun p _ hp =>
      (padded_append_of_lt (by omega) [leaf]).symm)
  · -- the new leaf's ancestor
    rw [if_pos hj, hj, if_pos (by omega)]
  · -- no leaf stands below a later node
    have hstart : leaves.length < j * 2 ^ level := (Nat.div_lt_iff_lt_mul hpos).mp hj
    rw [if_neg hj.ne', if_neg (by omega), if_neg (by omega)]

/-! ### All layers -/

theorem div_two_pow_div_two (n level : ℕ) : n / 2 ^ level / 2 = n / 2 ^ (level + 1) := by
  rw [Nat.div_div_eq_div_mul, ← pow_succ]

theorem storeUp_cons (level : ℕ) (layer : Array Scalar) (above : List (Array Scalar)) (i : ℕ)
    (node : Scalar) :
    storeUp level (layer :: above) i node =
      store layer i node ::
        storeUp (level + 1) above (i / 2) (parentOf (store layer i node) level (i / 2)) := by
  cases above with
  | nil => rfl
  | cons next rest => rfl

/-- Storing a leaf and its ancestors, from any level up. -/
theorem storeUp_layerOf (leaves : List Scalar) (leaf : Scalar) {level count : ℕ}
    (hcount : level + count ≤ maxDepth + 1) :
    storeUp level ((List.range' level count).map (layerOf leaves)) (leaves.length / 2 ^ level)
        (subtreeRoot (padded (leaves ++ [leaf])) level (leaves.length / 2 ^ level * 2 ^ level)) =
      (List.range' level count).map (layerOf (leaves ++ [leaf])) := by
  -- the ancestor one level up stands at half the position, and is found from the stored layer
  induction count generalizing level with
  | zero => rfl
  | succ count ih =>
    rw [List.range'_succ, List.map_cons, List.map_cons, storeUp_cons, store_layerOf,
      parentOf_layerOf _ (by omega), div_two_pow_div_two, ih (by omega)]

/-! ### The representation -/

namespace Represents

variable {t : MerkleTree} {leaves : List Scalar}

theorem layer_eq (h : t.Represents leaves) {level : ℕ} (hlevel : level ≤ t.depth) :
    t.layer level = layerOf leaves level := by
  rw [layer, h.layers_eq, List.getD_eq_getElem?_getD, List.getElem?_map,
    List.getElem?_range' (by omega)]
  simp only [Option.map_some, Option.getD_some, Nat.one_mul, Nat.zero_add]

theorem getElem_layer (h : t.Represents leaves) {level : ℕ} (hlevel : level ≤ t.depth) (j : ℕ)
    (hj : j < (t.layer level).size) :
    (t.layer level)[j] = subtreeRoot (padded leaves) level (j * 2 ^ level) := by
  simp only [h.layer_eq hlevel, layerOf, Array.getElem_ofFn]

theorem size_eq (h : t.Represents leaves) : t.size = leaves.length := by
  rw [size, h.layer_eq (Nat.zero_le _), size_layerOf, pow_zero, Nat.div_one, Nat.add_sub_cancel]

/-- The lowest layer is the list of leaves. -/
theorem toList_layer_zero (h : t.Represents leaves) : (t.layer 0).toList = leaves := by
  rw [h.layer_eq (Nat.zero_le _)]
  apply List.ext_getElem?
  intro p
  rw [Array.getElem?_toList, getElem?_layerOf, pow_zero, Nat.mul_one, subtreeRoot]
  split_ifs with hp
  · rw [padded, List.getD_eq_getElem _ _ hp, List.getElem?_eq_getElem hp]
  · rw [List.getElem?_eq_none (Nat.le_of_not_lt hp)]

theorem leaf?_eq (h : t.Represents leaves) (index : UInt32) :
    t.leaf? index = leaves[index.toNat]? := by
  rw [leaf?, ← Array.getElem?_toList, h.toList_layer_zero]

theorem isFull_eq_false_iff (h : t.Represents leaves) :
    t.isFull = false ↔ leaves.length < 2 ^ t.depth := by
  rw [isFull, decide_eq_false_iff_not, Nat.not_le, capacity, Nat.one_shiftLeft, h.size_eq]

theorem isFull_eq_true_iff (h : t.Represents leaves) :
    t.isFull = true ↔ t.size = 2 ^ t.depth := by
  have hle := h.length_le
  rw [← Bool.not_eq_false, h.isFull_eq_false_iff, h.size_eq]
  omega

/-- The index of a place that is not taken fits in 32 bits. -/
theorem size_lt (h : t.Represents leaves) (hroom : t.isFull = false) : t.size < 2 ^ 32 := by
  have hlt := h.isFull_eq_false_iff.mp hroom
  have hwidth : 2 ^ t.depth ≤ 2 ^ 32 := Nat.pow_le_pow_right (by norm_num) t.depth_le
  rw [h.size_eq]
  omega

/-- Whether stored or empty, a node is the root of its subtree over the padded leaves. -/
theorem node_eq (h : t.Represents leaves) {level : ℕ} (hlevel : level ≤ t.depth) (j : ℕ) :
    t.node level j = subtreeRoot (padded leaves) level (j * 2 ^ level) := by
  rw [node, h.layer_eq hlevel, nodeIn_layerOf leaves (hlevel.trans t.depth_le)]

/-- A node is the join of the two nodes below it. -/
theorem node_succ (h : t.Represents leaves) {level : ℕ} (hlevel : level < t.depth) (j : ℕ) :
    t.node (level + 1) j = Poseidon.pair (t.node level (2 * j)) (t.node level (2 * j + 1)) := by
  rw [h.node_eq hlevel, h.node_eq hlevel.le, h.node_eq hlevel.le, subtreeRoot_succ_mul]

theorem root_eq (h : t.Represents leaves) : t.root = subtreeRoot (padded leaves) t.depth 0 := by
  rw [root, h.node_eq le_rfl, Nat.zero_mul]

/-- The empty tree represents no leaves. -/
theorem empty {depth : ℕ} (h : MerkleTree.empty depth = .ok t) : t.Represents [] := by
  unfold MerkleTree.empty at h
  split_ifs at h
  cases h
  refine ⟨Nat.zero_le _, ?_⟩
  show List.replicate (depth + 1) #[] = (List.range' 0 (depth + 1)).map (layerOf [])
  rw [funext layerOf_nil, List.map_const', List.length_range']

/-- Storing a leaf in a tree that has room for it. -/
theorem push (h : t.Represents leaves) (hroom : leaves.length < 2 ^ t.depth) (leaf : Scalar) :
    (t.push leaf).Represents (leaves ++ [leaf]) := by
  constructor
  · rw [List.length_append, List.length_singleton]
    exact hroom
  · show storeUp 0 t.layers t.size leaf = (List.range' 0 (t.depth + 1)).map (layerOf _)
    have hcount : 0 + (t.depth + 1) ≤ maxDepth + 1 := by
      have := t.depth_le
      omega
    -- at the bottom the new leaf is its own ancestor
    have hstore := storeUp_layerOf leaves leaf hcount
    rw [pow_zero, Nat.div_one, Nat.mul_one, subtreeRoot, padded_length] at hstore
    rw [h.layers_eq, h.size_eq, hstore]

theorem size_push (h : t.Represents leaves) (hroom : t.isFull = false) (leaf : Scalar) :
    (t.push leaf).size = t.size + 1 := by
  have hnext := h.push (h.isFull_eq_false_iff.mp hroom) leaf
  rw [hnext.size_eq, List.length_append, List.length_singleton, h.size_eq]

/-- One call keeps the representation, with the leaf added exactly if it was accepted. -/
theorem append (h : t.Represents leaves) (leaf : Hash) :
    ∃ new : List Scalar, t.accepted [leaf] = new.map Scalar.toHash ∧
      (t.append leaf).2.Represents (leaves ++ new) := by
  rcases t.append_cases leaf with ⟨-, hcall⟩ | ⟨-, -, hcall⟩ | ⟨hroom, a, rfl, hcall⟩
  · exact ⟨[], by rw [accepted, hcall]; rfl, by rwa [hcall, List.append_nil]⟩
  · exact ⟨[], by rw [accepted, hcall]; rfl, by rwa [hcall, List.append_nil]⟩
  · refine ⟨[a], by rw [accepted, hcall]; rfl, ?_⟩
    rw [hcall]
    exact h.push (h.isFull_eq_false_iff.mp hroom) a

/-- A history keeps the representation, with the accepted leaves added in order. -/
theorem appendEach (h : t.Represents leaves) (calls : List Hash) :
    ∃ new : List Scalar, t.accepted calls = new.map Scalar.toHash ∧
      (t.appendEach calls).Represents (leaves ++ new) := by
  -- the first call changes the tree and the leaves that the rest of the calls start from
  induction calls generalizing t leaves with
  | nil => exact ⟨[], rfl, by rwa [List.append_nil]⟩
  | cons leaf rest ih =>
    obtain ⟨first, hfirst, hone⟩ := h.append leaf
    obtain ⟨others, hothers, hall⟩ := ih hone
    refine ⟨first ++ others, ?_, ?_⟩
    · rw [accepted_cons, hfirst, hothers, List.map_append]
    · rwa [← List.append_assoc]

/-- A history makes a tree larger by the leaves that were accepted. -/
theorem size_appendEach (h : t.Represents leaves) (calls : List Hash) :
    (t.appendEach calls).size = t.size + (t.accepted calls).length := by
  obtain ⟨new, haccepted, hnext⟩ := h.appendEach calls
  rw [hnext.size_eq, haccepted, List.length_append, List.length_map, h.size_eq]

/-- A leaf is found at the index it was stored at. -/
theorem leaf?_push (h : t.Represents leaves) (hroom : t.isFull = false) (leaf : Scalar) :
    (t.push leaf).leaf? (UInt32.ofNat t.size) = some leaf := by
  rw [(h.push (h.isFull_eq_false_iff.mp hroom) leaf).leaf?_eq,
    UInt32.toNat_ofNat_of_lt' (h.size_lt hroom), h.size_eq, List.getElem?_concat_length]

/-- A tree with more leaves has each of the old ones where it was. -/
theorem leaf?_of_append (h : t.Represents leaves) {u : MerkleTree} {new : List Scalar}
    (hu : u.Represents (leaves ++ new)) {index : UInt32} {leaf : Scalar}
    (hleaf : t.leaf? index = some leaf) : u.leaf? index = some leaf := by
  rw [h.leaf?_eq] at hleaf
  obtain ⟨hindex, -⟩ := List.getElem?_eq_some_iff.mp hleaf
  rw [hu.leaf?_eq, List.getElem?_append_left hindex, hleaf]

/-- No later call moves or changes a leaf. -/
theorem leaf?_appendEach (h : t.Represents leaves) {index : UInt32} {leaf : Scalar}
    (hleaf : t.leaf? index = some leaf) (calls : List Hash) :
    (t.appendEach calls).leaf? index = some leaf := by
  obtain ⟨new, -, hnext⟩ := h.appendEach calls
  exact h.leaf?_of_append hnext hleaf

end Represents

/-- From the empty tree on, a history leads to a tree of the leaves that it accepted. -/
theorem exists_represents_accepted {depth : ℕ} {start : MerkleTree}
    (hstart : MerkleTree.empty depth = .ok start) (calls : List Hash) :
    ∃ leaves : List Scalar, start.accepted calls = leaves.map Scalar.toHash ∧
      (start.appendEach calls).Represents leaves := by
  obtain ⟨leaves, haccepted, ht⟩ := (Represents.empty hstart).appendEach calls
  rw [List.nil_append] at ht
  exact ⟨leaves, haccepted, ht⟩

/-- Every reachable tree represents some leaves. -/
theorem Reachable.represents {depth : ℕ} {t : MerkleTree} (h : Reachable depth t) :
    ∃ leaves, t.Represents leaves := by
  obtain ⟨start, calls, hstart, rfl⟩ := h
  obtain ⟨leaves, -, ht⟩ := exists_represents_accepted hstart calls
  exact ⟨leaves, ht⟩

end MerkleTree

end CompressedLedger
