import CompressedLedger.Proofs.Merkle.Layers
import CompressedLedger.Proofs.Merkle.RawTree

/-!
# Appending to raw bytes

An append in bytes writes the leaf first and its ancestors after it, one level at a time, and could
fail on the way up.  `partway` is the tree between two levels: the layers below a level hold what
the longer list of leaves requires, and the layers from that level on still hold what the shorter
list did.  One round takes it one level up and meets no fault (`raiseOnce_partway`): the left child
of the ancestor is stored because the new leaf stands below or behind it, both children are
scalars, and the layer above has a place for their join.  So the loop ends, and a call on the raw
form of a tree does what the call on the tree does (`append_raw`, `appendEach_raw`).

It follows that a call has no outcomes but the three of `append_spec`, that a refused call changes
nothing, and that all values ever stored are below the modulus (`append_all_or_nothing`).
-/

namespace CompressedLedger

open Merkle

namespace MerkleTree

open Fault

/-! ### Single writes -/

theorem map_store (layer : Array Scalar) (index : ℕ) (node : Scalar) :
    (store layer index node).map Scalar.toHash =
      if h : index < (layer.map Scalar.toHash).size then
        (layer.map Scalar.toHash).set index node.toHash
      else (layer.map Scalar.toHash).push node.toHash := by
  unfold store
  simp only [Array.size_map]
  split_ifs with hindex
  · exact Array.map_set
  · exact Array.map_push

theorem write_raw (t : MerkleTree) {level : ℕ} (hlevel : level ≤ t.depth) (index : ℕ)
    (node : Scalar) :
    t.raw.write level index node.toHash =
      .ok { t.raw with
        layers := t.raw.layers.set level
          ((store (t.layer level) index node).map Scalar.toHash) } := by
  rw [RawTree.write, layer_raw t hlevel, map_store]
  rfl

/-- Two children, of which the left one is stored, have a join. -/
theorem parentOf_raw (t : MerkleTree) {level index : ℕ} (hlevel : level ≤ t.depth)
    (hleft : 2 * index < (t.layer level).size) :
    t.raw.parentOf level index = .ok (parentOf (t.layer level) level index).toHash := by
  rw [RawTree.parentOf, stored_raw t hlevel hleft, storedOrEmpty_raw t hlevel]
  show reported (Poseidon.hashPair (t.node level (2 * index)).toHash
    (t.node level (2 * index + 1)).toHash) = _
  rw [Poseidon.hashPair_toHash]
  rfl

/-! ### Between two levels -/

/-- A tree in the middle of an append: the layers below a level are already those of the longer
list of leaves, and the others still those of the shorter one. -/
def partway (t : MerkleTree) (leaves : List Scalar) (leaf : Scalar) (level : ℕ) : MerkleTree :=
  { t with
    layers := (List.range' 0 (t.depth + 1)).map fun k =>
      layerOf (if k < level then leaves ++ [leaf] else leaves) k
    length_layers := by rw [List.length_map, List.length_range'] }

section Partway

variable (t : MerkleTree) (leaves : List Scalar) (leaf : Scalar)

theorem getElem?_layers_partway (level k : ℕ) :
    (t.partway leaves leaf level).layers[k]? =
      if k ≤ t.depth then some (layerOf (if k < level then leaves ++ [leaf] else leaves) k)
      else none := by
  rw [partway, List.getElem?_map]
  by_cases hk : k ≤ t.depth
  · rw [List.getElem?_range' (by omega), Option.map_some, Nat.one_mul, Nat.zero_add, if_pos hk]
  · have hlength : (List.range' 0 (t.depth + 1)).length ≤ k := by
      rw [List.length_range']
      omega
    rw [List.getElem?_eq_none hlength, Option.map_none, if_neg hk]

theorem layer_partway {level k : ℕ} (hk : k ≤ t.depth) :
    (t.partway leaves leaf level).layer k =
      layerOf (if k < level then leaves ++ [leaf] else leaves) k := by
  rw [layer, List.getD_eq_getElem?_getD, getElem?_layers_partway, if_pos hk, Option.getD_some]

/-- Replacing the layer of a level takes the tree past that level. -/
theorem set_layers_partway {level : ℕ} (hlevel : level ≤ t.depth) :
    (t.partway leaves leaf level).raw.layers.set level
        ((layerOf (leaves ++ [leaf]) level).map Scalar.toHash) =
      (t.partway leaves leaf (level + 1)).raw.layers := by
  apply List.ext_getElem?
  intro k
  rw [List.getElem?_set]
  simp only [raw, List.getElem?_map, List.length_map, length_layers, getElem?_layers_partway]
  by_cases hk : level = k
  · subst hk
    have hlength : level < (t.partway leaves leaf level).depth + 1 := Nat.lt_succ_of_le hlevel
    rw [if_pos rfl, if_pos hlength, if_pos hlevel, if_pos (Nat.lt_succ_self level), Option.map_some]
  · have hiff : k < level + 1 ↔ k < level := by omega
    simp only [if_neg hk, hiff]

theorem write_partway {level : ℕ} (hlevel : level ≤ t.depth) :
    (t.partway leaves leaf level).raw.write level (leaves.length / 2 ^ level)
        (subtreeRoot (padded (leaves ++ [leaf])) level
          (leaves.length / 2 ^ level * 2 ^ level)).toHash =
      .ok (t.partway leaves leaf (level + 1)).raw := by
  have hlayer : (t.partway leaves leaf level).layer level = layerOf leaves level := by
    rw [layer_partway t leaves leaf hlevel, if_neg (lt_irrefl level)]
  rw [write_raw (t.partway leaves leaf level) hlevel, hlayer, store_layerOf,
    set_layers_partway t leaves leaf hlevel]
  rfl

/-- One round of the loop: with the layers up to a level written, the parent of the new leaf's
ancestor at that level is found and stored one level up. -/
theorem raiseOnce_partway {level : ℕ} (hlevel : level < t.depth) :
    (t.partway leaves leaf (level + 1)).raw.raiseOnce level (leaves.length / 2 ^ level) =
      .ok (t.partway leaves leaf (level + 2)).raw := by
  have hlayer : (t.partway leaves leaf (level + 1)).layer level =
      layerOf (leaves ++ [leaf]) level := by
    rw [layer_partway t leaves leaf hlevel.le, if_pos (Nat.lt_succ_self level)]
  -- the left child stands at or before the ancestor at this level, so it is stored
  have hleft : 2 * (leaves.length / 2 ^ (level + 1)) <
      ((t.partway leaves leaf (level + 1)).layer level).size := by
    have hlo : leaves.length / 2 ^ level * 2 ^ level ≤ leaves.length := Nat.div_mul_le_self _ _
    have hpos : 2 * (leaves.length / 2 ^ (level + 1)) ≤ leaves.length / 2 ^ level := by
      rw [← div_two_pow_div_two]
      exact Nat.mul_div_le _ 2
    have hmul := Nat.mul_le_mul_right (2 ^ level) hpos
    rw [hlayer, size_layerOf, lt_width_iff, List.length_append, List.length_singleton]
    omega
  have hparent : (t.partway leaves leaf (level + 1)).raw.parentOf level
        (leaves.length / 2 ^ (level + 1)) =
      .ok (subtreeRoot (padded (leaves ++ [leaf])) (level + 1)
        (leaves.length / 2 ^ (level + 1) * 2 ^ (level + 1))).toHash := by
    rw [parentOf_raw (t.partway leaves leaf (level + 1)) hlevel.le hleft, hlayer,
      parentOf_layerOf _ (hlevel.le.trans t.depth_le)]
  rw [RawTree.raiseOnce, div_two_pow_div_two, hparent]
  exact write_partway t leaves leaf hlevel

theorem raise_partway {level count : ℕ} (hcount : level + count ≤ t.depth) :
    (t.partway leaves leaf (level + 1)).raw.raise level (leaves.length / 2 ^ level) count =
      (.ok (), (t.partway leaves leaf (level + count + 1)).raw) := by
  induction count generalizing level with
  | zero => rfl
  | succ count ih =>
    rw [RawTree.raise, raiseOnce_partway t leaves leaf (by omega)]
    show (t.partway leaves leaf (level + 1 + 1)).raw.raise (level + 1)
      (leaves.length / 2 ^ level / 2) count = _
    rw [div_two_pow_div_two, ih (by omega), show level + 1 + count = level + (count + 1) by omega]

end Partway

/-! ### One call -/

namespace Represents

variable {t : MerkleTree} {leaves : List Scalar}

/-- Writing the leaf itself is where the way up begins. -/
theorem raw_partway_one (h : t.Represents leaves) (leaf : Scalar) :
    { t.raw with
      layers := t.raw.layers.set 0 (((t.layer 0).map Scalar.toHash).push leaf.toHash) } =
      (t.partway leaves leaf 1).raw := by
  have hstart : (t.partway leaves leaf 0).raw = t.raw := by
    simp only [raw, partway, h.layers_eq, Nat.not_lt_zero, if_false]
  have hstore : (layerOf leaves 0).push leaf = layerOf (leaves ++ [leaf]) 0 := by
    have hstore := store_layerOf leaves leaf 0
    have hsize : ¬leaves.length < (layerOf leaves 0).size := by
      rw [size_layerOf, pow_zero, Nat.div_one]
      omega
    rwa [pow_zero, Nat.div_one, Nat.mul_one, subtreeRoot, padded_length, store, dif_neg hsize]
      at hstore
  rw [h.layer_eq (Nat.zero_le _), ← Array.map_push, hstore, ← hstart,
    set_layers_partway t leaves leaf (Nat.zero_le _)]
  rfl

/-- Past the topmost level the tree holds the new leaf in all its layers. -/
theorem raw_partway_succ_depth (h : t.Represents leaves)
    (hroom : leaves.length < 2 ^ t.depth) (leaf : Scalar) :
    (t.partway leaves leaf (t.depth + 1)).raw = (t.push leaf).raw := by
  have hlayers : (t.partway leaves leaf (t.depth + 1)).layers = (t.push leaf).layers := by
    rw [(h.push hroom leaf).layers_eq]
    refine List.map_congr_left fun k hk => ?_
    rw [List.mem_range'_1, Nat.zero_add] at hk
    exact congrArg (layerOf · k) (if_pos hk.2)
  rw [raw, raw, hlayers]
  rfl

/-- A call on the raw form of a tree answers what the call on the tree answers, and leaves the raw
form of what that leaves. -/
theorem append_raw (h : t.Represents leaves) (leaf : Hash) :
    t.raw.append leaf = (reported (t.append leaf).1, (t.append leaf).2.raw) := by
  have hsize : ((t.layer 0).map Scalar.toHash).size = t.size := Array.size_map
  rw [RawTree.append, layer_raw t (Nat.zero_le _)]
  show (if t.capacity ≤ ((t.layer 0).map Scalar.toHash).size then _ else _) = _
  rw [hsize]
  rcases t.append_cases leaf with ⟨hfull, hcall⟩ | ⟨hroom, hle, hcall⟩ | ⟨hroom, a, rfl, hcall⟩
  · rw [if_pos (of_decide_eq_true hfull), hcall]
    rfl
  · have hrange : Scalar.precedesModulus leaf = false := by
      rw [← Bool.not_eq_true, Scalar.precedesModulus_iff]
      omega
    rw [if_neg (of_decide_eq_false hroom), if_pos hrange, hcall]
    rfl
  · have hrange : ¬Scalar.precedesModulus a.toHash = false := by
      rw [Bool.not_eq_false, Scalar.precedesModulus_iff, Scalar.toNat_toHash]
      exact a.isLt
    have hlength := h.isFull_eq_false_iff.mp hroom
    -- the way up starts at the leaf's own position and ends above the root
    have hraise : (t.partway leaves a 1).raw.raise 0 t.size t.raw.depth =
        (.ok (), (t.push a).raw) := by
      have hloop := raise_partway t leaves a (show 0 + t.depth ≤ t.depth by omega)
      rwa [Nat.zero_add, Nat.zero_add, pow_zero, Nat.div_one, ← h.size_eq,
        h.raw_partway_succ_depth hlength] at hloop
    rw [if_neg (of_decide_eq_false hroom), if_neg hrange, h.raw_partway_one, hraise, hcall]
    show (reported (RawTree.indexWord t.size), (t.push a).raw) = _
    rw [RawTree.indexWord, if_pos (h.size_lt hroom)]

/-- A history on the raw form of a tree does what it does on the tree. -/
theorem appendEach_raw (h : t.Represents leaves) (calls : List Hash) :
    t.raw.appendEach calls = (t.appendEach calls).raw := by
  induction calls generalizing t leaves with
  | nil => rfl
  | cons leaf rest ih =>
    obtain ⟨new, -, hnext⟩ := h.append leaf
    show (t.raw.append leaf).2.appendEach rest = _
    rw [h.append_raw leaf, appendEach_cons]
    exact ih hnext

end Represents

/-! ### What a call can do -/

/-- What the three outcomes of a call say of the tree and the leaf. -/
theorem Represents.append_spec {t : MerkleTree} {leaves : List Scalar} (h : t.Represents leaves)
    (leaf : Hash) :
    ((t.append leaf).1 = .error .treeFull ↔ t.size = 2 ^ t.depth) ∧
    ((t.append leaf).1 = .error .scalarOutOfRange ↔
      t.size ≠ 2 ^ t.depth ∧ Scalar.modulus ≤ leaf.toNat) ∧
    (t.size ≠ 2 ^ t.depth ∧ leaf.toNat < Scalar.modulus →
      ∃ index : UInt32, (t.append leaf).1 = .ok index ∧ index.toNat = t.size) ∧
    ∀ e, (t.append leaf).1 = .error e → (t.append leaf).2 = t := by
  rcases t.append_cases leaf with ⟨hcase, hcall⟩ | ⟨hcase, hle, hcall⟩ | ⟨hcase, a, rfl, hcall⟩
  · rw [h.isFull_eq_true_iff] at hcase
    simp [hcall, hcase]
  · rw [← Bool.not_eq_true, h.isFull_eq_true_iff] at hcase
    simp [hcall, hcase, hle]
  · have hroom := hcase
    rw [← Bool.not_eq_true, h.isFull_eq_true_iff] at hcase
    have hindex := UInt32.toNat_ofNat_of_lt' (h.size_lt hroom)
    have hrange : ¬Scalar.modulus ≤ a.val := Nat.not_le_of_lt a.isLt
    simp [hcall, hcase, hrange, hindex]

/-- **An append is all or nothing.**  After any sequence of calls on a new tree, a call is refused
with `treeFull` exactly if every place is taken, otherwise with `scalarOutOfRange` exactly if the
leaf's number is not below the modulus, and otherwise it answers the number of leaves there were.  A
refused call leaves the tree as it was.  In bytes, where a join, an access to a layer and the word
of the index could each fail after the leaf is written, the calls do the same: none of them fails
in any other way, and all values stored are below the modulus. -/
theorem append_all_or_nothing {depth : ℕ} (hmin : 1 ≤ depth) (hmax : depth ≤ 32)
    (calls : List Hash) (leaf : Hash) :
    ∃ start rawStart, MerkleTree.empty depth = .ok start ∧ RawTree.empty depth = .ok rawStart ∧
      let t := start.appendEach calls
      let bytes := rawStart.appendEach calls
      ((t.append leaf).1 = .error .treeFull ↔ t.size = 2 ^ depth) ∧
      ((t.append leaf).1 = .error .scalarOutOfRange ↔
        t.size ≠ 2 ^ depth ∧ Scalar.modulus ≤ leaf.toNat) ∧
      (t.size ≠ 2 ^ depth ∧ leaf.toNat < Scalar.modulus →
        ∃ index : UInt32, (t.append leaf).1 = .ok index ∧ index.toNat = t.size) ∧
      (∀ e, (t.append leaf).1 = .error e → (t.append leaf).2 = t) ∧
      bytes = t.raw ∧ bytes.append leaf = (reported (t.append leaf).1, (t.append leaf).2.raw) ∧
      (∀ fault, (bytes.append leaf).1 = .error fault → (bytes.append leaf).2 = bytes) ∧
      bytes.IsCanonical ∧ (bytes.append leaf).2.IsCanonical := by
  obtain ⟨start, hstart⟩ := empty_eq_ok hmin hmax
  have hrawStart : RawTree.empty depth = .ok start.raw := by
    rw [empty_raw, hstart]
    rfl
  obtain ⟨leaves, -, ht⟩ := exists_represents_accepted hstart calls
  have hbytes := (Represents.empty hstart).appendEach_raw calls
  have hdepth : (start.appendEach calls).depth = depth := depth_of_history hstart calls
  obtain ⟨hfull, hrange, hok, hrefused⟩ := ht.append_spec leaf
  rw [hdepth] at hfull hrange hok
  refine ⟨start, start.raw, hstart, hrawStart, hfull, hrange, hok, hrefused, hbytes, ?_⟩
  rw [hbytes, ht.append_raw leaf]
  refine ⟨rfl, fun fault hfault => ?_, isCanonical_raw _, isCanonical_raw _⟩
  obtain ⟨e, he, -⟩ := reported_eq_error_iff.mp hfault
  exact congrArg raw (hrefused e he)

/-- In a tree of depth 32 with one leaf, after a refused call, the largest scalar gets index 1. -/
theorem append_all_or_nothing_of_depth_max :
    let calls := [FixedBytes.ofNat 5, FixedBytes.ofNat Scalar.modulus]
    let leaf : Hash := FixedBytes.ofNat (Scalar.modulus - 1)
    1 ≤ 32 ∧ 32 ≤ 32 ∧ ∃ start rawStart, MerkleTree.empty 32 = .ok start ∧
      RawTree.empty 32 = .ok rawStart ∧ (start.appendEach calls).size = 1 ∧
      ((start.appendEach calls).append leaf).1 = .ok 1 ∧
      ((rawStart.appendEach calls).append leaf).1 = .ok 1 ∧
      ((rawStart.appendEach calls).append leaf).2.IsCanonical := by
  intro calls leaf
  obtain ⟨start, rawStart, hstart, hrawStart, -, -, hok, -, -, hbytes, -, -, hcanonical⟩ :=
    append_all_or_nothing (show 1 ≤ 32 by decide) (show 32 ≤ 32 by decide) calls leaf
  have hsize : (start.appendEach calls).size = 1 := by
    cases hstart
    decide
  have hlt : leaf.toNat < Scalar.modulus := by decide
  obtain ⟨index, hanswer, hindex⟩ := hok ⟨by rw [hsize]; decide, hlt⟩
  obtain rfl : index = 1 := UInt32.toNat_inj.mp (hindex.trans hsize)
  refine ⟨by decide, by decide, start, rawStart, hstart, hrawStart, hsize, hanswer, ?_, hcanonical⟩
  rw [hbytes, hanswer]
  rfl

end MerkleTree

end CompressedLedger
