import CompressedLedger.Merkle.Empty
import CompressedLedger.Proofs.Poseidon.Inputs

/-!
# Perfect subtrees from scratch

The definitions here know nothing of layers: a perfect subtree is given by its height, the position
of its first leaf and a value at every leaf position, and its root joins the roots of its halves.
`rootFromLeaves` does this on 32-byte values and may fail; `subtreeRoot` does it on scalars.  They
agree on encodings of scalars (`rootFromLeaves_toHash`).

A root depends only on the leaves below it (`subtreeRoot_congr`), so a subtree whose leaves are all
zero has the empty root of its height (`subtreeRoot_of_zero`), which is the one the table of empty
roots holds (`emptyRoot_eq_emptyRootOf`).
-/

namespace CompressedLedger.Merkle

/-- The root of the perfect subtree of a height whose first leaf stands at `offset`. -/
def rootFromLeaves (leafAt : ℕ → Hash) : ℕ → ℕ → Except Error Hash
  | 0, offset => .ok (leafAt offset)
  | height + 1, offset => do
    let left ← rootFromLeaves leafAt height offset
    let right ← rootFromLeaves leafAt height (offset + 2 ^ height)
    Poseidon.hashPair left right

/-- The root of the perfect subtree of a height whose first leaf stands at `offset`, on scalars. -/
def subtreeRoot (leafAt : ℕ → Scalar) : ℕ → ℕ → Scalar
  | 0, offset => leafAt offset
  | height + 1, offset =>
    Poseidon.pair (subtreeRoot leafAt height offset)
      (subtreeRoot leafAt height (offset + 2 ^ height))

/-- Built from encodings of scalars, a root exists and encodes the root of the scalars. -/
theorem rootFromLeaves_toHash (leafAt : ℕ → Scalar) (height offset : ℕ) :
    rootFromLeaves (fun p => (leafAt p).toHash) height offset =
      .ok (subtreeRoot leafAt height offset).toHash := by
  induction height generalizing offset with
  | zero => rfl
  | succ height ih =>
    rw [rootFromLeaves, ih, ih, subtreeRoot]
    exact Poseidon.hashPair_toHash _ _

/-- Under the node at position `p` stand the nodes at `2 * p` and `2 * p + 1`. -/
theorem subtreeRoot_succ_mul (leafAt : ℕ → Scalar) (height p : ℕ) :
    subtreeRoot leafAt (height + 1) (p * 2 ^ (height + 1)) =
      Poseidon.pair (subtreeRoot leafAt height (2 * p * 2 ^ height))
        (subtreeRoot leafAt height ((2 * p + 1) * 2 ^ height)) := by
  have hleft : p * 2 ^ (height + 1) = 2 * p * 2 ^ height := by ring
  have hright : 2 * p * 2 ^ height + 2 ^ height = (2 * p + 1) * 2 ^ height := by ring
  rw [subtreeRoot, hleft, hright]

/-- A root depends only on the leaves of its own subtree. -/
theorem subtreeRoot_congr {f g : ℕ → Scalar} {height offset : ℕ}
    (h : ∀ p, offset ≤ p → p < offset + 2 ^ height → f p = g p) :
    subtreeRoot f height offset = subtreeRoot g height offset := by
  induction height generalizing offset with
  | zero => exact h offset le_rfl (by norm_num)
  | succ height ih =>
    rw [pow_succ] at h
    rw [subtreeRoot, subtreeRoot]
    congr 1
    · exact ih fun p hlo hhi => h p hlo (by omega)
    · exact ih fun p hlo hhi => h p (by omega) (by omega)

/-! ### Empty subtrees -/

theorem subtreeRoot_zero (height offset : ℕ) :
    subtreeRoot (fun _ => 0) height offset = emptyRootOf height := by
  induction height generalizing offset with
  | zero => rfl
  | succ height ih => rw [subtreeRoot, ih, ih, emptyRootOf]

theorem subtreeRoot_of_zero {leafAt : ℕ → Scalar} {height offset : ℕ}
    (h : ∀ p, offset ≤ p → leafAt p = 0) :
    subtreeRoot leafAt height offset = emptyRootOf height := by
  rw [← subtreeRoot_zero height offset]
  exact subtreeRoot_congr fun p hlo _ => h p hlo

/-- Doubling an empty root `k` times climbs `k` levels. -/
theorem getElem?_doublings_emptyRootOf {n k : ℕ} (hk : k ≤ n) (height : ℕ) :
    (doublings n (emptyRootOf height))[k]? = some (emptyRootOf (height + k)) := by
  -- the tail of the list starts one height up, so the height must be free in the hypothesis
  induction n generalizing k height with
  | zero =>
    obtain rfl := Nat.le_zero.mp hk
    rfl
  | succ n ih =>
    cases k with
    | zero => rfl
    | succ k =>
      have hnext : Poseidon.pair (emptyRootOf height) (emptyRootOf height) =
          emptyRootOf (height + 1) := rfl
      rw [doublings, List.getElem?_cons_succ, hnext, ih (by omega)]
      rw [show height + 1 + k = height + (k + 1) by omega]

/-- The table holds the root of an empty subtree of every height a tree can have. -/
theorem emptyRoot_eq_emptyRootOf {height : ℕ} (h : height ≤ maxDepth) :
    emptyRoot height = emptyRootOf height := by
  have hentry := getElem?_doublings_emptyRootOf h 0
  rw [Nat.zero_add] at hentry
  rw [emptyRoot, emptyRootTable, Array.getD_eq_getD_getElem?, List.getElem?_toArray,
    show (0 : Scalar) = emptyRootOf 0 from rfl, hentry, Option.getD_some]

end CompressedLedger.Merkle
