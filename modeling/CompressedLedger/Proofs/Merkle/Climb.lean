import CompressedLedger.Merkle.Path
import CompressedLedger.Merkle.Tree
import CompressedLedger.Proofs.Poseidon.Inputs
import Mathlib.Data.Nat.Bitwise
import Mathlib.Tactic.Positivity

/-!
# Climbing to a root

Climbing joins the value reached so far with the next sibling, on the side that the parity of the
position tells (`orderedPair`).  Only the bits of the position that belong to the path's levels
count (`climb_congr`).

The climb is compared with a *labelling*: values at all positions of all levels, each the join of
the two below it.  Climbing a labelling's own siblings stays on it (`climb_siblings`), and a climb
that ends on a labelling has followed it from the start, or at some level two different ordered
pairs have one join (`climb_binding`).  The argument is the same at every level (`joinAt_binding`):
equal joins come from equal pairs or are a collision.
-/

namespace CompressedLedger.Merkle

/-! ### Positions -/

/-- A value and its sibling in the order in which they are joined. -/
def orderedPair (index : ℕ) (node sibling : Hash) : Hash × Hash :=
  if index % 2 = 1 then (sibling, node) else (node, sibling)

theorem joinAt_eq_hashPair (index : ℕ) (node sibling : Hash) :
    joinAt index node sibling =
      Poseidon.hashPair (orderedPair index node sibling).1 (orderedPair index node sibling).2 := by
  unfold joinAt orderedPair
  split_ifs <;> rfl

theorem orderedPair_inj {index : ℕ} {a b c d : Hash} :
    orderedPair index a b = orderedPair index c d ↔ a = c ∧ b = d := by
  unfold orderedPair
  split_ifs <;> rw [Prod.mk.injEq]
  exact and_comm

theorem sibling_of_even {index : ℕ} (h : index % 2 = 0) :
    MerkleTree.sibling index = index + 1 :=
  Nat.xor_one_of_even (Nat.even_iff.mpr h)

theorem sibling_of_odd {index : ℕ} (h : index % 2 = 1) :
    MerkleTree.sibling index = index - 1 :=
  Nat.xor_one_of_odd (Nat.odd_iff.mpr h)

/-! ### Labellings -/

/-- Values at all positions such that below a height each is the join of the two under it. -/
def IsLabelling (height : ℕ) (nodeAt : ℕ → ℕ → Scalar) : Prop :=
  ∀ level < height, ∀ p,
    nodeAt (level + 1) p = Poseidon.pair (nodeAt level (2 * p)) (nodeAt level (2 * p + 1))

/-- The encodings of the two values below a position. -/
def childPair (nodeAt : ℕ → ℕ → Scalar) (level p : ℕ) : Hash × Hash :=
  ((nodeAt level (2 * p)).toHash, (nodeAt level (2 * p + 1)).toHash)

/-- The two values below a position, seen from one of them. -/
theorem childPair_div_two (nodeAt : ℕ → ℕ → Scalar) (level index : ℕ) :
    childPair nodeAt level (index / 2) =
      orderedPair index (nodeAt level index).toHash
        (nodeAt level (MerkleTree.sibling index)).toHash := by
  unfold childPair orderedPair
  rcases Nat.mod_two_eq_zero_or_one index with heven | hodd
  · have hself : 2 * (index / 2) = index := by omega
    rw [if_neg (by omega), sibling_of_even heven, hself]
  · have hself : 2 * (index / 2) + 1 = index := by omega
    have hleft : 2 * (index / 2) = index - 1 := by omega
    rw [if_pos hodd, sibling_of_odd hodd, hself, hleft]

theorem hashPair_childPair {height : ℕ} {nodeAt : ℕ → ℕ → Scalar} (h : IsLabelling height nodeAt)
    {level : ℕ} (hlevel : level < height) (p : ℕ) :
    Poseidon.hashPair (childPair nodeAt level p).1 (childPair nodeAt level p).2 =
      .ok (nodeAt (level + 1) p).toHash := by
  rw [h level hlevel, childPair, Poseidon.hashPair_toHash]

/-- Without its lowest level a labelling is one of a smaller height. -/
theorem IsLabelling.succ {height : ℕ} {nodeAt : ℕ → ℕ → Scalar}
    (h : IsLabelling (height + 1) nodeAt) : IsLabelling height fun level => nodeAt (level + 1) :=
  fun level hlevel p => h (level + 1) (by omega) p

/-! ### The climb -/

theorem climb_cons_eq_ok_iff {node sibling reached : Hash} {index : ℕ} {rest : List Hash} :
    climb node index (sibling :: rest) = .ok reached ↔
      ∃ parent, joinAt index node sibling = .ok parent ∧
        climb parent (index / 2) rest = .ok reached :=
  Except.bind_eq_ok_iff

/-- The bits of a position above the path do not matter. -/
theorem climb_congr {path : List Hash} {i j : ℕ} (h : i % 2 ^ path.length = j % 2 ^ path.length)
    (node : Hash) : climb node i path = climb node j path := by
  induction path generalizing i j node with
  | nil => rfl
  | cons sibling rest ih =>
    -- the lowest bit decides the side at this level, the others are left to the rest of the path
    rw [List.length_cons, pow_succ', Nat.mod_mul, Nat.mod_mul] at h
    have hparity : i % 2 = j % 2 := by omega
    have hhalf : i / 2 % 2 ^ rest.length = j / 2 % 2 ^ rest.length := by omega
    simp only [climb, joinAt, hparity, ih hhalf]

/-- Climbing a labelling's own siblings stays on the labelling. -/
theorem climb_siblings {height : ℕ} {nodeAt : ℕ → ℕ → Scalar} (h : IsLabelling height nodeAt)
    (index : ℕ) :
    climb (nodeAt 0 index).toHash index
        ((List.range height).map fun level =>
          (nodeAt level (MerkleTree.sibling (index >>> level))).toHash) =
      .ok (nodeAt height (index / 2 ^ height)).toHash := by
  induction height generalizing nodeAt index with
  | zero => rw [List.range_zero, List.map_nil, climb, pow_zero, Nat.div_one]
  | succ height ih =>
    have hjoin : joinAt index (nodeAt 0 index).toHash
        (nodeAt 0 (MerkleTree.sibling index)).toHash = .ok (nodeAt 1 (index / 2)).toHash := by
      rw [joinAt_eq_hashPair, ← childPair_div_two]
      exact hashPair_childPair h (Nat.succ_pos height) _
    -- the levels above are a labelling of their own, entered at half the position
    have hrest := ih h.succ (index / 2)
    rw [Nat.div_div_eq_div_mul, ← pow_succ'] at hrest
    rw [List.range_succ_eq_map, List.map_cons, List.map_map]
    refine climb_cons_eq_ok_iff.mpr ⟨_, hjoin, ?_⟩
    have hsiblings : (fun level => (nodeAt level (MerkleTree.sibling (index >>> level))).toHash) ∘
        Nat.succ = fun level =>
          (nodeAt (level + 1) (MerkleTree.sibling ((index / 2) >>> level))).toHash := by
      funext level
      rw [Function.comp_apply, Nat.succ_eq_add_one, Nat.shiftRight_succ_inside]
    rw [hsiblings, hrest]

/-- A verification says yes exactly when the climb ends on the root. -/
theorem verify_eq_ok_true_iff {leaf root : Hash} {index : UInt32} {path : List Hash} :
    verify leaf index path root = .ok true ↔ climb leaf index.toNat path = .ok root := by
  rw [verify, rootFromPath, Except.bind_eq_ok_iff]
  constructor
  · rintro ⟨reached, hreached, hequal⟩
    rw [hreached, eq_of_beq (Except.ok.inj hequal)]
  · intro hclimb
    exact ⟨root, hclimb, congrArg Except.ok (beq_self_eq_true root)⟩

/-- A labelling's own siblings verify its leaf against its root, at every position that agrees with
the leaf's in the bits below the height. -/
theorem verify_siblings {height : ℕ} {nodeAt : ℕ → ℕ → Scalar} (h : IsLabelling height nodeAt)
    (index : UInt32) :
    verify (nodeAt 0 (index.toNat % 2 ^ height)).toHash index
        ((List.range height).map fun level =>
          (nodeAt level (MerkleTree.sibling ((index.toNat % 2 ^ height) >>> level))).toHash)
        (nodeAt height 0).toHash = .ok true := by
  have hclimb := climb_siblings h (index.toNat % 2 ^ height)
  rw [Nat.div_eq_of_lt (Nat.mod_lt _ (by positivity))] at hclimb
  rw [verify_eq_ok_true_iff, ← hclimb]
  refine climb_congr ?_ _
  rw [List.length_map, List.length_range, Nat.mod_mod]

/-! ### Binding -/

/-- The ordered pair that a climb joins at a level: the value it has reached and the sibling. -/
def openedPair (leaf : Hash) (index : ℕ) (path : List Hash) (level : ℕ) :
    Except Error (Hash × Hash) := do
  let node ← climb leaf index (path.take level)
  return orderedPair (index >>> level) node (path.getD level FixedBytes.zero)

theorem openedPair_zero (leaf sibling : Hash) (index : ℕ) (rest : List Hash) :
    openedPair leaf index (sibling :: rest) 0 = .ok (orderedPair index leaf sibling) := rfl

theorem openedPair_succ {leaf sibling parent : Hash} {index : ℕ}
    (hjoin : joinAt index leaf sibling = .ok parent) (rest : List Hash) (level : ℕ) :
    openedPair leaf index (sibling :: rest) (level + 1) =
      openedPair parent (index / 2) rest level := by
  rw [openedPair, openedPair, List.take_succ_cons, climb, hjoin, Nat.shiftRight_succ_inside,
    List.getD_cons_succ]
  rfl

/-- The bits of a position above the path do not matter for the pairs either. -/
theorem openedPair_mod (leaf : Hash) (index : ℕ) {path : List Hash} {level : ℕ}
    (hlevel : level < path.length) :
    openedPair leaf (index % 2 ^ path.length) path level = openedPair leaf index path level := by
  have hlen : (path.take level).length = level := List.length_take_of_le hlevel.le
  have hdvd : 2 ^ level ∣ 2 ^ path.length := Nat.pow_dvd_pow 2 hlevel.le
  have hdvd' : 2 ^ (level + 1) ∣ 2 ^ path.length := Nat.pow_dvd_pow 2 hlevel
  -- the value reached depends on the bits below the level, its side on the bit at the level
  have hlow : index % 2 ^ path.length % 2 ^ (path.take level).length =
      index % 2 ^ (path.take level).length := by
    rw [hlen, Nat.mod_mod_of_dvd _ hdvd]
  have hparity : (index % 2 ^ path.length) >>> level % 2 = index >>> level % 2 := by
    rw [Nat.shiftRight_eq_div_pow, Nat.shiftRight_eq_div_pow, ← Nat.mod_mul_right_div_self,
      ← pow_succ, Nat.mod_mod_of_dvd _ hdvd', pow_succ, Nat.mod_mul_right_div_self]
  simp only [openedPair, climb_congr hlow, orderedPair, hparity]

/-- A join that lands on a labelling joined the labelling's own pair, or collides with it. -/
theorem joinAt_binding {height : ℕ} {nodeAt : ℕ → ℕ → Scalar} (h : IsLabelling (height + 1) nodeAt)
    {index : ℕ} {node sibling : Hash}
    (hjoin : joinAt index node sibling = .ok (nodeAt 1 (index / 2)).toHash) :
    (node = (nodeAt 0 index).toHash ∧
      sibling = (nodeAt 0 (MerkleTree.sibling index)).toHash) ∨
    Poseidon.PairCollides (orderedPair index node sibling) (childPair nodeAt 0 (index / 2)) := by
  by_cases hpair : orderedPair index node sibling = childPair nodeAt 0 (index / 2)
  · rw [childPair_div_two, orderedPair_inj] at hpair
    exact Or.inl hpair
  · rw [joinAt_eq_hashPair] at hjoin
    exact Or.inr ⟨hpair, _, hjoin, hashPair_childPair h (Nat.succ_pos height) _⟩

/-- **A climb is bound to what it reaches.**  If it ends on a labelling, then its leaf and all its
siblings are the labelling's own, or at some level the pair it joined and the labelling's pair are
different and have one join. -/
theorem climb_binding {nodeAt : ℕ → ℕ → Scalar} {path : List Hash}
    (h : IsLabelling path.length nodeAt) {leaf : Hash} {index : ℕ}
    (hclimb : climb leaf index path = .ok (nodeAt path.length (index / 2 ^ path.length)).toHash) :
    (leaf = (nodeAt 0 index).toHash ∧ ∀ level (hlevel : level < path.length),
      path[level] = (nodeAt level (MerkleTree.sibling (index >>> level))).toHash) ∨
    ∃ level < path.length, ∃ opened, openedPair leaf index path level = .ok opened ∧
      Poseidon.PairCollides opened (childPair nodeAt level (index / 2 ^ (level + 1))) := by
  -- the path is listed from the bottom, but equality comes down from the root: the hypothesis
  -- says first whether the parent is on the labelling, and only then can this level be compared
  induction path generalizing nodeAt leaf index with
  | nil =>
    rw [climb, List.length_nil, pow_zero, Nat.div_one] at hclimb
    refine Or.inl ⟨Except.ok.inj hclimb, fun level hlevel => ?_⟩
    exact absurd hlevel (Nat.not_lt_zero _)
  | cons sibling rest ih =>
    obtain ⟨parent, hjoin, hrest⟩ := climb_cons_eq_ok_iff.mp hclimb
    rw [List.length_cons, pow_succ', ← Nat.div_div_eq_div_mul] at hrest
    rcases ih h.succ hrest with ⟨rfl, hsiblings⟩ | ⟨level, hlevel, opened, hopened, hcollides⟩
    · -- the parent is the labelling's own, so this level decides
      rcases joinAt_binding h hjoin with ⟨hleaf, hsibling⟩ | hcollides
      · refine Or.inl ⟨hleaf, fun level hlevel => ?_⟩
        cases level with
        | zero => exact hsibling
        | succ level =>
          rw [List.getElem_cons_succ, Nat.shiftRight_succ_inside]
          exact hsiblings level (by rw [List.length_cons] at hlevel; omega)
      · exact Or.inr ⟨0, Nat.succ_pos _, _, openedPair_zero .., by rwa [pow_one]⟩
    · -- the climb left the labelling further up
      refine Or.inr ⟨level + 1, Nat.succ_lt_succ hlevel, opened, ?_, ?_⟩
      · rwa [openedPair_succ hjoin]
      · rw [pow_succ', ← Nat.div_div_eq_div_mul]
        exact hcollides

end CompressedLedger.Merkle
