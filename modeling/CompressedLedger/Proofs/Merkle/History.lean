import CompressedLedger.Merkle.Tree
import CompressedLedger.Proofs.Scalar.Bytes

/-!
# Histories of appends

A tree is used through append calls, some of which are refused.  `appendEach` runs a sequence of
calls, `accepted` lists those that were answered with an index, and `Reachable` says that a tree
came about in this way from the empty tree of its depth.

What one call can do is said once, in `append_cases`: it stores the scalar that the leaf encodes,
or it fails for one of two reasons and changes nothing.
-/

namespace CompressedLedger.MerkleTree

/-- The tree after a sequence of append calls, accepted or refused. -/
def appendEach (t : MerkleTree) (calls : List Hash) : MerkleTree :=
  calls.foldl (fun t leaf => (t.append leaf).2) t

/-- The leaves that a sequence of append calls stores, in order. -/
def accepted : MerkleTree → List Hash → List Hash
  | _, [] => []
  | t, leaf :: rest =>
    match t.append leaf with
    | (.ok _, t) => leaf :: accepted t rest
    | (.error _, t) => accepted t rest

/-- A tree that some sequence of append calls makes of the empty tree of a depth. -/
def Reachable (depth : ℕ) (t : MerkleTree) : Prop :=
  ∃ start calls, MerkleTree.empty depth = .ok start ∧ t = start.appendEach calls

/-! ### One call -/

/-- A call on a full tree fails, and so does one with a leaf that encodes no scalar; neither
changes the tree.  Every other call stores the leaf's scalar at the next index. -/
theorem append_cases (t : MerkleTree) (leaf : Hash) :
    (t.isFull = true ∧ t.append leaf = (.error .treeFull, t)) ∨
    (t.isFull = false ∧ Scalar.modulus ≤ leaf.toNat ∧
      t.append leaf = (.error .scalarOutOfRange, t)) ∨
    (t.isFull = false ∧ ∃ a : Scalar, leaf = a.toHash ∧
      t.append leaf = (.ok (UInt32.ofNat t.size), t.push a)) := by
  unfold append
  by_cases hfull : t.isFull = true
  · exact Or.inl ⟨hfull, if_pos hfull⟩
  · rw [if_neg hfull]
    rw [Bool.not_eq_true] at hfull
    by_cases hlt : leaf.toNat < Scalar.modulus
    · lift leaf to Scalar using hlt
      rw [Scalar.ofBytes_eq_ok_iff.mpr rfl]
      exact Or.inr (Or.inr ⟨hfull, leaf, rfl, rfl⟩)
    · -- the room is tested first, so a full tree never complains of the leaf
      have hle : Scalar.modulus ≤ leaf.toNat := Nat.le_of_not_lt hlt
      have herror : Scalar.ofBytes leaf.bytes = .error .scalarOutOfRange :=
        Scalar.ofNat_of_le hle
      rw [herror]
      exact Or.inr (Or.inl ⟨hfull, hle, rfl⟩)

/-- Where there is room, a scalar is stored. -/
theorem append_toHash {t : MerkleTree} (hroom : t.isFull = false) (a : Scalar) :
    t.append a.toHash = (.ok (UInt32.ofNat t.size), t.push a) := by
  rw [append, hroom, Scalar.ofBytes_eq_ok_iff.mpr rfl]
  rfl

@[simp] theorem depth_append (t : MerkleTree) (leaf : Hash) :
    (t.append leaf).2.depth = t.depth := by
  rcases t.append_cases leaf with ⟨-, hcall⟩ | ⟨-, -, hcall⟩ | ⟨-, a, -, hcall⟩
  · rw [hcall]
  · rw [hcall]
  · rw [hcall]
    rfl

/-! ### Many calls -/

@[simp] theorem appendEach_nil (t : MerkleTree) : t.appendEach [] = t := rfl

@[simp] theorem appendEach_cons (t : MerkleTree) (leaf : Hash) (rest : List Hash) :
    t.appendEach (leaf :: rest) = (t.append leaf).2.appendEach rest := rfl

/-- The first call's leaf, if it is accepted, and then those of the rest. -/
theorem accepted_cons (t : MerkleTree) (leaf : Hash) (rest : List Hash) :
    t.accepted (leaf :: rest) = t.accepted [leaf] ++ (t.append leaf).2.accepted rest := by
  cases hcall : t.append leaf with
  | mk answer u =>
    cases answer with
    | error e => simp only [accepted, hcall, List.nil_append]
    | ok index => simp only [accepted, hcall, List.singleton_append]

theorem length_accepted_le (t : MerkleTree) (calls : List Hash) :
    (t.accepted calls).length ≤ calls.length := by
  induction calls generalizing t with
  | nil => exact Nat.le_refl 0
  | cons leaf rest ih =>
    unfold accepted
    split
    · exact Nat.succ_le_succ (ih _)
    · exact Nat.le_succ_of_le (ih _)

/-- All calls are accepted exactly if the first one is and all those after it are. -/
theorem accepted_cons_eq_self_iff {t : MerkleTree} {leaf : Hash} {rest : List Hash} :
    t.accepted (leaf :: rest) = leaf :: rest ↔
      t.accepted [leaf] = [leaf] ∧ (t.append leaf).2.accepted rest = rest := by
  rw [accepted_cons]
  have hfirst : (t.accepted [leaf]).length ≤ 1 := length_accepted_le t [leaf]
  have hrest := length_accepted_le (t.append leaf).2 rest
  constructor
  · intro h
    change t.accepted [leaf] ++ _ = [leaf] ++ rest at h
    -- neither part can be longer than its calls, so neither is shorter
    have hlength := congrArg List.length h
    rw [List.length_append, List.length_append, List.length_singleton] at hlength
    apply List.append_inj h
    rw [List.length_singleton]
    omega
  · rintro ⟨hone, hothers⟩
    rw [hone, hothers]
    rfl

theorem appendEach_append (t : MerkleTree) (xs ys : List Hash) :
    t.appendEach (xs ++ ys) = (t.appendEach xs).appendEach ys :=
  List.foldl_append

@[simp] theorem depth_appendEach (t : MerkleTree) (calls : List Hash) :
    (t.appendEach calls).depth = t.depth := by
  induction calls generalizing t with
  | nil => rfl
  | cons leaf rest ih => rw [appendEach_cons, ih, depth_append]

/-! ### From the empty tree -/

/-- There is an empty tree of every depth between 1 and 32. -/
theorem empty_eq_ok {depth : ℕ} (hmin : 1 ≤ depth) (hmax : depth ≤ 32) :
    ∃ start, MerkleTree.empty depth = .ok start := by
  rw [MerkleTree.empty, dif_pos ⟨hmin, hmax⟩]
  exact ⟨_, rfl⟩

theorem depth_of_empty_eq_ok {depth : ℕ} {start : MerkleTree}
    (h : MerkleTree.empty depth = .ok start) : start.depth = depth := by
  unfold MerkleTree.empty at h
  split_ifs at h
  cases h
  rfl

theorem depth_of_history {depth : ℕ} {start : MerkleTree}
    (hstart : MerkleTree.empty depth = .ok start) (calls : List Hash) :
    (start.appendEach calls).depth = depth := by
  rw [depth_appendEach, depth_of_empty_eq_ok hstart]

theorem Reachable.depth_eq {depth : ℕ} {t : MerkleTree} (h : Reachable depth t) :
    t.depth = depth := by
  obtain ⟨start, calls, hstart, rfl⟩ := h
  exact depth_of_history hstart calls

/-- A tree reached by some calls stays reachable after more. -/
theorem Reachable.appendEach {depth : ℕ} {t : MerkleTree} (h : Reachable depth t)
    (calls : List Hash) : Reachable depth (t.appendEach calls) := by
  obtain ⟨start, before, hstart, rfl⟩ := h
  exact ⟨start, before ++ calls, hstart, (appendEach_append ..).symm⟩

end CompressedLedger.MerkleTree
