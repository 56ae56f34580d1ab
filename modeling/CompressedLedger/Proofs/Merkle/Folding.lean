import CompressedLedger.Proofs.Merkle.Climb
import CompressedLedger.Proofs.Poseidon.Refusals

/-!
# Laws of climbing along a path

A climb joins once for each sibling, and each join can fail.  Only the first join sees the leaf; all
later ones see what a join gave, which is a scalar.  So a climb fails exactly if the leaf or one of
the siblings is not below the modulus, on whichever level it stands (`climb_eq_error_iff`), and an
empty path does not look at the leaf at all.

Each join takes one bit off the position (`rootFromPath_cons`).  So a path of `m` siblings is
climbed by the lowest `m` bits, and a climb along one path and then another is one climb, the
position of the second part being what is left of the first one's (`climb_append`).  In particular
the sibling on a level is joined on the side that the bit of that level tells
(`rootFromPath_concat`).  What holds of the root that a leaf, its index and a path of any length
lead to is gathered in `rootFromPath_laws`.
-/

namespace CompressedLedger.Merkle

/-! ### One join -/

theorem joinAt_eq_error_iff {index : ℕ} {node sibling : Hash} {e : Error} :
    joinAt index node sibling = .error e ↔
      e = .poseidonInput ∧ (Scalar.modulus ≤ node.toNat ∨ Scalar.modulus ≤ sibling.toNat) := by
  unfold joinAt
  split_ifs
  · rw [Poseidon.hashPair_eq_error_iff, or_comm]
  · rw [Poseidon.hashPair_eq_error_iff]

theorem toNat_lt_of_joinAt {index : ℕ} {node sibling parent : Hash}
    (h : joinAt index node sibling = .ok parent) : parent.toNat < Scalar.modulus := by
  rw [joinAt_eq_hashPair] at h
  obtain ⟨a, b, -, -, rfl⟩ := Poseidon.hashPair_eq_ok_iff.mp h
  rw [Scalar.toNat_toHash]
  exact Scalar.isLt _

/-! ### A climb -/

/-- A climb fails exactly if it joins at all and meets a value that is not below the modulus, be it
the leaf or a sibling on any level. -/
theorem climb_eq_error_iff {node : Hash} {index : ℕ} {path : List Hash} {e : Error} :
    climb node index path = .error e ↔ e = .poseidonInput ∧ path ≠ [] ∧
      (Scalar.modulus ≤ node.toNat ∨ ∃ sibling ∈ path, Scalar.modulus ≤ sibling.toNat) := by
  induction path generalizing node index with
  | nil => simp [climb]
  | cons sibling rest ih =>
    rw [climb, Except.bind_eq_error_iff, List.exists_mem_cons_iff]
    constructor
    · rintro (hjoin | ⟨parent, hjoin, hrest⟩)
      · obtain ⟨rfl, hlarge⟩ := joinAt_eq_error_iff.mp hjoin
        exact ⟨rfl, List.cons_ne_nil _ _, by tauto⟩
      · -- the value reached is a scalar, so what fails the rest is one of its siblings
        obtain ⟨rfl, -, hlarge⟩ := ih.mp hrest
        have hparent : ¬Scalar.modulus ≤ parent.toNat := Nat.not_le_of_lt (toNat_lt_of_joinAt hjoin)
        exact ⟨rfl, List.cons_ne_nil _ _, by tauto⟩
    · rintro ⟨rfl, -, hlarge⟩
      cases hjoin : joinAt index node sibling with
      | error e' =>
        obtain ⟨rfl, -⟩ := joinAt_eq_error_iff.mp hjoin
        exact Or.inl rfl
      | ok parent =>
        -- the two values joined are scalars, so the large one is among the rest
        have hsmall : ¬(Scalar.modulus ≤ node.toNat ∨ Scalar.modulus ≤ sibling.toNat) := by
          intro h
          rw [joinAt_eq_error_iff.mpr ⟨rfl, h⟩] at hjoin
          cases hjoin
        have hlater : ∃ s ∈ rest, Scalar.modulus ≤ s.toNat := by tauto
        have hrest : rest ≠ [] := by
          rintro rfl
          simp at hlater
        exact Or.inr ⟨parent, rfl, ih.mpr ⟨rfl, hrest, Or.inr hlater⟩⟩

theorem toNat_lt_of_climb {node root : Hash} {index : ℕ} {path : List Hash}
    (hnode : node.toNat < Scalar.modulus) (h : climb node index path = .ok root) :
    root.toNat < Scalar.modulus := by
  induction path generalizing node index with
  | nil =>
    rw [← Except.ok.inj h]
    exact hnode
  | cons sibling rest ih =>
    obtain ⟨parent, hjoin, hrest⟩ := climb_cons_eq_ok_iff.mp h
    exact ih (toNat_lt_of_joinAt hjoin) hrest

/-- A climb along two paths is a climb along the first one and, from what it reaches, along the
second one. -/
theorem climb_append (node : Hash) (index : ℕ) (path rest : List Hash) :
    climb node index (path ++ rest) =
      climb node index path >>= fun reached => climb reached (index >>> path.length) rest := by
  induction path generalizing node index with
  | nil => rfl
  | cons sibling path ih =>
    rw [List.cons_append, climb, climb, bind_assoc, List.length_cons]
    simp only [ih, Nat.shiftRight_succ_inside]

/-! ### From a leaf to a root -/

/-- The first sibling is joined with the leaf on the side that the lowest bit of the index tells, a
set bit putting the leaf on the right, and the rest of the path is followed from their join. -/
theorem rootFromPath_cons (leaf : Hash) (index : UInt32) (sibling : Hash) (rest : List Hash) :
    rootFromPath leaf index (sibling :: rest) =
      (if index.toNat % 2 = 1 then Poseidon.hashPair sibling leaf
        else Poseidon.hashPair leaf sibling) >>= fun parent =>
          rootFromPath parent (index / 2) rest := by
  have hhalf : (index / 2).toNat = index.toNat / 2 := UInt32.toNat_div index 2
  simp only [rootFromPath, climb, joinAt, hhalf]

/-- The last sibling is joined with what the path before it leads to, on the side that the bit of
its own level tells. -/
theorem rootFromPath_concat (leaf : Hash) (index : UInt32) (path : List Hash) (sibling : Hash) :
    rootFromPath leaf index (path ++ [sibling]) =
      rootFromPath leaf index path >>= fun reached =>
        if index.toNat.testBit path.length then Poseidon.hashPair sibling reached
        else Poseidon.hashPair reached sibling := by
  have hbit : index.toNat.testBit path.length = true ↔ index.toNat >>> path.length % 2 = 1 := by
    rw [Nat.testBit, Nat.one_and_eq_mod_two, bne_iff_ne]
    omega
  have hlast (reached : Hash) : climb reached (index.toNat >>> path.length) [sibling] =
      joinAt (index.toNat >>> path.length) reached sibling := bind_pure _
  simp only [rootFromPath, climb_append, hlast, joinAt, hbit]

/-- **Laws of the root of a path.**  An empty path leads to the leaf as it is.  A path leads to a
root exactly if it is empty or the leaf and all its siblings are below the modulus, it fails with
one cause, and the root of a path with siblings is below the modulus.  Of the index only the lowest
bits count, as many as there are siblings.  A path may be followed in two parts: the second part
starts at what the first one reached, with the index shifted by the length of the first part, which
is zero from 32 siblings on; and if the first part fails, so does the whole. -/
theorem rootFromPath_laws (leaf : Hash) (index : UInt32) (path : List Hash) :
    rootFromPath leaf index [] = .ok leaf ∧
    ((∃ root, rootFromPath leaf index path = .ok root) ↔
      path = [] ∨ leaf.toNat < Scalar.modulus ∧ ∀ sibling ∈ path, sibling.toNat < Scalar.modulus) ∧
    (∀ e, rootFromPath leaf index path = .error e → e = .poseidonInput) ∧
    (path ≠ [] → ∀ root, rootFromPath leaf index path = .ok root → root.toNat < Scalar.modulus) ∧
    (∀ other : UInt32, other.toNat % 2 ^ path.length = index.toNat % 2 ^ path.length →
      rootFromPath leaf other path = rootFromPath leaf index path) ∧
    (∀ rest : List Hash, rootFromPath leaf index (path ++ rest) =
      rootFromPath leaf index path >>= fun reached =>
        rootFromPath reached (UInt32.ofNat (index.toNat >>> path.length)) rest) ∧
    (32 ≤ path.length → UInt32.ofNat (index.toNat >>> path.length) = 0) := by
  have hindex := index.toNat_lt
  refine ⟨rfl, ?_, ?_, ?_, fun other hlow => climb_congr hlow leaf, fun rest => ?_, fun hlong => ?_⟩
  · rw [Except.exists_eq_ok_iff]
    simp only [rootFromPath, ne_eq, climb_eq_error_iff]
    simp only [not_and, not_or, not_exists, not_le, forall_eq]
    tauto
  · intro e he
    exact (climb_eq_error_iff.mp he).1
  · intro hne root hroot
    obtain ⟨sibling, rest, rfl⟩ := List.exists_cons_of_ne_nil hne
    obtain ⟨parent, hjoin, hrest⟩ := climb_cons_eq_ok_iff.mp hroot
    exact toNat_lt_of_climb (toNat_lt_of_joinAt hjoin) hrest
  · have hshift : index.toNat >>> path.length < 2 ^ 32 :=
      lt_of_le_of_lt (Nat.shiftRight_le _ _) hindex
    simp only [rootFromPath, UInt32.toNat_ofNat_of_lt' hshift]
    exact climb_append leaf index.toNat path rest
  · have hwidth : 2 ^ 32 ≤ 2 ^ path.length := Nat.pow_le_pow_right (by norm_num) hlong
    rw [Nat.shiftRight_eq_div_pow, Nat.div_eq_of_lt (hindex.trans_le hwidth)]
    rfl

end CompressedLedger.Merkle
