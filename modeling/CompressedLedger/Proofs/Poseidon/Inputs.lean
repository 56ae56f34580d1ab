import CompressedLedger.Poseidon.Permutation
import CompressedLedger.Proofs.Outcome
import CompressedLedger.Proofs.Scalar.Bytes

/-!
# What Poseidon admits

A 32-byte input is admitted exactly when it is the encoding of a scalar, and then it counts as that
scalar (`readInput_eq_ok_iff`).  So a list of 32-byte inputs has a hash exactly when it has one to
twelve entries and all of them are encodings, and the hash depends on the scalars alone
(`hash_eq_ok_iff`); the join of two 32-byte values is the join of two scalars
(`hashPair_eq_ok_iff`).

Two inputs of one hash value are a collision only if they differ: `Collides` says so for lists of
32-byte values, `PairCollides` for ordered pairs under the join.
-/

namespace CompressedLedger.Poseidon

/-! ### Admission -/

theorem readInput_eq_ok_iff {h : Hash} {a : Scalar} :
    readInput h.bytes = .ok a ↔ h = a.toHash := by
  rw [Scalar.eq_toHash_iff, readInput]
  constructor
  · intro hread
    split_ifs at hread
    cases hread
    rfl
  · intro hval
    have hlt : Bytes.ofBigEndian h.bytes < Scalar.modulus := by
      have := a.isLt
      rwa [hval] at this
    have hlen : 0 < h.bytes.length ∧ h.bytes.length ≤ 32 := by
      rw [h.length_bytes]
      exact ⟨by norm_num, le_rfl⟩
    rw [dif_pos ⟨hlen.1, hlen.2, hlt⟩]
    exact congrArg Except.ok (Scalar.ext hval.symm)

theorem mapM_readInput_eq_ok_iff {inputs : List Hash} {scalars : List Scalar} :
    (inputs.map (·.bytes)).mapM readInput = .ok scalars ↔ inputs = scalars.map Scalar.toHash := by
  rw [Except.mapM_eq_ok_iff, List.forall₂_map_left_iff, ← List.forall₂_eq_eq_eq,
    List.forall₂_map_right_iff]
  simp only [readInput_eq_ok_iff]

/-- One to twelve 32-byte inputs have a hash exactly when all of them are encodings of scalars. -/
theorem hash_eq_ok_iff {inputs : List Hash} {s : Scalar} :
    hash (inputs.map (·.bytes)) = .ok s ↔
      (0 < inputs.length ∧ inputs.length ≤ maxInputs) ∧
        ∃ scalars : List Scalar, inputs = scalars.map Scalar.toHash ∧ hashScalars scalars = s := by
  rw [hash, List.length_map]
  split_ifs with hlen
  · rw [Except.map_eq_ok_iff]
    simp only [mapM_readInput_eq_ok_iff, hlen, and_self, true_and]
  · simp only [hlen, false_and]

/-! ### The join of two nodes -/

/-- A join succeeds exactly on the encodings of two scalars. -/
theorem hashPair_eq_ok_iff {left right parent : Hash} :
    hashPair left right = .ok parent ↔
      ∃ a b : Scalar, left = a.toHash ∧ right = b.toHash ∧ parent = (pair a b).toHash := by
  have hiff := fun s => @hash_eq_ok_iff [left, right] s
  have hlen : 0 < [left, right].length ∧ [left, right].length ≤ maxInputs :=
    show 0 < 2 ∧ 2 ≤ maxInputs by decide
  rw [hashPair, Except.map_eq_ok_iff]
  constructor
  · rintro ⟨s, hs, rfl⟩
    obtain ⟨-, scalars, hscalars, rfl⟩ := (hiff s).mp hs
    -- a list of scalars whose encodings are two inputs has two entries
    obtain ⟨a, as, rfl, ha, has⟩ := List.map_eq_cons_iff.mp hscalars.symm
    obtain ⟨b, bs, rfl, hb, hbs⟩ := List.map_eq_cons_iff.mp has
    rw [List.map_eq_nil_iff] at hbs
    exact ⟨a, b, ha.symm, hb.symm, by rw [hbs, pair]⟩
  · rintro ⟨a, b, rfl, rfl, rfl⟩
    exact ⟨pair a b, (hiff _).mpr ⟨hlen, [a, b], rfl, rfl⟩, rfl⟩

@[simp] theorem hashPair_toHash (a b : Scalar) :
    hashPair a.toHash b.toHash = .ok (pair a b).toHash :=
  hashPair_eq_ok_iff.mpr ⟨a, b, rfl, rfl, rfl⟩

/-! ### Collisions -/

/-- Two different lists of 32-byte values with one hash. -/
def Collides (xs ys : List Hash) : Prop :=
  xs ≠ ys ∧ ∃ s, hash (xs.map (·.bytes)) = .ok s ∧ hash (ys.map (·.bytes)) = .ok s

/-- Two different ordered pairs of 32-byte values with one join. -/
def PairCollides (p q : Hash × Hash) : Prop :=
  p ≠ q ∧ ∃ parent, hashPair p.1 p.2 = .ok parent ∧ hashPair q.1 q.2 = .ok parent

end CompressedLedger.Poseidon
