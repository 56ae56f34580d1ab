import CompressedLedger.Proofs.Checks
import CompressedLedger.Proofs.Poseidon.Inputs

/-!
# What Poseidon refuses

An input counts as a scalar if it has one to 32 bytes and lies below the modulus (`Admits`).  A list
is refused exactly if it has no entries, more than twelve, or one that is not admitted, and the
cause is the same in all these cases (`hash_eq_error_iff`).  Values of 32 bytes have an admitted
length, so of them only the range is in question (`hash_map_bytes_eq_error_iff`,
`hashPair_eq_error_iff`).
-/

namespace CompressedLedger.Poseidon

/-- A byte string that counts as a scalar. -/
def Admits (bs : List UInt8) : Prop :=
  0 < bs.length ∧ bs.length ≤ 32 ∧ Bytes.ofBigEndian bs < Scalar.modulus

theorem judged_readInput (bs : List UInt8) :
    Judged (readInput bs) [⟨Admits bs, .poseidonInput⟩]
      fun a => Admits bs ∧ a.val = Bytes.ofBigEndian bs := by
  by_cases h : Admits bs
  · have hread : readInput bs = .ok ⟨Bytes.ofBigEndian bs, h.2.2⟩ := dif_pos h
    rw [hread]
    refine Judged.of_ok (List.forall_mem_singleton.mpr h) fun b => ?_
    rw [Scalar.ext_iff]
    exact and_iff_right h
  · have hread : readInput bs = .error .poseidonInput := dif_neg h
    rw [hread]
    exact Judged.of_error (FirstFailure.here h) fun b hb => h hb.1

/-- A list of inputs has a hash or is refused with the one cause, and what refuses it is its length
or an entry that is not admitted. -/
theorem hash_eq_error_iff {inputs : List (List UInt8)} {e : Error} :
    hash inputs = .error e ↔ e = .poseidonInput ∧
      ¬((0 < inputs.length ∧ inputs.length ≤ maxInputs) ∧ ∀ bs ∈ inputs, Admits bs) := by
  unfold hash
  split_ifs with hlength
  · have hcause : ∀ c ∈ inputs.flatMap fun bs => [Check.mk (Admits bs) .poseidonInput],
        c.cause = .poseidonInput := by simp +contextual
    have hjudged := judged_mapM judged_readInput inputs
    rw [Except.map_eq_error_iff, hjudged.eq_error_iff, FirstFailure.iff_of_cause hcause]
    simp [hlength]
  · simp [hlength, eq_comm]

/-! ### Values of 32 bytes -/

theorem admits_bytes_iff {h : Hash} : Admits h.bytes ↔ h.toNat < Scalar.modulus := by
  rw [Admits, h.length_bytes]
  simp [FixedBytes.toNat]

/-- One to twelve 32-byte values are refused exactly if one of them is not below the modulus. -/
theorem hash_map_bytes_eq_error_iff {inputs : List Hash} (hpos : 0 < inputs.length)
    (hmax : inputs.length ≤ maxInputs) {e : Error} :
    hash (inputs.map (·.bytes)) = .error e ↔
      e = .poseidonInput ∧ ∃ h ∈ inputs, Scalar.modulus ≤ h.toNat := by
  rw [hash_eq_error_iff]
  simp [hpos, hmax, admits_bytes_iff]

/-- Two values have no join exactly if one of them is not below the modulus. -/
theorem hashPair_eq_error_iff {left right : Hash} {e : Error} :
    hashPair left right = .error e ↔
      e = .poseidonInput ∧ (Scalar.modulus ≤ left.toNat ∨ Scalar.modulus ≤ right.toNat) := by
  have hlength : 2 ≤ maxInputs := by decide
  have hrefused := @hash_map_bytes_eq_error_iff [left, right] (Nat.succ_pos 1) hlength e
  rw [hashPair, Except.map_eq_error_iff]
  simpa using hrefused

end CompressedLedger.Poseidon
