import CompressedLedger.Proof.Validity
import CompressedLedger.Proofs.Checks

/-!
# Building a proof from its points

Three byte strings are the points of a proof exactly if they have 32, 64 and 32 bytes, and the first
one that has not is refused (`ValidityProof.judged_ofParts`).  A proof can be built from every byte
string of 128 bytes and from no other, and it has the string as its own bytes
(`ValidityProof.ofBytes_eq_ok_iff`).

A context is valid if it has a proof or nothing in it needs one
(`ProofContext.validate_eq_ok_iff`).
-/

namespace CompressedLedger

/-! ### Points -/

/-- A byte string of the right length. -/
def Check.length (n : ℕ) (bs : List UInt8) : Check := ⟨bs.length = n, .lengthMismatch⟩

theorem judged_ofBytes (n : ℕ) (bs : List UInt8) :
    Judged (FixedBytes.ofBytes bs) [Check.length n bs] fun a : FixedBytes n => bs = a.bytes := by
  refine Judged.single (fun _ => FixedBytes.ofBytes_eq_ok_iff)
    (fun _ => FixedBytes.eq_lengthMismatch_of_ofBytes) ?_
  constructor
  · intro hlength
    exact ⟨⟨bs, hlength⟩, rfl⟩
  · rintro ⟨a, rfl⟩
    exact a.length_bytes

namespace ValidityProof

theorem judged_ofParts (a b c : List UInt8) :
    Judged (ofParts a b c) [Check.length 32 a, Check.length 64 b, Check.length 32 c]
      fun p => a = p.a.bytes ∧ b = p.b.bytes ∧ c = p.c.bytes := by
  have hsteps :=
    (judged_ofBytes 32 a).bind fun a' _ =>
    (judged_ofBytes 64 b).bind fun b' _ =>
    (judged_ofBytes 32 c).bind fun c' _ =>
    judged_pure (ValidityProof.mk a' b' c')
  refine hsteps.congr fun p => ?_
  constructor
  · rintro ⟨a', ha, b', hb, c', hc, rfl⟩
    exact ⟨ha, hb, hc⟩
  · rintro ⟨ha, hb, hc⟩
    exact ⟨p.a, ha, p.b, hb, p.c, hc, rfl⟩

theorem ofParts_eq_ok_iff {a b c : List UInt8} {p : ValidityProof} :
    ofParts a b c = .ok p ↔ a = p.a.bytes ∧ b = p.b.bytes ∧ c = p.c.bytes :=
  (judged_ofParts a b c).eq_ok_iff p

/-! ### All bytes of a proof -/

theorem length_toBytes (p : ValidityProof) : p.toBytes.length = length := by
  rw [toBytes, List.length_append, List.length_append, p.a.length_bytes, p.b.length_bytes,
    p.c.length_bytes, length]

theorem ofBytes_eq_ok_iff {bs : List UInt8} {p : ValidityProof} :
    ofBytes bs = .ok p ↔ p.toBytes = bs := by
  constructor
  · intro hok
    by_cases hlength : bs.length = length
    · rw [ofBytes, if_pos hlength] at hok
      obtain ⟨ha, hb, hc⟩ := ofParts_eq_ok_iff.mp hok
      have hrest : bs.drop 96 = (bs.drop 32).drop 64 := by rw [List.drop_drop]
      rw [toBytes, ← ha, ← hb, ← hc, hrest, List.append_assoc, List.take_append_drop,
        List.take_append_drop]
    · rw [ofBytes, if_neg hlength] at hok
      cases hok
  · rintro rfl
    have hafter : p.toBytes.drop 32 = p.b.bytes ++ p.c.bytes := by
      rw [toBytes, List.append_assoc, List.drop_left' p.a.length_bytes]
    have hlast : p.toBytes.drop 96 = (p.toBytes.drop 32).drop 64 := by rw [List.drop_drop]
    rw [ofBytes, if_pos p.length_toBytes]
    refine ofParts_eq_ok_iff.mpr ⟨?_, ?_, ?_⟩
    · rw [toBytes, List.append_assoc, List.take_left' p.a.length_bytes]
    · rw [hafter, List.take_left' p.b.length_bytes]
    · rw [hlast, hafter, List.drop_left' p.b.length_bytes]

theorem exists_ofBytes_eq_ok_iff {bs : List UInt8} :
    (∃ p, ofBytes bs = .ok p) ↔ bs.length = length := by
  constructor
  · rintro ⟨p, hp⟩
    rw [← ofBytes_eq_ok_iff.mp hp, length_toBytes]
  · intro hlength
    -- a string of that length can be cut into the three points
    let a : FixedBytes 32 := ⟨bs.take 32, by rw [List.length_take, hlength]; rfl⟩
    let b : FixedBytes 64 := ⟨(bs.drop 32).take 64, by
      rw [List.length_take, List.length_drop, hlength]; rfl⟩
    let c : FixedBytes 32 := ⟨bs.drop 96, by rw [List.length_drop, hlength]; rfl⟩
    refine ⟨⟨a, b, c⟩, ?_⟩
    rw [ofBytes, if_pos hlength]
    exact ofParts_eq_ok_iff.mpr ⟨rfl, rfl, rfl⟩

end ValidityProof

/-! ### Contexts -/

theorem ProofContext.validate_eq_ok_iff {c : ProofContext} {u : Unit} :
    c.validate = .ok u ↔
      c.proof.isSome ∨ c.addresses = [] ∧ ∀ leaf ∈ c.leaves, leaf.proveByIndex = true := by
  have hneeded : (!c.isProofRequired) = true ↔
      c.addresses = [] ∧ ∀ leaf ∈ c.leaves, leaf.proveByIndex = true := by
    rw [isProofRequired, Bool.not_or, Bool.and_eq_true, Bool.not_not, List.isEmpty_iff]
    simp only [List.any_eq, Bool.not_eq_true', decide_eq_false_iff_not, not_exists, not_and,
      Bool.not_eq_false]
  rw [← hneeded, validate, ← Bool.or_eq_true]
  split
  · rename_i hprovable
    exact iff_of_true rfl hprovable
  · rename_i hprovable
    exact iff_of_false (fun h => nomatch h) hprovable

theorem ProofContext.eq_missingProof_of_validate {c : ProofContext} {e : Error}
    (h : c.validate = .error e) : e = .missingProof := by
  unfold validate at h
  split at h
  · cases h
  · cases h
    rfl

end CompressedLedger
