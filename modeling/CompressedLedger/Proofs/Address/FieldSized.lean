import CompressedLedger.Proofs.Address.Separation
import CompressedLedger.Proofs.Hash.Stream
import CompressedLedger.Proofs.Poseidon.Inputs

/-!
# Hashes, seeds and addresses are scalars

A hash with its first byte cleared is `FieldSized`: whoever asks for a scalar takes it, be it by
comparing bytes with those of the modulus, by reading 32 bytes or as an input of Poseidon
(`fieldSized_of_head_zero`).  All field-sized hashes, seeds and addresses are such hashes.

So the search for a last byte ends where it begins, and a version 1 address is a sealed hash
(`ofSeedV1_eq`).  A sealed hash takes the seal as one more input behind the others
(`sealedAll_eq_hashAll`), and the inputs of a hash may be taken one after the other
(`hashAll_eq_hashParts`).
-/

namespace CompressedLedger

/-- A hash that counts as a scalar wherever one is asked for. -/
structure FieldSized (h : Hash) : Prop where
  head?_eq_zero : h.bytes.head? = some 0
  precedesModulus : Scalar.precedesModulus h = true
  exists_scalar : ∃ s : Scalar, s.toHash = h ∧ Scalar.ofExactBytes h.bytes = .ok s ∧
    Poseidon.readInput h.bytes = .ok s

/-- The first byte alone decides: the others hold fewer bits than the modulus has. -/
theorem fieldSized_of_head_zero {h : Hash} (hzero : h.bytes.head? = some 0) : FieldSized h := by
  have hlt : h.toNat < Scalar.modulus := Scalar.toNat_lt_modulus_of_head_zero hzero
  refine ⟨hzero, Scalar.precedesModulus_iff.mpr hlt, ?_⟩
  lift h to Scalar using hlt with s
  exact ⟨s, rfl, Scalar.ofExactBytes_eq_ok_iff.mpr rfl, Poseidon.readInput_eq_ok_iff.mpr rfl⟩

namespace Truncated

theorem fieldSized_hash (bs : List UInt8) : FieldSized (hash bs) :=
  fieldSized_of_head_zero (head?_hash bs)

theorem hashAll_eq_hashParts (inputs : List (List UInt8)) :
    hashAll inputs = clearFirst (Keccak.hashParts inputs) := by
  rw [Keccak.hashParts_eq_hash_flatten]
  rfl

theorem sealedAll_eq_hashAll (inputs : List (List UInt8)) :
    sealedAll inputs = hashAll (inputs ++ [[sealByte]]) := by
  rw [sealedAll, sealed, hashAll, List.flatten_append]
  rfl

end Truncated

namespace Address

open Truncated

/-- A version 1 address is a sealed hash, and the length of the seed is all that can be wrong. -/
theorem ofSeedV1_eq (tree : Pubkey) (seed : List UInt8) :
    ofSeedV1 tree seed =
      if seed.length = 32 then .ok (sealedAll [tree.bytes, seed]) else .error .seedLength := by
  have hjoined : [tree.bytes, seed].flatten = tree.bytes ++ seed := by
    rw [List.flatten_cons, List.flatten_singleton]
  rw [ofSeedV1, search_eq_sealed, sealedAll, hjoined]

theorem ofSeedV1_eq_ok_iff {tree : Pubkey} {seed : List UInt8} {a : Hash} :
    ofSeedV1 tree seed = .ok a ↔ seed.length = 32 ∧ a = sealedAll [tree.bytes, seed] := by
  rw [ofSeedV1_eq]
  split_ifs with hlength
  · simp only [hlength, Except.ok.injEq, true_and, eq_comm]
  · simp only [hlength, false_and]

theorem ofSeedV1_eq_error_iff {tree : Pubkey} {seed : List UInt8} {e : Error} :
    ofSeedV1 tree seed = .error e ↔ seed.length ≠ 32 ∧ e = .seedLength := by
  rw [ofSeedV1_eq]
  split_ifs with hlength
  · simp only [hlength, ne_eq, not_true_eq_false, false_and]
  · simp only [hlength, Except.error.injEq, ne_eq, not_false_eq_true, true_and, eq_comm]

theorem fieldSized_of_ofSeedV1 {tree : Pubkey} {seed : List UInt8} {a : Hash}
    (h : ofSeedV1 tree seed = .ok a) : FieldSized a := by
  rw [(ofSeedV1_eq_ok_iff.mp h).2]
  exact fieldSized_hash _

theorem fieldSized_of_ofSeedV2 {tree program : Pubkey} {seed : List UInt8} {a : Hash}
    (h : ofSeedV2 tree program seed = .ok a) : FieldSized a := by
  unfold ofSeedV2 at h
  split_ifs at h
  rw [← Except.ok.inj h]
  exact fieldSized_hash _

/-- **The search is the sealed hash.**  The search tries 256 last bytes and ends at the first of
them, so what it gives is the sealed hash and the seal.  A version 1 address fails for a seed of
the wrong length and for no other cause, and else it is the sealed hash of the tree and the seed.

Plain and sealed hashes take their inputs one after the other, the seal last, and see only what the
inputs are when joined.  Every hash, every seed and every address of either version is
field-sized. -/
theorem search_never_fails (bs : List UInt8) (inputs : List (List UInt8)) (tree program : Pubkey)
    (seed : List UInt8) :
    search bs = some (sealedAll [bs], 255) ∧
    ((∀ e, ofSeedV1 tree seed = .error e ↔ seed.length ≠ 32 ∧ e = .seedLength) ∧
      ∀ a, ofSeedV1 tree seed = .ok a ↔ seed.length = 32 ∧ a = sealedAll [tree.bytes, seed]) ∧
    (hashAll inputs = clearFirst (Keccak.hashParts inputs) ∧
      sealedAll inputs = clearFirst (Keccak.hashParts (inputs ++ [[255]])) ∧
      ∀ inputs' : List (List UInt8), inputs'.flatten = inputs.flatten →
        hashAll inputs' = hashAll inputs ∧ sealedAll inputs' = sealedAll inputs) ∧
    (FieldSized (hash bs) ∧ FieldSized (sealed bs) ∧ FieldSized (hashAll inputs) ∧
      FieldSized (sealedAll inputs)) ∧
    (FieldSized (seedV1 program inputs) ∧ FieldSized (seedV2 inputs) ∧
      (∀ a, ofSeedV1 tree seed = .ok a → FieldSized a) ∧
      (∀ a, ofSeedV2 tree program seed = .ok a → FieldSized a) ∧
      ∀ version : AddressVersion, ∃ a, version.derive inputs tree program = .ok a ∧
        FieldSized a) := by
  refine ⟨?_, ⟨fun e => ofSeedV1_eq_error_iff, fun a => ofSeedV1_eq_ok_iff⟩, ⟨?_, ?_, ?_⟩, ?_, ?_⟩
  · rw [search_eq_sealed, sealedAll, List.flatten_singleton]
    rfl
  · exact hashAll_eq_hashParts inputs
  · rw [sealedAll_eq_hashAll, hashAll_eq_hashParts]
    rfl
  · intro inputs' hjoined
    rw [hashAll, hashAll, sealedAll, sealedAll, hjoined]
    exact ⟨rfl, rfl⟩
  · exact ⟨fieldSized_hash _, fieldSized_hash _, fieldSized_hash _, fieldSized_hash _⟩
  · refine ⟨fieldSized_hash _, fieldSized_hash _, fun a => fieldSized_of_ofSeedV1,
      fun a => fieldSized_of_ofSeedV2, fun version => ?_⟩
    exact ⟨_, version.derive_eq_ok inputs tree program, fieldSized_hash _⟩

end Address

end CompressedLedger
