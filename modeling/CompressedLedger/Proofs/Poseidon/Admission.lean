import CompressedLedger.Proofs.Bytes.Minimal
import CompressedLedger.Proofs.Poseidon.Refusals
import CompressedLedger.Proofs.Poseidon.Vectors

/-!
# The hash of byte strings

Whether some byte strings have a hash is decided before anything is hashed, by their number, their
lengths and their numeric values (`Hashable`).  After that only the numbers count: the hash is what
the rounds make of them (`isDigest_of_hash`), there is one such value (`IsDigest.unique`), and it is
below the modulus.  So leading zero bytes are of no account as long as they leave an input within 32
bytes (`hash_of_padded`).  An input without bytes is the exception, as it is refused and one zero
byte is not.
-/

namespace CompressedLedger.Poseidon

open Scalar (modulus)

/-! ### Admission -/

instance (bs : List UInt8) : Decidable (Admits bs) := inferInstanceAs (Decidable (_ ∧ _ ∧ _))

/-- There are one to twelve byte strings, and each is admitted. -/
structure Hashable (inputs : List (List UInt8)) : Prop where
  length_pos : 1 ≤ inputs.length
  length_le : inputs.length ≤ 12
  admits : ∀ bs ∈ inputs, Admits bs

variable {inputs : List (List UInt8)} {s : Scalar}

theorem hashable_iff : Hashable inputs ↔
    (0 < inputs.length ∧ inputs.length ≤ maxInputs) ∧ ∀ bs ∈ inputs, Admits bs := by
  constructor
  · rintro ⟨hpos, hle, hall⟩
    exact ⟨⟨hpos, hle⟩, hall⟩
  · rintro ⟨⟨hpos, hle⟩, hall⟩
    exact ⟨hpos, hle, hall⟩

instance (inputs : List (List UInt8)) : Decidable (Hashable inputs) :=
  decidable_of_iff' _ hashable_iff

theorem hash_eq_error_iff_not_hashable {e : Error} :
    hash inputs = .error e ↔ e = .poseidonInput ∧ ¬Hashable inputs := by
  rw [hash_eq_error_iff, hashable_iff]

theorem exists_hash_eq_ok_iff : (∃ s, hash inputs = .ok s) ↔ Hashable inputs := by
  rw [Except.exists_eq_ok_iff]
  simp [hash_eq_error_iff_not_hashable]

/-! ### Digests of numbers -/

/-- The 32 bytes hold a number below the modulus that, in the field, is what the rounds for so many
numbers make of them. -/
structure IsDigest (numbers : List ℕ) (digest : Hash) : Prop where
  length_bytes : digest.bytes.length = 32
  lt_modulus : digest.toNat < modulus
  eq_first : ∃ p partials, parametersByInputs[numbers.length - 1]? = some p ∧
    partialRounds[numbers.length - 1]? = some partials ∧ p.Fits (numbers.length + 1) partials ∧
    (digest.toNat : ZMod modulus) = p.onNumbers numbers

/-- Numbers have one digest at most. -/
theorem IsDigest.unique {numbers : List ℕ} {digest digest' : Hash} (h : IsDigest numbers digest)
    (h' : IsDigest numbers digest') : digest = digest' := by
  obtain ⟨p, -, hp, -, -, hfirst⟩ := h.eq_first
  obtain ⟨p', -, hp', -, -, hfirst'⟩ := h'.eq_first
  obtain rfl : p = p' := Option.some.inj (hp.symm.trans hp')
  apply FixedBytes.toNat_injective
  have hmod := (ZMod.natCast_eq_natCast_iff' _ _ modulus).mp (hfirst.trans hfirst'.symm)
  rwa [Nat.mod_eq_of_lt h.lt_modulus, Nat.mod_eq_of_lt h'.lt_modulus] at hmod

/-- What has a hash counts as some scalars with the numbers of the inputs. -/
theorem exists_scalars_of_hash (h : hash inputs = .ok s) :
    ∃ scalars : List Scalar, scalars.map (·.val) = inputs.map Bytes.ofBigEndian ∧
      hashScalars scalars = s := by
  unfold hash at h
  split_ifs at h
  obtain ⟨scalars, hread, hs⟩ := Except.map_eq_ok_iff.mp h
  have hgives := ((judged_mapM judged_readInput inputs).eq_ok_iff scalars).mp hread
  exact ⟨scalars, map_eq_of_forall₂ hgives fun _ _ hvalue => hvalue.2, hs⟩

theorem isDigest_of_hash (h : hash inputs = .ok s) :
    IsDigest (inputs.map Bytes.ofBigEndian) s.toHash := by
  have hinputs := exists_hash_eq_ok_iff.mp ⟨s, h⟩
  obtain ⟨scalars, hnumbers, rfl⟩ := exists_scalars_of_hash h
  have hlength : scalars.length = inputs.length := by
    simpa using congrArg List.length hnumbers
  obtain ⟨p, partials, hp, hpartials, hfits⟩ :=
    exists_parameters (hlength ▸ hinputs.length_pos) (hlength ▸ hinputs.length_le)
  rw [← hnumbers]
  refine ⟨FixedBytes.length_bytes _, ?_, p, partials, ?_⟩
  · rw [Scalar.toNat_toHash]
    exact Scalar.isLt _
  · rw [List.length_map, Scalar.toNat_toHash]
    exact ⟨hp, hpartials, hfits, toZMod_hashScalars hp hfits⟩

/-- The hash depends on the numbers alone. -/
theorem hash_congr {others : List (List UInt8)} {t : Scalar} (hs : hash inputs = .ok s)
    (ht : hash others = .ok t)
    (hnumbers : others.map Bytes.ofBigEndian = inputs.map Bytes.ofBigEndian) : t = s := by
  have hdigest := isDigest_of_hash ht
  rw [hnumbers] at hdigest
  exact Scalar.toHash_injective (hdigest.unique (isDigest_of_hash hs))

/-! ### Leading zeros -/

/-- The bytes with some zero bytes in front, which leave them within 32 bytes, or as they are. -/
def PaddedTo (bs padded : List UInt8) : Prop :=
  ∃ zeros, padded = List.replicate zeros 0 ++ bs ∧ (zeros = 0 ∨ padded.length ≤ 32)

theorem PaddedTo.ofBigEndian_eq {bs padded : List UInt8} (h : PaddedTo bs padded) :
    Bytes.ofBigEndian padded = Bytes.ofBigEndian bs := by
  obtain ⟨zeros, rfl, -⟩ := h
  exact Bytes.ofBigEndian_replicate_zero_append zeros bs

theorem PaddedTo.admits_iff {bs padded : List UInt8} (h : PaddedTo bs padded) (hne : bs ≠ []) :
    Admits bs ↔ Admits padded := by
  have hvalue := h.ofBigEndian_eq
  have hpos := List.length_pos_iff.mpr hne
  obtain ⟨zeros, rfl, hzeros⟩ := h
  rw [List.length_append, List.length_replicate] at hzeros
  rw [Admits, Admits, hvalue, List.length_append, List.length_replicate]
  omega

theorem forall_mem_iff_of_forall₂ {α β : Type} {R : α → β → Prop} {P : α → Prop} {Q : β → Prop}
    {xs : List α} {ys : List β} (h : List.Forall₂ R xs ys)
    (hR : ∀ x ∈ xs, ∀ y, R x y → (P x ↔ Q y)) : (∀ x ∈ xs, P x) ↔ ∀ y ∈ ys, Q y := by
  induction h with
  | nil => simp
  | cons hxy _ ih =>
    rw [List.forall_mem_cons] at hR
    rw [List.forall_mem_cons, List.forall_mem_cons, hR.1 _ hxy, ih hR.2]

theorem hash_of_padded {padded : List (List UInt8)} (h : List.Forall₂ PaddedTo inputs padded)
    (hne : ∀ bs ∈ inputs, bs ≠ []) : hash padded = hash inputs := by
  have hiff : Hashable inputs ↔ Hashable padded := by
    rw [hashable_iff, hashable_iff, h.length_eq,
      forall_mem_iff_of_forall₂ h fun bs hbs _ hpadded => hpadded.admits_iff (hne bs hbs)]
  by_cases hinputs : Hashable inputs
  · obtain ⟨s, hs⟩ := exists_hash_eq_ok_iff.mpr hinputs
    obtain ⟨t, ht⟩ := exists_hash_eq_ok_iff.mpr (hiff.mp hinputs)
    have hnumbers := map_eq_of_forall₂ h fun _ _ hpadded => hpadded.ofBigEndian_eq
    rw [hs, ht, hash_congr hs ht hnumbers]
  · rw [hash_eq_error_iff_not_hashable.mpr ⟨rfl, hinputs⟩,
      hash_eq_error_iff_not_hashable.mpr ⟨rfl, mt hiff.mpr hinputs⟩]

/-- **Poseidon admits exactly what counts as scalars.**  There is a hash for one to twelve byte
strings of one to 32 bytes each with numbers below the modulus, and for anything else the one
failure.  A hash is 32 bytes with a number below the modulus, the one that the rounds for so many
inputs make of their numbers, so inputs of the same numbers have no other hash, and zeros in front
of an input do not change it.  As long as no input is empty, they do not change a failure either. -/
theorem hash_admits_exactly (inputs : List (List UInt8)) :
    ((∃ s, hash inputs = .ok s) ↔ Hashable inputs) ∧
    (∀ e, hash inputs = .error e ↔ e = .poseidonInput ∧ ¬Hashable inputs) ∧
    (∀ s, hash inputs = .ok s → IsDigest (inputs.map Bytes.ofBigEndian) s.toHash ∧
      (∀ others t, hash others = .ok t →
        others.map Bytes.ofBigEndian = inputs.map Bytes.ofBigEndian → t = s) ∧
      ∀ padded, List.Forall₂ PaddedTo inputs padded → hash padded = .ok s) ∧
    ∀ padded, List.Forall₂ PaddedTo inputs padded → (∀ bs ∈ inputs, bs ≠ []) →
      hash padded = hash inputs := by
  refine ⟨exists_hash_eq_ok_iff, fun e => hash_eq_error_iff_not_hashable, fun s hs => ?_,
    fun padded => hash_of_padded⟩
  refine ⟨isDigest_of_hash hs, fun others t => hash_congr hs, fun padded hpadded => ?_⟩
  have hinputs := exists_hash_eq_ok_iff.mp ⟨s, hs⟩
  rw [hash_of_padded hpadded fun bs hbs => List.length_pos_iff.mp (hinputs.admits bs hbs).1, hs]

/-- Two short inputs have a hash, also with zeros in front of the first one up to 32 bytes.  Nothing
at all, thirteen inputs, an empty input, one of 33 bytes and one that is the modulus are refused. -/
theorem hash_admits_exactly_of_short :
    (∃ s, hash [[1], [0, 7]] = .ok s ∧ IsDigest [1, 7] s.toHash ∧
      hash [List.replicate 31 0 ++ [1], [0, 7]] = .ok s) ∧
    ∀ refused ∈ [[], List.replicate 13 [1], [[1], []], [List.replicate 33 0],
      [Scalar.modulusBytes]], hash refused = .error .poseidonInput := by
  constructor
  · obtain ⟨hexists, -, hhash, -⟩ := hash_admits_exactly [[1], [0, 7]]
    obtain ⟨s, hs⟩ := hexists.mpr (by decide)
    obtain ⟨hdigest, -, hpadded⟩ := hhash s hs
    have hnumbers : [[1], [0, 7]].map Bytes.ofBigEndian = [1, 7] := by decide
    rw [hnumbers] at hdigest
    have hfirst : PaddedTo [1] (List.replicate 31 0 ++ [1]) := ⟨31, rfl, Or.inr (by decide)⟩
    exact ⟨s, hs, hdigest, hpadded _ (.cons hfirst (.cons ⟨0, rfl, Or.inl rfl⟩ .nil))⟩
  · intro refused hmem
    have hnot : ∀ refused ∈ [[], List.replicate 13 [1], [[1], []], [List.replicate 33 0],
        [Scalar.modulusBytes]], ¬Hashable refused := by decide
    exact ((hash_admits_exactly refused).2.1 _).mpr ⟨rfl, hnot refused hmem⟩

end CompressedLedger.Poseidon
