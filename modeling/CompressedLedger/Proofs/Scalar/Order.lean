import CompressedLedger.Proofs.Bytes.Order
import CompressedLedger.Proofs.Outcome
import CompressedLedger.Scalar.Numeral

/-!
# The order of scalars

There are two ways to tell whether 32 bytes are a scalar: comparing them with the bytes of the
modulus, or reading the number and comparing that.  Both accept exactly the hashes below the modulus
(`acceptedBelowModulus`), and what is read has the same bytes again.

There are also two ways to put scalars in order, by number and by bytes, and they are one
(`compare_eq_compare_bytes`): of two byte strings of one length the first byte in which they differ
decides (`Bytes.compare_eq_compare_ofBigEndian`).  A list that is sorted by number is therefore
sorted by bytes.
-/

namespace CompressedLedger

namespace Bytes

/-- Of two numbers with rests below a unit, the units are compared first and then the rests. -/
theorem compare_mul_add_mul_add {a b m n unit : ℕ} (hm : m < unit) (hn : n < unit) :
    compare (a * unit + m) (b * unit + n) = (compare a b).then (compare m n) := by
  have hlt := mul_add_lt_mul_add_iff (a := a) (b := b) hm hn
  have hgt := mul_add_lt_mul_add_iff (a := b) (b := a) hn hm
  rcases lt_trichotomy a b with hab | rfl | hba
  · rw [Nat.compare_eq_lt.mpr hab, Nat.compare_eq_lt.mpr (hlt.mpr (.inl hab)), Ordering.lt_then]
  · rw [Nat.compare_eq_eq.mpr rfl, Ordering.eq_then, Nat.compare_eq_ite_lt,
      Nat.compare_eq_ite_lt m n]
    simp only [Nat.add_lt_add_iff_left]
  · rw [Nat.compare_eq_gt.mpr hba, Nat.compare_eq_gt.mpr (hgt.mpr (.inl hba)), Ordering.gt_then]

/-- Byte strings of one length compare as their numbers do. -/
theorem compare_eq_compare_ofBigEndian {xs ys : List UInt8} (h : xs.length = ys.length) :
    compare xs ys = compare (ofBigEndian xs) (ofBigEndian ys) := by
  induction xs generalizing ys with
  | nil =>
    obtain rfl := List.length_eq_zero_iff.mp h.symm
    rfl
  | cons x xs ih =>
    cases ys with
    | nil => cases h
    | cons y ys =>
      -- the rests are as long as each other, so neither reaches a unit of the first bytes
      have hlength : xs.length = ys.length := Nat.succ.inj h
      have hxs : ofBigEndian xs < 256 ^ ys.length := hlength ▸ ofBigEndian_lt xs
      have hys : ofBigEndian ys < 256 ^ ys.length := ofBigEndian_lt ys
      rw [List.compare_cons_cons, ih hlength, UInt8.compare_eq_toNat_compare_toNat,
        ofBigEndian_cons, ofBigEndian_cons, hlength, compare_mul_add_mul_add hxs hys]

end Bytes

namespace Scalar

variable {a b : Scalar} {h : Hash} {e : Error}

/-! ### Which bytes are accepted -/

theorem ofExactBytes_eq_error_iff :
    ofExactBytes h.bytes = .error e ↔ e = .scalarOutOfRange ∧ modulus ≤ h.toNat := by
  rw [ofExactBytes_bytes, ofBytes, FixedBytes.toNat]
  rcases Nat.lt_or_ge (Bytes.ofBigEndian h.bytes) modulus with hlt | hle
  · rw [ofNat_of_lt hlt]
    constructor
    · intro hread
      cases hread
    · rintro ⟨-, hle⟩
      exact absurd hlt (Nat.not_lt.mpr hle)
  · rw [ofNat_of_le hle, Except.error.injEq, and_iff_left hle, eq_comm]

/-- What decides about 32 bytes that arrive from outside. -/
structure AcceptedBelowModulus (h : Hash) : Prop where
  /-- The test that forms no number. -/
  precedes_iff : precedesModulus h = true ↔ h.toNat < modulus
  reads_iff : (∃ a, ofExactBytes h.bytes = .ok a) ↔ h.toNat < modulus
  /-- What is read has the same bytes again. -/
  read_iff : ∀ a, ofExactBytes h.bytes = .ok a ↔ h = a.toHash
  refused_iff : ∀ e, ofExactBytes h.bytes = .error e ↔ e = .scalarOutOfRange ∧ modulus ≤ h.toNat

theorem acceptedBelowModulus (h : Hash) : AcceptedBelowModulus h where
  precedes_iff := precedesModulus_iff
  reads_iff := by
    simp only [Except.exists_eq_ok_iff, ne_eq, ofExactBytes_eq_error_iff, not_and, not_le,
      forall_eq]
  read_iff := fun _ => ofExactBytes_eq_ok_iff
  refused_iff := fun _ => ofExactBytes_eq_error_iff

/-! ### By number and by bytes -/

theorem length_bytes_eq (a b : Scalar) : a.toHash.bytes.length = b.toHash.bytes.length :=
  a.toHash.length_bytes.trans b.toHash.length_bytes.symm

theorem ofBigEndian_bytes (a : Scalar) : Bytes.ofBigEndian a.toHash.bytes = a.val := toNat_toHash a

theorem compare_eq_compare_bytes (a b : Scalar) :
    compare a b = compare a.toHash.bytes b.toHash.bytes := by
  rw [Bytes.compare_eq_compare_ofBigEndian (length_bytes_eq a b), ofBigEndian_bytes,
    ofBigEndian_bytes]
  rfl

theorem lt_iff_bytes_lt : a < b ↔ a.toHash.bytes < b.toHash.bytes := by
  rw [Bytes.lt_iff_ofBigEndian_lt (length_bytes_eq a b), ofBigEndian_bytes, ofBigEndian_bytes,
    lt_def]

theorem le_iff_bytes_le : a ≤ b ↔ a.toHash.bytes ≤ b.toHash.bytes := by
  rw [← List.not_lt, ← lt_iff_bytes_lt, lt_def, le_def, Nat.not_lt]

theorem bytes_inj : a.toHash.bytes = b.toHash.bytes ↔ a = b := by
  rw [← FixedBytes.ext_iff, toHash_inj]

/-- The order of numbers and the order of byte strings are one on two scalars. -/
structure OrderedAsBytes (a b : Scalar) : Prop where
  compare_val : compare a b = compare a.val b.val
  compare_bytes : compare a b = compare a.toHash.bytes b.toHash.bytes
  lt_iff : a < b ↔ a.toHash.bytes < b.toHash.bytes
  eq_iff : a = b ↔ a.toHash.bytes = b.toHash.bytes

theorem orderedAsBytes (a b : Scalar) : OrderedAsBytes a b where
  compare_val := rfl
  compare_bytes := compare_eq_compare_bytes a b
  lt_iff := lt_iff_bytes_lt
  eq_iff := bytes_inj.symm

/-! ### Sorted lists -/

theorem sort_perm (xs : List Scalar) : (sort xs).Perm xs := List.mergeSort_perm xs _

theorem pairwise_sort (xs : List Scalar) : (sort xs).Pairwise (· ≤ ·) := by
  have htrans (a b c : Scalar) (hab : decide (a ≤ b) = true) (hbc : decide (b ≤ c) = true) :
      decide (a ≤ c) = true :=
    decide_eq_true (Nat.le_trans (of_decide_eq_true hab) (of_decide_eq_true hbc))
  have htotal (a b : Scalar) : (decide (a ≤ b) || decide (b ≤ a)) = true := by
    rw [Bool.or_eq_true, decide_eq_true_eq, decide_eq_true_eq]
    exact Nat.le_total a.val b.val
  exact (List.pairwise_mergeSort htrans htotal xs).imp fun h => of_decide_eq_true h

/-- The second list has the entries of the first one, ascending by number and by bytes. -/
structure SortsTo (xs ys : List Scalar) : Prop where
  perm : ys.Perm xs
  ascending : (ys.map (·.val)).Pairwise (· ≤ ·)
  bytes_ascending : (ys.map (·.toHash.bytes)).Pairwise (· ≤ ·)

/-- There is one list with these entries in this order, and sorting makes it. -/
theorem sortsTo_iff {xs ys : List Scalar} : SortsTo xs ys ↔ sort xs = ys := by
  constructor
  · intro h
    -- equal numbers are equal scalars, so no two lists with the same entries are both ascending
    have hsorted : ys.Pairwise fun a b => a.val ≤ b.val := List.pairwise_map.mp h.ascending
    have hantisymm (a b : Scalar) (hab : a ≤ b) (hba : b ≤ a) : a = b :=
      Scalar.ext (Nat.le_antisymm hab hba)
    exact ((sort_perm xs).trans h.perm.symm).eq_of_pairwise
      (fun a b _ _ => hantisymm a b) (pairwise_sort xs) hsorted
  · rintro rfl
    refine ⟨sort_perm xs, List.pairwise_map.mpr (pairwise_sort xs), List.pairwise_map.mpr ?_⟩
    exact (pairwise_sort xs).imp le_iff_bytes_le.mp

/-- **Byte order, numeric order and acceptance coincide.**  Whatever 32 bytes arrive, comparing them
with the bytes of the modulus and reading their number accept them in the same cases, namely if the
number is below the modulus, and what is read has these bytes.  Any two scalars compare as their
bytes do and are equal exactly if their bytes are.  So texts that are read and sorted come out as
the scalars they stand for, ascending by number and by bytes alike; and they do come out exactly if
each of them can be read. -/
theorem byte_order_exact :
    (∀ h, AcceptedBelowModulus h) ∧
    (∀ a b, OrderedAsBytes a b) ∧
    ∀ texts, ((∃ ys, parseSorted texts = .ok ys) ↔ ∀ text ∈ texts, ∃ a, parse text = .ok a) ∧
      ∀ ys, parseSorted texts = .ok ys ↔
        ∃ xs, List.Forall₂ (fun text a => parse text = .ok a) texts xs ∧ SortsTo xs ys := by
  refine ⟨acceptedBelowModulus, orderedAsBytes, fun texts => ?_⟩
  have hparsed (ys : List Scalar) : parseSorted texts = .ok ys ↔
      ∃ xs, List.Forall₂ (fun text a => parse text = .ok a) texts xs ∧ SortsTo xs ys := by
    simp only [parseSorted, Except.map_eq_ok_iff, Except.mapM_eq_ok_iff, sortsTo_iff]
  refine ⟨?_, hparsed⟩
  rw [← Except.exists_mapM_eq_ok_iff]
  simp only [parseSorted, Except.map_eq_ok_iff]
  constructor
  · rintro ⟨_, xs, hxs, -⟩
    exact ⟨xs, hxs⟩
  · rintro ⟨xs, hxs⟩
    exact ⟨sort xs, xs, hxs, rfl⟩

end Scalar

end CompressedLedger
