import CompressedLedger.Proofs.Bytes.Positional
import CompressedLedger.Proofs.Text.Digits

/-!
# Leading zero bytes

The writer of numerals, in base 256, gives the bytes of a number without the leading zeros
(`map_ofNat_ofBigEndian`).  So the bytes in a chosen width are as many zeros as are missing and then
the minimal bytes, and no more zeros than the width can be missing (`toBigEndian_eq_minimal`).
-/

namespace CompressedLedger.Bytes

theorem one_lt_base : 1 < 256 := by decide

theorem ofBigEndian_eq_value (bs : List UInt8) :
    ofBigEndian bs = Digits.value 256 (bs.map UInt8.toNat) := by
  rw [ofBigEndian, Digits.value, List.foldl_map]

theorem map_toNat_map_ofNat {ds : List ℕ} (h : ∀ d ∈ ds, d < 256) :
    (ds.map UInt8.ofNat).map UInt8.toNat = ds := by
  have hid : ∀ d ∈ ds, (UInt8.toNat ∘ UInt8.ofNat) d = d := by
    intro d hd
    exact UInt8.toNat_ofNat_of_lt (h d hd)
  rw [List.map_map, List.map_congr_left hid, List.map_id']

theorem ofBigEndian_replicate_zero_append (k : ℕ) (bs : List UInt8) :
    ofBigEndian (List.replicate k 0 ++ bs) = ofBigEndian bs := by
  rw [ofBigEndian_eq_value, List.map_append, List.map_replicate, UInt8.toNat_zero,
    Digits.value_replicate_zero_append, ← ofBigEndian_eq_value]

/-- Writing the number of a byte string in base 256 gives the bytes after the leading zeros. -/
theorem map_ofNat_ofBigEndian (bs : List UInt8) :
    (Digits.ofNat 256 one_lt_base (ofBigEndian bs)).map UInt8.ofNat = bs.dropWhile (· == 0) := by
  rw [ofBigEndian_eq_value]
  exact Digits.map_ofNat_value one_lt_base (fun b _ => b.toNat_lt) (fun b _ => UInt8.ofNat_toNat)
    rfl rfl

/-- The bytes of a number without leading zeros, most significant first; zero is one byte. -/
def minimalBigEndian (n : ℕ) : List UInt8 :=
  if n = 0 then [0] else (Digits.ofNat 256 one_lt_base n).map UInt8.ofNat

/-- The bytes in a width are the minimal ones after as many zeros as they leave room for. -/
theorem toBigEndian_eq_minimal {width n : ℕ} (hwidth : 0 < width) (hn : n < 256 ^ width) :
    (minimalBigEndian n).length ≤ width ∧ toBigEndian width n =
      List.replicate (width - (minimalBigEndian n).length) 0 ++ minimalBigEndian n := by
  have hvalue : ofBigEndian (toBigEndian width n) = n := by
    rw [ofBigEndian_toBigEndian, Nat.mod_eq_of_lt hn]
  obtain ⟨zeros, hsplit⟩ : ∃ zeros, toBigEndian width n =
      List.replicate zeros 0 ++ (Digits.ofNat 256 one_lt_base n).map UInt8.ofNat := by
    have hrest := map_ofNat_ofBigEndian (toBigEndian width n)
    rw [hvalue] at hrest
    exact ⟨_, by rw [hrest, Digits.replicate_append_dropWhile]⟩
  have hlength : width = zeros + ((Digits.ofNat 256 one_lt_base n).map UInt8.ofNat).length := by
    rw [← length_toBigEndian width n, hsplit, List.length_append, List.length_replicate]
  unfold minimalBigEndian
  split
  · -- all bytes are zeros, and the minimal form keeps one of them
    rename_i hzero
    have hnil : Digits.ofNat 256 one_lt_base n = [] := by
      rw [Digits.ofNat_eq_digits, hzero, Nat.digits_zero, List.reverse_nil]
    rw [hnil, List.map_nil, List.length_nil, Nat.add_zero] at hlength
    rw [hnil, List.map_nil, List.append_nil, ← hlength] at hsplit
    obtain ⟨rest, rfl⟩ := Nat.exists_eq_succ_of_ne_zero hwidth.ne'
    exact ⟨hwidth, by rw [hsplit, List.replicate_succ']; rfl⟩
  · rw [Nat.sub_eq_of_eq_add hlength]
    exact ⟨by omega, hsplit⟩

end CompressedLedger.Bytes
