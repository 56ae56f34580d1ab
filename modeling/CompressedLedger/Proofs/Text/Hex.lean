import CompressedLedger.Bytes.Positional
import CompressedLedger.Proofs.Text.Digits
import CompressedLedger.Text.Hex

/-!
# Hexadecimal texts are numerals

The text of a byte string has two digits for every byte (`length_encodeChars`), and as a numeral of
base 16 it has the same value as the bytes (`isNumeral_encodeChars`).
-/

namespace CompressedLedger.Hex

/-- The halves of the bytes, the high one first. -/
def halves (bs : List UInt8) : List ℕ := bs.flatMap fun b => [b.toNat / 16, b.toNat % 16]

theorem halves_cons (b : UInt8) (bs : List UInt8) :
    halves (b :: bs) = b.toNat / 16 :: b.toNat % 16 :: halves bs := rfl

theorem encodeChars_eq (bs : List UInt8) : encodeChars bs = (halves bs).map Digits.toChar := by
  induction bs with
  | nil => rfl
  | cons b bs ih => rw [encodeChars, halves_cons, List.map_cons, List.map_cons, ih]

theorem toList_encode (bs : List UInt8) : (encode bs).toList = encodeChars bs := by
  rw [encode, String.toList_ofList]

theorem length_encodeChars (bs : List UInt8) : (encodeChars bs).length = 2 * bs.length := by
  induction bs with
  | nil => rfl
  | cons b bs ih =>
    rw [encodeChars, List.length_cons, List.length_cons, ih, List.length_cons]
    omega

theorem lt_of_mem_halves {bs : List UInt8} {d : ℕ} (hd : d ∈ halves bs) : d < 16 := by
  obtain ⟨b, -, hb⟩ := List.mem_flatMap.mp hd
  have hlt : b.toNat < 256 := b.toNat_lt
  simp only [List.mem_cons, List.not_mem_nil, or_false] at hb
  rcases hb with rfl | rfl
  · omega
  · omega

theorem value_halves (bs : List UInt8) : Digits.value 16 (halves bs) = Bytes.ofBigEndian bs := by
  -- two steps in base 16 are one step in base 256, whatever was read before
  have hfold : ∀ n, (halves bs).foldl (fun n d => 16 * n + d) n =
      bs.foldl (fun n b => 256 * n + b.toNat) n := by
    induction bs with
    | nil => exact fun n => rfl
    | cons b bs ih =>
      intro n
      have hstep : 16 * (16 * n + b.toNat / 16) + b.toNat % 16 = 256 * n + b.toNat := by omega
      rw [halves_cons, List.foldl_cons, List.foldl_cons, hstep, ih, List.foldl_cons]
  exact hfold 0

theorem isNumeral_encodeChars {bs : List UInt8} (hne : bs ≠ []) :
    Digits.IsNumeral 16 (encodeChars bs) (Bytes.ofBigEndian bs) := by
  have hhalves : halves bs ≠ [] := by
    cases bs with
    | nil => exact absurd rfl hne
    | cons b bs => exact List.cons_ne_nil _ _
  rw [encodeChars_eq, ← value_halves]
  exact Digits.isNumeral_map_toChar le_rfl hhalves fun d hd => lt_of_mem_halves hd

end CompressedLedger.Hex
