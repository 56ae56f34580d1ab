import CompressedLedger.Proofs.Bytes.Minimal
import CompressedLedger.Text.Base58
import CompressedLedger.Text.Blank
import Mathlib.Data.String.Basic

/-!
# Base58 texts and byte strings

A text with a character outside the alphabet denotes no number, and every other text denotes its
positional value (`value?_eq_none_iff`, `value?_of_mem`).

Texts and byte strings correspond (`decode?_eq_some_iff`).  Reading the text of a byte string gives
the byte string, and writing the byte string of a text gives the text: the leading zeros stand for
the leading ones, and the rest of either is determined by the number, which does not see them.  The
number a text denotes is always that of its byte string (`map_ofBigEndian_decode?`).

A leading zero takes one character and any other byte takes fewer than two, so a text is never
longer than the numeral of the largest number its bytes could hold (`length_encode_le`).
-/

namespace CompressedLedger.Base58

theorem digit?_char : ∀ d < 58, digit? (char d) = some d := by decide

theorem char_eq_one : ∀ d < 58, char d = '1' → d = 0 := by decide

theorem mapM_digit?_map_char {ds : List ℕ} (hlt : ∀ d ∈ ds, d < 58) :
    (ds.map char).mapM digit? = some ds := by
  rw [Digits.mapM_eq_some_iff, List.forall₂_map_left_iff, List.forall₂_same]
  intro d hd
  exact digit?_char d (hlt d hd)

theorem one_lt_base : 1 < 58 := by decide

/-! ### The number of a text -/

/-- The number a text denotes: every character counts by its place in the alphabet, the first one
most. -/
def positional (cs : List Char) : ℕ :=
  Nat.ofDigits 58 (cs.map fun c => alphabet.idxOf c).reverse

theorem idxOf_lt {c : Char} (h : c ∈ alphabet) : alphabet.idxOf c < 58 :=
  List.idxOf_lt_length_iff.mpr h

theorem char_idxOf {c : Char} (h : c ∈ alphabet) : char (alphabet.idxOf c) = c := by
  have hlt : alphabet.idxOf c < alphabet.length := List.idxOf_lt_length_iff.mpr h
  rw [char, List.getD_eq_getElem?_getD, List.getElem?_eq_getElem hlt, Option.getD_some,
    List.getElem_idxOf]

theorem digit?_of_mem {c : Char} (h : c ∈ alphabet) : digit? c = some (alphabet.idxOf c) := by
  have hdigit := digit?_char _ (idxOf_lt h)
  rwa [char_idxOf h] at hdigit

theorem value?_of_mem {cs : List Char} (h : ∀ c ∈ cs, c ∈ alphabet) :
    value? cs = some (positional cs) := by
  have hdigits : cs.mapM digit? = some (cs.map fun c => alphabet.idxOf c) := by
    rw [Digits.mapM_eq_some_iff, List.forall₂_map_right_iff, List.forall₂_same]
    exact fun c hc => digit?_of_mem (h c hc)
  rw [value?, hdigits, Option.map_some, Digits.value_eq_ofDigits, positional]

/-- Exactly the texts with a character outside the alphabet denote no number. -/
theorem value?_eq_none_iff {cs : List Char} : value? cs = none ↔ ∃ c ∈ cs, c ∉ alphabet := by
  constructor
  · intro hnone
    by_contra hall
    push Not at hall
    rw [value?_of_mem hall] at hnone
    cases hnone
  · rintro ⟨c, hc, hout⟩
    rw [value?, Option.map_eq_none_iff]
    by_contra hsome
    -- the reader would have found a place for every character
    obtain ⟨ds, hds⟩ := Option.ne_none_iff_exists'.mp hsome
    obtain ⟨d, hd⟩ := Digits.exists_of_mem_mapM hds hc
    rw [digit?, List.idxOf?_eq_none_iff.mpr hout] at hd
    cases hd

theorem positional_replicate_one_append (k : ℕ) (cs : List Char) :
    positional (List.replicate k '1' ++ cs) = positional cs := by
  have hone : alphabet.idxOf '1' = 0 := by decide
  rw [positional, positional, ← Digits.value_eq_ofDigits, ← Digits.value_eq_ofDigits,
    List.map_append, List.map_replicate, hone, Digits.value_replicate_zero_append]

/-! ### Writing -/

/-- The text of a byte string is written from these digits. -/
def digits (bs : List UInt8) : List ℕ :=
  List.replicate (bs.takeWhile (· == 0)).length 0 ++
    Digits.ofNat 58 one_lt_base (Bytes.ofBigEndian bs)

theorem toList_encode (bs : List UInt8) : (encode bs).toList = (digits bs).map char := by
  rw [encode, String.toList_ofList, digits, List.map_append, List.map_replicate]
  rfl

theorem lt_of_mem_digits {bs : List UInt8} {d : ℕ} (hd : d ∈ digits bs) : d < 58 := by
  rcases List.mem_append.mp hd with hzero | hdigit
  · rw [List.eq_of_mem_replicate hzero]
    decide
  · exact Digits.lt_of_mem_ofNat _ hdigit

/-! ### Reading -/

theorem map_ofBigEndian_decode? (cs : List Char) :
    (decode? cs).map Bytes.ofBigEndian = value? cs := by
  have hbytes : ∀ k n, Bytes.ofBigEndian
      (List.replicate k 0 ++ (Digits.ofNat 256 Bytes.one_lt_base n).map UInt8.ofNat) = n := by
    intro k n
    have hlt : ∀ d ∈ Digits.ofNat 256 Bytes.one_lt_base n, d < 256 :=
      fun d hd => Digits.lt_of_mem_ofNat _ hd
    rw [Bytes.ofBigEndian_replicate_zero_append, Bytes.ofBigEndian_eq_value,
      Bytes.map_toNat_map_ofNat hlt, Digits.value_ofNat]
  rw [decode?, Option.map_map]
  cases value? cs with
  | none => rfl
  | some n => exact congrArg some (hbytes _ n)

theorem value?_encode (bs : List UInt8) :
    value? (encode bs).toList = some (Bytes.ofBigEndian bs) := by
  have hmap : (encode bs).toList.mapM digit? = some (digits bs) := by
    rw [toList_encode, mapM_digit?_map_char fun d hd => lt_of_mem_digits hd]
  rw [value?, hmap, Option.map_some, digits, Digits.value_replicate_zero_append, Digits.value_ofNat]

theorem length_takeWhile_encode (bs : List UInt8) :
    ((encode bs).toList.takeWhile (· == '1')).length = (bs.takeWhile (· == 0)).length := by
  rw [encode, String.toList_ofList]
  apply Digits.length_takeWhile_replicate_append
  -- a number is written without leading zeros, so no one comes from it
  intro c hc
  rw [List.head?_map] at hc
  obtain ⟨d, hd, rfl⟩ := Option.mem_map.mp hc
  have hlt : d < 58 := Digits.lt_of_mem_ofNat _ (List.mem_of_mem_head? hd)
  have hne : d ≠ 0 := Digits.head_ofNat_ne_zero one_lt_base _ d hd
  exact fun hone => hne (char_eq_one d hlt hone)

/-- Every byte string is read back from its text. -/
theorem decode?_encode (bs : List UInt8) : decode? (encode bs).toList = some bs := by
  rw [decode?, value?_encode, Option.map_some, length_takeWhile_encode,
    Bytes.map_ofNat_ofBigEndian, Digits.replicate_append_dropWhile]

/-- Writing the number of a text gives the characters after the leading ones. -/
theorem map_char_ofNat_positional {cs : List Char} (h : ∀ c ∈ cs, c ∈ alphabet) :
    (Digits.ofNat 58 one_lt_base (positional cs)).map char = cs.dropWhile (· == '1') := by
  rw [positional, ← Digits.value_eq_ofDigits]
  exact Digits.map_ofNat_value one_lt_base (fun c hc => idxOf_lt (h c hc))
    (fun c hc => char_idxOf (h c hc)) rfl (by decide)

theorem length_takeWhile_decode? {cs : List Char} {bs : List UInt8} (h : decode? cs = some bs) :
    (bs.takeWhile (· == 0)).length = (cs.takeWhile (· == '1')).length := by
  obtain ⟨n, -, rfl⟩ := Option.map_eq_some_iff.mp h
  apply Digits.length_takeWhile_replicate_append
  intro b hb
  rw [List.head?_map] at hb
  obtain ⟨d, hd, rfl⟩ := Option.mem_map.mp hb
  have hlt : d < 256 := Digits.lt_of_mem_ofNat _ (List.mem_of_mem_head? hd)
  have hne : d ≠ 0 := Digits.head_ofNat_ne_zero Bytes.one_lt_base n d hd
  intro hzero
  have hnat := congrArg UInt8.toNat hzero
  rw [UInt8.toNat_ofNat_of_lt' hlt] at hnat
  exact hne hnat

/-- Every text is the text of the byte string it is read as. -/
theorem toList_encode_of_decode? {cs : List Char} {bs : List UInt8} (h : decode? cs = some bs) :
    (encode bs).toList = cs := by
  have hvalue : value? cs = some (Bytes.ofBigEndian bs) := by
    rw [← map_ofBigEndian_decode?, h, Option.map_some]
  have hmem : ∀ c ∈ cs, c ∈ alphabet := by
    by_contra hout
    push Not at hout
    rw [value?_eq_none_iff.mpr hout] at hvalue
    cases hvalue
  have hnumber : Bytes.ofBigEndian bs = positional cs := by
    rw [value?_of_mem hmem] at hvalue
    exact (Option.some.inj hvalue).symm
  rw [encode, String.toList_ofList, length_takeWhile_decode? h, hnumber,
    map_char_ofNat_positional hmem, Digits.replicate_append_dropWhile]

/-- A text is read as a byte string exactly if it is the text of that byte string. -/
theorem decode?_eq_some_iff {cs : List Char} {bs : List UInt8} :
    decode? cs = some bs ↔ cs = (encode bs).toList := by
  constructor
  · exact fun h => (toList_encode_of_decode? h).symm
  · rintro rfl
    exact decode?_encode bs

/-! ### The characters of a text -/

theorem char_mem_alphabet : ∀ d < 58, char d ∈ alphabet := by decide

theorem mem_alphabet_of_mem_encode {bs : List UInt8} {c : Char} (hc : c ∈ (encode bs).toList) :
    c ∈ alphabet := by
  rw [toList_encode] at hc
  obtain ⟨d, hd, rfl⟩ := List.mem_map.mp hc
  exact char_mem_alphabet d (lt_of_mem_digits hd)

theorem not_isBlank_of_mem_alphabet : ∀ c ∈ alphabet, Blank.isBlank c = false := by
  have hall : (alphabet.all fun c => !Blank.isBlank c) = true := by decide
  intro c hc
  have hnot := List.all_eq_true.mp hall c hc
  rwa [Bool.not_eq_true'] at hnot

theorem utf8Size_of_mem_alphabet : ∀ c ∈ alphabet, c.utf8Size = 1 := by
  have hall : (alphabet.all fun c => c.utf8Size == 1) = true := by decide
  intro c hc
  exact eq_of_beq (List.all_eq_true.mp hall c hc)

theorem utf8Len_of_mem_alphabet {cs : List Char} (h : ∀ c ∈ cs, c ∈ alphabet) :
    String.utf8Len cs = cs.length := by
  induction cs with
  | nil => rfl
  | cons c rest ih =>
    rw [List.forall_mem_cons] at h
    rw [String.utf8Len_cons, ih h.2, utf8Size_of_mem_alphabet c h.1, List.length_cons]

/-- A text has one byte for every character. -/
theorem utf8ByteSize_encode (bs : List UInt8) :
    (encode bs).utf8ByteSize = (encode bs).toList.length := by
  rw [← utf8Len_of_mem_alphabet fun c hc => mem_alphabet_of_mem_encode hc,
    ← String.utf8ByteSize_ofList, String.ofList_toList]

/-- A text has at most the characters that the largest number in its bytes would need: dropping
leading zeros saves more of a numeral than the ones in their place cost. -/
theorem length_encode_le {bs : List UInt8} {k : ℕ} (h : 256 ^ bs.length ≤ 58 ^ k) :
    (encode bs).toList.length ≤ k := by
  set zeros := (bs.takeWhile (· == 0)).length with hzeros
  set rest := bs.dropWhile (· == 0) with hrest
  have hsplit : List.replicate zeros 0 ++ rest = bs := Digits.replicate_append_dropWhile 0 bs
  have hlength : bs.length = zeros + rest.length := by
    rw [← hsplit, List.length_append, List.length_replicate]
  have hnumber : Bytes.ofBigEndian bs < 256 ^ rest.length := by
    rw [← hsplit, Bytes.ofBigEndian_replicate_zero_append]
    exact Bytes.ofBigEndian_lt rest
  have hle : 256 ^ bs.length ≤ 256 ^ k := h.trans (Nat.pow_le_pow_left (by decide) k)
  have hk : bs.length ≤ k := (Nat.pow_le_pow_iff_right (by decide)).mp hle
  have hpower : 256 ^ rest.length ≤ 58 ^ (k - zeros) := by
    have hbytes : 256 ^ rest.length * 256 ^ zeros = 256 ^ bs.length := by
      rw [← pow_add, hlength, Nat.add_comm]
    have hchars : 58 ^ (k - zeros) * 58 ^ zeros = 58 ^ k := by
      rw [← pow_add, Nat.sub_add_cancel (by omega)]
    have hones : 58 ^ zeros ≤ 256 ^ zeros := Nat.pow_le_pow_left (by decide) zeros
    have hproduct : 256 ^ rest.length * 256 ^ zeros ≤ 58 ^ (k - zeros) * 256 ^ zeros := by
      calc 256 ^ rest.length * 256 ^ zeros = 256 ^ bs.length := hbytes
        _ ≤ 58 ^ k := h
        _ = 58 ^ (k - zeros) * 58 ^ zeros := hchars.symm
        _ ≤ 58 ^ (k - zeros) * 256 ^ zeros := Nat.mul_le_mul_left _ hones
    exact Nat.le_of_mul_le_mul_right hproduct (by positivity)
  have hdigits : (Digits.ofNat 58 one_lt_base (Bytes.ofBigEndian bs)).length ≤ k - zeros := by
    rw [Digits.ofNat_eq_digits, List.length_reverse, Nat.digits_length_le_iff one_lt_base]
    exact hnumber.trans_le hpower
  rw [toList_encode, List.length_map, digits, List.length_append, List.length_replicate]
  omega

end CompressedLedger.Base58
