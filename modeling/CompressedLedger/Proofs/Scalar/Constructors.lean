import CompressedLedger.Proofs.Scalar.Encodings

/-!
# The constructors of scalars agree

A byte string of any length denotes its positional value in base 256.  Every constructor that takes
the bytes, the value itself or the base58 text of the bytes gives the same outcome: the scalar of
that value, or `scalarOutOfRange` if it is not below the modulus.  Only the constructor for exactly
32 bytes judges the length, and it does so first.

A base58 text goes through a byte string, where each leading `1` is a zero byte.  Neither the zeros
nor the ones have a weight, so what comes out is the positional value of the trimmed text in base
58, whatever its length (`constructors_agree`).
-/

namespace CompressedLedger

namespace Bytes

/-- The number a byte string denotes: in base 256, with the first byte counting most. -/
def positional (bs : List UInt8) : ℕ := Nat.ofDigits 256 (bs.map UInt8.toNat).reverse

theorem ofBigEndian_eq_positional (bs : List UInt8) : ofBigEndian bs = positional bs := by
  rw [ofBigEndian_eq_value, Digits.value_eq_ofDigits, positional]

theorem positional_replicate_zero_append (k : ℕ) (bs : List UInt8) :
    positional (List.replicate k 0 ++ bs) = positional bs := by
  rw [← ofBigEndian_eq_positional, ofBigEndian_replicate_zero_append, ofBigEndian_eq_positional]

end Bytes

namespace Scalar

/-- The outcome of a constructor for a number: its scalar, or `scalarOutOfRange` from the modulus
on. -/
structure Makes (outcome : Except Error Scalar) (n : ℕ) : Prop where
  eq_ok_of_lt : ∀ h : n < modulus, outcome = .ok ⟨n, h⟩
  eq_outOfRange_of_le : modulus ≤ n → outcome = .error .scalarOutOfRange

theorem makes_ofNat (n : ℕ) : Makes (ofNat n) n := ⟨ofNat_of_lt, ofNat_of_le⟩

theorem Makes.ne_malformed {outcome : Except Error Scalar} {n : ℕ} (h : Makes outcome n) :
    outcome ≠ .error .malformedScalar := by
  intro hmalformed
  rcases Nat.lt_or_ge n modulus with hlt | hle
  · rw [h.eq_ok_of_lt hlt] at hmalformed
    cases hmalformed
  · rw [h.eq_outOfRange_of_le hle] at hmalformed
    cases hmalformed

theorem makes_ofBytes (bs : List UInt8) : Makes (ofBytes bs) (Bytes.positional bs) := by
  rw [ofBytes, Bytes.ofBigEndian_eq_positional]
  exact makes_ofNat _

/-! ### Base58 texts -/

theorem isTrimmed_of_not_blank {cs : List Char} (h : ∀ c ∈ cs, Blank.isBlank c = false) :
    Blank.IsTrimmed cs cs := by
  refine ⟨⟨[], [], by simp, by simp, by simp⟩, fun c hc => ?_, fun c hc => ?_⟩
  · exact h c (List.mem_of_mem_head? hc)
  · exact h c (List.mem_of_getLast? hc)

theorem trimmed_of_alphabet {text : String} (h : ∀ c ∈ text.toList, c ∈ Base58.alphabet) :
    trimmed text = text.toList := by
  apply Blank.IsTrimmed.trim_eq
  exact isTrimmed_of_not_blank fun c hc => Base58.not_isBlank_of_mem_alphabet c (h c hc)

theorem trimmed_encode (bs : List UInt8) :
    trimmed (Base58.encode bs) = (Base58.encode bs).toList :=
  trimmed_of_alphabet fun _ hc => Base58.mem_alphabet_of_mem_encode hc

theorem makes_parseIn_base58 {text : String} (h : ∀ c ∈ trimmed text, c ∈ Base58.alphabet) :
    Makes (parseIn .base58 text) (Base58.positional (trimmed text)) := by
  have hread : parseIn .base58 text = ofNat (Base58.positional (trimmed text)) := by
    rw [parseIn, numeralValue?, Base58.value?_of_mem h]
    rfl
  rw [hread]
  exact makes_ofNat _

theorem parseIn_base58_eq_malformed_iff {text : String} :
    parseIn .base58 text = .error .malformedScalar ↔
      ∃ c ∈ trimmed text, c ∉ Base58.alphabet := by
  constructor
  · intro hmalformed
    by_contra hall
    push Not at hall
    exact (makes_parseIn_base58 hall).ne_malformed hmalformed
  · intro hout
    rw [parseIn, numeralValue?, Base58.value?_eq_none_iff.mpr hout]
    rfl

/-- Ones in front of a numeral do not count. -/
theorem makes_parseIn_ones {cs : List Char} (h : ∀ c ∈ cs, c ∈ Base58.alphabet) (k : ℕ) :
    Makes (parseIn .base58 (String.ofList (List.replicate k '1' ++ cs)))
      (Base58.positional cs) := by
  set text := String.ofList (List.replicate k '1' ++ cs) with htext
  have htoList : text.toList = List.replicate k '1' ++ cs := by rw [htext, String.toList_ofList]
  have hall : ∀ c ∈ text.toList, c ∈ Base58.alphabet := by
    intro c hc
    rw [htoList] at hc
    rcases List.mem_append.mp hc with hone | hrest
    · rw [List.eq_of_mem_replicate hone]
      decide
    · exact h c hrest
  have htrim : trimmed text = text.toList := trimmed_of_alphabet hall
  have hmakes := makes_parseIn_base58 (htrim ▸ hall)
  rwa [htrim, htoList, Base58.positional_replicate_one_append] at hmakes

/-- The number of the text of a byte string is that of the byte string. -/
theorem positional_toList_encode (bs : List UInt8) :
    Base58.positional (Base58.encode bs).toList = Bytes.positional bs := by
  have hvalue := Base58.value?_encode bs
  rw [Base58.value?_of_mem fun c hc => Base58.mem_alphabet_of_mem_encode hc] at hvalue
  rw [← Bytes.ofBigEndian_eq_positional]
  exact Option.some.inj hvalue

/-! ### Agreement -/

/-- What the constructors make of a byte string, of the number it denotes and of its text. -/
structure BytesMake (bs : List UInt8) (n : ℕ) : Prop where
  natural : Makes (ofNat n) n
  integer : Makes (ofInt n) n
  bytes : Makes (ofBytes bs) n
  raw : ∀ base?, Makes (ofRaw base? (.bytes bs)) n ∧ Makes (ofRaw base? (.natural n)) n ∧
    Makes (ofRaw base? (.integer n)) n
  base58 : Makes (parseIn .base58 (Base58.encode bs)) n
  leading_zeros : ∀ k, Makes (ofBytes (List.replicate k 0 ++ bs)) n
  leading_ones : ∀ k, Makes (parseIn .base58
    (String.ofList (List.replicate k '1' ++ (Base58.encode bs).toList))) n
  exact_of_length : bs.length = 32 → Makes (ofExactBytes bs) n
  /-- The length is judged whatever the number is. -/
  exact_of_length_ne : bs.length ≠ 32 → ofExactBytes bs = .error .lengthMismatch

/-- What is made of a base58 text with a trimmed part. -/
structure TextMakes (text : String) (t : List Char) : Prop where
  isTrimmed : Blank.IsTrimmed text.toList t
  malformed_iff : parseIn .base58 text = .error .malformedScalar ↔
    ∃ c ∈ t, c ∉ Base58.alphabet
  of_alphabet : (∀ c ∈ t, c ∈ Base58.alphabet) →
    Makes (parseIn .base58 text) (Base58.positional t)
  /-- The text is read as a byte string first, and the bytes as a scalar. -/
  through_bytes : parseIn .base58 text =
    (Base58.decode? t).elim (.error .malformedScalar) ofBytes
  leading_ones : (∀ c ∈ t, c ∈ Base58.alphabet) → ∀ k,
    Makes (parseIn .base58 (String.ofList (List.replicate k '1' ++ t))) (Base58.positional t)

theorem bytesMake (bs : List UInt8) : BytesMake bs (Bytes.positional bs) where
  natural := makes_ofNat _
  integer := makes_ofNat _
  bytes := makes_ofBytes bs
  raw := fun _ => ⟨makes_ofBytes bs, makes_ofNat _, makes_ofNat _⟩
  base58 := by
    have hall : ∀ c ∈ trimmed (Base58.encode bs), c ∈ Base58.alphabet := by
      rw [trimmed_encode]
      exact fun c hc => Base58.mem_alphabet_of_mem_encode hc
    have hmakes := makes_parseIn_base58 hall
    rwa [trimmed_encode, positional_toList_encode] at hmakes
  leading_zeros := by
    intro k
    rw [← Bytes.positional_replicate_zero_append k]
    exact makes_ofBytes _
  leading_ones := by
    intro k
    rw [← positional_toList_encode]
    exact makes_parseIn_ones (fun c hc => Base58.mem_alphabet_of_mem_encode hc) k
  exact_of_length := by
    intro hlength
    rw [ofExactBytes, if_pos hlength]
    exact makes_ofBytes bs
  exact_of_length_ne := fun hlength => if_neg hlength

theorem textMakes (text : String) : TextMakes text (trimmed text) where
  isTrimmed := Blank.isTrimmed_trim _
  malformed_iff := parseIn_base58_eq_malformed_iff
  of_alphabet := makes_parseIn_base58
  through_bytes := parseIn_base58_eq text
  leading_ones := makes_parseIn_ones

/-- **The constructors agree.**  For a byte string of any length, the constructors from its number,
from its bytes, with any number of zeros before them, and from its base58 text, with any number of
ones before it, all give the scalar of the number, or `scalarOutOfRange` if there is none; the
constructor from exactly 32 bytes gives the same for that length and `lengthMismatch` for any other.
A base58 text is malformed exactly if its trimmed part has a character outside the alphabet, and is
otherwise read as the positional value of that part. -/
theorem constructors_agree :
    (∀ bs : List UInt8, BytesMake bs (Bytes.positional bs)) ∧
      ∀ text : String, TextMakes text (trimmed text) :=
  ⟨bytesMake, textMakes⟩

/-- The bytes of the modulus after a zero byte: too large, and one byte too long for the constructor
that judges the length.  A numeral with blanks and a one around it, and one with a letter that the
alphabet leaves out. -/
theorem constructors_agree_of_edges :
    ofBytes (0 :: modulusBytes) = .error .scalarOutOfRange ∧
      ofExactBytes (0 :: modulusBytes) = .error .lengthMismatch ∧
      parseIn .base58 " 1zz\t" = .ok ⟨3363, by decide⟩ ∧
      parseIn .base58 "1O" = .error .malformedScalar := by
  obtain ⟨hbytes, htexts⟩ := constructors_agree
  have hvalue : modulus ≤ Bytes.positional (0 :: modulusBytes) := by
    rw [← Bytes.ofBigEndian_eq_positional, Bytes.ofBigEndian_zero_cons, ofBigEndian_modulusBytes]
  have htrim : trimmed " 1zz\t" = ['1', 'z', 'z'] := by decide
  have hnumber : Base58.positional ['1', 'z', 'z'] = 3363 := by decide
  have halphabet : ∀ c ∈ trimmed " 1zz\t", c ∈ Base58.alphabet := by
    rw [htrim, List.forall_mem_cons, List.forall_mem_cons, List.forall_mem_singleton]
    decide
  refine ⟨(hbytes _).bytes.eq_outOfRange_of_le hvalue, (hbytes _).exact_of_length_ne (by decide),
    ?_, (htexts "1O").malformed_iff.mpr ⟨'O', by decide, by decide⟩⟩
  have hmakes := (htexts " 1zz\t").of_alphabet halphabet
  rw [htrim, hnumber] at hmakes
  exact hmakes.eq_ok_of_lt _

end Scalar

end CompressedLedger
