import CompressedLedger.Proofs.Scalar.Bytes
import CompressedLedger.Proofs.Scalar.Numeral
import CompressedLedger.Proofs.Text.Base58
import CompressedLedger.Proofs.Text.Hex

/-!
# Encodings of scalars are read back

A scalar is written as 32 bytes in either order and as a decimal, hexadecimal or base58 text, and
every one of these is read back as the same scalar, also with blanks around a text
(`decodesBack_and_injective`).  No encoding has a blank in it, so trimming takes off just the blanks
around it; the decimal and hexadecimal texts are in the grammar of numerals with the scalar's number
as their value, and the base58 text stands for the 32 bytes with all their leading zeros.
-/

namespace CompressedLedger.Scalar

open Digits

variable (a : Scalar)

/-! ### No encoding has blanks -/

theorem not_isBlank_of_isDigit {c : Char} {d : ℕ} (h : IsDigit c d) : Blank.isBlank c = false := by
  have hrange : (48 ≤ c.toNat ∧ c.toNat ≤ 57) ∨ (97 ≤ c.toNat ∧ c.toNat ≤ 102) ∨
      (65 ≤ c.toNat ∧ c.toNat ≤ 70) := by
    rw [isDigit_iff, ofChar?] at h
    split at h
    · rename_i hc
      exact Or.inl hc
    · split at h
      · rename_i hc
        exact Or.inr (Or.inl hc)
      · split at h
        · rename_i hc
          exact Or.inr (Or.inr hc)
        · cases h
  simp only [Blank.isBlank, Blank.ranges, List.any_cons, List.any_nil, Bool.or_false,
    Bool.or_eq_false_iff, Bool.and_eq_false_imp, decide_eq_true_eq, decide_eq_false_iff_not,
    not_le]
  omega

theorem not_isBlank_of_isNumeral {base n : ℕ} {cs : List Char} (h : IsNumeral base cs n) :
    ∀ c ∈ cs, Blank.isBlank c = false := by
  intro c hc
  obtain ⟨d, hd⟩ := h.exists_isDigit hc
  exact not_isBlank_of_isDigit hd

theorem not_isBlank_of_mem_toDecimal : ∀ c ∈ a.toDecimal.toList, Blank.isBlank c = false :=
  not_isBlank_of_isNumeral (isNumeral_decimal a.val)

theorem isNumeral_toHash : IsNumeral 16 (Hex.encodeChars a.toHash.bytes) a.val := by
  have hne : a.toHash.bytes ≠ [] := List.ne_nil_of_length_eq_add_one a.toHash.length_bytes
  have hvalue : Bytes.ofBigEndian a.toHash.bytes = a.val := toNat_toHash a
  have hnumeral := Hex.isNumeral_encodeChars hne
  rwa [hvalue] at hnumeral

theorem toList_toHex : a.toHex.toList = '0' :: 'x' :: Hex.encodeChars a.toHash.bytes := by
  rw [toHex, String.toList_append, Hex.toList_encode]
  rfl

theorem not_isBlank_of_mem_toHex : ∀ c ∈ a.toHex.toList, Blank.isBlank c = false := by
  rw [toList_toHex, List.forall_mem_cons, List.forall_mem_cons]
  exact ⟨rfl, rfl, not_isBlank_of_isNumeral (isNumeral_toHash a)⟩

theorem not_isBlank_of_mem_toBase58 : ∀ c ∈ a.toBase58.toList, Blank.isBlank c = false :=
  fun c hc => Base58.not_isBlank_of_mem_alphabet c (Base58.mem_alphabet_of_mem_encode hc)

/-! ### Reading the texts -/

variable {a} {text : String}

theorem parseIn_toDecimal (h : Blank.IsPadding a.toDecimal text) :
    parseIn .decimal text = .ok a ∧ parse text = .ok a := by
  have htrim : trimmed text = a.toDecimal.toList := h.trim_eq (not_isBlank_of_mem_toDecimal a)
  have hdenotes : DenotesDecimal (trimmed text) a.val := by
    rw [htrim]
    exact ⟨[], 1, [], a.toDecimal.toList, a.val, by simp [signs], by simp, rfl,
      isNumeral_decimal a.val, by simp⟩
  have hin : parseIn .decimal text = .ok a :=
    ((reads_parseIn_decimal text).eq_ok_iff a).mpr hdenotes
  -- without a base the text is decimal because no numeral of base ten has the letter of a mark
  have hbase := (detectBase_spec _).2 (not_startsWithMark_of_denotesDecimal hdenotes)
  exact ⟨hin, by rw [parse, hbase, hin]⟩

theorem parseIn_toHex (h : Blank.IsPadding a.toHex text) :
    parseIn .hexadecimal text = .ok a ∧ parse text = .ok a := by
  have htrim : trimmed text = ['0', 'x'] ++ Hex.encodeChars a.toHash.bytes :=
    (h.trim_eq (not_isBlank_of_mem_toHex a)).trans (toList_toHex a)
  have hdenotes : DenotesHexadecimal (trimmed text) a.val := by
    rw [htrim]
    exact ⟨[], 1, ['0', 'x'], _, a.val, by simp [signs], by simp [hexMarks], rfl,
      isNumeral_toHash a, by simp⟩
  have hin : parseIn .hexadecimal text = .ok a :=
    ((reads_parseIn_hexadecimal text).eq_ok_iff a).mpr hdenotes
  have hmark : StartsWithMark (trimmed text) := by
    rw [htrim]
    exact ⟨[], by simp, ['0', 'x'], by simp [hexMarks], List.prefix_append _ _⟩
  exact ⟨hin, by rw [parse, (detectBase_spec _).1 hmark, hin]⟩

/-- A base58 text is read as the byte string it stands for. -/
theorem parseIn_base58_eq (text : String) :
    parseIn .base58 text = (Base58.decode? (trimmed text)).elim
      (.error .malformedScalar) ofBytes := by
  rw [parseIn, numeralValue?, ← Base58.map_ofBigEndian_decode?]
  cases Base58.decode? (trimmed text) with
  | none => rfl
  | some bs => rfl

theorem parseIn_toBase58 (h : Blank.IsPadding a.toBase58 text) : parseIn .base58 text = .ok a := by
  have htrim : trimmed text = (Base58.encode a.toHash.bytes).toList :=
    h.trim_eq (not_isBlank_of_mem_toBase58 a)
  rw [parseIn_base58_eq, htrim, Base58.decode?_encode]
  exact ofBytes_eq_ok_iff.mpr rfl

/-! ### The encodings -/

/-- Everything a scalar is written as is read back as the scalar. -/
structure DecodesBack (a : Scalar) : Prop where
  bytes : ofExactBytes a.toHash.bytes = .ok a
  /-- The zeros before the minimal bytes fill the width, and their number is a true difference. -/
  padding : (Bytes.minimalBigEndian a.val).length ≤ 32 ∧ a.toHash.bytes =
    List.replicate (32 - (Bytes.minimalBigEndian a.val).length) 0 ++ Bytes.minimalBigEndian a.val
  littleEndian : Bytes.ofLittleEndian a.toLittleEndian = a.val
  hex_form : ∃ digits, a.toHex.toList = '0' :: 'x' :: digits ∧ digits.length = 64 ∧
    IsNumeral 16 digits a.val
  hex : ∀ text, Blank.IsPadding a.toHex text →
    parseIn .hexadecimal text = .ok a ∧ parse text = .ok a
  decimal : ∀ text, Blank.IsPadding a.toDecimal text →
    parseIn .decimal text = .ok a ∧ parse text = .ok a
  display : toString a = a.toDecimal
  base58 : ∀ text, Blank.IsPadding a.toBase58 text → parseIn .base58 text = .ok a

theorem decodesBack (a : Scalar) : DecodesBack a where
  bytes := ofExactBytes_eq_ok_iff.mpr rfl
  padding := Bytes.toBigEndian_eq_minimal (by decide) (a.isLt.trans modulus_lt_width)
  littleEndian := by
    rw [toLittleEndian, Bytes.ofLittleEndian_toLittleEndian,
      Nat.mod_eq_of_lt (a.isLt.trans modulus_lt_width)]
  hex_form := by
    refine ⟨_, toList_toHex a, ?_, isNumeral_toHash a⟩
    rw [Hex.length_encodeChars, a.toHash.length_bytes]
  hex := fun _ h => parseIn_toHex h
  decimal := fun _ h => parseIn_toDecimal h
  display := rfl
  base58 := fun _ h => parseIn_toBase58 h

/-- An encoding that some reader undoes keeps scalars apart. -/
theorem injective_of_decode {α : Type} {encode : Scalar → α} (decode : α → Except Error Scalar)
    (h : ∀ a, decode (encode a) = .ok a) : Function.Injective encode := by
  intro a b hab
  have hread := h a
  rw [hab, h b] at hread
  exact (Except.ok.inj hread).symm

/-- **Every encoding is read back.**  The 32 bytes, in either order, and the hexadecimal, decimal
and base58 texts of a scalar, with or without blanks around a text, are read as the scalar again; so
each encoding tells any two scalars apart. -/
theorem decodesBack_and_injective :
    (∀ a : Scalar, DecodesBack a) ∧ Function.Injective toHash ∧
      Function.Injective toLittleEndian ∧ Function.Injective toHex ∧
      Function.Injective toDecimal ∧ Function.Injective toBase58 := by
  refine ⟨decodesBack, toHash_injective, ?_, ?_, ?_, ?_⟩
  · apply injective_of_decode fun bs => ofNat (Bytes.ofLittleEndian bs)
    intro a
    rw [(decodesBack a).littleEndian, ofNat_val]
  · apply injective_of_decode parse
    exact fun a => (parseIn_toHex (Blank.isPadding_self _)).2
  · apply injective_of_decode parse
    exact fun a => (parseIn_toDecimal (Blank.isPadding_self _)).2
  · apply injective_of_decode (parseIn .base58)
    exact fun a => parseIn_toBase58 (Blank.isPadding_self _)

/-- A tab before a decimal text and an ideographic space after it do not matter. -/
theorem decodesBack_and_injective_of_blanks :
    parse "\t21\u3000" = .ok ⟨21, by decide⟩ := by
  have htext : toDecimal ⟨21, by decide⟩ = String.ofList ['2', '1'] := by
    simp [toDecimal, decimal, Digits.ofNat, ofNat.go, toChar]
  have hpadding : Blank.IsPadding (toDecimal ⟨21, by decide⟩) "\t21\u3000" := by
    rw [htext]
    exact ⟨['\t'], ['\u3000'], by decide, List.forall_mem_singleton.mpr rfl,
      List.forall_mem_singleton.mpr rfl⟩
  exact ((decodesBack_and_injective.1 _).decimal _ hpadding).2

end CompressedLedger.Scalar
