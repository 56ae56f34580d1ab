import CompressedLedger.Proofs.Text.Blank
import CompressedLedger.Proofs.Text.Digits
import CompressedLedger.Scalar.Numeral

/-!
# The grammar of scalars in text

A decimal text is a sign or none and decimal digits; a hexadecimal text may have a mark between sign
and digits.  `Denotes` is this grammar together with the value a text has in it.  Reading a text
trims it, judges the grammar and then the range, and each of the three outcomes arises exactly where
it should (`parseIn_reads_grammar`): a scalar for a value below the modulus, `scalarOutOfRange` for
any other value, `malformedScalar` for a text outside the grammar.
-/

namespace CompressedLedger.Scalar

open Digits

/-! ### The grammar -/

/-- The characters of a text without the blanks at its ends. -/
abbrev trimmed (text : String) : List Char := Blank.trim text.toList

/-- The signs that may stand before a numeral, and their factors. -/
def signs : List (List Char × ℤ) := [([], 1), (['+'], 1), (['-'], -1)]

/-- The marks of a hexadecimal text. -/
def hexMarks : List (List Char) := [['0', 'x'], ['0', 'X']]

/-- The text is a sign, a mark and a numeral of the base, and the integer is its signed value. -/
def Denotes (base : ℕ) (marks : List (List Char)) (t : List Char) (v : ℤ) : Prop :=
  ∃ sign factor mark digits n, (sign, factor) ∈ signs ∧ mark ∈ marks ∧
    t = sign ++ mark ++ digits ∧ IsNumeral base digits n ∧ v = factor * n

/-- A text without surrounding blanks and the integer it denotes in decimal. -/
abbrev DenotesDecimal : List Char → ℤ → Prop := Denotes 10 [[]]

/-- A text without surrounding blanks and the integer it denotes in hexadecimal. -/
abbrev DenotesHexadecimal : List Char → ℤ → Prop := Denotes 16 ([] :: hexMarks)

/-- Whether the text, after at most one minus, starts with a mark. -/
def StartsWithMark (t : List Char) : Prop :=
  ∃ minus ∈ [[], ['-']], ∃ mark ∈ hexMarks, minus ++ mark <+: t

/-- The outcome is the scalar of a value that can be read and is in range, `scalarOutOfRange` for
one that is not in range, and `malformedScalar` if there is no value. -/
structure Reads (outcome : Except Error Scalar) (IsValue : ℤ → Prop) : Prop where
  eq_ok_iff : ∀ a : Scalar, outcome = .ok a ↔ IsValue a.val
  eq_outOfRange_iff : outcome = .error .scalarOutOfRange ↔
    ∃ v, IsValue v ∧ (v < 0 ∨ (modulus : ℤ) ≤ v)
  eq_malformed_iff : outcome = .error .malformedScalar ↔ ¬∃ v, IsValue v

/-! ### Numerals hold neither signs nor marks -/

theorem not_isDigit {c : Char} (hc : c ∈ ['+', '-', 'x', 'X']) (d : ℕ) : ¬IsDigit c d := by
  have hnone : alphabet.idxOf? c.toLower = none := by
    simp only [List.mem_cons, List.not_mem_nil, or_false] at hc
    rcases hc with rfl | rfl | rfl | rfl <;> decide
  intro h
  rw [IsDigit, hnone] at h
  cases h

theorem notMem_of_isNumeral {base n : ℕ} {cs : List Char} (h : IsNumeral base cs n) {c : Char}
    (hc : c ∈ ['+', '-', 'x', 'X']) : c ∉ cs := by
  intro hmem
  obtain ⟨d, hd⟩ := h.exists_isDigit hmem
  exact not_isDigit hc d hd

/-! ### Taking a text apart -/

theorem splitSign_spec (t : List Char) : ∃ sign factor, (sign, factor) ∈ signs ∧
    t = sign ++ (splitSign t).2 ∧ ∀ n : ℕ, signed (splitSign t).1 n = factor * n := by
  unfold splitSign
  split
  · exact ⟨['-'], -1, by simp [signs], rfl, fun n => by simp [signed]⟩
  · exact ⟨['+'], 1, by simp [signs], rfl, fun n => by simp [signed]⟩
  · exact ⟨[], 1, by simp [signs], rfl, fun n => by simp [signed]⟩

theorem splitSign_append {sign : List Char} {factor : ℤ} (hsign : (sign, factor) ∈ signs)
    {rest : List Char} (hplus : '+' ∉ rest) (hminus : '-' ∉ rest) :
    (splitSign (sign ++ rest)).2 = rest ∧
      ∀ n : ℕ, signed (splitSign (sign ++ rest)).1 n = factor * n := by
  simp only [signs, List.mem_cons, Prod.mk.injEq, List.not_mem_nil, or_false] at hsign
  rcases hsign with ⟨rfl, rfl⟩ | ⟨rfl, rfl⟩ | ⟨rfl, rfl⟩
  · have hsplit : splitSign rest = (false, rest) := by
      unfold splitSign
      split
      · simp at hminus
      · simp at hplus
      · rfl
    rw [List.nil_append, hsplit]
    exact ⟨rfl, fun n => by simp [signed]⟩
  · exact ⟨rfl, fun n => by simp [splitSign, signed]⟩
  · exact ⟨rfl, fun n => by simp [splitSign, signed]⟩

theorem dropHexMark_spec (cs : List Char) :
    ∃ mark ∈ [] :: hexMarks, cs = mark ++ dropHexMark cs := by
  unfold dropHexMark
  split
  · exact ⟨['0', 'x'], by simp [hexMarks], rfl⟩
  · exact ⟨['0', 'X'], by simp [hexMarks], rfl⟩
  · exact ⟨[], by simp, rfl⟩

theorem dropHexMark_append {mark : List Char} (hmark : mark ∈ [] :: hexMarks) {rest : List Char}
    (hlower : 'x' ∉ rest) (hupper : 'X' ∉ rest) : dropHexMark (mark ++ rest) = rest := by
  simp only [hexMarks, List.mem_cons, List.not_mem_nil, or_false] at hmark
  rcases hmark with rfl | rfl | rfl
  · rw [List.nil_append]
    unfold dropHexMark
    split
    · simp at hlower
    · simp at hupper
    · rfl
  · rfl
  · rfl

/-- A reader that takes off a sign, then a mark, and reads the rest as a numeral, reads the grammar
of these marks. -/
theorem read_eq_some_iff {base : ℕ} {marks : List (List Char)} {strip : List Char → List Char}
    (hspec : ∀ cs, ∃ mark ∈ marks, cs = mark ++ strip cs)
    (hstrip : ∀ mark ∈ marks, ∀ digits n, IsNumeral base digits n →
      strip (mark ++ digits) = digits)
    (hmarks : ∀ mark ∈ marks, '+' ∉ mark ∧ '-' ∉ mark) {t : List Char} {v : ℤ} :
    (Digits.parse? base (strip (splitSign t).2)).map (signed (splitSign t).1) = some v ↔
      Denotes base marks t v := by
  rw [Option.map_eq_some_iff]
  constructor
  · rintro ⟨n, hn, rfl⟩
    obtain ⟨sign, factor, hsign, ht, hsigned⟩ := splitSign_spec t
    obtain ⟨mark, hmark, hrest⟩ := hspec (splitSign t).2
    refine ⟨sign, factor, mark, strip (splitSign t).2, n, hsign, hmark, ?_,
      parse?_eq_some_iff.mp hn, hsigned n⟩
    rw [List.append_assoc, ← hrest, ← ht]
  · -- a sign behind the first one would be in the mark or the digits, which hold none
    rintro ⟨sign, factor, mark, digits, n, hsign, hmark, rfl, hdigits, rfl⟩
    have hplus : '+' ∉ mark ++ digits := by
      rw [List.mem_append]
      exact not_or_intro (hmarks mark hmark).1 (notMem_of_isNumeral hdigits (by simp))
    have hminus : '-' ∉ mark ++ digits := by
      rw [List.mem_append]
      exact not_or_intro (hmarks mark hmark).2 (notMem_of_isNumeral hdigits (by simp))
    rw [List.append_assoc]
    obtain ⟨hrest, hsigned⟩ := splitSign_append hsign hplus hminus
    rw [hrest, hstrip mark hmark digits n hdigits]
    exact ⟨n, parse?_eq_some_iff.mpr hdigits, hsigned n⟩

theorem decimalValue?_eq_some_iff {t : List Char} {v : ℤ} :
    decimalValue? t = some v ↔ DenotesDecimal t v := by
  have hspec : ∀ cs : List Char, ∃ mark ∈ [[]], cs = mark ++ id cs := fun cs => ⟨[], by simp, rfl⟩
  apply read_eq_some_iff hspec
  · intro mark hmark digits n _
    rw [List.mem_singleton.mp hmark]
    rfl
  · simp

theorem hexadecimalValue?_eq_some_iff {t : List Char} {v : ℤ} :
    hexadecimalValue? t = some v ↔ DenotesHexadecimal t v := by
  apply read_eq_some_iff dropHexMark_spec
  · intro mark hmark digits n hdigits
    exact dropHexMark_append hmark (notMem_of_isNumeral hdigits (by simp))
      (notMem_of_isNumeral hdigits (by simp))
  · decide

/-! ### From values to scalars -/

theorem ofInt_of_lt {v : ℤ} (h : v < 0) : ofInt v = .error .scalarOutOfRange := by
  cases v with
  | ofNat n => exact absurd h (by simp)
  | negSucc n => rfl

theorem ofInt_natCast (n : ℕ) : ofInt n = ofNat n := rfl

theorem ofInt_eq_ok_iff {v : ℤ} {a : Scalar} : ofInt v = .ok a ↔ (a.val : ℤ) = v := by
  rcases lt_or_ge v 0 with hneg | hpos
  · rw [ofInt_of_lt hneg]
    exact ⟨fun h => (nomatch h), fun h => by omega⟩
  · lift v to ℕ using hpos
    rw [ofInt_natCast, ofNat_eq_ok_iff, Nat.cast_inj]

theorem ofInt_eq_error_iff {v : ℤ} {e : Error} :
    ofInt v = .error e ↔ e = .scalarOutOfRange ∧ (v < 0 ∨ (modulus : ℤ) ≤ v) := by
  rcases lt_or_ge v 0 with hneg | hpos
  · rw [ofInt_of_lt hneg]
    simp [hneg, eq_comm]
  · lift v to ℕ using hpos
    rw [ofInt_natCast, Nat.cast_le]
    rcases Nat.lt_or_ge v modulus with hlt | hle
    · rw [ofNat_of_lt hlt]
      exact ⟨fun h => (nomatch h), fun h => by omega⟩
    · rw [ofNat_of_le hle]
      simp [hle, eq_comm]

/-- A reader that recognises the values of a text reads them into scalars. -/
theorem reads_parseIn {base : NumeralBase} {text : String} {IsValue : ℤ → Prop}
    (h : ∀ v, numeralValue? base (trimmed text) = some v ↔ IsValue v) :
    Reads (parseIn base text) IsValue := by
  unfold parseIn
  cases hvalue : numeralValue? base (trimmed text) with
  | none =>
    have hno : ∀ v, ¬IsValue v := by
      intro v hv
      rw [← h v, hvalue] at hv
      cases hv
    refine ⟨fun a => ⟨fun hok => (nomatch hok), fun ha => absurd ha (hno _)⟩,
      ⟨fun herror => ?_, ?_⟩, ⟨fun _ => ?_, fun _ => rfl⟩⟩
    · cases herror
    · rintro ⟨v, hv, -⟩
      exact absurd hv (hno v)
    · rintro ⟨v, hv⟩
      exact hno v hv
  | some value =>
    have honly : ∀ v, IsValue v ↔ v = value := by
      intro v
      rw [← h v, hvalue, Option.some.injEq, eq_comm]
    refine ⟨fun a => ?_, ?_, ⟨fun herror => ?_, fun hnone => ?_⟩⟩
    · rw [honly, ofInt_eq_ok_iff]
    · simp only [honly, exists_eq_left, ofInt_eq_error_iff, true_and]
    · have hcause := (ofInt_eq_error_iff.mp herror).1
      cases hcause
    · exact absurd ⟨value, (honly value).mpr rfl⟩ hnone

theorem reads_parseIn_decimal (text : String) :
    Reads (parseIn .decimal text) (DenotesDecimal (trimmed text)) := by
  apply reads_parseIn
  exact fun v => decimalValue?_eq_some_iff

theorem reads_parseIn_hexadecimal (text : String) :
    Reads (parseIn .hexadecimal text) (DenotesHexadecimal (trimmed text)) := by
  apply reads_parseIn
  exact fun v => hexadecimalValue?_eq_some_iff

/-! ### The base a text selects -/

theorem hasHexMark_iff {cs : List Char} :
    hasHexMark cs = true ↔ ∃ mark ∈ hexMarks, mark <+: cs := by
  simp only [hexMarks, List.mem_cons, List.not_mem_nil, or_false, exists_eq_or_imp, exists_eq_left]
  constructor
  · intro h
    unfold hasHexMark at h
    split at h
    · exact Or.inl ⟨_, rfl⟩
    · exact Or.inr ⟨_, rfl⟩
    · cases h
  · rintro (⟨rest, rfl⟩ | ⟨rest, rfl⟩)
    · rfl
    · rfl

theorem startsWithMark_minus_cons (rest : List Char) :
    StartsWithMark ('-' :: rest) ↔ hasHexMark rest = true := by
  rw [hasHexMark_iff]
  simp [StartsWithMark, hexMarks, List.cons_prefix_cons]

theorem startsWithMark_of_no_minus {t : List Char} (h : ∀ rest, t ≠ '-' :: rest) :
    StartsWithMark t ↔ hasHexMark t = true := by
  have hminus : ∀ mark, ¬ '-' :: mark <+: t := by
    rintro mark ⟨rest, hrest⟩
    exact h (mark ++ rest) hrest.symm
  rw [hasHexMark_iff]
  simp [StartsWithMark, hminus]

theorem detectBase_spec (t : List Char) :
    (StartsWithMark t → detectBase t = .hexadecimal) ∧
      (¬StartsWithMark t → detectBase t = .decimal) := by
  unfold detectBase
  split
  · rw [startsWithMark_minus_cons]
    exact ⟨fun h => if_pos h, fun h => if_neg h⟩
  · rename_i hno
    rw [startsWithMark_of_no_minus hno]
    exact ⟨fun h => if_pos h, fun h => if_neg h⟩

theorem not_startsWithMark_plus (rest : List Char) : ¬StartsWithMark ('+' :: rest) := by
  have hminus : ∀ rest', '+' :: rest ≠ '-' :: rest' := by simp
  rw [startsWithMark_of_no_minus hminus]
  exact Bool.false_ne_true

/-- A letter that no numeral and no sign has is in no decimal text. -/
theorem not_denotesDecimal {t : List Char} {c : Char} (hc : c ∈ t) (hletter : c ∈ ['x', 'X'])
    (v : ℤ) : ¬DenotesDecimal t v := by
  rintro ⟨sign, factor, mark, digits, n, hsign, hmark, rfl, hdigits, -⟩
  have hnotsign : ∀ s ∈ signs, c ∉ s.1 := by
    have hall : ∀ letter ∈ ['x', 'X'], ∀ s ∈ signs, letter ∉ s.1 := by simp [signs]
    exact hall c hletter
  have hnotdigit : c ∉ digits := by
    apply notMem_of_isNumeral hdigits
    exact List.mem_append_right ['+', '-'] hletter
  rw [List.mem_singleton.mp hmark, List.append_nil, List.mem_append] at hc
  exact hc.elim (hnotsign _ hsign) hnotdigit

theorem exists_letter_of_mark : ∀ mark ∈ hexMarks, ∃ c ∈ mark, c ∈ ['x', 'X'] := by
  simp [hexMarks]

theorem not_startsWithMark_of_denotesDecimal {t : List Char} {v : ℤ} (h : DenotesDecimal t v) :
    ¬StartsWithMark t := by
  rintro ⟨minus, -, mark, hmark, rest, rfl⟩
  obtain ⟨c, hc, hletter⟩ := exists_letter_of_mark mark hmark
  have hmem : c ∈ minus ++ mark ++ rest :=
    List.mem_append_left rest (List.mem_append_right minus hc)
  exact not_denotesDecimal hmem hletter v h

/-- After a plus a mark does not select hexadecimal, and in decimal its letter is no digit. -/
theorem parse_plus_mark {text : String} {mark rest : List Char} (hmark : mark ∈ hexMarks)
    (ht : trimmed text = '+' :: mark ++ rest) :
    parse text = .error .malformedScalar := by
  have hno : ¬StartsWithMark (trimmed text) := by
    rw [ht]
    exact not_startsWithMark_plus (mark ++ rest)
  obtain ⟨c, hc, hletter⟩ := exists_letter_of_mark mark hmark
  have hmem : c ∈ trimmed text := by
    rw [ht]
    exact List.mem_append_left rest (List.mem_cons_of_mem '+' hc)
  rw [parse, (detectBase_spec _).2 hno, (reads_parseIn_decimal text).eq_malformed_iff]
  rintro ⟨v, hv⟩
  exact not_denotesDecimal hmem hletter v hv

/-- **Texts are read by exactly the grammar.**  Reading trims a text to the part without blanks at
its ends.  In decimal, and in hexadecimal, the outcome is a scalar if the part denotes the scalar's
number, `scalarOutOfRange` if it denotes another integer, and `malformedScalar` if it denotes none.
Without a base a text is read in hexadecimal if, after at most one minus, it starts with a mark, and
in decimal otherwise, so a mark after a plus is always malformed. -/
theorem parseIn_reads_grammar (text : String) :
    Blank.IsTrimmed text.toList (trimmed text) ∧
    Reads (parseIn .decimal text) (DenotesDecimal (trimmed text)) ∧
    Reads (parseIn .hexadecimal text) (DenotesHexadecimal (trimmed text)) ∧
    (StartsWithMark (trimmed text) → parse text = parseIn .hexadecimal text) ∧
    (¬StartsWithMark (trimmed text) → parse text = parseIn .decimal text) ∧
    ofRaw none (.text text) = parse text ∧
    (∀ mark ∈ hexMarks, '+' :: mark <+: trimmed text → parse text = .error .malformedScalar) := by
  refine ⟨Blank.isTrimmed_trim _, reads_parseIn_decimal text, reads_parseIn_hexadecimal text,
    fun h => ?_, fun h => ?_, rfl, ?_⟩
  · rw [parse, (detectBase_spec _).1 h]
  · rw [parse, (detectBase_spec _).2 h]
  · rintro mark hmark ⟨rest, hrest⟩
    exact parse_plus_mark hmark hrest.symm

/-- A text of each form: a mark after a minus, no mark at all, and a mark after a plus. -/
theorem parseIn_reads_grammar_of_forms :
    parse " -0x0\t" = parseIn .hexadecimal " -0x0\t" ∧ parse "-7" = parseIn .decimal "-7" ∧
      parse "+0X1f" = .error .malformedScalar := by
  have hminus : StartsWithMark (trimmed " -0x0\t") :=
    ⟨['-'], by simp, ['0', 'x'], by simp [hexMarks], ['0'], by decide⟩
  have hno : ¬StartsWithMark (trimmed "-7") := by
    have htrim : trimmed "-7" = '-' :: ['7'] := by decide
    rw [htrim, startsWithMark_minus_cons]
    decide
  have hplus : '+' :: ['0', 'X'] <+: trimmed "+0X1f" := ⟨['1', 'f'], by decide⟩
  exact ⟨(parseIn_reads_grammar _).2.2.2.1 hminus, (parseIn_reads_grammar _).2.2.2.2.1 hno,
    (parseIn_reads_grammar _).2.2.2.2.2.2 ['0', 'X'] (by simp [hexMarks]) hplus⟩

end CompressedLedger.Scalar
