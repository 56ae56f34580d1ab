import CompressedLedger.Json.Quoted
import CompressedLedger.Json.Value

/-!
# The tokens of a JSON text

A text is a sequence of scalars and marks with blanks between them.  Only the space, the tab and
the two line ends are blanks.  A number has no leading zero and no plus sign, and digits stand on
both sides of its point.
-/

namespace CompressedLedger.Json

/-- A scalar, as a value, or a mark. -/
inductive Token where
  | scalar (v : Value)
  | openArray
  | closeArray
  | openObject
  | closeObject
  | comma
  | colon

/-- Whether a character may stand between tokens. -/
def isSpace (c : Char) : Bool := c == ' ' || c == '\t' || c == '\n' || c == '\r'

/-- The mark a character stands for. -/
def mark? : Char → Option Token
  | '[' => some .openArray
  | ']' => some .closeArray
  | '\x7b' => some .openObject
  | '\x7d' => some .closeObject
  | ',' => some .comma
  | ':' => some .colon
  | _ => none

/-! ### Numbers -/

/-- The digits at the front and what follows them. -/
def scanDigits (cs : List Char) : List Nat × List Char :=
  ((cs.takeWhile Char.isDigit).map fun c => c.toNat - '0'.toNat, cs.dropWhile Char.isDigit)

/-- The digits before the point: at least one, and no zero before another. -/
def scanWhole (cs : List Char) : Option (List Nat × List Char) :=
  match scanDigits cs with
  | ([], _) => none
  | (0 :: _ :: _, _) => none
  | r => some r

/-- The digits after a point, if there is one. -/
def scanFraction : List Char → Option (List Nat × List Char)
  | '.' :: rest =>
    match scanDigits rest with
    | ([], _) => none
    | r => some r
  | cs => some ([], cs)

/-- Takes off one sign; the first component says whether it was a minus. -/
def scanSign : List Char → Bool × List Char
  | '-' :: rest => (true, rest)
  | '+' :: rest => (false, rest)
  | cs => (false, cs)

/-- The exponent, if there is one. -/
def scanExponent : List Char → Option (Option Int × List Char)
  | c :: rest =>
    if c == 'e' || c == 'E' then
      match scanDigits (scanSign rest).2 with
      | ([], _) => none
      | (digits, after) =>
        let n : Int := Digits.value 10 digits
        some (some (if (scanSign rest).1 then -n else n), after)
    else some (none, c :: rest)
  | [] => some (none, [])

/-- Takes off one minus sign. -/
def scanMinus : List Char → Bool × List Char
  | '-' :: rest => (true, rest)
  | cs => (false, cs)

/-- A number at the front and what follows it. -/
def scanNumber (cs : List Char) : Option (Number × List Char) := do
  let (whole, afterWhole) ← scanWhole (scanMinus cs).2
  let (fraction, afterFraction) ← scanFraction afterWhole
  let (exponent, rest) ← scanExponent afterFraction
  return (⟨(scanMinus cs).1, whole, fraction, exponent⟩, rest)

/-- A scalar other than a string at the front and what follows it. -/
def scanPlain : List Char → Option (Value × List Char)
  | 'n' :: 'u' :: 'l' :: 'l' :: rest => some (.null, rest)
  | 't' :: 'r' :: 'u' :: 'e' :: rest => some (.bool true, rest)
  | 'f' :: 'a' :: 'l' :: 's' :: 'e' :: rest => some (.bool false, rest)
  | cs => (scanNumber cs).map fun (n, rest) => (.number n, rest)

/-! ### What is left gets shorter -/

theorem length_scanDigits_le (cs : List Char) : (scanDigits cs).2.length ≤ cs.length :=
  (List.dropWhile_sublist _).length_le

theorem length_scanDigits_lt {cs : List Char} (h : (scanDigits cs).1 ≠ []) :
    (scanDigits cs).2.length < cs.length := by
  cases cs with
  | nil => simp [scanDigits] at h
  | cons c cs =>
    by_cases hc : c.isDigit = true
    · have := (List.dropWhile_sublist (l := cs) Char.isDigit).length_le
      simp only [scanDigits, List.dropWhile_cons, hc, if_true, List.length_cons]
      omega
    · simp [scanDigits, hc] at h

theorem length_lt_of_scanWhole {cs rest : List Char} {ds : List Nat}
    (h : scanWhole cs = some (ds, rest)) : rest.length < cs.length := by
  unfold scanWhole at h
  split at h
  · cases h
  · cases h
  · rename_i hne _
    have hd : (scanDigits cs).1 ≠ [] := fun h0 => hne (scanDigits cs).2 (Prod.ext h0 rfl)
    have := length_scanDigits_lt hd
    rw [Option.some.inj h] at this
    exact this

theorem length_le_of_scanFraction {cs rest : List Char} {ds : List Nat}
    (h : scanFraction cs = some (ds, rest)) : rest.length ≤ cs.length := by
  unfold scanFraction at h
  split at h
  · rename_i tail
    have hle := length_scanDigits_le tail
    split at h
    · cases h
    · rw [Option.some.inj h] at hle
      exact Nat.le_succ_of_le hle
  · cases h
    exact Nat.le_refl _

theorem length_scanSign_le (cs : List Char) : (scanSign cs).2.length ≤ cs.length := by
  unfold scanSign
  split <;> simp

theorem length_le_of_scanExponent {cs rest : List Char} {e : Option Int}
    (h : scanExponent cs = some (e, rest)) : rest.length ≤ cs.length := by
  unfold scanExponent at h
  split at h
  · rename_i c tail
    have hsign := length_scanSign_le tail
    have hle := length_scanDigits_le (scanSign tail).2
    split at h
    · split at h
      · cases h
      · rename_i digits after _ heq
        cases h
        rw [heq] at hle
        simp only [List.length_cons] at hle ⊢
        omega
    · cases h
      exact Nat.le_refl _
  · cases h
    exact Nat.le_refl _

theorem length_scanMinus_le (cs : List Char) : (scanMinus cs).2.length ≤ cs.length := by
  unfold scanMinus
  split <;> simp

theorem length_lt_of_scanNumber {cs rest : List Char} {n : Number}
    (h : scanNumber cs = some (n, rest)) : rest.length < cs.length := by
  simp only [scanNumber, Option.bind_eq_bind, Option.bind_eq_some_iff] at h
  obtain ⟨⟨whole, afterWhole⟩, hw, ⟨fraction, afterFraction⟩, hf, ⟨exponent, after⟩, he, h⟩ := h
  have h1 := length_scanMinus_le cs
  have h2 := length_lt_of_scanWhole hw
  have h3 := length_le_of_scanFraction hf
  have h4 := length_le_of_scanExponent he
  cases h
  simp only at h3 h4 ⊢
  omega

theorem length_lt_of_scanPlain {cs rest : List Char} {v : Value}
    (h : scanPlain cs = some (v, rest)) : rest.length < cs.length := by
  unfold scanPlain at h
  split at h
  · cases h
    simp only [List.length_cons]
    omega
  · cases h
    simp only [List.length_cons]
    omega
  · cases h
    simp only [List.length_cons]
    omega
  · rw [Option.map_eq_some_iff] at h
    obtain ⟨⟨n, after⟩, hn, h⟩ := h
    have := length_lt_of_scanNumber hn
    cases h
    exact this

/-! ### Whole texts -/

/-- The tokens of a text. -/
def tokens (cs : List Char) : Option (List Token) :=
  match cs with
  | [] => some []
  | c :: rest =>
    if isSpace c then tokens rest
    else if c = '"' then
      match _h : scanString rest with
      | none => none
      | some (pieces, after) =>
        (tokens after).map (.scalar (.string ((assemble pieces).map String.ofList)) :: ·)
    else
      match mark? c with
      | some t => (tokens rest).map (t :: ·)
      | none =>
        match _h : scanPlain (c :: rest) with
        | none => none
        | some (v, after) => (tokens after).map (.scalar v :: ·)
termination_by cs.length
decreasing_by
  · exact Nat.lt_succ_self _
  · exact Nat.lt_succ_of_lt (length_lt_of_scanString _h)
  · exact Nat.lt_succ_self _
  · exact length_lt_of_scanPlain _h

end CompressedLedger.Json
