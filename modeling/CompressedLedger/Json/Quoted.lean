import CompressedLedger.Text.Digits

/-!
# Quoted strings

Between the quotes of a JSON string every character stands for itself except the quote, the
backslash and the control characters, which are escaped.  An escape `\u` names a code unit of 16
bits; two of them, a high and a low surrogate in a row, name one character, and any other surrogate
names none.

Writing escapes only what must be escaped, with the short form where there is one.
-/

namespace CompressedLedger.Json

/-- What a string is made of: characters and code units. -/
inductive Piece where
  | char (c : Char)
  | unit (u : Nat)

/-- The character after a backslash, for the short escapes. -/
def escaped? : Char → Option Char
  | '"' => some '"'
  | '\\' => some '\\'
  | '/' => some '/'
  | 'b' => some '\x08'
  | 'f' => some '\x0c'
  | 'n' => some '\n'
  | 'r' => some '\r'
  | 't' => some '\t'
  | _ => none

/-- The code unit of four hexadecimal digits. -/
def codeUnit? (a b c d : Char) : Option Nat :=
  ([a, b, c, d].mapM Digits.ofChar?).map (Digits.value 16)

/-- Reads the rest of a string up to its closing quote. -/
def scanString : List Char → Option (List Piece × List Char)
  | [] => none
  | '"' :: rest => some ([], rest)
  | '\\' :: 'u' :: a :: b :: c :: d :: rest =>
    match codeUnit? a b c d, scanString rest with
    | some u, some (pieces, rest) => some (.unit u :: pieces, rest)
    | _, _ => none
  | '\\' :: e :: rest =>
    match escaped? e, scanString rest with
    | some c, some (pieces, rest) => some (.char c :: pieces, rest)
    | _, _ => none
  | c :: rest =>
    if c.toNat < 0x20 || c == '\\' then none
    else
      match scanString rest with
      | some (pieces, rest) => some (.char c :: pieces, rest)
      | none => none

/-- What is left after a string is shorter than what was read. -/
theorem length_lt_of_scanString {cs rest : List Char} {pieces : List Piece}
    (h : scanString cs = some (pieces, rest)) : rest.length < cs.length := by
  fun_induction scanString cs generalizing pieces rest with
  | case1 => cases h
  | case2 => cases h; simp
  | case3 =>
    rename_i hs _ ih
    cases h
    have := ih hs
    simp only [List.length_cons]
    omega
  | case4 => cases h
  | case5 =>
    rename_i hs _ ih
    cases h
    have := ih hs
    simp only [List.length_cons]
    omega
  | case6 => cases h
  | case7 => cases h
  | case8 =>
    rename_i hs ih
    cases h
    have := ih hs
    simp only [List.length_cons]
    omega
  | case9 => cases h

/-- Whether a code unit is the first half of a pair. -/
def isHighSurrogate (u : Nat) : Bool := 0xD800 ≤ u && u < 0xDC00

/-- Whether a code unit is the second half of a pair. -/
def isLowSurrogate (u : Nat) : Bool := 0xDC00 ≤ u && u < 0xE000

/-- The characters of the pieces, unless a surrogate stands alone. -/
def assemble : List Piece → Option (List Char)
  | [] => some []
  | .char c :: rest => (assemble rest).map (c :: ·)
  | .unit high :: .unit low :: rest =>
    if isHighSurrogate high then
      if isLowSurrogate low then
        let c := Char.ofNat (0x10000 + (high - 0xD800) * 0x400 + (low - 0xDC00))
        (assemble rest).map (c :: ·)
      else none
    else if isLowSurrogate high then none
    else (assemble (.unit low :: rest)).map (Char.ofNat high :: ·)
  | .unit u :: rest =>
    if isHighSurrogate u || isLowSurrogate u then none
    else (assemble rest).map (Char.ofNat u :: ·)

/-! ### Writing -/

/-- A character as it stands between quotes. -/
def escapeChar (c : Char) : List Char :=
  match c with
  | '"' => ['\\', '"']
  | '\\' => ['\\', '\\']
  | '\x08' => ['\\', 'b']
  | '\x0c' => ['\\', 'f']
  | '\n' => ['\\', 'n']
  | '\r' => ['\\', 'r']
  | '\t' => ['\\', 't']
  | c =>
    if c.toNat < 0x20 then
      ['\\', 'u', '0', '0', Digits.toChar (c.toNat / 16), Digits.toChar (c.toNat % 16)]
    else [c]

/-- A string in quotes. -/
def quote (s : String) : String :=
  String.ofList ('"' :: (s.toList.flatMap escapeChar ++ ['"']))

end CompressedLedger.Json
