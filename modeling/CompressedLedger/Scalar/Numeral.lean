import CompressedLedger.Scalar.Basic
import CompressedLedger.Text.Base58
import CompressedLedger.Text.Blank
import CompressedLedger.Text.Hex

/-!
# Scalars as text

A scalar is read from a decimal, hexadecimal or base58 text; white space around the text is
dropped first.  A decimal or hexadecimal text is one optional sign, in hexadecimal one optional
`0x` or `0X`, and then at least one digit.  A text outside that grammar is malformed; a text
inside it whose value is negative or too large is out of range.  A base58 text is a plain numeral
whose empty form is zero.
-/

namespace CompressedLedger

/-- The base a text is read in. -/
inductive NumeralBase where
  | decimal
  | hexadecimal
  | base58
deriving DecidableEq, Repr

namespace Scalar

/-- Takes off one sign; the first component says whether it was a minus. -/
def splitSign : List Char → Bool × List Char
  | '-' :: cs => (true, cs)
  | '+' :: cs => (false, cs)
  | cs => (false, cs)

/-- Takes off one hexadecimal mark. -/
def dropHexMark : List Char → List Char
  | '0' :: 'x' :: cs => cs
  | '0' :: 'X' :: cs => cs
  | cs => cs

/-- Whether a text starts with a hexadecimal mark. -/
def hasHexMark : List Char → Bool
  | '0' :: 'x' :: _ => true
  | '0' :: 'X' :: _ => true
  | _ => false

/-- A sign and a number, as an integer; minus zero is zero. -/
def signed (negative : Bool) (n : Nat) : Int := if negative then -(n : Int) else n

/-- The integer a decimal text denotes. -/
def decimalValue? (cs : List Char) : Option Int :=
  let (negative, digits) := splitSign cs
  (Digits.parse? 10 digits).map (signed negative)

/-- The integer a hexadecimal text denotes. -/
def hexadecimalValue? (cs : List Char) : Option Int :=
  let (negative, digits) := splitSign cs
  (Digits.parse? 16 (dropHexMark digits)).map (signed negative)

/-- The integer a text without surrounding blanks denotes in a base. -/
def numeralValue? : NumeralBase → List Char → Option Int
  | .decimal, cs => decimalValue? cs
  | .hexadecimal, cs => hexadecimalValue? cs
  | .base58, cs => (Base58.value? cs).map Int.ofNat

/-- The scalar a text denotes in a base: first the grammar is judged, then the range. -/
def parseIn (base : NumeralBase) (text : String) : Except Error Scalar :=
  match numeralValue? base (Blank.trim text.toList) with
  | none => .error .malformedScalar
  | some value => ofInt value

/-- Hexadecimal if the text, after at most one minus, starts with a hexadecimal mark, and decimal
otherwise. -/
def detectBase (cs : List Char) : NumeralBase :=
  let unsigned := match cs with
    | '-' :: rest => rest
    | rest => rest
  if hasHexMark unsigned then .hexadecimal else .decimal

/-- The scalar a text denotes in the base its own form selects. -/
def parse (text : String) : Except Error Scalar :=
  parseIn (detectBase (Blank.trim text.toList)) text

/-! ### Writing -/

/-- The decimal text, without leading zeros. -/
def toDecimal (a : Scalar) : String := Digits.decimal a.val

/-- The hexadecimal text: a mark and all 64 digits. -/
def toHex (a : Scalar) : String := "0x" ++ Hex.encode a.toHash.bytes

/-- The base58 text of the 32 bytes. -/
def toBase58 (a : Scalar) : String := Base58.encode a.toHash.bytes

instance : ToString Scalar := ⟨toDecimal⟩

/-! ### Any raw value -/

/-- A value that is not yet known to be a scalar. -/
inductive Raw where
  | word (w : UInt64)
  | natural (n : Nat)
  | integer (i : Int)
  | bytes (bs : List UInt8)
  | text (s : String)

/-- The scalar of a raw value.  The base matters only to a text; without one the text's own form
selects it. -/
def ofRaw (base? : Option NumeralBase) : Raw → Except Error Scalar
  | .word w => .ok (ofUInt64 w)
  | .natural n => ofNat n
  | .integer i => ofInt i
  | .bytes bs => ofBytes bs
  | .text s =>
    match base? with
    | some base => parseIn base s
    | none => parse s

/-! ### Sorting -/

/-- Puts scalars in ascending order. -/
def sort (xs : List Scalar) : List Scalar := xs.mergeSort fun a b => decide (a ≤ b)

/-- Reads every text and puts the scalars in ascending order; the first text that fails decides. -/
def parseSorted (texts : List String) : Except Error (List Scalar) :=
  sort <$> texts.mapM parse

end Scalar

end CompressedLedger
