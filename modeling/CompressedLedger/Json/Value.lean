import CompressedLedger.Json.Double
import CompressedLedger.Text.Digits

/-!
# JSON values as written

A value keeps what its text says: members stay in order and may repeat, and numbers keep their
digits.  A string is the text it denotes, or nothing if an escape in it is half of a surrogate
pair; such a string is harmless as long as nobody looks at it.
-/

namespace CompressedLedger.Json

/-- A number as written: sign, digits before and after the point, and exponent. -/
structure Number where
  negative : Bool
  whole : List Nat
  fraction : List Nat
  exponent : Option Int
deriving DecidableEq

/-- A value as written. -/
inductive Value where
  | null
  | bool (b : Bool)
  | number (n : Number)
  | string (s : Option String)
  | array (items : List Value)
  | object (members : List (Option String × Value))

namespace Number

/-- The natural number written without sign, point and exponent. -/
def toNat? (n : Number) : Option Nat :=
  if n.negative || !n.fraction.isEmpty || n.exponent.isSome then none
  else some (Digits.value 10 n.whole)

/-- Puts digits behind a number for as long as it stays below the number of 64-bit words; the
digits from the first one that does not fit are left. -/
def appendDigits : Nat → List Nat → Nat × List Nat
  | n, [] => (n, [])
  | n, d :: ds =>
    if 10 * n + d < UInt64.size then appendDigits (10 * n + d) ds else (n, d :: ds)

/-- The number as a 64-bit word times a power of ten, without its sign.  First the digits before
the point are taken, and those that are left only move the point.  Then the digits after it are
taken, and those that are left do not count. -/
def scaled (n : Number) : Nat × Int :=
  let (whole, wholeLeft) := appendDigits 0 n.whole
  let (word, fractionLeft) := appendDigits whole n.fraction
  let taken : Int := n.fraction.length - fractionLeft.length
  (word, n.exponent.getD 0 + wholeLeft.length - taken)

/-- Whether the number is finite in double precision: its word, its power of ten and their product
are rounded in turn.  A negative power only makes the magnitude smaller. -/
def isFinite (n : Number) : Bool :=
  match n.scaled with
  | (word, .ofNat exponent) => Double.isFiniteProduct word exponent
  | (_, .negSucc _) => true

end Number

end CompressedLedger.Json
