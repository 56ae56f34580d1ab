import CompressedLedger.Bytes.Positional
import CompressedLedger.Text.Digits

/-!
# Base58 text

The alphabet leaves out `0`, `O`, `I` and `l`.  As a number a text is an ordinary base 58 numeral
(`value?`).  As a byte string every leading `1` stands for one leading zero byte, and the rest of
the text is the shortest numeral of the remaining bytes, so writing and reading undo each other.
-/

namespace CompressedLedger.Base58

/-- The digits in ascending order. -/
def alphabet : List Char :=
  "123456789ABCDEFGHJKLMNPQRSTUVWXYZabcdefghijkmnopqrstuvwxyz".toList

/-- The value of a digit. -/
def digit? (c : Char) : Option Nat := alphabet.idxOf? c

/-- The digit of a value below 58. -/
def char (d : Nat) : Char := alphabet.getD d '1'

/-- The number a text denotes; the empty text is zero. -/
def value? (cs : List Char) : Option Nat :=
  (cs.mapM digit?).map (Digits.value 58)

/-- The text of a byte string. -/
def encode (bs : List UInt8) : String :=
  let zeros := (bs.takeWhile (· == 0)).length
  let digits := Digits.ofNat 58 (by decide) (Bytes.ofBigEndian bs)
  String.ofList (List.replicate zeros '1' ++ digits.map char)

/-- The byte string of a text, if all its characters are digits. -/
def decode? (cs : List Char) : Option (List UInt8) :=
  (value? cs).map fun n =>
    let ones := (cs.takeWhile (· == '1')).length
    List.replicate ones 0 ++ (Digits.ofNat 256 (by decide) n).map UInt8.ofNat

end CompressedLedger.Base58
