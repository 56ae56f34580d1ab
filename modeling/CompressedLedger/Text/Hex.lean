import CompressedLedger.Text.Digits

/-!
# Hexadecimal text of byte strings

Every byte is two digits, the high half first.  Writing uses lower case; reading takes either.
-/

namespace CompressedLedger.Hex

/-- The digits of a byte string, two for each byte. -/
def encodeChars : List UInt8 → List Char
  | [] => []
  | b :: bs =>
    Digits.toChar (b.toNat / 16) :: Digits.toChar (b.toNat % 16) :: encodeChars bs

/-- Reads two digits for each byte and refuses an odd one left over. -/
def decodeChars : List Char → Option (List UInt8)
  | [] => some []
  | [_] => none
  | hi :: lo :: cs => do
    let h ← Digits.ofChar? hi
    let l ← Digits.ofChar? lo
    let bs ← decodeChars cs
    return UInt8.ofNat (16 * h + l) :: bs

/-- The hexadecimal text of a byte string. -/
def encode (bs : List UInt8) : String := String.ofList (encodeChars bs)

/-- The byte string a hexadecimal text stands for. -/
def decode? (s : String) : Option (List UInt8) := decodeChars s.toList

end CompressedLedger.Hex
