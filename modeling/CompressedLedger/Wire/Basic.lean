import CompressedLedger.Bytes.Fixed

/-!
# The binary format of instruction data

Values follow each other without padding.  Words are written least significant byte first, a
byte string of unknown length after its length in four bytes, a flag as one byte 0 or 1, and an
optional value as such a byte and, after a 1, the value.  Every value has one encoding: reading
refuses any other byte where 0 or 1 is due.

Reading takes bytes from the front and leaves the rest; the first byte that cannot be read
decides the failure.
-/

namespace CompressedLedger

/-- Why bytes could not be read. -/
inductive WireError where
  /-- The input ends within a value. -/
  | endOfInput
  /-- A byte other than 0 and 1 stands before an optional value. -/
  | optionByte (b : UInt8)
  /-- A byte other than 0 and 1 stands for a flag. -/
  | flagByte (b : UInt8)
  /-- Bytes are left after the value. -/
  | bytesLeft
deriving DecidableEq, Repr

/-- The message of a failure. -/
def WireError.message : WireError → String
  | endOfInput => "Unexpected length of input"
  | optionByte b =>
    "Invalid Option representation: " ++ toString b.toNat ++ ". The first byte must be 0 or 1"
  | flagByte b => "Invalid bool representation: " ++ toString b.toNat
  | bytesLeft => "Not all bytes read"

/-- A computation that reads bytes from the front of its input. -/
abbrev WireReader := StateT (List UInt8) (Except WireError)

/-- A type with a binary format. -/
class Wire (α : Type) where
  /-- The bytes of a value. -/
  encode : α → List UInt8
  /-- Reads a value from the front. -/
  read : WireReader α

namespace Wire

/-- Reads `n` bytes. -/
def take (n : Nat) : WireReader (FixedBytes n) := fun bs =>
  match FixedBytes.ofList? (bs.take n) with
  | some a => .ok (a, bs.drop n)
  | none => .error .endOfInput

/-- Reads a number of `width` bytes, least significant first. -/
def takeNat (width : Nat) : WireReader Nat := do
  let a ← take width
  return Bytes.ofLittleEndian a.bytes

instance {n : Nat} : Wire (FixedBytes n) := ⟨FixedBytes.bytes, take n⟩

instance : Wire UInt8 :=
  ⟨fun w => Bytes.toLittleEndian 1 w.toNat, do return UInt8.ofNat (← takeNat 1)⟩

instance : Wire UInt16 :=
  ⟨fun w => Bytes.toLittleEndian 2 w.toNat, do return UInt16.ofNat (← takeNat 2)⟩

instance : Wire UInt32 :=
  ⟨fun w => Bytes.toLittleEndian 4 w.toNat, do return UInt32.ofNat (← takeNat 4)⟩

instance : Wire UInt64 :=
  ⟨fun w => Bytes.toLittleEndian 8 w.toNat, do return UInt64.ofNat (← takeNat 8)⟩

instance : Wire Bool where
  encode b := [if b then 1 else 0]
  read := do
    let b : UInt8 ← read
    if b = 0 then return false
    else if b = 1 then return true
    else throw (.flagByte b)

instance {α : Type} [Wire α] : Wire (Option α) where
  encode
    | none => [0]
    | some a => 1 :: encode a
  read := do
    let b : UInt8 ← read
    if b = 0 then return none
    else if b = 1 then some <$> read
    else throw (.optionByte b)

instance : Wire (List UInt8) where
  encode bs := encode (UInt32.ofNat bs.length) ++ bs
  read := do
    let n : UInt32 ← read
    return (← take n.toNat).bytes

/-- Reads a value that takes up the whole input. -/
def decode {α : Type} [Wire α] (bs : List UInt8) : Except WireError α :=
  match read.run bs with
  | .ok (a, []) => .ok a
  | .ok (_, _ :: _) => .error .bytesLeft
  | .error e => .error e

/-- Reads a value from the front and answers the bytes left after it. -/
def decodeFront {α : Type} [Wire α] (bs : List UInt8) : Except WireError (α × List UInt8) :=
  read.run bs

end Wire

end CompressedLedger
