import CompressedLedger.Bytes.Positional

/-!
# Byte strings of a fixed length

`FixedBytes n` carries its length in its type.  The 32-byte strings serve twice: as public keys of
accounts and programs (`Pubkey`) and as hashes, addresses and seeds (`Hash`).
-/

namespace CompressedLedger

/-- A string of exactly `n` bytes. -/
structure FixedBytes (n : Nat) where
  bytes : List UInt8
  length_bytes : bytes.length = n
deriving DecidableEq

namespace FixedBytes

variable {n : Nat}

@[ext] theorem ext {a b : FixedBytes n} (h : a.bytes = b.bytes) : a = b := by
  cases a; cases b; cases h; rfl

attribute [simp] length_bytes

/-- The byte string as a fixed one, if it has the right length. -/
def ofList? (bs : List UInt8) : Option (FixedBytes n) :=
  if h : bs.length = n then some ⟨bs, h⟩ else none

/-- Nothing but zero bytes. -/
def zero : FixedBytes n :=
  ⟨List.replicate n 0, List.length_replicate⟩

/-- The `n` low bytes of a number, most significant first. -/
def ofNat (v : Nat) : FixedBytes n :=
  ⟨Bytes.toBigEndian n v, Bytes.length_toBigEndian n v⟩

/-- The number denoted, most significant byte first. -/
def toNat (a : FixedBytes n) : Nat :=
  Bytes.ofBigEndian a.bytes

/-- Whether every byte is zero. -/
def isZero (a : FixedBytes n) : Bool :=
  a.bytes.all (· == 0)

@[simp] theorem ofList?_bytes (a : FixedBytes n) : ofList? a.bytes = some a := by
  simp [ofList?]

theorem ofList?_eq_some_iff {bs : List UInt8} {a : FixedBytes n} :
    ofList? bs = some a ↔ bs = a.bytes := by
  constructor
  · intro h
    unfold ofList? at h
    split at h
    · cases h; rfl
    · simp at h
  · rintro rfl
    exact ofList?_bytes a

end FixedBytes

/-- The 32-byte key that names an account or a program. -/
abbrev Pubkey := FixedBytes 32

/-- A 32-byte hash, address or seed, most significant byte first. -/
abbrev Hash := FixedBytes 32

/-- The length of a hash in bytes. -/
def Hash.length : Nat := 32

end CompressedLedger
