import CompressedLedger.Address.Edwards
import CompressedLedger.Hash.Sha256

/-!
# Addresses that only a program can sign for

Such an address is a SHA-256 digest that is no point of Ed25519, so no private key belongs to it.
A bump byte makes the digest miss the curve: the bytes from 255 down are tried in turn.
-/

namespace CompressedLedger.ProgramAddress

/-- The ASCII bytes of a text. -/
def ascii (s : String) : List UInt8 := s.toList.map fun c => UInt8.ofNat c.toNat

/-- The text at the end of every preimage. -/
def marker : List UInt8 := ascii "ProgramDerivedAddress"

/-- The digest for one bump byte. -/
def candidate (seeds : List (List UInt8)) (bump : UInt8) (program : Pubkey) : Pubkey :=
  Sha256.hash (seeds.flatten ++ bump :: (program.bytes ++ marker))

/-- Tries a bump byte and then every smaller one above zero. -/
def searchFrom (seeds : List (List UInt8)) (program : Pubkey) : Nat → Option (Pubkey × UInt8)
  | 0 => none
  | next + 1 =>
    let bump := UInt8.ofNat (next + 1)
    let key := candidate seeds bump program
    if Edwards.isPoint key then searchFrom seeds program next else some (key, bump)

/-- The first digest off the curve, with its bump byte. -/
def find? (seeds : List (List UInt8)) (program : Pubkey) : Option (Pubkey × UInt8) :=
  searchFrom seeds program 255

end CompressedLedger.ProgramAddress
