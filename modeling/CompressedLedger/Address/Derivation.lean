import CompressedLedger.Error
import CompressedLedger.Hash.Truncated

/-!
# Addresses of compressed accounts

An address is derived from seeds in two hashes, and every hash is field-sized.  There are two
separate address spaces:

* version 1 hashes the program with the seeds, and then the tree with that seed, searching a bump
  byte;
* version 2 hashes the sealed seeds, and then the seed with the tree and the program, sealed.

The seeds of a list are joined, so how they are split does not matter.
-/

namespace CompressedLedger

/-- The address space a derivation belongs to. -/
inductive AddressVersion where
  | v1
  | v2
deriving DecidableEq, Repr

namespace Address

/-- The version 1 seed, bound to a program. -/
def seedV1 (program : Pubkey) (seeds : List (List UInt8)) : Hash :=
  Truncated.hashAll (program.bytes :: seeds)

/-- The version 2 seed, bound to nothing. -/
def seedV2 (seeds : List (List UInt8)) : Hash := Truncated.sealedAll seeds

/-- The version 1 address of a seed in a tree. -/
def ofSeedV1 (tree : Pubkey) (seed : List UInt8) : Except Error Hash :=
  if seed.length = 32 then
    match Truncated.search (tree.bytes ++ seed) with
    | some (address, _) => .ok address
    | none => .error .noAddressBump
  else .error .seedLength

/-- The version 2 address of a seed in a tree, bound to a program. -/
def ofSeedV2 (tree program : Pubkey) (seed : List UInt8) : Except Error Hash :=
  if seed.length = 32 then .ok (Truncated.sealedAll [seed, tree.bytes, program.bytes])
  else .error .seedLength

end Address

namespace AddressVersion

/-- The version used where none is asked for. -/
protected def default : AddressVersion := .v1

/-- The seed of a version. -/
def seed (version : AddressVersion) (program : Pubkey) (seeds : List (List UInt8)) : Hash :=
  match version with
  | v1 => Address.seedV1 program seeds
  | v2 => Address.seedV2 seeds

/-- The address of a version's own seed. -/
def derive (version : AddressVersion) (seeds : List (List UInt8)) (tree program : Pubkey) :
    Except Error Hash :=
  match version with
  | v1 => Address.ofSeedV1 tree (Address.seedV1 program seeds).bytes
  | v2 => Address.ofSeedV2 tree program (Address.seedV2 seeds).bytes

end AddressVersion

end CompressedLedger
