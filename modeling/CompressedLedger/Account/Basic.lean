import CompressedLedger.Hash.Truncated
import CompressedLedger.Tree.Chain

/-!
# Compressed accounts

A compressed account is a record that no chain stores; only its hash is a leaf of a state tree.  A
located account is one together with its place: the tree, the leaf index and the hash found there.
-/

namespace CompressedLedger

/-- The length of a discriminator in bytes. -/
abbrev AccountData.discriminatorLength : Nat := 8

/-- What a program keeps in an account. -/
structure AccountData where
  discriminator : FixedBytes 8
  payload : List UInt8
  payloadHash : Hash
deriving DecidableEq

/-- Data whose hash is the field-sized hash of its payload. -/
def AccountData.ofPayload (discriminator : FixedBytes 8) (payload : List UInt8) : AccountData :=
  ⟨discriminator, payload, Truncated.hash payload⟩

/-- A compressed account. -/
structure Account where
  owner : Pubkey
  lamports : UInt64
  address : Option Hash
  data : Option AccountData
deriving DecidableEq

/-- The place of a leaf.  A leaf still in its tree's queue can be proven by its index alone. -/
structure LeafContext where
  hash : Scalar
  chain : TreeChain
  leafIndex : UInt32
  proveByIndex : Bool
deriving DecidableEq

/-- An account and its place. -/
structure LocatedAccount where
  account : Account
  context : LeafContext
  readOnly : Bool
deriving DecidableEq

/-- The lamports of the account. -/
def LocatedAccount.lamports (a : LocatedAccount) : UInt64 := a.account.lamports

end CompressedLedger
