import CompressedLedger.Account.Basic
import CompressedLedger.Poseidon.Permutation

/-!
# The leaf hash of an account

The leaf is the Poseidon hash of three inputs that are always there and up to four that depend on
the account:

* the sealed hash of the owner, the leaf index, and the sealed hash of the tree;
* the lamports, if there are any, marked by the byte 1;
* the address, if there is one;
* the discriminator, marked by the byte 2, and the hash of the payload, if there are data.

An index takes the last four of 32 bytes: least significant first, and in a batched tree most
significant first.  Lamports and discriminators take the last eight, with their mark before them.
-/

namespace CompressedLedger

namespace LeafInput

/-- A leaf index at the end of 32 bytes. -/
def leafIndex (batched : Bool) (i : UInt32) : Hash :=
  let word := if batched then Bytes.toBigEndian 4 i.toNat else Bytes.toLittleEndian 4 i.toNat
  ⟨List.replicate 28 0 ++ word, by
    cases batched <;> simp [word]⟩

/-- Eight bytes at the end of 32, with a mark before them. -/
def marked (mark : UInt8) (word : FixedBytes 8) : Hash :=
  ⟨List.replicate 23 0 ++ mark :: word.bytes, by simp⟩

/-- The mark of the lamports. -/
def lamportsMark : UInt8 := 1

/-- The mark of the discriminator. -/
def discriminatorMark : UInt8 := 2

/-- The lamports, most significant byte first, under their mark. -/
def lamports (n : UInt64) : Hash := marked lamportsMark (FixedBytes.ofNat n.toNat)

/-- The discriminator under its mark. -/
def discriminator (d : FixedBytes 8) : Hash := marked discriminatorMark d

end LeafInput

namespace Account

/-- The inputs of the leaf hash, given the hashes of the owner and the tree. -/
def leafInputs (a : Account) (ownerHash treeHash : Hash) (leafIndex : UInt32) (batched : Bool) :
    List Hash :=
  [ownerHash, LeafInput.leafIndex batched leafIndex, treeHash] ++
    (if a.lamports = 0 then [] else [LeafInput.lamports a.lamports]) ++
    a.address.toList ++
    match a.data with
    | none => []
    | some d => [LeafInput.discriminator d.discriminator, d.payloadHash]

/-- The leaf hash, given the hashes of the owner and the tree. -/
def leafHashWith (a : Account) (ownerHash treeHash : Hash) (leafIndex : UInt32)
    (batched : Bool) : Except Error Scalar :=
  Poseidon.hash ((a.leafInputs ownerHash treeHash leafIndex batched).map (·.bytes))

/-- The leaf hash of an account at an index of a tree. -/
def leafHash (a : Account) (tree : Pubkey) (leafIndex : UInt32) (batched : Bool) :
    Except Error Scalar :=
  a.leafHashWith (Truncated.sealed a.owner.bytes) (Truncated.sealed tree.bytes) leafIndex batched

end Account

/-- Whether the account hashes to the leaf it claims to be. -/
def LocatedAccount.verifyHash (a : LocatedAccount) : Except Error Bool := do
  let tree := a.context.chain.first
  let leaf ← a.account.leafHash tree.tree a.context.leafIndex tree.kind.isBatched
  return leaf == a.context.hash

end CompressedLedger
