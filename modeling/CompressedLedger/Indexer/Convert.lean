import CompressedLedger.Account.Basic
import CompressedLedger.Indexer.Response
import CompressedLedger.Proof.Validity
import CompressedLedger.Scalar.Numeral

/-!
# From an indexer's records to checked values

Nothing an indexer sends is trusted: keys and hashes are read anew, and trees are looked up among
the known ones.  Where several things are wrong the first check decides:

* in a chain of trees the last successor is checked first, and in each tree its key, its queue, its
  kind and its context account;
* in an account the tree's text, the tree, the payload hash, the owner, the address and the hash;
* in a proof its points, then every leaf (the tree's text, the hash, the root, the tree), then every
  address (the tree's text, the address, the root, the tree), and last whether the proof is there.
-/

namespace CompressedLedger

/-- The longest text of a key, in bytes. -/
def Pubkey.maxTextLength : Nat := 44

/-- The key a text stands for; blanks are not dropped. -/
def Pubkey.ofText (s : String) : Except Error Pubkey :=
  if s.utf8ByteSize ≤ Pubkey.maxTextLength then
    match (Base58.decode? s.toList).bind FixedBytes.ofList? with
    | some key => .ok key
    | none => .error .malformedPubkey
  else .error .malformedPubkey

/-- The scalar a base58 text stands for. -/
def Scalar.ofText (s : String) : Except Error Scalar := Scalar.parseIn .base58 s

/-- The address a base58 text stands for. -/
def Hash.ofText (s : String) : Except Error Hash := Scalar.toHash <$> Scalar.ofText s

/-- Reads a text if there is one. -/
def readOptional {α β : Type} (read : α → Except Error β) : Option α → Except Error (Option β)
  | none => .ok none
  | some a => some <$> read a

/-! ### Trees -/

/-- The accounts of one tree. -/
def TreeLinkRecord.toAccounts (r : TreeLinkRecord) : Except Error TreeAccounts := do
  let tree ← Pubkey.ofText r.tree
  let queue ← Pubkey.ofText r.queue
  let kind ← TreeKind.ofTag r.kind.toNat
  let cpiContext ← readOptional Pubkey.ofText r.cpiContext
  return ⟨tree, queue, kind, cpiContext⟩

/-- The accounts of some trees, checked from the last to the first. -/
def TreeLinkRecord.allToAccounts : List TreeLinkRecord → Except Error (List TreeAccounts)
  | [] => .ok []
  | r :: rs => do
    let others ← allToAccounts rs
    let first ← r.toAccounts
    return first :: others

/-- The chain of a tree record. -/
def TreeRecord.toChain (r : TreeRecord) : Except Error TreeChain := do
  let successors ← TreeLinkRecord.allToAccounts r.successors
  let first ← r.first.toAccounts
  return ⟨first, successors⟩

/-! ### Accounts -/

/-- The eight bytes a number stands for, least significant first. -/
def discriminatorOf (n : UInt64) : FixedBytes 8 :=
  ⟨Bytes.toLittleEndian 8 n.toNat, Bytes.length_toLittleEndian 8 n.toNat⟩

/-- The data of an account. -/
def DataRecord.toData (r : DataRecord) : Except Error AccountData := do
  let payloadHash ← Scalar.ofText r.payloadHash
  return ⟨discriminatorOf r.discriminator, r.payload, payloadHash.toHash⟩

/-- The account of a record, in one of the known trees. -/
def AccountRecord.toLocated (r : AccountRecord) (chains : List TreeChain) :
    Except Error LocatedAccount := do
  let tree ← Pubkey.ofText r.tree
  let chain ← TreeChain.lookup chains tree
  let data ← readOptional DataRecord.toData r.data
  let owner ← Pubkey.ofText r.owner
  let address ← readOptional Hash.ofText r.address
  let hash ← Scalar.ofText r.hash
  return {
    account := ⟨owner, r.lamports, address, data⟩
    context := ⟨hash, chain, r.leafIndex, r.proveByIndex⟩
    readOnly := false }

/-! ### Proofs -/

/-- The proof of a record. -/
def PointsRecord.toProof (r : PointsRecord) : Except Error ValidityProof :=
  ValidityProof.ofParts r.a r.b r.c

/-- The leaf of a record, in one of the known trees. -/
def LeafRecord.toLeaf (chains : List TreeChain) (r : LeafRecord) : Except Error ProvenLeaf := do
  let tree ← Pubkey.ofText r.tree
  let hash ← Scalar.ofText r.hash
  let root ← Scalar.ofText r.root
  let chain ← TreeChain.lookup chains tree
  return ⟨hash, root, r.rootIndex, r.leafIndex, chain, r.proveByIndex⟩

/-- The address of a record, in one of the known trees. -/
def AddressRecord.toAddress (chains : List TreeChain) (r : AddressRecord) :
    Except Error ProvenAddress := do
  let tree ← Pubkey.ofText r.tree
  let address ← Hash.ofText r.address
  let root ← Scalar.ofText r.root
  let chain ← TreeChain.lookup chains tree
  return ⟨address, root, r.rootIndex, chain⟩

/-- The proof of a record with all it speaks for; a proof that is needed must be there. -/
def ProofRecord.toContext (r : ProofRecord) (chains : List TreeChain) :
    Except Error ProofContext := do
  let proof ← readOptional PointsRecord.toProof r.points
  let leaves ← r.leaves.mapM (LeafRecord.toLeaf chains)
  let addresses ← r.addresses.mapM (AddressRecord.toAddress chains)
  let context : ProofContext := ⟨proof, leaves, addresses⟩
  context.validate
  return context

end CompressedLedger
