import CompressedLedger.Json.Codec
import CompressedLedger.Scalar.Numeral

/-!
# Requests to an indexer

An indexer keeps the compressed accounts and answers calls.  Hashes, addresses and keys travel as
base58 texts.  A call names its method and carries one parameter record; optional members without
a value are left out.

The accounts of an owner are asked for page by page, and the page's members stand beside the owner
in one object.  That record has no array form, and because its members are sorted out after they
were read, even unknown ones must be values that can be kept.
-/

namespace CompressedLedger

open Json (Codec)

/-- Which part of a long list is asked for. -/
structure PageRequest where
  cursor : Option String
  limit : Option UInt32
deriving DecidableEq

/-- The members of a page request. -/
def PageRequest.members (r : PageRequest) : List (String × String) :=
  Json.optionalMember "cursor" Codec.write r.cursor ++
    Json.optionalMember "limit" Codec.write r.limit

instance : Codec PageRequest where
  read
    | 0, _ => none
    | levels + 1, v => do
      match ← v.slots ["cursor", "limit"] with
      | [cursor, limit] => return ⟨← cursor.optional levels, ← limit.optional levels⟩
      | _ => none
  write r := Json.objectText r.members

/-- Asks for one account, by its hash or its address. -/
structure AccountRequest where
  hash : Option String
  address : Option String
deriving DecidableEq

instance : Codec AccountRequest where
  read
    | 0, _ => none
    | levels + 1, v => do
      match ← v.slots ["hash", "address"] with
      | [hash, address] => return ⟨← hash.optional levels, ← address.optional levels⟩
      | _ => none
  write r := Json.objectText (Json.optionalMember "hash" Codec.write r.hash ++
    Json.optionalMember "address" Codec.write r.address)

/-- Asks for the accounts of an owner, page by page. -/
structure OwnerRequest where
  owner : String
  page : PageRequest
deriving DecidableEq

instance : Codec OwnerRequest where
  read
    | levels + 1, .object members => do
      let kept := members.all fun (key, v) =>
        key == some "owner" || Json.isKept levels v
      match ← Json.keyedSlots members ["owner", "cursor", "limit"] with
      | [owner, cursor, limit] =>
        if kept then
          return ⟨← owner.required levels, ← cursor.optional levels, ← limit.optional levels⟩
        else none
      | _ => none
    | _, _ => none
  write r := Json.objectText (("owner", Codec.write r.owner) :: r.page.members)

/-- A new address and the tree it is meant for. -/
structure AddressInTree where
  address : String
  tree : String
deriving DecidableEq

instance : Codec AddressInTree where
  read
    | 0, _ => none
    | levels + 1, v => do
      match ← v.slots ["address", "tree"] with
      | [address, tree] => return ⟨← address.required levels, ← tree.required levels⟩
      | _ => none
  write a := Json.objectText [("address", Codec.write a.address), ("tree", Codec.write a.tree)]

/-- Asks for a proof that some hashes are in their trees and some addresses are not. -/
structure ProofRequest where
  hashes : List String
  addresses : List AddressInTree
deriving DecidableEq

instance : Codec ProofRequest where
  read
    | 0, _ => none
    | levels + 1, v => do
      match ← v.slots ["hashes", "newAddressesWithTrees"] with
      | [hashes, addresses] => return ⟨← hashes.required levels, ← addresses.required levels⟩
      | _ => none
  write r := Json.objectText [("hashes", Codec.write r.hashes),
    ("newAddressesWithTrees", Codec.write r.addresses)]

/-- A call of a method with its parameters. -/
structure Call (α : Type) where
  version : String
  id : String
  method : String
  params : α

instance {α : Type} [Codec α] : Codec (Call α) where
  read
    | 0, _ => none
    | levels + 1, v => do
      match ← v.slots ["jsonrpc", "id", "method", "params"] with
      | [version, id, method, params] =>
        return ⟨← version.required levels, ← id.required levels, ← method.required levels,
          ← params.required levels⟩
      | _ => none
  write c := Json.objectText [("jsonrpc", Codec.write c.version), ("id", Codec.write c.id),
    ("method", Codec.write c.method), ("params", Codec.write c.params)]

/-! ### The calls an indexer answers -/

namespace Call

/-- A call in the current version of the protocol. -/
def ofParams {α : Type} (id method : String) (params : α) : Call α := ⟨"2.0", id, method, params⟩

/-- Asks for the account with a hash. -/
def accountByHash (id : String) (hash : Scalar) : Call AccountRequest :=
  ofParams id "getCompressedAccount" ⟨some hash.toBase58, none⟩

/-- Asks for the account with an address. -/
def accountByAddress (id : String) (address : Hash) : Call AccountRequest :=
  ofParams id "getCompressedAccount" ⟨none, some (Base58.encode address.bytes)⟩

/-- Asks for the accounts of an owner. -/
def accountsByOwner (id : String) (owner : Pubkey) (page : PageRequest) : Call OwnerRequest :=
  ofParams id "getCompressedAccountsByOwner" ⟨Base58.encode owner.bytes, page⟩

/-- Asks for a validity proof. -/
def validityProof (id : String) (hashes : List Scalar) (addresses : List (Hash × Pubkey)) :
    Call ProofRequest :=
  ofParams id "getValidityProof"
    { hashes := hashes.map Scalar.toBase58
      addresses := addresses.map fun (address, tree) =>
        ⟨Base58.encode address.bytes, Base58.encode tree.bytes⟩ }

/-- Asks for the state trees; the parameters are an empty list. -/
def stateTrees (id : String) : Call (List String) := ofParams id "getStateTreeInfos" []

end Call

end CompressedLedger
