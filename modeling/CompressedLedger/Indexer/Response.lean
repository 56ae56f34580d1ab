import CompressedLedger.Json.Codec

/-!
# Records an indexer sends

Each record has the shape its JSON has: hashes, addresses and keys are texts, and nothing is
checked beyond the type of every field.
-/

namespace CompressedLedger

open Json (Codec)

/-- The slot an answer was read at. -/
structure SlotRecord where
  slot : UInt64
deriving DecidableEq

instance : Codec SlotRecord where
  read
    | 0, _ => none
    | levels + 1, v => do
      match ← v.slots ["slot"] with
      | [slot] => return ⟨← slot.required levels⟩
      | _ => none
  write c := Json.objectText [("slot", Codec.write c.slot)]

/-- A value and the slot it was read at. -/
structure AtSlot (α : Type) where
  context : SlotRecord
  value : α

instance {α : Type} [Codec α] : Codec (AtSlot α) where
  read
    | 0, _ => none
    | levels + 1, v => do
      match ← v.slots ["context", "value"] with
      | [context, value] => return ⟨← context.required levels, ← value.required levels⟩
      | _ => none
  write r := Json.objectText [("context", Codec.write r.context), ("value", Codec.write r.value)]

/-- One page of a list; the last page has no cursor. -/
structure Page (α : Type) where
  items : List α
  cursor : Option String

instance {α : Type} [Codec α] : Codec (Page α) where
  read
    | 0, _ => none
    | levels + 1, v => do
      match ← v.slots ["items", "cursor"] with
      | [items, cursor] => return ⟨← items.required levels, ← cursor.optional levels⟩
      | _ => none
  write p := Json.objectText [("items", Codec.write p.items),
    ("cursor", Json.nullableText Codec.write p.cursor)]

/-! ### Trees -/

/-- One tree of a chain. -/
structure TreeLinkRecord where
  tree : String
  queue : String
  kind : UInt64
  cpiContext : Option String
deriving DecidableEq

/-- A tree and its successors in order. -/
structure TreeRecord where
  first : TreeLinkRecord
  successors : List TreeLinkRecord
deriving DecidableEq

namespace TreeRecord

/-- All trees of a chain, oldest first. -/
def toList (r : TreeRecord) : List TreeLinkRecord := r.first :: r.successors

/-- Reads a tree and, inside it, its successor. -/
def read : Nat → Json.Value → Option TreeRecord
  | 0, _ => none
  | levels + 1, v => do
    match ← v.slots ["tree", "queue", "treeType", "cpiContext", "nextTreeInfo"] with
    | [tree, queue, kind, cpiContext, next] =>
      let first := ⟨← tree.required levels, ← queue.required levels, ← kind.required levels,
        ← cpiContext.lenient levels⟩
      match next with
      | .given .null => return ⟨first, []⟩
      | .given v => return ⟨first, (← read levels v).toList⟩
      | _ => return ⟨first, []⟩
    | _ => none

/-- The text of a tree around the text of its successor. -/
def writeLink (r : TreeLinkRecord) (next : Option String) : String :=
  Json.objectText ([("tree", Codec.write r.tree), ("queue", Codec.write r.queue),
    ("treeType", Codec.write r.kind)] ++
    Json.optionalMember "cpiContext" Codec.write r.cpiContext ++
    Json.optionalMember "nextTreeInfo" id next)

/-- The text of a chain. -/
def write (r : TreeRecord) : String :=
  writeLink r.first (r.successors.foldr (fun link next => some (writeLink link next)) none)

end TreeRecord

instance : Codec TreeRecord := ⟨TreeRecord.read, TreeRecord.write⟩

/-! ### Accounts -/

/-- What a program keeps in an account; the discriminator is read as a number, least significant
byte first. -/
structure DataRecord where
  discriminator : UInt64
  payload : List UInt8
  payloadHash : String
deriving DecidableEq

instance : Codec DataRecord where
  read
    | 0, _ => none
    | levels + 1, v => do
      match ← v.slots ["discriminator", "data", "dataHash"] with
      | [discriminator, payload, payloadHash] =>
        return ⟨← discriminator.required levels, ← payload.required levels,
          ← payloadHash.required levels⟩
      | _ => none
  write d := Json.objectText [("discriminator", Codec.write d.discriminator),
    ("data", Codec.write d.payload), ("dataHash", Codec.write d.payloadHash)]

/-- A compressed account and its place. -/
structure AccountRecord where
  hash : String
  address : Option String
  data : Option DataRecord
  owner : String
  lamports : UInt64
  tree : String
  leafIndex : UInt32
  proveByIndex : Bool
deriving DecidableEq

instance : Codec AccountRecord where
  read
    | 0, _ => none
    | levels + 1, v => do
      match ← v.slots ["hash", "address", "data", "owner", "lamports", "tree", "leafIndex",
        "proveByIndex"] with
      | [hash, address, data, owner, lamports, tree, leafIndex, proveByIndex] =>
        return ⟨← hash.required levels, ← address.lenient levels, ← data.lenient levels,
          ← owner.required levels, ← lamports.required levels, ← tree.required levels,
          ← leafIndex.required levels, ← proveByIndex.defaulted levels false⟩
      | _ => none
  write a := Json.objectText [("hash", Codec.write a.hash),
    ("address", Json.nullableText Codec.write a.address),
    ("data", Json.nullableText Codec.write a.data), ("owner", Codec.write a.owner),
    ("lamports", Codec.write a.lamports), ("tree", Codec.write a.tree),
    ("leafIndex", Codec.write a.leafIndex), ("proveByIndex", Codec.write a.proveByIndex)]

/-! ### Proofs -/

/-- The points of a proof. -/
structure PointsRecord where
  a : List UInt8
  b : List UInt8
  c : List UInt8
deriving DecidableEq

instance : Codec PointsRecord where
  read
    | 0, _ => none
    | levels + 1, v => do
      match ← v.slots ["a", "b", "c"] with
      | [a, b, c] => return ⟨← a.required levels, ← b.required levels, ← c.required levels⟩
      | _ => none
  write p := Json.objectText [("a", Codec.write p.a), ("b", Codec.write p.b),
    ("c", Codec.write p.c)]

/-- A leaf a proof speaks for. -/
structure LeafRecord where
  hash : String
  root : String
  rootIndex : UInt16
  leafIndex : UInt32
  tree : String
  proveByIndex : Bool
deriving DecidableEq

instance : Codec LeafRecord where
  read
    | 0, _ => none
    | levels + 1, v => do
      match ← v.slots ["hash", "root", "rootIndex", "leafIndex", "tree", "proveByIndex"] with
      | [hash, root, rootIndex, leafIndex, tree, proveByIndex] =>
        return ⟨← hash.required levels, ← root.required levels, ← rootIndex.required levels,
          ← leafIndex.required levels, ← tree.required levels,
          ← proveByIndex.defaulted levels false⟩
      | _ => none
  write r := Json.objectText [("hash", Codec.write r.hash), ("root", Codec.write r.root),
    ("rootIndex", Codec.write r.rootIndex), ("leafIndex", Codec.write r.leafIndex),
    ("tree", Codec.write r.tree), ("proveByIndex", Codec.write r.proveByIndex)]

/-- An address a proof speaks for. -/
structure AddressRecord where
  address : String
  root : String
  rootIndex : UInt16
  tree : String
deriving DecidableEq

instance : Codec AddressRecord where
  read
    | 0, _ => none
    | levels + 1, v => do
      match ← v.slots ["address", "root", "rootIndex", "tree"] with
      | [address, root, rootIndex, tree] =>
        return ⟨← address.required levels, ← root.required levels, ← rootIndex.required levels,
          ← tree.required levels⟩
      | _ => none
  write r := Json.objectText [("address", Codec.write r.address), ("root", Codec.write r.root),
    ("rootIndex", Codec.write r.rootIndex), ("tree", Codec.write r.tree)]

/-- A proof, if there is one, and all it speaks for. -/
structure ProofRecord where
  points : Option PointsRecord
  leaves : List LeafRecord
  addresses : List AddressRecord
deriving DecidableEq

instance : Codec ProofRecord where
  read
    | 0, _ => none
    | levels + 1, v => do
      match ← v.slots ["compressedProof", "accounts", "addresses"] with
      | [points, leaves, addresses] =>
        return ⟨← points.lenient levels, ← leaves.defaulted levels [],
          ← addresses.defaulted levels []⟩
      | _ => none
  write r := Json.objectText [("compressedProof", Json.nullableText Codec.write r.points),
    ("accounts", Codec.write r.leaves), ("addresses", Codec.write r.addresses)]

end CompressedLedger
