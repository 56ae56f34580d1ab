import CompressedLedger.Bytes.Fixed
import CompressedLedger.Error

/-!
# Tables of keys

An instruction names accounts by their positions in a list of keys, and a position is one byte.
Interning a key finds its first position or appends it, so a table only ever grows at its end and
a position once given stays right.  A key that would need a position above 255 is refused
(`tooManyKeys`) and the table stays as it was.

Packing is a computation that may fail and carries the table along (`Packer`).
-/

namespace CompressedLedger

/-- A computation that interns keys and may fail. -/
abbrev Packer := ExceptT Error (StateM (List Pubkey))

namespace KeyTable

/-- A position as a byte. -/
def indexByte (i : Nat) : Except Error UInt8 :=
  if i ≤ 255 then .ok (UInt8.ofNat i) else .error .tooManyKeys

/-- The position of a key and the table after it is interned. -/
def insert (keys : List Pubkey) (key : Pubkey) : Except Error UInt8 × List Pubkey :=
  match keys.idxOf? key with
  | some i => (indexByte i, keys)
  | none =>
    match indexByte keys.length with
    | .ok i => (.ok i, keys ++ [key])
    | .error e => (.error e, keys)

/-- Interns a key. -/
def intern (key : Pubkey) : Packer UInt8 := fun keys => insert keys key

/-- Runs a packing on a table: what it gives and the table it leaves, or why it failed. -/
def pack {α : Type} (p : Packer α) (keys : List Pubkey) : Except Error (α × List Pubkey) :=
  match p.run keys with
  | (.ok a, keys) => .ok (a, keys)
  | (.error e, _) => .error e

end KeyTable

/-- How an instruction uses an account. -/
structure AccountMeta where
  key : Pubkey
  signer : Bool
  writable : Bool
deriving DecidableEq

/-- The accounts of a table in order: all writable, none a signer. -/
def KeyTable.metas (keys : List Pubkey) : List AccountMeta :=
  keys.map fun key => ⟨key, false, true⟩

end CompressedLedger
