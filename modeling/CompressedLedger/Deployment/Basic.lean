import CompressedLedger.Address.Derivation
import CompressedLedger.Address.Program
import CompressedLedger.Deployment.WellKnown
import CompressedLedger.Packing.KeyTable
import CompressedLedger.Tree.Selection

/-!
# The network a client talks to

A deployment names the programs of a network and the address space new addresses belong to.  The
local network is the default; its trees are known too.
-/

namespace CompressedLedger

/-- The programs of a network and its address space. -/
structure Deployment where
  systemProgram : Pubkey
  compressionProgram : Pubkey
  logProgram : Pubkey
  registeredProgram : Pubkey
  addressVersion : AddressVersion
deriving DecidableEq

namespace Deployment

/-- The local network. -/
def localNetwork : Deployment where
  systemProgram := WellKnown.systemProgram
  compressionProgram := WellKnown.compressionProgram
  logProgram := WellKnown.logProgram
  registeredProgram := WellKnown.registeredProgram
  addressVersion := AddressVersion.default

/-- The text every program derives its signer from. -/
def signerSeed : List UInt8 := ProgramAddress.ascii "cpi_authority"

/-- The key a program signs its calls with, and its bump byte. -/
def signer (program : Pubkey) : Option (Pubkey × UInt8) :=
  ProgramAddress.find? [signerSeed] program

/-- The key the system program signs with towards the compression program. -/
def compressionAuthority (d : Deployment) : Option Pubkey :=
  (signer d.systemProgram).map Prod.fst

/-- The fixed accounts of a program's call, in order: none a signer, none writable. -/
def systemMetas (d : Deployment) (program : Pubkey) : Option (List AccountMeta) := do
  let (programSigner, _) ← signer program
  let authority ← d.compressionAuthority
  return [d.systemProgram, programSigner, d.registeredProgram, d.logProgram, authority,
    d.compressionProgram, program].map fun key => ⟨key, false, false⟩

/-- The version 1 address tree of the local network. -/
def addressTreeV1 : TreeChain :=
  .single ⟨WellKnown.addressTree, WellKnown.addressQueue, .addressV1, none⟩

/-- The batched address tree of the local network. -/
def addressTreeV2 : TreeChain :=
  .single ⟨WellKnown.batchedAddressTree, WellKnown.batchedAddressTree, .addressV2, none⟩

/-- The tree new addresses go to. -/
def addressTree (d : Deployment) : TreeChain :=
  match d.addressVersion with
  | .v1 => addressTreeV1
  | .v2 => addressTreeV2

/-- The state trees of the local network. -/
def stateTrees : List TreeChain :=
  [.single ⟨WellKnown.stateTree, WellKnown.nullifierQueue, .stateV1, some WellKnown.cpiContext⟩,
    .single ⟨WellKnown.batchedStateTree, WellKnown.batchedOutputQueue, .stateV2,
      some WellKnown.batchedCpiContext⟩]

/-- All trees of the local network, the state trees first. -/
def trees : List TreeChain := stateTrees ++ [addressTreeV1, addressTreeV2]

/-- A random state tree of the default kind. -/
def selectStateTree (source : WordSource) : Except Error TreeAccounts × WordSource :=
  TreeSelection.select stateTrees TreeKind.defaultState source

end Deployment

end CompressedLedger
