import CompressedLedger.Account.Basic
import CompressedLedger.Account.LeafHash
import CompressedLedger.Address.Derivation
import CompressedLedger.Address.Edwards
import CompressedLedger.Address.Program
import CompressedLedger.Bytes.Chunks
import CompressedLedger.Bytes.Fixed
import CompressedLedger.Bytes.Positional
import CompressedLedger.Bytes.Width
import CompressedLedger.Deployment.Basic
import CompressedLedger.Deployment.WellKnown
import CompressedLedger.Error
import CompressedLedger.Hash.Keccak
import CompressedLedger.Hash.Sha256
import CompressedLedger.Hash.Truncated
import CompressedLedger.Indexer.Convert
import CompressedLedger.Indexer.Request
import CompressedLedger.Indexer.Response
import CompressedLedger.Json.Codec
import CompressedLedger.Json.Double
import CompressedLedger.Json.Parser
import CompressedLedger.Json.Printer
import CompressedLedger.Json.Quoted
import CompressedLedger.Json.Token
import CompressedLedger.Json.Value
import CompressedLedger.Merkle.Empty
import CompressedLedger.Merkle.Path
import CompressedLedger.Merkle.Tree
import CompressedLedger.Packing.Coins
import CompressedLedger.Packing.Inputs
import CompressedLedger.Packing.KeyTable
import CompressedLedger.Packing.NewAddress
import CompressedLedger.Poseidon.Grain
import CompressedLedger.Poseidon.Parameters
import CompressedLedger.Poseidon.Permutation
import CompressedLedger.Proof.Validity
import CompressedLedger.Proofs.Account.Binding
import CompressedLedger.Proofs.Account.Inclusion
import CompressedLedger.Proofs.Account.LeafInputs
import CompressedLedger.Proofs.Account.Refusals
import CompressedLedger.Proofs.Address.FieldSized
import CompressedLedger.Proofs.Address.Separation
import CompressedLedger.Proofs.Bytes.Minimal
import CompressedLedger.Proofs.Bytes.Order
import CompressedLedger.Proofs.Bytes.Positional
import CompressedLedger.Proofs.Bytes.Width
import CompressedLedger.Proofs.Checks
import CompressedLedger.Proofs.Hash.Stream
import CompressedLedger.Proofs.Hash.Truncated
import CompressedLedger.Proofs.Indexer.Accounts
import CompressedLedger.Proofs.Indexer.Fields
import CompressedLedger.Proofs.Indexer.Refusals
import CompressedLedger.Proofs.Indexer.Trees
import CompressedLedger.Proofs.Indexer.Validity
import CompressedLedger.Proofs.Merkle.Binding
import CompressedLedger.Proofs.Merkle.Climb
import CompressedLedger.Proofs.Merkle.Commitment
import CompressedLedger.Proofs.Merkle.Completeness
import CompressedLedger.Proofs.Merkle.Folding
import CompressedLedger.Proofs.Merkle.History
import CompressedLedger.Proofs.Merkle.Incremental
import CompressedLedger.Proofs.Merkle.Layers
import CompressedLedger.Proofs.Merkle.RawAppend
import CompressedLedger.Proofs.Merkle.RawTree
import CompressedLedger.Proofs.Merkle.Subtree
import CompressedLedger.Proofs.Merkle.Upkeep
import CompressedLedger.Proofs.Outcome
import CompressedLedger.Proofs.Packing.CoinSelection
import CompressedLedger.Proofs.Packing.Inputs
import CompressedLedger.Proofs.Packing.Interning
import CompressedLedger.Proofs.Packing.NewAddresses
import CompressedLedger.Proofs.Packing.Positions
import CompressedLedger.Proofs.Packing.Session
import CompressedLedger.Proofs.Poseidon.Admission
import CompressedLedger.Proofs.Poseidon.Inputs
import CompressedLedger.Proofs.Poseidon.Refusals
import CompressedLedger.Proofs.Poseidon.Shape
import CompressedLedger.Proofs.Poseidon.Vectors
import CompressedLedger.Proofs.Proof.Validity
import CompressedLedger.Proofs.Scalar.Arithmetic
import CompressedLedger.Proofs.Scalar.Bytes
import CompressedLedger.Proofs.Scalar.Constructors
import CompressedLedger.Proofs.Scalar.Encodings
import CompressedLedger.Proofs.Scalar.Numeral
import CompressedLedger.Proofs.Scalar.Order
import CompressedLedger.Proofs.Text.Base58
import CompressedLedger.Proofs.Text.Blank
import CompressedLedger.Proofs.Text.Digits
import CompressedLedger.Proofs.Text.Hex
import CompressedLedger.Proofs.Tree.Selection
import CompressedLedger.Proofs.Tree.Uniformity
import CompressedLedger.Proofs.Tree.WordCounts
import CompressedLedger.Proofs.Tree.Words
import CompressedLedger.Proofs.Wire.Reader
import CompressedLedger.Proofs.Wire.Records
import CompressedLedger.Proofs.Workflow.Addresses
import CompressedLedger.Proofs.Workflow.Appends
import CompressedLedger.Proofs.Workflow.Transfer
import CompressedLedger.Scalar.Basic
import CompressedLedger.Scalar.Numeral
import CompressedLedger.Text.Base58
import CompressedLedger.Text.Blank
import CompressedLedger.Text.Digits
import CompressedLedger.Text.Hex
import CompressedLedger.Tree.Chain
import CompressedLedger.Tree.Selection
import CompressedLedger.Wire.Basic
import CompressedLedger.Wire.Records
import CompressedLedger.Workflow.Addresses
import CompressedLedger.Workflow.Transfer
