import CompressedLedger.Bytes.Chunks
import CompressedLedger.Bytes.Fixed

/-!
# Keccak-256

The permutation works on 25 lanes of 64 bits; the lane in column `x` and row `y` has the index
`x + 5 * y`.  A message is padded with one set bit at each end of the padding (there is no domain
suffix), cut into blocks of 136 bytes, and each block is added to the first 17 lanes before the
permutation runs.  The digest is the first four lanes, each written least significant byte first.
-/

namespace CompressedLedger.Keccak

/-- The 25 lanes. -/
abbrev State := Vector UInt64 25

/-- The lane in a column and a row, both counted modulo five. -/
def lane (s : State) (x y : Nat) : UInt64 :=
  have h : x % 5 + 5 * (y % 5) < 25 := by omega
  s[x % 5 + 5 * (y % 5)]

/-- Computes every lane of a state from its column and row. -/
def ofLanes (f : Nat → Nat → UInt64) : State :=
  Vector.ofFn fun i => f (i.val % 5) (i.val / 5)

/-- Rotation towards the most significant bit. -/
def rotateLeft (w : UInt64) (n : UInt64) : UInt64 :=
  (w <<< n) ||| (w >>> (64 - n))

/-- How far each lane is rotated. -/
def rotations : Vector UInt64 25 :=
  #v[0, 1, 62, 28, 27, 36, 44, 6, 55, 20, 3, 10, 43, 25, 39, 41, 45, 15, 21, 8, 18, 2, 61, 56, 14]

/-- The constant added to the first lane in each round. -/
def roundConstants : List UInt64 :=
  [0x0000000000000001, 0x0000000000008082, 0x800000000000808A, 0x8000000080008000,
    0x000000000000808B, 0x0000000080000001, 0x8000000080008081, 0x8000000000008009,
    0x000000000000008A, 0x0000000000000088, 0x0000000080008009, 0x000000008000000A,
    0x000000008000808B, 0x800000000000008B, 0x8000000000008089, 0x8000000000008003,
    0x8000000000008002, 0x8000000000000080, 0x000000000000800A, 0x800000008000000A,
    0x8000000080008081, 0x8000000000008080, 0x0000000080000001, 0x8000000080008008]

/-- The sum of the lanes of a column. -/
def columnParity (s : State) (x : Nat) : UInt64 :=
  lane s x 0 ^^^ lane s x 1 ^^^ lane s x 2 ^^^ lane s x 3 ^^^ lane s x 4

/-- Adds to each lane the parities of the two neighbouring columns. -/
def theta (s : State) : State :=
  let parity : Vector UInt64 5 := Vector.ofFn fun x => columnParity s x.val
  let effect : Vector UInt64 5 := Vector.ofFn fun x =>
    parity[(x.val + 4) % 5] ^^^ rotateLeft parity[(x.val + 1) % 5] 1
  Vector.ofFn fun i => s[i] ^^^ effect[i.val % 5]

/-- Rotates every lane by its own amount and moves it to its new place. -/
def rhoPi (s : State) : State :=
  let rotated : State := Vector.ofFn fun i => rotateLeft s[i] rotations[i]
  ofLanes fun x y => lane rotated (x + 3 * y) x

/-- Adds to each lane the next one, inverted, times the one after that in its row. -/
def chi (s : State) : State :=
  ofLanes fun x y => lane s x y ^^^ ((~~~ lane s (x + 1) y) &&& lane s (x + 2) y)

/-- Adds the round constant to the first lane. -/
def iota (constant : UInt64) (s : State) : State := s.set 0 (s[0] ^^^ constant)

/-- The permutation: 24 rounds. -/
def permute (s : State) : State :=
  roundConstants.foldl (fun s constant => iota constant (chi (rhoPi (theta s)))) s

/-- The bytes of a block. -/
def rate : Nat := 136

/-- Extends a message to a whole number of blocks. -/
def pad (bs : List UInt8) : List UInt8 :=
  let room := rate - bs.length % rate
  if room = 1 then bs ++ [0x81]
  else bs ++ 0x01 :: (List.replicate (room - 2) 0 ++ [0x80])

/-- Adds a block to the first lanes and permutes. -/
def absorb (s : State) (block : List UInt8) : State :=
  let words := (chunks 8 (by decide) block).toArray.map fun bs =>
    UInt64.ofNat (Bytes.ofLittleEndian bs)
  permute (Vector.ofFn fun i => s[i] ^^^ words.getD i.val 0)

/-- The first 32 bytes of a state. -/
def squeeze (s : State) : Hash :=
  let word (w : UInt64) : List UInt8 := Bytes.toLittleEndian 8 w.toNat
  ⟨word s[0] ++ word s[1] ++ word s[2] ++ word s[3], by simp [word]⟩

/-- The digest of a message. -/
def hash (bs : List UInt8) : Hash :=
  squeeze ((chunks rate (by decide) (pad bs)).foldl absorb (Vector.replicate 25 0))

end CompressedLedger.Keccak
