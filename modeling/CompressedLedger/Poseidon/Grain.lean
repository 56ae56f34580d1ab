import CompressedLedger.Scalar.Basic

/-!
# The Grain generator of Poseidon's constants

A shift register of 80 bits is filled with a description of the permutation, run for 160 steps,
and then read in pairs: the second bit of a pair counts only if the first is set.  Numbers are
drawn from these bits, most significant first.

The register is kept in two words, `low` for the bits 0 to 63 and `high` for the bits 64 to 79.
Bit 0 is the oldest; all bits that enter the feedback lie in `low`.
-/

namespace CompressedLedger.Poseidon

/-- The shift register. -/
structure Grain where
  low : UInt64
  high : UInt16

namespace Grain

/-- Drops the oldest bit and appends a new one. -/
def push (g : Grain) (bit : UInt64) : Grain :=
  { low := (g.low >>> 1) ||| (g.high.toUInt64 <<< 63)
    high := (g.high >>> 1) ||| (bit.toUInt16 <<< 15) }

/-- The bit a step appends: the sum of the bits 0, 13, 23, 38, 51 and 62. -/
def feedback (g : Grain) : UInt64 :=
  let l := g.low
  (l ^^^ (l >>> 13) ^^^ (l >>> 23) ^^^ (l >>> 38) ^^^ (l >>> 51) ^^^ (l >>> 62)) &&& 1

/-- One step of the register. -/
def advance (g : Grain) : Grain := g.push g.feedback

/-- The bit appended last. -/
def newest (g : Grain) : Nat := (g.high >>> 15).toNat

/-- The binary digits of a number in a given width, most significant first. -/
def bits (width n : Nat) : List UInt64 :=
  (List.range width).map fun i => if n.testBit (width - 1 - i) then 1 else 0

/-- The register of a permutation after its first 160 steps.  The description names the kind of
the field (prime), the kind of the power map, the bits of the field, the width, the full and the
partial rounds, and ends in thirty set bits. -/
def start (width fullRounds partialRounds : Nat) : Grain :=
  let description := bits 2 1 ++ bits 4 0 ++ bits 12 254 ++ bits 12 width ++ bits 10 fullRounds ++
    bits 10 partialRounds ++ List.replicate 30 1
  Nat.repeat advance 160 (description.foldl push ⟨0, 0⟩)

/-- The next bit that counts, looking at no more than `fuel` pairs.  A register that is not all
zero never brings 80 skipped pairs in a row. -/
def nextBit : Nat → StateM Grain Nat
  | 0 => return 0
  | fuel + 1 => do
    let first ← modifyGet fun g => let g := g.advance; (g.newest, g)
    let second ← modifyGet fun g => let g := g.advance; (g.newest, g)
    if first = 1 then return second else nextBit fuel

/-- The next number of a given number of bits, put behind the bits collected so far. -/
def nextNumber : Nat → Nat → StateM Grain Nat
  | 0, n => return n
  | width + 1, n => do
    let bit ← nextBit 80
    nextNumber width (2 * n + bit)

/-- The next scalar by rejection: a number that is too large is drawn again, at most `fuel` times,
and then reduced. -/
def nextScalar : Nat → StateM Grain Scalar
  | 0 => return Scalar.residue (← nextNumber 254 0)
  | fuel + 1 => do
    let n ← nextNumber 254 0
    if h : n < Scalar.modulus then return ⟨n, h⟩ else nextScalar fuel

/-- The next scalar by reduction. -/
def nextResidue : StateM Grain Scalar :=
  return Scalar.residue (← nextNumber 254 0)

/-- Runs a draw `n` times and collects what it gives. -/
def collect {α : Type} (draw : StateM Grain α) : Nat → StateM Grain (List α)
  | 0 => return []
  | n + 1 => do
    let a ← draw
    let rest ← collect draw n
    return a :: rest

end Grain

end CompressedLedger.Poseidon
