import CompressedLedger.Bytes.Chunks
import CompressedLedger.Poseidon.Grain

/-!
# Poseidon's parameters

A permutation of `width` scalars has eight full rounds, four at each end, and between them a
number of partial rounds that depends on the width.  Its round constants come from the generator
by rejection; the same generator then gives two lists `xs` and `ys` of scalars, and the mixing
matrix is the Cauchy matrix with the entries `1 / (x + y)`.
-/

namespace CompressedLedger.Poseidon

/-- One round: the constants added first, and whether every scalar is raised to the fifth power
or only the first. -/
structure Round where
  full : Bool
  constants : List Scalar

/-- A permutation: its rounds in order and its mixing matrix by rows. -/
structure Parameters where
  rounds : List Round
  matrix : List (List Scalar)

/-- The number of full rounds. -/
def fullRounds : Nat := 8

/-- The number of partial rounds for each width, from the width two on. -/
def partialRounds : List Nat := [56, 57, 56, 60, 60, 63, 64, 63, 60, 66, 60, 65]

/-- The largest number of inputs. -/
def maxInputs : Nat := partialRounds.length

/-- Draws the parameters of a permutation. -/
def Parameters.generate (width partialRounds : Nat) (h : 0 < width) : Parameters :=
  let total := fullRounds + partialRounds
  let draw : StateM Grain (List Scalar × List Scalar × List Scalar) := do
    let constants ← Grain.collect (Grain.nextScalar 128) (total * width)
    let xs ← Grain.collect Grain.nextResidue width
    let ys ← Grain.collect Grain.nextResidue width
    return (constants, xs, ys)
  let (constants, xs, ys) := (draw.run (Grain.start width fullRounds partialRounds)).1
  let half := fullRounds / 2
  { rounds := (chunks width h constants).zipIdx.map fun (cs, i) =>
      { full := i < half || half + partialRounds ≤ i, constants := cs }
    matrix := xs.map fun x => ys.map fun y => (x + y).inverse }

/-- The parameters for one input, two inputs, and so on. -/
def parametersByInputs : Array Parameters :=
  partialRounds.zipIdx.toArray.map fun (n, i) => Parameters.generate (i + 2) n (by omega)

end CompressedLedger.Poseidon
