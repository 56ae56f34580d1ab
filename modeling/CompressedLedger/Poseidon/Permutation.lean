import CompressedLedger.Poseidon.Parameters

/-!
# The Poseidon hash

Hashing `n` scalars runs a permutation of width `n + 1` on a zero followed by the inputs and takes
the first scalar of the result.  Each round adds its constants, raises scalars to the fifth power
and multiplies by the mixing matrix.

Inputs from outside are byte strings.  `hash` admits one to twelve of them, each of one to 32
bytes and below the modulus, and refuses everything else with one cause (`poseidonInput`); the
hash then depends on the numbers alone, so leading zero bytes of an input do not matter.
-/

namespace CompressedLedger.Poseidon

/-- The fifth power. -/
def fifth (a : Scalar) : Scalar :=
  let square := a * a
  square * square * a

/-- The sum of the products of two lists, entry by entry. -/
def dot (row s : List Scalar) : Scalar :=
  Scalar.residue ((List.zipWith (fun a b : Scalar => a.val * b.val) row s).foldl (· + ·) 0)

/-- Raises the first scalar, or all of them, to the fifth power. -/
def raise (full : Bool) (s : List Scalar) : List Scalar :=
  if full then s.map fifth
  else
    match s with
    | [] => []
    | a :: rest => fifth a :: rest

/-- Runs one round. -/
def Round.apply (matrix : List (List Scalar)) (s : List Scalar) (r : Round) : List Scalar :=
  let raised := raise r.full (List.zipWith (· + ·) s r.constants)
  matrix.map fun row => dot row raised

/-- Runs all rounds. -/
def Parameters.permute (p : Parameters) (s : List Scalar) : List Scalar :=
  p.rounds.foldl (Round.apply p.matrix) s

/-- The hash of one to twelve scalars. -/
def hashScalars (inputs : List Scalar) : Scalar :=
  match parametersByInputs[inputs.length - 1]? with
  | some p => (p.permute (0 :: inputs)).headD 0
  | none => 0

/-- The hash of two scalars, which joins two nodes of a tree. -/
def pair (left right : Scalar) : Scalar := hashScalars [left, right]

/-- Admits a byte string of one to 32 bytes whose number is below the modulus. -/
def readInput (bs : List UInt8) : Except Error Scalar :=
  let n := Bytes.ofBigEndian bs
  if h : 0 < bs.length ∧ bs.length ≤ 32 ∧ n < Scalar.modulus then .ok ⟨n, h.2.2⟩
  else .error .poseidonInput

/-- The hash of one to twelve byte strings. -/
def hash (inputs : List (List UInt8)) : Except Error Scalar :=
  if 0 < inputs.length ∧ inputs.length ≤ maxInputs then
    hashScalars <$> inputs.mapM readInput
  else .error .poseidonInput

/-- The hash of two 32-byte values as 32 bytes. -/
def hashPair (left right : Hash) : Except Error Hash :=
  Scalar.toHash <$> hash [left.bytes, right.bytes]

end CompressedLedger.Poseidon
