import CompressedLedger.Bytes.Fixed

/-!
# Points of the curve Ed25519

The curve `-x² + y² = 1 + d x² y²` over the field of `2^255 - 19` elements.  32 bytes name a point
by its `y` coordinate, least significant byte first, with the sign of `x` in the top bit.  They
decompress exactly when `x² = (y² - 1) / (d y² + 1)` has a solution; the denominator is never zero,
so this asks whether the product of both sides of the fraction is a square, which Euler's criterion
decides.  The sign of `x` never matters.
-/

namespace CompressedLedger.Edwards

/-- The order of the coordinate field. -/
def prime : Nat :=
  57896044618658097711785492504343953926634992332820282019728792003956564819949

/-- The order is nineteen less than the power of two that clears the sign bit. -/
example : prime + 19 = 1 <<< 255 := by decide

/-- The curve's constant `d`. -/
def coefficient : Nat :=
  37095705934669439343138083508754565189542113879843219016388785533085940283555

/-- The constant of the curve is `-121665 / 121666`. -/
example : (coefficient * 121666 + 121665) % prime = 0 := by decide

/-- A power in the coordinate field, squaring at every binary digit of the exponent. -/
def power (a n : Nat) : Nat :=
  if n = 0 then 1
  else
    let half := power (a * a % prime) (n / 2)
    if n % 2 = 0 then half else a * half % prime
termination_by n
decreasing_by omega

/-- Whether a field element is zero or a square. -/
def isSquare (a : Nat) : Bool := power a ((prime - 1) / 2) != prime - 1

/-- Whether 32 bytes name a point of the curve. -/
def isPoint (h : Hash) : Bool :=
  let y := Bytes.ofLittleEndian h.bytes % (1 <<< 255) % prime
  let numerator := (y * y + (prime - 1)) % prime
  let denominator := (coefficient * (y * y) + 1) % prime
  isSquare (numerator * denominator % prime)

end CompressedLedger.Edwards
