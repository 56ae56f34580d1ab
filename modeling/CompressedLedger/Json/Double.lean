/-!
# Natural numbers in double precision

A double has 53 significant bits.  A natural number with more of them is rounded to the nearest
one that has no more (`nearest`), and of two equally near ones to the one whose last kept bit is
zero.  From `overflowBound` on there is no finite double left to round to.

All arithmetic is that of natural numbers, so every rounding is visible where it happens.
-/

namespace CompressedLedger.Double

/-- The number of significant bits. -/
def precision : Nat := 53

/-- The least magnitude that rounds to infinity: it lies halfway between the largest double and
the power of two after it. -/
def overflowBound : Nat := ((1 <<< 54) - 1) <<< 970

/-- Drops low bits and rounds to the nearest number without them, from halfway to the even one. -/
def dropBits (n bits : Nat) : Nat :=
  let quotient := n >>> bits
  let rest := n % (1 <<< bits)
  match compare (2 * rest) (1 <<< bits) with
  | .lt => quotient
  | .eq => quotient + quotient % 2
  | .gt => quotient + 1

/-- The nearest double to a natural number, without a bound on its size. -/
def nearest (n : Nat) : Nat :=
  let bits := Nat.log2 n + 1 - precision
  dropBits n bits <<< bits

/-- The greatest power of ten that is no greater than the largest double. -/
def maxPower : Nat := 308

/-- The nearest double to a power of ten. -/
def powerOfTen (exponent : Nat) : Nat := nearest (Nat.pow 10 exponent)

/-- Whether the product of a number and a power of ten is finite, when both factors are rounded
to doubles and then their product is. -/
def isFiniteProduct (n exponent : Nat) : Bool :=
  if n = 0 then true
  else if exponent ≤ maxPower then decide (nearest n * powerOfTen exponent < overflowBound)
  else false

end CompressedLedger.Double
