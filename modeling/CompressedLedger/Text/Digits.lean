/-!
# Numerals in an arbitrary base

`Digits.value` reads a list of digits, most significant first, and `Digits.ofNat` writes a number
with no leading zero (zero itself has no digits).  Bases 10, 16, 58 and 256 all go through these
two.
-/

namespace CompressedLedger.Digits

/-- The number a list of digits denotes, most significant first. -/
def value (base : Nat) (ds : List Nat) : Nat :=
  ds.foldl (fun n d => base * n + d) 0

/-- Puts the digits of `n` in front of the digits collected so far. -/
def ofNat.go (base : Nat) (h : 1 < base) (n : Nat) (acc : List Nat) : List Nat :=
  if n = 0 then acc else go base h (n / base) (n % base :: acc)
termination_by n
decreasing_by exact Nat.div_lt_self (by omega) h

/-- The digits of `n` in a base, most significant first and without leading zeros. -/
def ofNat (base : Nat) (h : 1 < base) (n : Nat) : List Nat :=
  ofNat.go base h n []

/-- The value of an ASCII digit, where letters of either case stand for ten to fifteen. -/
def ofChar? (c : Char) : Option Nat :=
  if '0' ≤ c ∧ c ≤ '9' then some (c.toNat - '0'.toNat)
  else if 'a' ≤ c ∧ c ≤ 'f' then some (c.toNat - 'a'.toNat + 10)
  else if 'A' ≤ c ∧ c ≤ 'F' then some (c.toNat - 'A'.toNat + 10)
  else none

/-- The lower-case ASCII digit of a value below sixteen. -/
def toChar (d : Nat) : Char :=
  if d < 10 then Char.ofNat ('0'.toNat + d) else Char.ofNat ('a'.toNat + (d - 10))

/-- The value of one digit of a base up to sixteen. -/
def ofCharIn? (base : Nat) (c : Char) : Option Nat :=
  (ofChar? c).filter (· < base)

/-- The number an unsigned numeral denotes: one or more digits of the base and nothing else. -/
def parse? (base : Nat) (cs : List Char) : Option Nat :=
  if cs.isEmpty then none else (cs.mapM (ofCharIn? base)).map (value base)

/-- The decimal numeral of a number, without leading zeros. -/
def decimal (n : Nat) : String :=
  if n = 0 then "0" else String.ofList ((ofNat 10 (by decide) n).map toChar)

end CompressedLedger.Digits
