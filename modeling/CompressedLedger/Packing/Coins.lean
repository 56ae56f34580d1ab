import CompressedLedger.Account.Basic

/-!
# Choosing accounts for a payment

The accounts are taken from the largest down until their lamports reach the target, which takes
the fewest accounts.  Accounts of equal lamports keep their order.  The running total is a 64-bit
word: a sum that does not fit is refused when it arises (`sumOverflow`), and a target out of reach
at the end (`insufficientBalance`).
-/

namespace CompressedLedger.Coins

/-- The accounts from the largest down. -/
def descending (accounts : List LocatedAccount) : List LocatedAccount :=
  accounts.mergeSort fun a b => decide (b.lamports ≤ a.lamports)

/-- Takes accounts in order until the total reaches the target. -/
def takeUntil (target : UInt64) : UInt64 → List LocatedAccount →
    Except Error (List LocatedAccount × UInt64)
  | total, [] => if target ≤ total then .ok ([], total) else .error .insufficientBalance
  | total, a :: rest =>
    if target ≤ total then .ok ([], total)
    else if total.toNat + a.lamports.toNat < UInt64.size then do
      let (taken, sum) ← takeUntil target (total + a.lamports) rest
      return (a :: taken, sum)
    else .error .sumOverflow

/-- The fewest accounts whose lamports reach a target, and their total. -/
def select (accounts : List LocatedAccount) (target : UInt64) :
    Except Error (List LocatedAccount × UInt64) :=
  takeUntil target 0 (descending accounts)

end CompressedLedger.Coins
