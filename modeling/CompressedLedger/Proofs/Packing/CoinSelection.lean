import CompressedLedger.Packing.Coins
import CompressedLedger.Proofs.Checks
import Mathlib.Algebra.GroupWithZero.Nat
import Mathlib.Algebra.Order.BigOperators.Group.List
import Mathlib.Data.List.Sort
import Mathlib.Order.Bounds.Basic

/-!
# The fewest accounts that reach an amount

`largestSum accounts k` is the exact sum of the `k` largest amounts, and the least `k` whose sum
reaches the target decides everything: the choice is the `k` largest accounts if their sum fits in
a word, and an overflow otherwise (`select_minimal`).

The loop adds one account at a time to a word.  Before the last addition the total is below the
target, hence below the word size, so only the last addition can overflow (`takeUntil_of_reached`);
and if no addition reaches the target, none overflows (`takeUntil_of_short`).  That fewer accounts
never suffice is an exchange argument: in a descending list the first `n` entries have the greatest
sum among all sublists of length `n` (`sum_le_sum_take`).

A choice that is one step of a longer run makes two checks, of the amounts alone (`judged_select`).
-/

namespace CompressedLedger.Coins

/-- The exact sum of the lamports. -/
def balance (accounts : List LocatedAccount) : ℕ :=
  (accounts.map fun a => a.lamports.toNat).sum

/-- The exact sum of the `k` largest amounts. -/
def largestSum (accounts : List LocatedAccount) (k : ℕ) : ℕ :=
  (((accounts.map fun a => a.lamports.toNat).insertionSort (· ≥ ·)).take k).sum

@[simp] theorem balance_nil : balance [] = 0 := rfl

@[simp] theorem balance_cons (a : LocatedAccount) (rest : List LocatedAccount) :
    balance (a :: rest) = a.lamports.toNat + balance rest := by
  simp [balance]

theorem balance_eq_of_perm {xs ys : List LocatedAccount} (h : xs.Perm ys) :
    balance xs = balance ys :=
  (h.map _).sum_eq

/-! ### The loop -/

theorem takeUntil_of_le {target total : UInt64} (h : target ≤ total) (xs : List LocatedAccount) :
    takeUntil target total xs = .ok ([], total) := by
  cases xs with
  | nil => rw [takeUntil, if_pos h]
  | cons a rest => rw [takeUntil, if_pos h]

theorem takeUntil_cons_of_fits {target total : UInt64} (h : ¬target ≤ total) {a : LocatedAccount}
    (hfits : total.toNat + a.lamports.toNat < 2 ^ 64) (rest : List LocatedAccount) :
    takeUntil target total (a :: rest) = do
      let (taken, sum) ← takeUntil target (total + a.lamports) rest
      return (a :: taken, sum) := by
  rw [takeUntil, if_neg h]
  exact if_pos hfits

theorem takeUntil_cons_of_overflow {target total : UInt64} (h : ¬target ≤ total)
    {a : LocatedAccount} (hlarge : 2 ^ 64 ≤ total.toNat + a.lamports.toNat)
    (rest : List LocatedAccount) :
    takeUntil target total (a :: rest) = .error .sumOverflow := by
  rw [takeUntil, if_neg h]
  exact if_neg (Nat.not_lt.mpr hlarge)

theorem toNat_add_of_fits {x y : UInt64} (h : x.toNat + y.toNat < 2 ^ 64) :
    (x + y).toNat = x.toNat + y.toNat := by
  rw [UInt64.toNat_add, Nat.mod_eq_of_lt h]

/-- If the first `k` accounts and no fewer reach the target, the loop takes these, unless their sum
does not fit in a word. -/
theorem takeUntil_of_reached {target total : UInt64} {xs : List LocatedAccount} {k : ℕ}
    (hreached : target.toNat ≤ total.toNat + balance (xs.take k))
    (hmin : ∀ j < k, total.toNat + balance (xs.take j) < target.toNat) :
    (2 ^ 64 ≤ total.toNat + balance (xs.take k) →
      takeUntil target total xs = .error .sumOverflow) ∧
    (total.toNat + balance (xs.take k) < 2 ^ 64 → ∃ sum,
      takeUntil target total xs = .ok (xs.take k, sum) ∧
        sum.toNat = total.toNat + balance (xs.take k)) := by
  -- the loop puts the first account into its total, so the rest starts from another total
  induction xs generalizing total k with
  | nil =>
    have htotal : total.toNat < 2 ^ 64 := total.toNat_lt
    simp only [List.take_nil, balance_nil, Nat.add_zero] at hreached ⊢
    refine ⟨fun hlarge => by omega, fun _ => ⟨total, ?_, rfl⟩⟩
    exact takeUntil_of_le (UInt64.le_iff_toNat_le.mpr hreached) []
  | cons a rest ih =>
    have htarget : target.toNat < 2 ^ 64 := target.toNat_lt
    cases k with
    | zero =>
      have htotal : total.toNat < 2 ^ 64 := total.toNat_lt
      simp only [List.take_zero, balance_nil, Nat.add_zero] at hreached ⊢
      refine ⟨fun hlarge => by omega, fun _ => ⟨total, ?_, rfl⟩⟩
      exact takeUntil_of_le (UInt64.le_iff_toNat_le.mpr hreached) _
    | succ k =>
      have hbelow : ¬target ≤ total := by
        have hzero := hmin 0 (Nat.succ_pos k)
        simp only [List.take_zero, balance_nil, Nat.add_zero] at hzero
        rw [UInt64.le_iff_toNat_le]
        omega
      simp only [List.take_succ_cons, balance_cons, ← Nat.add_assoc] at hreached ⊢
      by_cases hfits : total.toNat + a.lamports.toNat < 2 ^ 64
      · have hsum := toNat_add_of_fits hfits
        rw [← hsum] at hreached ⊢
        have hmin' : ∀ j < k,
            (total + a.lamports).toNat + balance (rest.take j) < target.toNat := by
          intro j hj
          have hstep := hmin (j + 1) (by omega)
          rw [List.take_succ_cons, balance_cons, ← Nat.add_assoc, ← hsum] at hstep
          exact hstep
        obtain ⟨hoverflow, hok⟩ := ih hreached hmin'
        rw [takeUntil_cons_of_fits hbelow hfits]
        constructor
        · intro hlarge
          rw [hoverflow hlarge]
          rfl
        · intro hsmall
          obtain ⟨sum, hrest, htotal⟩ := hok hsmall
          refine ⟨sum, ?_, htotal⟩
          rw [hrest]
          rfl
      · -- the sum is past the word size, so past the target: this account is the last one
        rw [Nat.not_lt] at hfits
        exact ⟨fun _ => takeUntil_cons_of_overflow hbelow hfits rest, fun hsmall => by omega⟩

/-- Accounts that together fall short are all taken, and then refused. -/
theorem takeUntil_of_short {target total : UInt64} {xs : List LocatedAccount}
    (hshort : total.toNat + balance xs < target.toNat) :
    takeUntil target total xs = .error .insufficientBalance := by
  induction xs generalizing total with
  | nil =>
    rw [takeUntil, if_neg]
    rw [UInt64.le_iff_toNat_le]
    simp only [balance_nil] at hshort
    omega
  | cons a rest ih =>
    have htarget : target.toNat < 2 ^ 64 := target.toNat_lt
    rw [balance_cons, ← Nat.add_assoc] at hshort
    have hbelow : ¬target ≤ total := by
      rw [UInt64.le_iff_toNat_le]
      omega
    have hfits : total.toNat + a.lamports.toNat < 2 ^ 64 := by omega
    rw [← toNat_add_of_fits hfits] at hshort
    rw [takeUntil_cons_of_fits hbelow hfits, ih hshort]
    rfl

/-! ### The descending order -/

theorem amountOrder_trans (a b c : LocatedAccount) (hab : decide (b.lamports ≤ a.lamports) = true)
    (hbc : decide (c.lamports ≤ b.lamports) = true) :
    decide (c.lamports ≤ a.lamports) = true := by
  simp only [decide_eq_true_eq] at hab hbc ⊢
  exact UInt64.le_trans hbc hab

theorem amountOrder_total (a b : LocatedAccount) :
    (decide (b.lamports ≤ a.lamports) || decide (a.lamports ≤ b.lamports)) = true := by
  simp only [Bool.or_eq_true, decide_eq_true_eq]
  exact UInt64.le_total b.lamports a.lamports

theorem descending_perm (accounts : List LocatedAccount) : (descending accounts).Perm accounts :=
  List.mergeSort_perm accounts _

theorem pairwise_descending (accounts : List LocatedAccount) :
    (descending accounts).Pairwise fun a b => b.lamports ≤ a.lamports := by
  have hsorted := List.pairwise_mergeSort amountOrder_trans amountOrder_total accounts
  exact hsorted.imp fun h => of_decide_eq_true h

theorem filter_descending (accounts : List LocatedAccount) (amount : UInt64) :
    (descending accounts).filter (·.lamports == amount) =
      accounts.filter (·.lamports == amount) := by
  have hequal : (accounts.filter (·.lamports == amount)).Pairwise
      fun a b => decide (b.lamports ≤ a.lamports) = true := by
    rw [List.pairwise_filter]
    refine List.pairwise_of_forall fun a b ha hb => ?_
    rw [eq_of_beq ha, eq_of_beq hb]
    exact decide_eq_true (UInt64.le_refl amount)
  -- sorting keeps every sublist that is in order already, and no account of the amount is lost
  have hkept : (accounts.filter (·.lamports == amount)).Sublist (descending accounts) :=
    List.sublist_mergeSort amountOrder_trans amountOrder_total hequal List.filter_sublist
  have hfiltered := hkept.filter (·.lamports == amount)
  simp only [List.filter_filter, Bool.and_self] at hfiltered
  have hlength := ((descending_perm accounts).filter (·.lamports == amount)).length_eq
  exact (hfiltered.eq_of_length hlength.symm).symm

/-- The amounts from the largest down, sorted as numbers. -/
theorem map_descending (accounts : List LocatedAccount) :
    (descending accounts).map (fun a => a.lamports.toNat) =
      (accounts.map fun a => a.lamports.toNat).insertionSort (· ≥ ·) := by
  have hperm := (descending_perm accounts).map fun a => a.lamports.toNat
  have hsorted : ((descending accounts).map fun a => a.lamports.toNat).Pairwise (· ≥ ·) := by
    rw [List.pairwise_map]
    exact (pairwise_descending accounts).imp fun h => UInt64.le_iff_toNat_le.mp h
  exact (hperm.trans (List.perm_insertionSort (· ≥ ·) _).symm).eq_of_pairwise' hsorted
    (List.pairwise_insertionSort (· ≥ ·) _)

theorem balance_take_descending (accounts : List LocatedAccount) (k : ℕ) :
    balance ((descending accounts).take k) = largestSum accounts k := by
  rw [balance, largestSum, List.map_take, map_descending]

theorem largestSum_length (accounts : List LocatedAccount) :
    largestSum accounts accounts.length = balance accounts := by
  rw [← balance_take_descending, ← (descending_perm accounts).length_eq, List.take_length,
    balance_eq_of_perm (descending_perm accounts)]

theorem largestSum_le_balance (accounts : List LocatedAccount) (k : ℕ) :
    largestSum accounts k ≤ balance accounts := by
  have hsplit : balance ((descending accounts).take k) + balance ((descending accounts).drop k) =
      balance (descending accounts) := by
    simp only [balance, ← List.sum_append, ← List.map_append, List.take_append_drop]
  rw [← balance_take_descending, ← balance_eq_of_perm (descending_perm accounts)]
  omega

/-! ### The exchange argument -/

/-- In a descending list no sublist has a greater sum than the entries at the front. -/
theorem sum_le_sum_take {amounts chosen : List ℕ} (hdesc : amounts.Pairwise (· ≥ ·))
    (hsub : chosen.Sublist amounts) : chosen.sum ≤ (amounts.take chosen.length).sum := by
  induction amounts generalizing chosen with
  | nil =>
    rw [List.sublist_nil.mp hsub]
    simp
  | cons x rest ih =>
    rw [List.pairwise_cons] at hdesc
    cases chosen with
    | nil => simp
    | cons y others =>
      -- `y` is exchanged for `x`, the largest of all, and the others lie behind `x` anyway
      have hy : y ≤ x := by
        rcases List.mem_cons.mp (hsub.subset List.mem_cons_self) with rfl | hmem
        · exact Nat.le_refl _
        · exact hdesc.1 y hmem
      have hothers := ih hdesc.2 hsub.tail
      simp only [List.length_cons, List.take_succ_cons, List.sum_cons]
      exact Nat.add_le_add hy hothers

/-- No accounts of a list hold more than as many of its largest. -/
theorem balance_le_largestSum {accounts others : List LocatedAccount}
    (h : others.Subperm accounts) : balance others ≤ largestSum accounts others.length := by
  obtain ⟨chosen, hperm, hsub⟩ := h.trans (descending_perm accounts).symm.subperm
  have hsorted := List.pairwise_insertionSort (· ≥ ·) (accounts.map fun a => a.lamports.toNat)
  rw [← map_descending] at hsorted
  have hsum := sum_le_sum_take hsorted (hsub.map fun a => a.lamports.toNat)
  rw [List.length_map, ← List.map_take, hperm.length_eq] at hsum
  rw [← balance_eq_of_perm hperm, ← balance_take_descending]
  exact hsum

/-! ### The choice -/

/-- The accounts are `k` of the list, from the largest down, and those of one amount are the first
of that amount in their order. -/
structure IsLargest (accounts : List LocatedAccount) (k : ℕ) (chosen : List LocatedAccount) :
    Prop where
  subperm : chosen.Subperm accounts
  length_eq : chosen.length = k
  pairwise_le : chosen.Pairwise fun a b => b.lamports ≤ a.lamports
  filter_prefix : ∀ amount,
    chosen.filter (·.lamports == amount) <+: accounts.filter (·.lamports == amount)

theorem isLargest_take_descending {accounts : List LocatedAccount} {k : ℕ}
    (hk : k ≤ accounts.length) : IsLargest accounts k ((descending accounts).take k) := by
  have hfront : (descending accounts).take k <+: descending accounts := List.take_prefix _ _
  refine ⟨?_, ?_, ?_, fun amount => ?_⟩
  · exact hfront.sublist.subperm.trans (descending_perm accounts).subperm
  · rw [List.length_take, (descending_perm accounts).length_eq]
    omega
  · exact (pairwise_descending accounts).sublist hfront.sublist
  · rw [← filter_descending accounts amount]
    exact hfront.filter _

theorem exists_isLeast {accounts : List LocatedAccount} {target : ℕ}
    (h : target ≤ balance accounts) :
    ∃ k ≤ accounts.length, IsLeast {k | target ≤ largestSum accounts k} k := by
  rw [← largestSum_length] at h
  have hexists : ∃ k, target ≤ largestSum accounts k := ⟨_, h⟩
  classical
  refine ⟨Nat.find hexists, Nat.find_min' hexists h, Nat.find_spec hexists, fun j hj => ?_⟩
  exact Nat.find_min' hexists hj

/-- Fewer accounts than the least number fall short, whichever they are. -/
theorem balance_lt_of_isLeast {accounts others : List LocatedAccount} {target k : ℕ}
    (hk : IsLeast {k | target ≤ largestSum accounts k} k) (hothers : others.Subperm accounts)
    (hfewer : others.length < k) : balance others < target := by
  by_contra hreaches
  have hle := balance_le_largestSum hothers
  have hleast : k ≤ others.length := hk.2 (show target ≤ largestSum accounts others.length by omega)
  omega

theorem select_of_short {accounts : List LocatedAccount} {target : UInt64}
    (h : balance accounts < target.toNat) :
    select accounts target = .error .insufficientBalance := by
  apply takeUntil_of_short
  rw [balance_eq_of_perm (descending_perm accounts)]
  simpa using h

/-- The least number of largest accounts that reach the target decides between an overflow and the
choice of these accounts. -/
theorem select_of_isLeast {accounts : List LocatedAccount} {target : UInt64} {k : ℕ}
    (hk : IsLeast {k | target.toNat ≤ largestSum accounts k} k) :
    (2 ^ 64 ≤ largestSum accounts k → select accounts target = .error .sumOverflow) ∧
    (largestSum accounts k < 2 ^ 64 → ∃ total,
      select accounts target = .ok ((descending accounts).take k, total) ∧
        total.toNat = largestSum accounts k) := by
  have hsum : ∀ j, (0 : UInt64).toNat + balance ((descending accounts).take j) =
      largestSum accounts j := by
    intro j
    rw [balance_take_descending, UInt64.toNat_zero, Nat.zero_add]
  have hreached : target.toNat ≤ largestSum accounts k := hk.1
  have hmin : ∀ j < k, largestSum accounts j < target.toNat := by
    intro j hj
    by_contra hle
    have hkj : k ≤ j := hk.2 (Nat.le_of_not_lt hle)
    omega
  simp only [← hsum] at hreached hmin
  have hloop := takeUntil_of_reached hreached hmin
  rw [hsum] at hloop
  exact hloop

theorem select_eq_sumOverflow_iff {accounts : List LocatedAccount} {target : UInt64} {k : ℕ}
    (hk : IsLeast {k | target.toNat ≤ largestSum accounts k} k) :
    select accounts target = .error .sumOverflow ↔ 2 ^ 64 ≤ largestSum accounts k := by
  obtain ⟨hoverflow, hok⟩ := select_of_isLeast hk
  refine ⟨fun hselect => ?_, hoverflow⟩
  by_contra hsmall
  obtain ⟨total, hchosen, -⟩ := hok (Nat.lt_of_not_le hsmall)
  rw [hselect] at hchosen
  cases hchosen

theorem select_eq_insufficientBalance_iff {accounts : List LocatedAccount} {target : UInt64} :
    select accounts target = .error .insufficientBalance ↔ balance accounts < target.toNat := by
  refine ⟨fun hselect => ?_, select_of_short⟩
  by_contra hle
  -- a list that reaches the target ends in one of the two other ways
  obtain ⟨k, -, hk⟩ := exists_isLeast (Nat.le_of_not_lt hle)
  obtain ⟨hoverflow, hok⟩ := select_of_isLeast hk
  rcases Nat.lt_or_ge (largestSum accounts k) (2 ^ 64) with hsmall | hlarge
  · obtain ⟨total, hchosen, -⟩ := hok hsmall
    rw [hselect] at hchosen
    cases hchosen
  · have hother := hoverflow hlarge
    rw [hselect] at hother
    cases hother

/-- Whether some amounts reach a target, and whether the fewest of the largest that do hold no more
than a word can. -/
def choiceChecks (amounts : List ℕ) (target : ℕ) : List Check :=
  let largest (k : ℕ) := ((amounts.insertionSort (· ≥ ·)).take k).sum
  [⟨target ≤ amounts.sum, .insufficientBalance⟩,
    ⟨∀ k, IsLeast {k | target ≤ largest k} k → largest k < 2 ^ 64, .sumOverflow⟩]

/-- The largest accounts, no more of them than are needed to reach the target, and their exact
total. -/
structure IsFewest (accounts : List LocatedAccount) (target : UInt64)
    (choice : List LocatedAccount × UInt64) : Prop where
  isLeast : IsLeast {k | target.toNat ≤ largestSum accounts k} choice.1.length
  chosen_eq : choice.1 = (descending accounts).take choice.1.length
  total_eq : choice.2.toNat = largestSum accounts choice.1.length

theorem isFewest_of_isLeast {accounts : List LocatedAccount} {target total : UInt64} {k : ℕ}
    (hlength : k ≤ accounts.length) (hk : IsLeast {k | target.toNat ≤ largestSum accounts k} k)
    (htotal : total.toNat = largestSum accounts k) :
    IsFewest accounts target ((descending accounts).take k, total) := by
  have htake : ((descending accounts).take k).length = k :=
    (isLargest_take_descending hlength).length_eq
  constructor
  · rwa [htake]
  · rw [htake]
  · rwa [htake]

namespace IsFewest

variable {accounts : List LocatedAccount} {target : UInt64}
  {choice other : List LocatedAccount × UInt64}

theorem unique (h : IsFewest accounts target choice) (h' : IsFewest accounts target other) :
    choice = other := by
  have hlength := h.isLeast.unique h'.isLeast
  apply Prod.ext
  · rw [h.chosen_eq, h'.chosen_eq, hlength]
  · rw [← UInt64.toNat_inj, h.total_eq, h'.total_eq, hlength]

theorem subset (h : IsFewest accounts target choice) : choice.1 ⊆ accounts := by
  rw [h.chosen_eq]
  exact List.Subset.trans (List.take_subset _ _) (descending_perm accounts).subset

/-- Nothing is chosen exactly if nothing is wanted. -/
theorem eq_nil_iff (h : IsFewest accounts target choice) : choice.1 = [] ↔ target = 0 := by
  have hzero : largestSum accounts 0 = 0 := rfl
  rw [← List.length_eq_zero_iff, ← UInt64.toNat_inj, UInt64.toNat_zero]
  constructor
  · intro hnone
    have hreached : target.toNat ≤ largestSum accounts choice.1.length := h.isLeast.1
    rw [hnone, hzero] at hreached
    exact Nat.le_zero.mp hreached
  · intro hnone
    exact Nat.le_zero.mp (h.isLeast.2 (show target.toNat ≤ largestSum accounts 0 by omega))

end IsFewest

/-- A choice makes these two checks of the amounts, and gives as many of the largest accounts as are
needed. -/
theorem judged_select (accounts : List LocatedAccount) (target : UInt64) :
    Judged (select accounts target)
      (choiceChecks (accounts.map fun a => a.lamports.toNat) target.toNat)
      (IsFewest accounts target) := by
  by_cases henough : target.toNat ≤ balance accounts
  · obtain ⟨k, hlength, hk⟩ := exists_isLeast henough
    obtain ⟨hoverflow, hok⟩ := select_of_isLeast hk
    rcases Nat.lt_or_ge (largestSum accounts k) (2 ^ 64) with hsmall | hlarge
    · obtain ⟨total, hselect, htotal⟩ := hok hsmall
      have hfewest := isFewest_of_isLeast hlength hk htotal
      rw [hselect]
      refine Judged.of_ok ?_ fun choice => ⟨fun h => h.unique hfewest, ?_⟩
      · rw [choiceChecks, List.forall_mem_cons, List.forall_mem_singleton]
        exact ⟨henough, fun j hj => hj.unique hk ▸ hsmall⟩
      · rintro rfl
        exact hfewest
    · rw [hoverflow hlarge]
      refine Judged.of_error (FirstFailure.later henough (FirstFailure.here fun hall => ?_)) ?_
      · exact Nat.not_le_of_lt (hall k hk) hlarge
      · intro choice h
        -- the total is a word, which the sum of as many accounts is not
        have htotal := h.total_eq
        have hword : choice.2.toNat < 2 ^ 64 := choice.2.toNat_lt
        rw [h.isLeast.unique hk] at htotal
        omega
  · rw [select_of_short (Nat.lt_of_not_le henough)]
    refine Judged.of_error (FirstFailure.here henough) ?_
    intro choice h
    -- the largest accounts are among all of them, so they cannot reach more
    exact henough (h.isLeast.1.trans (largestSum_le_balance accounts _))

/-- **The choice is minimal, and its outcome is exact.**  The balance is insufficient exactly if all
accounts together fall short.  Otherwise there is a least number `k` of largest accounts that reach
the target.  The sum overflows exactly if these hold more than a word can; and if they do not, the
choice is `k` of the accounts, largest first, with their sum as the total, and no fewer of the
accounts reach the target. -/
theorem select_minimal (accounts : List LocatedAccount) (target : UInt64) :
    (select accounts target = .error .insufficientBalance ↔ balance accounts < target.toNat) ∧
    (target.toNat ≤ balance accounts →
      ∃ k, IsLeast {k | target.toNat ≤ largestSum accounts k} k ∧
        (select accounts target = .error .sumOverflow ↔ 2 ^ 64 ≤ largestSum accounts k) ∧
        (largestSum accounts k < 2 ^ 64 → ∃ chosen total,
          select accounts target = .ok (chosen, total) ∧ IsLargest accounts k chosen ∧
          total.toNat = largestSum accounts k ∧ balance chosen = largestSum accounts k ∧
          ∀ others : List LocatedAccount, others.Subperm accounts → others.length < k →
            balance others < target.toNat)) := by
  refine ⟨select_eq_insufficientBalance_iff, fun henough => ?_⟩
  obtain ⟨k, hlength, hk⟩ := exists_isLeast henough
  refine ⟨k, hk, select_eq_sumOverflow_iff hk, fun hsmall => ?_⟩
  obtain ⟨total, hselect, htotal⟩ := (select_of_isLeast hk).2 hsmall
  refine ⟨_, total, hselect, isLargest_take_descending hlength, htotal, ?_, ?_⟩
  · exact balance_take_descending accounts k
  · intro others hothers hfewer
    exact balance_lt_of_isLeast hk hothers hfewer

/-- The largest amount is one below the target, which is the greatest word, and the next amount of
five leads past it. -/
theorem select_minimal_of_overflow :
    let held (lamports : UInt64) : LocatedAccount :=
      ⟨⟨.zero, lamports, none, none⟩, ⟨0, .single ⟨.zero, .zero, .stateV1, none⟩, 0, false⟩, false⟩
    let accounts := [held 5, held 18446744073709551614, held 5]
    let target : UInt64 := 18446744073709551615
    target.toNat ≤ balance accounts ∧ IsLeast {k | target.toNat ≤ largestSum accounts k} 2 ∧
      2 ^ 64 ≤ largestSum accounts 2 ∧ select accounts target = .error .sumOverflow := by
  intro held accounts target
  have henough : target.toNat ≤ balance accounts := by decide
  have hleast : IsLeast {k | target.toNat ≤ largestSum accounts k} 2 := by
    refine ⟨show target.toNat ≤ largestSum accounts 2 by decide, fun k hk => ?_⟩
    by_contra hlt
    have hsmall : k = 0 ∨ k = 1 := by omega
    rcases hsmall with rfl | rfl
    · exact absurd hk (show ¬target.toNat ≤ largestSum accounts 0 by decide)
    · exact absurd hk (show ¬target.toNat ≤ largestSum accounts 1 by decide)
  have hlarge : 2 ^ 64 ≤ largestSum accounts 2 := by decide
  obtain ⟨k, hk, hoverflow, -⟩ := (select_minimal accounts target).2 henough
  rw [hk.unique hleast] at hoverflow
  exact ⟨henough, hleast, hlarge, hoverflow.mpr hlarge⟩

end CompressedLedger.Coins
