/-!
# Cutting a list into pieces

`chunks n xs` cuts a list into consecutive pieces of `n` entries; the last piece may be shorter.
-/

namespace CompressedLedger

variable {α : Type}

/-- The consecutive pieces of `n` entries of a list. -/
def chunks (n : Nat) (h : 0 < n) (xs : List α) : List (List α) :=
  match xs with
  | [] => []
  | x :: rest => (x :: rest).take n :: chunks n h ((x :: rest).drop n)
termination_by xs.length
decreasing_by simp only [List.length_drop, List.length_cons]; omega

@[simp] theorem chunks_nil {n : Nat} (h : 0 < n) : chunks n h ([] : List α) = [] := by
  rw [chunks]

/-- A first piece that is whole is cut off. -/
theorem chunks_block_append {n : Nat} (h : 0 < n) {block : List α} (hblock : block.length = n)
    (rest : List α) : chunks n h (block ++ rest) = block :: chunks n h rest := by
  cases block with
  | nil => exact absurd hblock (Nat.ne_of_lt h)
  | cons b block =>
    rw [List.cons_append, chunks, ← List.cons_append, List.take_left' hblock,
      List.drop_left' hblock]

end CompressedLedger
