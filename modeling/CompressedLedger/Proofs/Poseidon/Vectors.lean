import CompressedLedger.Poseidon.Permutation
import CompressedLedger.Proofs.Poseidon.Shape
import CompressedLedger.Proofs.Scalar.Arithmetic
import Mathlib.Algebra.BigOperators.Fin
import Mathlib.Data.Matrix.Mul

/-!
# The permutation on vectors

In the field a round takes a vector and adds the constants, raises all of its entries or the first
one to the fifth power, and multiplies the matrix by the result (`Round.onVector`).  On lists it
does the same entry by entry and reduces as it goes, so it ends with scalars; but an entry that is
missing would count as zero or cut the list short.  None is, as long as every list has the width of
the state (`column_apply`), and a round leaves the width as it is.  So lists and vectors stay in
step through all rounds (`column_foldl_apply`), and the hash of some scalars is the first entry of
the last vector (`toZMod_hashScalars`).
-/

namespace CompressedLedger.Poseidon

open Scalar (modulus toZMod)

variable {width : ℕ}

/-! ### Vectors -/

/-- The entries of a list as a vector over the field; the entries that are missing are zero. -/
def column (width : ℕ) (s : List Scalar) : Fin width → ZMod modulus :=
  fun i => toZMod (s[i.val]?.getD 0)

/-- The mixing matrix over the field. -/
def mixing (width : ℕ) (matrix : List (List Scalar)) :
    Matrix (Fin width) (Fin width) (ZMod modulus) :=
  fun i => column width (matrix[i.val]?.getD [])

/-- A round on vectors. -/
def Round.onVector (mix : Matrix (Fin width) (Fin width) (ZMod modulus))
    (v : Fin width → ZMod modulus) (r : Round) : Fin width → ZMod modulus :=
  mix.mulVec fun i =>
    if r.full ∨ i.val = 0 then (v i + column width r.constants i) ^ 5
    else v i + column width r.constants i

/-- All rounds on vectors. -/
def Parameters.onVector (p : Parameters) (v : Fin width → ZMod modulus) :
    Fin width → ZMod modulus :=
  p.rounds.foldl (Round.onVector (mixing width p.matrix)) v

/-- What the rounds make of a zero and some numbers, first entry. -/
def Parameters.onNumbers (p : Parameters) (numbers : List ℕ) : ZMod modulus :=
  p.onVector (Fin.cons 0 fun i : Fin numbers.length => (numbers[i] : ZMod modulus)) 0

theorem column_cons (a : Scalar) (s : List Scalar) :
    column (width + 1) (a :: s) = Fin.cons (toZMod a) (column width s) := by
  funext i
  refine Fin.cases rfl (fun j => rfl) i

theorem column_eq_of_getElem? {s : List Scalar} {i : Fin width} {a : Scalar}
    (h : s[i.val]? = some a) : column width s i = toZMod a := by
  rw [column, h, Option.getD_some]

theorem exists_getElem?_eq_some {α : Type} {xs : List α} (h : xs.length = width) (i : Fin width) :
    ∃ a, xs[i.val]? = some a := by
  rw [← Option.isSome_iff_exists, isSome_getElem?, h]
  exact i.isLt

/-! ### Products -/

theorem toZMod_fifth (a : Scalar) : toZMod (fifth a) = toZMod a ^ 5 := by
  simp only [fifth, Scalar.toZMod_mul]
  ring

theorem sum_zipWith_eq_dotProduct {row s : List Scalar} (hrow : row.length = width)
    (hs : s.length = width) :
    ((List.zipWith (fun a b : Scalar => a.val * b.val) row s).sum : ZMod modulus) =
      dotProduct (column width row) (column width s) := by
  induction width generalizing row s with
  | zero =>
    rw [List.length_eq_zero_iff] at hrow
    simp [hrow, dotProduct]
  | succ width ih =>
    obtain ⟨a, row, rfl⟩ := List.exists_cons_of_length_eq_add_one hrow
    obtain ⟨b, s, rfl⟩ := List.exists_cons_of_length_eq_add_one hs
    have hrest := ih (Nat.succ.inj hrow) (Nat.succ.inj hs)
    rw [List.zipWith_cons_cons, List.sum_cons, Nat.cast_add, Nat.cast_mul, hrest, column_cons,
      column_cons, dotProduct, dotProduct, Fin.sum_univ_succ]
    rfl

/-- Reducing the sum of the products once gives their sum in the field. -/
theorem toZMod_dot {row s : List Scalar} (hrow : row.length = width) (hs : s.length = width) :
    toZMod (dot row s) = dotProduct (column width row) (column width s) := by
  rw [dot, Scalar.toZMod_residue, ← List.sum_eq_foldl, sum_zipWith_eq_dotProduct hrow hs]

/-! ### Rounds -/

theorem length_raise (full : Bool) (s : List Scalar) : (raise full s).length = s.length := by
  unfold raise
  split_ifs
  · rw [List.length_map]
  · cases s <;> rfl

/-- Every scalar is raised in a full round, and the first one always. -/
theorem getElem?_raise (full : Bool) (s : List Scalar) (i : ℕ) :
    (raise full s)[i]? = s[i]?.map fun a => if full ∨ i = 0 then fifth a else a := by
  rcases full with _ | _
  · rcases s with _ | ⟨a, s⟩
    · simp [raise]
    · rcases i with _ | i <;> simp [raise]
  · simp [raise]

/-- The state with the constants added and raised. -/
theorem column_raise (full : Bool) {s constants : List Scalar} (hs : s.length = width)
    (hconstants : constants.length = width) :
    column width (raise full (List.zipWith (· + ·) s constants)) = fun i =>
      if full ∨ i.val = 0 then (column width s i + column width constants i) ^ 5
      else column width s i + column width constants i := by
  funext i
  obtain ⟨a, ha⟩ := exists_getElem?_eq_some hs i
  obtain ⟨b, hb⟩ := exists_getElem?_eq_some hconstants i
  have hentry : (raise full (List.zipWith (· + ·) s constants))[i.val]? =
      some (if full ∨ i.val = 0 then fifth (a + b) else a + b) := by
    rw [getElem?_raise, List.getElem?_zipWith, ha, hb]
    rfl
  rw [column_eq_of_getElem? ha, column_eq_of_getElem? hb, column_eq_of_getElem? hentry]
  split_ifs
  · rw [toZMod_fifth, Scalar.toZMod_add]
  · rw [Scalar.toZMod_add]

/-- The rows of the matrix times a list are the matrix times the vector. -/
theorem column_map_dot {matrix : List (List Scalar)} {s : List Scalar}
    (hmatrix : matrix.length = width) (hrow : ∀ row ∈ matrix, row.length = width)
    (hs : s.length = width) :
    column width (matrix.map fun row => dot row s) =
      (mixing width matrix).mulVec (column width s) := by
  funext i
  obtain ⟨row, hentry⟩ := exists_getElem?_eq_some hmatrix i
  have hlength : row.length = width := hrow row (List.mem_of_getElem? hentry)
  have hproduct : (matrix.map fun row => dot row s)[i.val]? = some (dot row s) := by
    rw [List.getElem?_map, hentry, Option.map_some]
  have hmixing : mixing width matrix i = column width row := by
    rw [mixing, hentry, Option.getD_some]
  rw [column_eq_of_getElem? hproduct, toZMod_dot hlength hs, Matrix.mulVec, hmixing]

/-- A round of lists that have the width of the state is the round of the vectors. -/
theorem column_apply {matrix : List (List Scalar)} {s : List Scalar} {r : Round}
    (hs : s.length = width) (hconstants : r.constants.length = width)
    (hmatrix : matrix.length = width) (hrow : ∀ row ∈ matrix, row.length = width) :
    column width (r.apply matrix s) = r.onVector (mixing width matrix) (column width s) := by
  have hraised : (raise r.full (List.zipWith (· + ·) s r.constants)).length = width := by
    rw [length_raise, List.length_zipWith, hs, hconstants, Nat.min_self]
  rw [Round.apply, column_map_dot hmatrix hrow hraised, column_raise r.full hs hconstants,
    Round.onVector]

/-! ### All rounds -/

/-- Lists keep the width of the state through all rounds, and stay in step with the vectors. -/
theorem column_foldl_apply {matrix : List (List Scalar)} (hmatrix : matrix.length = width)
    (hrow : ∀ row ∈ matrix, row.length = width) {rounds : List Round}
    (hrounds : ∀ r ∈ rounds, r.constants.length = width) {s : List Scalar}
    (hs : s.length = width) :
    (rounds.foldl (Round.apply matrix) s).length = width ∧
      column width (rounds.foldl (Round.apply matrix) s) =
        rounds.foldl (Round.onVector (mixing width matrix)) (column width s) := by
  induction rounds generalizing s with
  | nil => exact ⟨hs, rfl⟩
  | cons r rounds ih =>
    rw [List.forall_mem_cons] at hrounds
    have hnext : (r.apply matrix s).length = width := by
      rw [Round.apply, List.length_map, hmatrix]
    rw [List.foldl_cons, List.foldl_cons, ← column_apply hs hrounds.1 hmatrix hrow]
    exact ih hrounds.2 hnext

variable {p : Parameters} {partials : ℕ}

theorem column_permute (hp : p.Fits width partials) {s : List Scalar} (hs : s.length = width) :
    (p.permute s).length = width ∧ column width (p.permute s) = p.onVector (column width s) :=
  column_foldl_apply hp.length_matrix hp.length_row hp.length_constants hs

/-- With parameters that fit, the hash of some scalars is the first entry that the rounds on vectors
give for their numbers. -/
theorem toZMod_hashScalars {scalars : List Scalar}
    (hp : parametersByInputs[scalars.length - 1]? = some p)
    (hfits : p.Fits (scalars.length + 1) partials) :
    toZMod (hashScalars scalars) = p.onNumbers (scalars.map (·.val)) := by
  set numbers := scalars.map (·.val) with hnumbers
  have hlength : numbers.length = scalars.length := List.length_map _
  rw [← hlength] at hfits
  have hstart : column (numbers.length + 1) (0 :: scalars) =
      Fin.cons 0 fun i : Fin numbers.length => (numbers[i] : ZMod modulus) := by
    rw [column_cons, Scalar.toZMod_zero]
    congr 1
    funext i
    have hi : i.val < scalars.length := hlength ▸ i.isLt
    rw [column_eq_of_getElem? (List.getElem?_eq_getElem hi)]
    simp [hnumbers, toZMod]
  have hwidth : (0 :: scalars).length = numbers.length + 1 := by
    rw [List.length_cons, hlength]
  have hrun := (column_permute hfits hwidth).2
  have hhash : hashScalars scalars = (p.permute (0 :: scalars))[0]?.getD 0 := by
    rw [hashScalars, hp]
    simp [List.headD_eq_head?_getD, List.head?_eq_getElem?]
  calc toZMod (hashScalars scalars)
      = column (numbers.length + 1) (p.permute (0 :: scalars)) 0 := congrArg toZMod hhash
    _ = p.onNumbers numbers := by rw [hrun, hstart, Parameters.onNumbers]

end CompressedLedger.Poseidon
