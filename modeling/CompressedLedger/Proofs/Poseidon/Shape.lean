import CompressedLedger.Poseidon.Parameters
import Mathlib.Data.Nat.Notation
import Mathlib.Tactic.Common

/-!
# The shape of the parameters

The parameters of a permutation are drawn as one list of scalars and cut into rows afterwards, so
nothing in their type says how long a row is.  Every row is as long as the state all the same
(`Parameters.fits_generate`): a draw is repeated as often as asked for, and the constants of all
rounds fill whole rows.  For each number of inputs from one to twelve there are parameters, and they
fit a state of one scalar more (`exists_parameters`).
-/

namespace CompressedLedger

/-- A list as long as `k` pieces of `n` entries is cut into just these. -/
theorem length_chunks_of_length_eq {α : Type} {n k : ℕ} (h : 0 < n) {xs : List α}
    (hlength : xs.length = k * n) :
    (chunks n h xs).length = k ∧ ∀ piece ∈ chunks n h xs, piece.length = n := by
  induction k generalizing xs with
  | zero =>
    rw [Nat.zero_mul, List.length_eq_zero_iff] at hlength
    simp [hlength]
  | succ k ih =>
    rw [Nat.succ_mul] at hlength
    have hblock : (xs.take n).length = n := by
      rw [List.length_take]
      omega
    have hrest : (xs.drop n).length = k * n := by
      rw [List.length_drop]
      omega
    obtain ⟨hcount, hpieces⟩ := ih hrest
    rw [← List.take_append_drop n xs, chunks_block_append h hblock]
    exact ⟨by rw [List.length_cons, hcount], List.forall_mem_cons.mpr ⟨hblock, hpieces⟩⟩

namespace Poseidon

theorem Grain.length_collect {α : Type} (draw : StateM Grain α) (n : ℕ) (g : Grain) :
    ((collect draw n).run g).1.length = n := by
  induction n generalizing g with
  | zero => rfl
  | succ n ih => exact congrArg (· + 1) (ih (draw.run g).2)

namespace Parameters

/-- The rounds and the matrix that are drawn: the constants one round after the other, and the
entries of a Cauchy matrix. -/
theorem exists_draws (width partials : ℕ) (h : 0 < width) :
    ∃ constants xs ys : List Scalar, constants.length = (fullRounds + partials) * width ∧
      xs.length = width ∧ ys.length = width ∧
      (generate width partials h).rounds = (chunks width h constants).zipIdx.map (fun row =>
        { full := row.2 < fullRounds / 2 || fullRounds / 2 + partials ≤ row.2
          constants := row.1 }) ∧
      (generate width partials h).matrix = xs.map fun x => ys.map fun y => (x + y).inverse :=
  ⟨_, _, _, Grain.length_collect .., Grain.length_collect .., Grain.length_collect .., rfl, rfl⟩

/-- The parameters fit a state of `width` scalars: there are four full rounds, the partial rounds
and four full rounds again, each with a constant for every scalar, and the matrix is square. -/
structure Fits (p : Parameters) (width partials : ℕ) : Prop where
  full : p.rounds.map (·.full) =
    List.replicate 4 true ++ List.replicate partials false ++ List.replicate 4 true
  length_constants : ∀ r ∈ p.rounds, r.constants.length = width
  length_matrix : p.matrix.length = width
  length_row : ∀ row ∈ p.matrix, row.length = width

theorem fits_generate (width partials : ℕ) (h : 0 < width) :
    (generate width partials h).Fits width partials := by
  obtain ⟨constants, xs, ys, hconstants, hxs, hys, hrounds, hmatrix⟩ :=
    exists_draws width partials h
  obtain ⟨hcount, hrows⟩ := length_chunks_of_length_eq h hconstants
  refine ⟨?_, ?_, ?_, ?_⟩
  · -- the rounds are told apart by their position
    rw [hrounds]
    apply List.ext_getElem
    · simp [hcount, fullRounds]
      omega
    · intro i _ _
      have hhalf : fullRounds / 2 = 4 := rfl
      simp only [List.getElem_map, List.getElem_zipIdx, List.getElem_append, List.getElem_replicate,
        List.length_append, List.length_replicate, Nat.zero_add, hhalf]
      split_ifs <;> simp <;> omega
  · intro r hr
    rw [hrounds] at hr
    obtain ⟨row, hmem, rfl⟩ := List.mem_map.mp hr
    exact hrows row.1 (List.fst_mem_of_mem_zipIdx hmem)
  · rw [hmatrix, List.length_map, hxs]
  · intro row hrow
    rw [hmatrix] at hrow
    obtain ⟨x, -, rfl⟩ := List.mem_map.mp hrow
    rw [List.length_map, hys]

end Parameters

/-- For one to twelve inputs there are parameters, and they fit the inputs and one scalar more. -/
theorem exists_parameters {n : ℕ} (hpos : 0 < n) (hmax : n ≤ maxInputs) :
    ∃ p partials, parametersByInputs[n - 1]? = some p ∧ partialRounds[n - 1]? = some partials ∧
      p.Fits (n + 1) partials := by
  have hlt : n - 1 < partialRounds.length := Nat.sub_one_lt_of_le hpos hmax
  have hwidth : n - 1 + 2 = n + 1 := by omega
  have hpartials := List.getElem?_eq_getElem hlt
  refine ⟨Parameters.generate (n - 1 + 2) partialRounds[n - 1] (by omega), partialRounds[n - 1],
    ?_, hpartials, ?_⟩
  · simp only [parametersByInputs, Array.getElem?_map, List.getElem?_toArray,
      List.getElem?_zipIdx, hpartials, Option.map_some, Nat.zero_add]
  · rw [← hwidth]
    exact Parameters.fits_generate _ _ _

end Poseidon

end CompressedLedger
