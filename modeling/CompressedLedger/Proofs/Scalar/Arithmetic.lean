import CompressedLedger.Scalar.Basic
import Mathlib.Algebra.Ring.MinimalAxioms
import Mathlib.Data.ZMod.Basic
import Mathlib.Tactic.Ring

/-!
# Calculations with scalars

A calculation starts from a scalar and takes steps: it adds a scalar to what it has, subtracts one,
subtracts what it has from one, or multiplies by one (`Step`).  With scalars every step ends in a
reduction (`Step.onScalar`); with integers nothing is ever reduced (`Step.onInteger`).  The scalar
reached is the residue of the integer reached (`toZMod_calculate`), because each operation of the
field is the operation of `ZMod modulus` under the embedding `toZMod`.

The operators themselves work on unsigned numbers, among which a difference below zero does not
exist (`Operator.onBorrowed`).  They stay clear of it on all numbers below the modulus
(`Operator.on_eq_some`), and so does every calculation (`calculateNumber_eq_some`).

`toZMod` is injective, so the laws of a commutative ring hold for scalars (`commRing`).
-/

namespace CompressedLedger.Scalar

/-! ### Scalars as residues -/

/-- The residue class of a scalar. -/
def toZMod (a : Scalar) : ZMod modulus := (a.val : ZMod modulus)

theorem toZMod_injective : Function.Injective toZMod := by
  intro a b h
  apply Scalar.ext
  have hmod := (ZMod.natCast_eq_natCast_iff' a.val b.val modulus).mp h
  rwa [Nat.mod_eq_of_lt a.isLt, Nat.mod_eq_of_lt b.isLt] at hmod

@[simp] theorem toZMod_residue (n : ℕ) : toZMod (residue n) = (n : ZMod modulus) := by
  rw [toZMod, val_residue, ZMod.natCast_mod]

@[simp] theorem toZMod_zero : toZMod 0 = 0 := by
  rw [toZMod, val_zero, Nat.cast_zero]

@[simp] theorem toZMod_ofUInt64_one : toZMod (ofUInt64 1) = 1 := Nat.cast_one

@[simp] theorem toZMod_add (a b : Scalar) : toZMod (a + b) = toZMod a + toZMod b := by
  unfold toZMod
  rw [val_add, ZMod.natCast_mod, Nat.cast_add]

/-- The modulus that is added first keeps the difference from falling below zero. -/
theorem val_le_val_add_modulus (a b : Scalar) : b.val ≤ a.val + modulus :=
  b.isLt.le.trans (Nat.le_add_left modulus a.val)

@[simp] theorem toZMod_sub (a b : Scalar) : toZMod (a - b) = toZMod a - toZMod b := by
  unfold toZMod
  rw [val_sub, ZMod.natCast_mod, Nat.cast_sub (val_le_val_add_modulus a b), Nat.cast_add,
    ZMod.natCast_self, add_zero]

@[simp] theorem toZMod_mul (a b : Scalar) : toZMod (a * b) = toZMod a * toZMod b := by
  unfold toZMod
  rw [val_mul, ZMod.natCast_mod, Nat.cast_mul]

/-- A scalar in the class of an integer is that integer's remainder. -/
theorem val_eq_emod_of_toZMod_eq {a : Scalar} {z : ℤ} (h : toZMod a = (z : ZMod modulus)) :
    (a.val : ℤ) = z % modulus := by
  have hcast : ((a.val : ℤ) : ZMod modulus) = (z : ZMod modulus) := by
    rw [Int.cast_natCast]
    exact h
  have hmod : (a.val : ℤ) % modulus = z % modulus :=
    (ZMod.intCast_eq_intCast_iff (a.val : ℤ) z modulus).mp hcast
  have hlt : (a.val : ℤ) < modulus := by exact_mod_cast a.isLt
  rwa [Int.emod_eq_of_lt (Int.natCast_nonneg a.val) hlt] at hmod

/-! ### The ring -/

protected theorem add_assoc (a b c : Scalar) : a + b + c = a + (b + c) := by
  apply toZMod_injective
  simp only [toZMod_add]
  ring

protected theorem zero_add (a : Scalar) : 0 + a = a := by
  apply toZMod_injective
  rw [toZMod_add, toZMod_zero, zero_add]

theorem zero_sub_add_self (a : Scalar) : 0 - a + a = 0 := by
  apply toZMod_injective
  simp only [toZMod_add, toZMod_sub, toZMod_zero]
  ring

theorem add_zero_sub (a b : Scalar) : a + (0 - b) = a - b := by
  apply toZMod_injective
  simp only [toZMod_add, toZMod_sub, toZMod_zero]
  ring

theorem add_sub_self_right (a b : Scalar) : a + b - b = a := by
  apply toZMod_injective
  simp only [toZMod_add, toZMod_sub]
  ring

protected theorem mul_assoc (a b c : Scalar) : a * b * c = a * (b * c) := by
  apply toZMod_injective
  simp only [toZMod_mul]
  ring

protected theorem mul_comm (a b : Scalar) : a * b = b * a := by
  apply toZMod_injective
  rw [toZMod_mul, toZMod_mul, mul_comm]

theorem ofUInt64_one_mul (a : Scalar) : ofUInt64 1 * a = a := by
  apply toZMod_injective
  rw [toZMod_mul, toZMod_ofUInt64_one, one_mul]

protected theorem mul_add (a b c : Scalar) : a * (b + c) = a * b + a * c := by
  apply toZMod_injective
  simp only [toZMod_add, toZMod_mul]
  ring

/-- The ring of scalars.  Its sum and product are the operators of the field, its zero and one the
scalars of these words, and its negative is a difference from zero. -/
@[reducible] def commRing : CommRing Scalar :=
  letI : One Scalar := ⟨ofUInt64 1⟩
  letI : Neg Scalar := ⟨fun a => 0 - a⟩
  CommRing.ofMinimalAxioms Scalar.add_assoc Scalar.zero_add zero_sub_add_self Scalar.mul_assoc
    Scalar.mul_comm ofUInt64_one_mul Scalar.mul_add

/-! ### Operators on unsigned numbers -/

/-- The operators of the field. -/
inductive Operator where
  | add
  | sub
  | mul
deriving DecidableEq

/-- How an operator comes by its operands: it borrows them, or it takes them over. -/
inductive Passing where
  | borrowed
  | owned
deriving DecidableEq

namespace Operator

/-- The operator on borrowed operands: one operation on unsigned numbers and one reduction.  A
difference below zero does not exist. -/
def onBorrowed : Operator → ℕ → ℕ → Option ℕ
  | add, a, b => some ((a + b) % modulus)
  | sub, a, b => if b ≤ a + modulus then some ((a + modulus - b) % modulus) else none
  | mul, a, b => some (a * b % modulus)

/-- The operator on operands it takes over, which it lends to the other one. -/
def onOwned (op : Operator) (a b : ℕ) : Option ℕ := op.onBorrowed a b

/-- The operator on the numbers of its operands. -/
def on (op : Operator) (p : Passing) (a b : ℕ) : Option ℕ :=
  match p with
  | .borrowed => op.onBorrowed a b
  | .owned => op.onOwned a b

/-- The operator on scalars. -/
def onScalars : Operator → Scalar → Scalar → Scalar
  | add, a, b => a + b
  | sub, a, b => a - b
  | mul, a, b => a * b

/-- The operator on integers. -/
def onIntegers : Operator → ℤ → ℤ → ℤ
  | add, a, b => a + b
  | sub, a, b => a - b
  | mul, a, b => a * b

/-- On the numbers of two scalars every operator has a value, the number of a scalar again. -/
theorem on_eq_some (op : Operator) (p : Passing) (a b : Scalar) :
    op.on p a.val b.val = some (op.onScalars a b).val := by
  have hborrowed : op.onBorrowed a.val b.val = some (op.onScalars a b).val := by
    cases op with
    | add => rfl
    | sub => exact if_pos (val_le_val_add_modulus a b)
    | mul => rfl
  cases p with
  | borrowed => exact hborrowed
  | owned => exact hborrowed

theorem toZMod_onScalars (op : Operator) {a b : Scalar} {y z : ℤ}
    (ha : toZMod a = (y : ZMod modulus)) (hb : toZMod b = (z : ZMod modulus)) :
    toZMod (op.onScalars a b) = (op.onIntegers y z : ZMod modulus) := by
  cases op with
  | add => rw [onScalars, onIntegers, toZMod_add, ha, hb, Int.cast_add]
  | sub => rw [onScalars, onIntegers, toZMod_sub, ha, hb, Int.cast_sub]
  | mul => rw [onScalars, onIntegers, toZMod_mul, ha, hb, Int.cast_mul]

end Operator

/-! ### Calculations -/

/-- A step of a calculation: an operator, its other operand, and whether that one comes first. -/
structure Step where
  operator : Operator
  passing : Passing
  operand : Scalar
  operandFirst : Bool

namespace Step

/-- An operation on what is reached so far and the other operand, in the order of the step. -/
def ordered {α β : Type} (s : Step) (f : α → α → β) (reached operand : α) : β :=
  if s.operandFirst then f operand reached else f reached operand

/-- The step on an unsigned number. -/
def onNumber (n : ℕ) (s : Step) : Option ℕ :=
  s.ordered (s.operator.on s.passing) n s.operand.val

/-- The step on a scalar. -/
def onScalar (a : Scalar) (s : Step) : Scalar :=
  s.ordered s.operator.onScalars a s.operand

/-- The step on an integer. -/
def onInteger (z : ℤ) (s : Step) : ℤ :=
  s.ordered s.operator.onIntegers z s.operand.val

theorem onNumber_eq_some (a : Scalar) (s : Step) :
    onNumber a.val s = some (onScalar a s).val := by
  unfold onNumber onScalar ordered
  split_ifs
  · exact s.operator.on_eq_some s.passing s.operand a
  · exact s.operator.on_eq_some s.passing a s.operand

theorem toZMod_onScalar {a : Scalar} {z : ℤ} (h : toZMod a = (z : ZMod modulus)) (s : Step) :
    toZMod (onScalar a s) = (onInteger z s : ZMod modulus) := by
  have hoperand : toZMod s.operand = ((s.operand.val : ℤ) : ZMod modulus) :=
    (Int.cast_natCast s.operand.val).symm
  unfold onScalar onInteger ordered
  split_ifs
  · exact s.operator.toZMod_onScalars hoperand h
  · exact s.operator.toZMod_onScalars h hoperand

end Step

/-- The scalar that a calculation reaches. -/
def calculate (start : Scalar) (steps : List Step) : Scalar := steps.foldl Step.onScalar start

/-- The number that a calculation reaches on unsigned numbers, if every step has one. -/
def calculateNumber (start : ℕ) (steps : List Step) : Option ℕ := steps.foldlM Step.onNumber start

/-- The integer that a calculation reaches, with no reduction at any step. -/
def calculateInteger (start : ℤ) (steps : List Step) : ℤ := steps.foldl Step.onInteger start

theorem calculateNumber_eq_some (start : Scalar) (steps : List Step) :
    calculateNumber start.val steps = some (calculate start steps).val := by
  induction steps generalizing start with
  | nil => rfl
  | cons s rest ih =>
    have hrest := ih (Step.onScalar start s)
    unfold calculateNumber calculate at hrest ⊢
    rw [List.foldlM_cons, Step.onNumber_eq_some, List.foldl_cons]
    exact hrest

/-- Reducing after every step or never makes no difference to the residue class. -/
theorem toZMod_calculate {start : Scalar} {z : ℤ} (h : toZMod start = (z : ZMod modulus))
    (steps : List Step) :
    toZMod (calculate start steps) = (calculateInteger z steps : ZMod modulus) := by
  induction steps generalizing start z with
  | nil => exact h
  | cons s rest ih => exact ih (Step.toZMod_onScalar h s)

/-- **Field arithmetic is exact.**  Take any calculation, with operators that borrow their operands
or take them over.  On unsigned numbers no step asks for a difference below zero, and the number
reached is that of the scalar reached.  It lies below the modulus, and it is the remainder of the
integer that the same steps reach without a reduction.  A calculation cut short is a calculation,
so this is so after every step.

The operators of the field are those of a commutative ring, and adding and subtracting a scalar
leaves every scalar as it was. -/
theorem calculation_exact (start : Scalar) (steps : List Step) :
    calculateNumber start.val steps = some (calculate start steps).val ∧
    (calculate start steps).val < modulus ∧
    ((calculate start steps).val : ℤ) = calculateInteger start.val steps % modulus ∧
    (commRing.zero = 0 ∧ commRing.one = ofUInt64 1) ∧
    (∀ a b : Scalar, commRing.add a b = a + b ∧ commRing.sub a b = a - b ∧
      commRing.mul a b = a * b ∧ a + b - b = a) := by
  have hstart : toZMod start = ((start.val : ℤ) : ZMod modulus) :=
    (Int.cast_natCast start.val).symm
  refine ⟨calculateNumber_eq_some start steps, (calculate start steps).isLt, ?_, ⟨rfl, rfl⟩, ?_⟩
  · exact val_eq_emod_of_toZMod_eq (toZMod_calculate hstart steps)
  · intro a b
    exact ⟨rfl, add_zero_sub a b, rfl, add_sub_self_right a b⟩

/-- One less two, and that from three: the scalars go round the modulus, the integers below zero. -/
example :
    let steps : List Step :=
      [⟨.sub, .owned, ofUInt64 2, false⟩, ⟨.sub, .borrowed, ofUInt64 3, true⟩]
    (calculate (ofUInt64 1) (steps.take 1)).val = modulus - 1 ∧
      calculateInteger 1 (steps.take 1) = -1 ∧ calculate (ofUInt64 1) steps = ofUInt64 4 := by
  decide

end CompressedLedger.Scalar
