import Mathlib.Tactic.Linarith

/-!
# Arithmetic of the lowered language

An operator on `Int` is lowered to the same operator of C on two 64-bit signed numbers, with
no check in front of it.  C leaves it undefined where the exact result does not fit and where
a division has no result, so an operator here is a computation that faults exactly there, and
a run without a fault is a run whose every result was the exact one.
-/

namespace Geas.Std

/-- Why an operator of C is undefined. -/
inductive Fault where
  | wraps | divByZero | minByMinusOne
  deriving DecidableEq, Repr

/-- A computation that may meet a fault. -/
abbrev Run := Except Fault

/-- The numbers that an `Int` holds. -/
def Fits (n : Int) : Prop := -2 ^ 63 ≤ n ∧ n < 2 ^ 63

instance : DecidablePred Fits := fun n => inferInstanceAs (Decidable (-2 ^ 63 ≤ n ∧ n < 2 ^ 63))

/-- An exact result where it fits. -/
def exactly (n : Int) : Run Int64 :=
  if Fits n then .ok (.ofInt n) else .error .wraps

def add (a b : Int64) : Run Int64 := exactly (a.toInt + b.toInt)

def sub (a b : Int64) : Run Int64 := exactly (a.toInt - b.toInt)

def mul (a b : Int64) : Run Int64 := exactly (a.toInt * b.toInt)

def neg (a : Int64) : Run Int64 := exactly (-a.toInt)

/-- Division in C drops the fraction. -/
def div (a b : Int64) : Run Int64 :=
  if b = 0 then .error .divByZero
  else if a = Int64.minValue ∧ b = -1 then .error .minByMinusOne
  else .ok (.ofInt (a.toInt.tdiv b.toInt))

variable {a b : Int64} {n : Int}

theorem fits_toInt (a : Int64) : Fits a.toInt := ⟨a.le_toInt, a.toInt_lt⟩

theorem toInt_ofInt (fits : Fits n) : (Int64.ofInt n).toInt = n :=
  Int64.toInt_ofInt_of_le fits.1 fits.2

theorem ofInt_eq_iff (fits : Fits n) : Int64.ofInt n = a ↔ n = a.toInt := by
  rw [← Int64.toInt_inj, toInt_ofInt fits]

theorem toInt_eq_zero : a.toInt = 0 ↔ a = 0 := by
  rw [← Int64.toInt_zero, Int64.toInt_inj]

/-! ### When an operator faults -/

theorem exactly_fits (fits : Fits n) : exactly n = .ok (.ofInt n) := if_pos fits

theorem exactly_wraps (wraps : ¬ Fits n) : exactly n = .error .wraps := if_neg wraps

/-- An operator that answers answers exactly. -/
theorem exactly_ok (answers : exactly n = .ok a) : Fits n ∧ a.toInt = n := by
  by_cases fits : Fits n
  · rw [exactly_fits fits, Except.ok.injEq, ofInt_eq_iff fits] at answers
    exact ⟨fits, answers.symm⟩
  · rw [exactly_wraps fits] at answers
    cases answers

/-- The one quotient out of the range is the smallest number by minus one. -/
theorem fits_tdiv (nonzero : b.toInt ≠ 0) (inside : -2 ^ 63 < a.toInt ∨ b.toInt ≠ -1) :
    Fits (a.toInt.tdiv b.toInt) := by
  have size := Int.natAbs_tdiv_le_natAbs a.toInt b.toInt
  have bounds := fits_toInt a
  unfold Fits at *
  by_cases unit : b.toInt = 1 ∨ b.toInt = -1
  · rcases unit with one | minusOne
    · rw [one, Int.tdiv_one]
      exact bounds
    · rw [minusOne, Int.tdiv_neg, Int.tdiv_one]
      omega
  · have half : (a.toInt.tdiv b.toInt).natAbs ≤ a.toInt.natAbs / 2 := by
      rw [Int.natAbs_tdiv]
      exact Nat.div_le_div_left (by omega) (by decide)
    omega

/-- Any other division by a number that is not zero answers the exact quotient. -/
theorem div_ok (nonzero : b.toInt ≠ 0) (inside : -2 ^ 63 < a.toInt ∨ b.toInt ≠ -1) :
    ∃ quotient, div a b = .ok quotient ∧ quotient.toInt = a.toInt.tdiv b.toInt := by
  refine ⟨.ofInt (a.toInt.tdiv b.toInt), ?_, toInt_ofInt (fits_tdiv nonzero inside)⟩
  rw [div, if_neg (fun zero => nonzero (toInt_eq_zero.mpr zero)), if_neg]
  rintro ⟨rfl, rfl⟩
  exact absurd inside (by decide)

/-! ### Products that are looked at before they are taken -/

/-- Whether a product leaves the range, told by quotients of its bounds. -/
def overflows (max min : Run Int64) (a b : Int64) : Run Bool := do
  if a = 0 ∨ b = 0 then
    return false
  if a > 0 then
    if b > 0 then
      return decide (a > (← div (← max) b))
    return decide (b < (← div (← min) a))
  if b > 0 then
    return decide (a < (← div (← min) b))
  return decide (b < (← div (← max) a))

/-- A number is past the quotient of a bound exactly when its multiple is past the bound. -/
theorem tdiv_lt_iff {bound k : Int} (nonneg : 0 ≤ bound) (positive : 0 < k) :
    bound.tdiv k < n ↔ bound < n * k := by
  rw [Int.tdiv_eq_ediv_of_nonneg nonneg, Int.ediv_lt_iff_lt_mul positive]

/-- The same below a bound that is not positive. -/
theorem lt_tdiv_iff {bound k : Int} (nonpos : bound ≤ 0) (positive : 0 < k) :
    n < bound.tdiv k ↔ n * k < bound := by
  have above := @tdiv_lt_iff (-n) (-bound) k (by omega) positive
  rw [Int.neg_tdiv, Int.neg_mul] at above
  omega

/-- The guard never faults, and holds exactly of the products that do not fit. -/
theorem overflows_eq {max min : Run Int64} (isMax : max = .ok Int64.maxValue)
    (isMin : min = .ok Int64.minValue) (a b : Int64) :
    overflows max min a b = .ok (decide (¬ Fits (a.toInt * b.toInt))) := by
  subst isMax isMin
  have top : Int64.maxValue.toInt = 2 ^ 63 - 1 := rfl
  have bottom : Int64.minValue.toInt = -2 ^ 63 := rfl
  by_cases zero : a = 0 ∨ b = 0
  · have product : a.toInt * b.toInt = 0 := by
      rcases zero with rfl | rfl <;> simp
    rw [product, overflows, if_pos zero]
    rfl
  have nonzero : a.toInt ≠ 0 ∧ b.toInt ≠ 0 := by
    simpa only [ne_eq, toInt_eq_zero, not_or] using zero
  rw [overflows, if_neg zero]
  simp only [gt_iff_lt, Int64.lt_iff_toInt_lt, Int64.toInt_zero, Fits]
  -- A product of two signs can leave the range at one end only.
  rcases Int.lt_or_gt_of_ne nonzero.1 with aNeg | aPos <;>
    rcases Int.lt_or_gt_of_ne nonzero.2 with bNeg | bPos
  · obtain ⟨quotient, divides, exact⟩ := @div_ok Int64.maxValue a nonzero.1 (.inl (by decide))
    have product := Int.mul_pos_of_neg_of_neg aNeg bNeg
    have past := @tdiv_lt_iff (-b.toInt) (2 ^ 63 - 1) (-a.toInt) (by decide) (by omega)
    rw [Int.tdiv_neg, Int.neg_mul_neg, Int.mul_comm, ← top, ← exact, top] at past
    simp only [show ¬ 0 < a.toInt by omega, show ¬ 0 < b.toInt by omega, if_false, bind,
      Except.bind, divides, pure, Except.pure, Except.ok.injEq]
    exact decide_eq_decide.mpr (by omega)
  · obtain ⟨quotient, divides, exact⟩ := @div_ok Int64.minValue b nonzero.2 (.inr (by omega))
    have product := Int.mul_neg_of_neg_of_pos aNeg bPos
    have past := @lt_tdiv_iff a.toInt (-2 ^ 63) b.toInt (by decide) bPos
    rw [← bottom, ← exact, bottom] at past
    simp only [show ¬ 0 < a.toInt by omega, bPos, if_false, if_true, bind,
      Except.bind, divides, pure, Except.pure, Except.ok.injEq]
    exact decide_eq_decide.mpr (by omega)
  · obtain ⟨quotient, divides, exact⟩ := @div_ok Int64.minValue a nonzero.1 (.inr (by omega))
    have product := Int.mul_neg_of_pos_of_neg aPos bNeg
    have past := @lt_tdiv_iff b.toInt (-2 ^ 63) a.toInt (by decide) aPos
    rw [← bottom, ← exact, bottom, Int.mul_comm] at past
    simp only [aPos, show ¬ 0 < b.toInt by omega, if_false, if_true, bind,
      Except.bind, divides, pure, Except.pure, Except.ok.injEq]
    exact decide_eq_decide.mpr (by omega)
  · obtain ⟨quotient, divides, exact⟩ := @div_ok Int64.maxValue b nonzero.2 (.inl (by decide))
    have product := Int.mul_pos aPos bPos
    have past := @tdiv_lt_iff a.toInt (2 ^ 63 - 1) b.toInt (by decide) bPos
    rw [← top, ← exact, top] at past
    simp only [aPos, bPos, if_true, bind, Except.bind, divides, pure, Except.pure,
      Except.ok.injEq]
    exact decide_eq_decide.mpr (by omega)

end Geas.Std
