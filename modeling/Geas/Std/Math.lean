import Geas.Lib.Loop
import Geas.Std.Arith

/-!
# The integer side of `std.math`

The pledges of `MathOps` on `Int`.  `pow_int` looks at every product before it takes it and
gives up at the first one that does not fit; it is exact because a power that does not fit
has no multiple that fits again, so the last power decides for all of them.
-/

namespace Geas.Std

open Geas.Lib (Round Loop)

inductive GeasMathError where
  | domainError | overflowed
  deriving DecidableEq, Repr

namespace MathOps

def intMax : Run Int64 := .ok 9223372036854775807

def intMin : Run Int64 := do
  sub (← neg 9223372036854775807) 1

def mulOverflows (a b : Int64) : Run Bool := overflows intMax intMin a b

def abs (n : Int64) : Run (Except GeasMathError Int64) := do
  if n = (← intMin) then
    return .error .overflowed
  if n < 0 then
    return .ok (← neg n)
  return .ok n

def clamp (x lo hi : Int64) : Run (Except GeasMathError Int64) := do
  if lo > hi then
    return .error .domainError
  if x < lo then
    return .ok lo
  if x > hi then
    return .ok hi
  return .ok x

/-- The variables of the loop of `pow_int`. -/
structure PowState where
  acc : Int64
  i : Int64

/-- The body of the loop; `none` is its return with `Overflowed`. -/
def powBody (base : Int64) (state : PowState) : Run (Option PowState) := do
  if ← mulOverflows state.acc base then
    return none
  let acc ← mul state.acc base
  let i ← add state.i 1
  return some ⟨acc, i⟩

theorem powBody_next {base : Int64} {state next : PowState}
    (goes : powBody base state = .ok (some next)) :
    next.acc.toInt = state.acc.toInt * base.toInt ∧ next.i.toInt = state.i.toInt + 1 := by
  simp only [powBody, bind, Except.bind, pure, Except.pure] at goes
  split at goes
  · cases goes
  split at goes
  · cases goes
  split at goes
  · cases goes
  rename_i acc multiplies
  split at goes
  · cases goes
  rename_i i counts
  cases goes
  exact ⟨(exactly_ok multiplies).2, (exactly_ok counts).2⟩

def powTurn (base exp : Int64) (state : PowState) :
    Round PowState (Run (Except GeasMathError Int64)) :=
  if state.i < exp then
    match powBody base state with
    | .error fault => .stop (.error fault)
    | .ok none => .stop (.ok (.error .overflowed))
    | .ok (some next) => .again next
  else .stop (.ok (.ok state.acc))

def powLoop (base exp : Int64) : Loop PowState (Run (Except GeasMathError Int64)) where
  turn := powTurn base exp
  size state := (exp.toInt - state.i.toInt).toNat
  shrinks := by
    intro state next turned
    rw [powTurn] at turned
    split at turned
    · rename_i less
      split at turned <;> cases turned
      rename_i goes
      have counted := (powBody_next goes).2
      have before := Int64.lt_iff_toInt_lt.mp less
      omega
    · cases turned

def powInt (base exp : Int64) : Run (Except GeasMathError Int64) :=
  if exp < 0 then .ok (.error .domainError)
  else (powLoop base exp).run ⟨1, 0⟩

/-! ### Exactness -/

theorem intMax_eq : intMax = .ok Int64.maxValue := rfl

theorem intMin_eq : intMin = .ok Int64.minValue := by decide

/-- `mul_overflows` never faults, and holds exactly of the products that do not fit. -/
theorem mulOverflows_eq (a b : Int64) :
    mulOverflows a b = .ok (decide (¬ Fits (a.toInt * b.toInt))) :=
  overflows_eq intMax_eq intMin_eq a b

/-- The magnitude is exact unless it is the one that does not fit. -/
theorem abs_eq (n : Int64) :
    abs n = .ok (if Fits |n.toInt| then .ok (.ofInt |n.toInt|) else .error .overflowed) := by
  have bounds := fits_toInt n
  rw [abs, intMin_eq]
  simp only [bind, Except.bind, pure, Except.pure]
  by_cases smallest : n = Int64.minValue
  · subst smallest
    decide
  have above : -2 ^ 63 < n.toInt := by
    have differs := mt Int64.toInt_inj.mp smallest
    have bottom : Int64.minValue.toInt = -2 ^ 63 := rfl
    unfold Fits at bounds
    omega
  have fits : Fits |n.toInt| := by
    unfold Fits at *
    rcases abs_cases n.toInt with ⟨same, _⟩ | ⟨flipped, _⟩ <;> omega
  rw [if_neg smallest, if_pos fits]
  by_cases negative : n < 0
  · have sign := Int64.lt_iff_toInt_lt.mp negative
    rw [Int64.toInt_zero] at sign
    rw [abs_of_neg sign] at fits ⊢
    rw [if_pos negative, neg, exactly_fits fits]
  · have sign := mt Int64.lt_iff_toInt_lt.mpr negative
    rw [Int64.toInt_zero, not_lt] at sign
    rw [if_neg negative, abs_of_nonneg sign, (ofInt_eq_iff bounds).mpr rfl]

/-- A power that does not fit has no multiple that fits again. -/
theorem not_fits_pow {base : Int} {k n : Nat} (wraps : ¬ Fits (base ^ k)) (later : k ≤ n) :
    ¬ Fits (base ^ n) := by
  have large : 2 ^ 63 ≤ base.natAbs ^ k := by
    rw [← Int.natAbs_pow]
    unfold Fits at wraps
    omega
  have two : 2 ≤ base.natAbs := by
    by_contra small
    have atMost : base.natAbs ^ k ≤ 1 := pow_le_one₀ (Nat.zero_le _) (by omega)
    omega
  induction later with
  | refl => exact wraps
  | step later ih =>
      rename_i m
      have reached : 2 ^ 63 ≤ base.natAbs ^ m :=
        large.trans (Nat.pow_le_pow_right (by omega) later)
      have next : 2 ^ 64 ≤ (base ^ (m + 1)).natAbs := by
        rw [Int.natAbs_pow, pow_succ]
        calc 2 ^ 64 = 2 ^ 63 * 2 := by norm_num
          _ ≤ base.natAbs ^ m * base.natAbs := Nat.mul_le_mul reached two
      intro fits
      unfold Fits at fits
      rw [Nat.succ_eq_add_one] at fits
      omega

/-- What `pow_int` answers for an exponent that is not negative. -/
def power (base exp : Int64) : Except GeasMathError Int64 :=
  if Fits (base.toInt ^ exp.toInt.toNat) then .ok (.ofInt (base.toInt ^ exp.toInt.toNat))
  else .error .overflowed

/-- The loop of `pow_int` has a power of its base before every turn. -/
structure Powers (base exp : Int64) (state : PowState) : Prop where
  acc : state.acc.toInt = base.toInt ^ state.i.toInt.toNat
  low : 0 ≤ state.i.toInt
  high : state.i.toInt ≤ exp.toInt

namespace Powers

variable {base exp : Int64} {state : PowState}

/-- One turn takes the next power when it fits. -/
theorem body (powers : Powers base exp state) (less : state.i.toInt < exp.toInt) :
    (¬ Fits (base.toInt ^ (state.i.toInt.toNat + 1)) ∧ powBody base state = .ok none) ∨
      ∃ next, powBody base state = .ok (some next) ∧ Powers base exp next := by
  have product : state.acc.toInt * base.toInt = base.toInt ^ (state.i.toInt.toNat + 1) := by
    rw [powers.acc, pow_succ]
  by_cases fits : Fits (base.toInt ^ (state.i.toInt.toNat + 1))
  · have counts : Fits (state.i.toInt + (1 : Int64).toInt) := by
      have top := fits_toInt exp
      have bottom := powers.low
      rw [Int64.toInt_one]
      unfold Fits at *
      omega
    have guard : mulOverflows state.acc base = .ok false := by
      rw [mulOverflows_eq, product, decide_eq_false (not_not.mpr fits)]
    have multiplies := exactly_fits (product ▸ fits)
    have goes : powBody base state = .ok (some ⟨.ofInt (state.acc.toInt * base.toInt),
        .ofInt (state.i.toInt + (1 : Int64).toInt)⟩) := by
      simp only [powBody, guard, mul, multiplies, add, exactly_fits counts, bind, Except.bind, pure,
        Except.pure, Bool.false_eq_true, if_false]
    obtain ⟨acc, i⟩ := powBody_next goes
    refine .inr ⟨_, goes, ?_, ?_, ?_⟩
    · rw [acc, i, product, Int.toNat_add powers.low (by decide)]
      rfl
    · rw [i]
      exact Int.add_nonneg powers.low (by decide)
    · rw [i]
      exact less
  · have guard : mulOverflows state.acc base = .ok true := by
      rw [mulOverflows_eq, product, decide_eq_true fits]
    refine .inl ⟨fits, ?_⟩
    simp only [powBody, guard, bind, Except.bind, pure, Except.pure, if_true]

/-- The loop answers for its base and exponent from wherever it is. -/
theorem run (powers : Powers base exp state) :
    (powLoop base exp).run state = .ok (power base exp) := by
  refine (powLoop base exp).run_invariant (Powers base exp) (· = .ok (power base exp))
    ?_ ?_ powers
  · intro state next powers turned
    simp only [powLoop, powTurn] at turned
    split at turned
    · rename_i less
      obtain ⟨_, stops⟩ | ⟨next', goes, kept⟩ := powers.body (Int64.lt_iff_toInt_lt.mp less)
      · rw [stops] at turned
        cases turned
      · rw [goes] at turned
        cases turned
        exact kept
    · cases turned
  · intro state result powers turned
    simp only [powLoop, powTurn] at turned
    split at turned
    · rename_i less
      have before := Int64.lt_iff_toInt_lt.mp less
      have low := powers.low
      obtain ⟨wraps, stops⟩ | ⟨next', goes, _⟩ := powers.body before
      · rw [stops] at turned
        cases turned
        rw [power, if_neg (not_fits_pow wraps (by omega))]
      · rw [goes] at turned
        cases turned
    · rename_i last
      cases turned
      have ends : state.i.toInt = exp.toInt :=
        le_antisymm powers.high (not_lt.mp (mt Int64.lt_iff_toInt_lt.mpr last))
      have acc := powers.acc
      rw [ends] at acc
      rw [power, ← acc, if_pos (fits_toInt _), (ofInt_eq_iff (fits_toInt _)).mpr rfl]

end Powers

/-- `pow_int` never faults. -/
theorem powInt_eq (base exp : Int64) :
    powInt base exp = .ok (if exp.toInt < 0 then .error .domainError else power base exp) := by
  rw [powInt]
  by_cases negative : exp < 0
  · have sign := Int64.lt_iff_toInt_lt.mp negative
    rw [Int64.toInt_zero] at sign
    rw [if_pos negative, if_pos sign]
  · have sign := mt Int64.lt_iff_toInt_lt.mpr negative
    rw [Int64.toInt_zero] at sign
    rw [if_neg negative, if_neg sign]
    exact Powers.run ⟨(pow_zero base.toInt).symm, le_refl 0, not_lt.mp sign⟩

/-- The guard tells exactly which products fit, and a power is answered exactly or refused
for the reason that holds; neither computation meets a fault. -/
theorem math_exact :
    (∀ a b : Int64, ∃ answer, mulOverflows a b = .ok answer ∧
      (answer = true ↔ ¬ Fits (a.toInt * b.toInt))) ∧
    ∀ base exp : Int64, ∃ answer, powInt base exp = .ok answer ∧
      (answer = .error .domainError ↔ exp.toInt < 0) ∧
      (∀ p, answer = .ok p ↔ 0 ≤ exp.toInt ∧ p.toInt = base.toInt ^ exp.toInt.toNat) ∧
      (answer = .error .overflowed ↔
        0 ≤ exp.toInt ∧ ¬ Fits (base.toInt ^ exp.toInt.toNat)) := by
  refine ⟨fun a b => ⟨_, mulOverflows_eq a b, decide_eq_true_iff⟩, fun base exp => ?_⟩
  refine ⟨_, powInt_eq base exp, ?_⟩
  by_cases negative : exp.toInt < 0
  · simp [negative, not_le.mpr negative]
  · rw [if_neg negative, power]
    generalize base.toInt ^ exp.toInt.toNat = exact
    by_cases fits : Fits exact
    · simp [negative, not_lt.mp negative, fits, ofInt_eq_iff fits, @eq_comm _ exact]
    · have none (p : Int64) : p.toInt ≠ exact := fun same => fits (same ▸ fits_toInt p)
      simp [negative, not_lt.mp negative, fits, none]

end MathOps

end Geas.Std
