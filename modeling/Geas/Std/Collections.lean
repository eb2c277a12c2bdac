import Geas.Std.Arith
import Mathlib.Algebra.BigOperators.Group.List.Lemmas

/-!
# The reductions of `std.collections`

`sum` and `product` walk a list with an accumulator.  `product` looks at every product before
it takes it, as the header of the module says; `sum` adds without looking, so it is exact just
on the lists of which no beginning has a sum that does not fit.
-/

namespace Geas.Std

/-- `CommonError` of `std.errors`. -/
inductive CommonError where
  | notFound | invalid | exhausted
  deriving DecidableEq, Repr

namespace ListOps

def listIntMax : Run Int64 := .ok 9223372036854775807

def listIntMin : Run Int64 := do
  sub (← neg 9223372036854775807) 1

def listMulOverflows (a b : Int64) : Run Bool := overflows listIntMax listIntMin a b

def sum (xs : List Int64) : Run (Except CommonError Int64) := do
  let total ← xs.foldlM add 0
  return .ok total

/-- The loop of `product`, from an accumulator. -/
def productFrom (acc : Int64) : List Int64 → Run (Except CommonError Int64)
  | [] => .ok (.ok acc)
  | x :: xs => do
      if ← listMulOverflows acc x then
        return .error .invalid
      productFrom (← mul acc x) xs

def product (xs : List Int64) : Run (Except CommonError Int64) := productFrom 1 xs

/-! ### Exact totals -/

/-- The exact sum of a list. -/
def exactSum (xs : List Int64) : Int := (xs.map Int64.toInt).sum

/-- The exact product of a list. -/
def exactProduct (xs : List Int64) : Int := (xs.map Int64.toInt).prod

@[simp] theorem exactSum_nil : exactSum [] = 0 := rfl

@[simp] theorem exactSum_cons (x : Int64) (xs : List Int64) :
    exactSum (x :: xs) = x.toInt + exactSum xs := by
  simp [exactSum]

@[simp] theorem exactProduct_nil : exactProduct [] = 1 := rfl

@[simp] theorem exactProduct_cons (x : Int64) (xs : List Int64) :
    exactProduct (x :: xs) = x.toInt * exactProduct xs := by
  simp [exactProduct]

/-- Every beginning of a list has a total that fits. -/
def BeginningsFit (total : List Int64 → Int) (xs : List Int64) : Prop :=
  ∀ beginning, beginning <+: xs → Fits (total beginning)

variable {total : List Int64 → Int}

theorem beginningsFit_nil : BeginningsFit total [] ↔ Fits (total []) := by
  simp [BeginningsFit]

theorem beginningsFit_cons {x : Int64} {xs : List Int64} :
    BeginningsFit total (x :: xs) ↔
      Fits (total []) ∧ BeginningsFit (fun rest => total (x :: rest)) xs := by
  constructor
  · intro fits
    exact ⟨fits [] List.nil_prefix, fun rest inside =>
      fits (x :: rest) (List.cons_prefix_cons.mpr ⟨rfl, inside⟩)⟩
  · rintro ⟨empty, rest⟩ beginning inside
    rcases List.prefix_cons_iff.mp inside with rfl | ⟨tail, rfl, behind⟩
    · exact empty
    · exact rest tail behind

theorem BeginningsFit.empty {xs : List Int64} (fits : BeginningsFit total xs) :
    Fits (total []) :=
  fits [] List.nil_prefix

/-! ### Sums -/

/-- The loop of `sum` comes through exactly when no addition of it wraps. -/
theorem foldlM_add_eq_ok {start s : Int64} {xs : List Int64} :
    xs.foldlM add start = .ok s ↔
      BeginningsFit (fun rest => start.toInt + exactSum rest) xs ∧
        s.toInt = start.toInt + exactSum xs := by
  induction xs generalizing start with
  | nil =>
      simp only [List.foldlM_nil, beginningsFit_nil, exactSum_nil, Int.add_zero, fits_toInt,
        true_and, Int64.toInt_inj, pure, Except.pure, Except.ok.injEq]
      exact eq_comm
  | cons x xs ih =>
      simp only [List.foldlM_cons, beginningsFit_cons, exactSum_nil, Int.add_zero, fits_toInt,
        true_and, exactSum_cons, ← Int.add_assoc]
      by_cases fits : Fits (start.toInt + x.toInt)
      · simp only [add, exactly_fits fits, bind, Except.bind]
        rw [ih, toInt_ofInt fits]
      · simp only [add, exactly_wraps fits, bind, Except.bind, reduceCtorEq, false_iff, not_and]
        intro later
        exact absurd (by simpa using later.empty) fits

theorem sum_eq_ok {s : Int64} {xs : List Int64} :
    sum xs = .ok (.ok s) ↔ BeginningsFit exactSum xs ∧ s.toInt = exactSum xs := by
  have loop := @foldlM_add_eq_ok 0 s xs
  simp only [Int64.toInt_zero, Int.zero_add] at loop
  rw [← loop, sum]
  cases xs.foldlM add 0 <;> simp [bind, Except.bind, pure, Except.pure]

/-- A run of `sum` without a fault answers a number. -/
theorem sum_answers {answer : Except CommonError Int64} {xs : List Int64}
    (runs : sum xs = .ok answer) : ∃ s, answer = .ok s := by
  rw [sum] at runs
  cases folded : xs.foldlM add 0 with
  | error => simp [folded, bind, Except.bind] at runs
  | ok s =>
      simp only [folded, bind, Except.bind, pure, Except.pure, Except.ok.injEq] at runs
      exact ⟨s, runs.symm⟩

/-! ### Products -/

/-- The guard of `product` never faults, and holds exactly of the products that do not fit. -/
theorem listMulOverflows_eq (a b : Int64) :
    listMulOverflows a b = .ok (decide (¬ Fits (a.toInt * b.toInt))) :=
  overflows_eq rfl (by decide) a b

/-- The loop of `product` answers exactly, or refuses a list with a product that does not fit
at its beginning. -/
theorem productFrom_spec (acc : Int64) (xs : List Int64) :
    (BeginningsFit (fun rest => acc.toInt * exactProduct rest) xs ∧
      productFrom acc xs = .ok (.ok (.ofInt (acc.toInt * exactProduct xs)))) ∨
    (¬ BeginningsFit (fun rest => acc.toInt * exactProduct rest) xs ∧
      productFrom acc xs = .ok (.error .invalid)) := by
  induction xs generalizing acc with
  | nil =>
      refine .inl ⟨?_, ?_⟩
      · simp [beginningsFit_nil, fits_toInt]
      · rw [productFrom, exactProduct_nil, Int.mul_one, (ofInt_eq_iff (fits_toInt _)).mpr rfl]
  | cons x xs ih =>
      simp only [beginningsFit_cons, exactProduct_nil, Int.mul_one, fits_toInt, true_and,
        exactProduct_cons, ← Int.mul_assoc]
      by_cases fits : Fits (acc.toInt * x.toInt)
      · have guard : listMulOverflows acc x = .ok false := by
          rw [listMulOverflows_eq, decide_eq_false (not_not.mpr fits)]
        have rest := ih (.ofInt (acc.toInt * x.toInt))
        rw [toInt_ofInt fits] at rest
        simpa only [productFrom, guard, mul, exactly_fits fits, bind, Except.bind,
          Bool.false_eq_true, if_false] using rest
      · have guard : listMulOverflows acc x = .ok true := by
          rw [listMulOverflows_eq, decide_eq_true fits]
        refine .inr ⟨fun later => fits (by simpa using later.empty), ?_⟩
        simp only [productFrom, guard, bind, Except.bind, if_true, pure, Except.pure]

theorem product_spec (xs : List Int64) :
    ∃ answer, product xs = .ok answer ∧
      (∀ p, answer = .ok p ↔ BeginningsFit exactProduct xs ∧ p.toInt = exactProduct xs) ∧
      (answer = .error .invalid ↔ ¬ BeginningsFit exactProduct xs) := by
  have loop := productFrom_spec 1 xs
  simp only [Int64.toInt_one, Int.one_mul] at loop
  rcases loop with ⟨fits, answers⟩ | ⟨wraps, refuses⟩
  · refine ⟨_, answers, fun p => ?_, by simp [fits]⟩
    rw [Except.ok.injEq, ofInt_eq_iff (fits xs List.prefix_rfl)]
    simp [fits, eq_comm]
  · exact ⟨_, refuses, by simp [wraps], by simp [wraps]⟩

/-! ### The reductions never wrap -/

/-- Both reductions of a list run without a fault, and answer exactly or refuse. -/
structure ReducesExactly (xs : List Int64) : Prop where
  sum_runs : ∃ answer, sum xs = .ok answer
  sum_exact : ∀ s, sum xs = .ok (.ok s) → s.toInt = exactSum xs
  product_exact : ∃ answer, product xs = .ok answer ∧
    (∀ p, answer = .ok p ↔ BeginningsFit exactProduct xs ∧ p.toInt = exactProduct xs) ∧
    (answer = .error .invalid ↔ ¬ BeginningsFit exactProduct xs)

/-- Just the lists whose beginnings all have a sum that fits are reduced without wrapping:
`sum` misses the guard that `product` has. -/
theorem reduces_exactly_iff (xs : List Int64) :
    ReducesExactly xs ↔ BeginningsFit exactSum xs := by
  constructor
  · intro exact
    obtain ⟨answer, runs⟩ := exact.sum_runs
    obtain ⟨s, rfl⟩ := sum_answers runs
    exact (sum_eq_ok.mp runs).1
  · intro fits
    have whole := fits xs List.prefix_rfl
    refine ⟨⟨_, sum_eq_ok.mpr ⟨fits, toInt_ofInt whole⟩⟩, fun s runs => ?_, product_spec xs⟩
    exact (sum_eq_ok.mp runs).2

/-- The sum of the largest number and one wraps. -/
theorem largest_and_one_wrap : ¬ ReducesExactly [9223372036854775807, 1] := by
  intro exact
  obtain ⟨answer, runs⟩ := exact.sum_runs
  have wraps : sum [9223372036854775807, 1] = .error .wraps := by decide
  rw [wraps] at runs
  cases runs

end ListOps

end Geas.Std
