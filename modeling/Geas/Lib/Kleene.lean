import Mathlib.Data.List.Basic

/-!
# Kleene's three-valued logic

The truth values of SQL conditions.  Conjunction and disjunction form a
distributive lattice with `no` at the bottom and `yes` at the top, and negation
turns it over, so De Morgan's laws and distributivity hold with `unknown`
included; the law of the excluded middle does not.
-/

namespace Geas.Lib

/-- A three-valued truth. -/
inductive Truth where
  | no | unknown | yes
  deriving DecidableEq, Repr

namespace Truth

/-- Conjunction: the smaller of the two. -/
def and : Truth → Truth → Truth
  | no, _ => no
  | unknown, no => no
  | unknown, _ => unknown
  | yes, right => right

/-- Disjunction: the larger of the two. -/
def or : Truth → Truth → Truth
  | no, right => right
  | unknown, yes => yes
  | unknown, _ => unknown
  | yes, _ => yes

/-- Negation. -/
def not : Truth → Truth
  | no => yes
  | unknown => unknown
  | yes => no

/-- A decided truth. -/
def ofBool : Bool → Truth
  | false => no
  | true => yes

@[simp] theorem and_yes (left : Truth) : left.and yes = left := by cases left <;> rfl

@[simp] theorem or_no (left : Truth) : left.or no = left := by cases left <;> rfl

@[simp] theorem not_not (truth : Truth) : truth.not.not = truth := by cases truth <;> rfl

@[simp] theorem not_ofBool (b : Bool) : (ofBool b).not = ofBool !b := by cases b <;> rfl

theorem not_and (left right : Truth) : (left.and right).not = left.not.or right.not := by
  cases left <;> cases right <;> rfl

theorem not_or (left right : Truth) : (left.or right).not = left.not.and right.not := by
  cases left <;> cases right <;> rfl

theorem and_assoc (first second third : Truth) :
    (first.and second).and third = first.and (second.and third) := by
  cases first <;> cases second <;> cases third <;> rfl

theorem or_assoc (first second third : Truth) :
    (first.or second).or third = first.or (second.or third) := by
  cases first <;> cases second <;> cases third <;> rfl

theorem and_or (first second third : Truth) :
    first.and (second.or third) = (first.and second).or (first.and third) := by
  cases first <;> cases second <;> cases third <;> rfl

theorem or_and (first second third : Truth) :
    (first.or second).and third = (first.and third).or (second.and third) := by
  cases first <;> cases second <;> cases third <;> rfl

@[simp] theorem and_no (left : Truth) : left.and no = no := by cases left <;> rfl

/-- The conjunction of a list. -/
def all : List Truth → Truth
  | [] => yes
  | truth :: truths => truth.and (all truths)

/-- The disjunction of a list. -/
def any : List Truth → Truth
  | [] => no
  | truth :: truths => truth.or (any truths)

@[simp] theorem all_append (left right : List Truth) :
    all (left ++ right) = (all left).and (all right) := by
  induction left with
  | nil => rfl
  | cons truth truths ih => simp [all, ih, and_assoc]

@[simp] theorem any_append (left right : List Truth) :
    any (left ++ right) = (any left).or (any right) := by
  induction left with
  | nil => rfl
  | cons truth truths ih => simp [any, ih, or_assoc]

/-- Conjunction distributes over the disjunction of a list. -/
theorem any_map_and (truth : Truth) (truths : List Truth) :
    any (truths.map truth.and) = truth.and (any truths) := by
  induction truths with
  | nil => simp [any]
  | cons head tail ih => simp [any, ih, and_or]

/-- A run of conjunctions read from the left is the conjunction of the list. -/
theorem foldl_and (first : Truth) (truths : List Truth) :
    truths.foldl and first = first.and (all truths) := by
  induction truths generalizing first with
  | nil => simp [all]
  | cons truth truths ih => simp [all, ih, and_assoc]

/-- A run of disjunctions read from the left is the disjunction of the list. -/
theorem foldl_or (first : Truth) (truths : List Truth) :
    truths.foldl or first = first.or (any truths) := by
  induction truths generalizing first with
  | nil => simp [any]
  | cons truth truths ih => simp [any, ih, or_assoc]

end Truth

end Geas.Lib
