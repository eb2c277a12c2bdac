import Mathlib.Data.List.Basic

/-!
# Formulas and bounded stack programs

Boolean formulas over atoms of any type, the programs that push their atoms and
combine the top of a stack, and the machine that runs a program over a stack of
limited height.  The machine computes a formula exactly when the stack is high
enough for it: `room` is the height a formula needs.
-/

namespace Geas.Lib

/-- A boolean formula over atoms. -/
inductive Formula (α : Type) where
  | atom (a : α)
  | not (e : Formula α)
  | and (left right : Formula α)
  | or (left right : Formula α)
  deriving DecidableEq, Repr

namespace Formula

variable {α β : Type}

/-- One instruction of a program. -/
inductive Op (α : Type) where
  | push (a : α)
  | not
  | and
  | or
  deriving DecidableEq, Repr

/-- The value of a formula under an assignment. -/
def eval (value : α → Bool) : Formula α → Bool
  | atom a => value a
  | not e => !eval value e
  | and left right => eval value left && eval value right
  | or left right => eval value left || eval value right

/-- The atoms of a formula, left to right. -/
def atoms : Formula α → List α
  | atom a => [a]
  | not e => atoms e
  | and left right | or left right => atoms left ++ atoms right

/-- Rename the atoms. -/
def map (f : α → β) : Formula α → Formula β
  | atom a => atom (f a)
  | not e => not (map f e)
  | and left right => and (map f left) (map f right)
  | or left right => or (map f left) (map f right)

/-- The program of a formula, operands before operators. -/
def program : Formula α → List (Op α)
  | atom a => [.push a]
  | not e => program e ++ [.not]
  | and left right => program left ++ program right ++ [.and]
  | or left right => program left ++ program right ++ [.or]

/-- The stack height a formula needs above what is there. -/
def room : Formula α → Nat
  | atom _ => 1
  | not e => room e
  | and left right | or left right => max (room left) (room right + 1)

/-- Run a program over a stack, top first, that may not outgrow `limit`. -/
def exec (limit : Nat) (value : α → Bool) : List (Op α) → List Bool → Option (List Bool)
  | [], stack => some stack
  | .push a :: rest, stack =>
      if stack.length ≥ limit then none else exec limit value rest (value a :: stack)
  | .not :: rest, top :: below => exec limit value rest ((!top) :: below)
  | .and :: rest, right :: left :: below => exec limit value rest ((left && right) :: below)
  | .or :: rest, right :: left :: below => exec limit value rest ((left || right) :: below)
  | _, _ => none

theorem eval_congr {value value' : α → Bool} (e : Formula α)
    (same : ∀ a ∈ atoms e, value a = value' a) : eval value e = eval value' e := by
  induction e with
  | atom a => exact same a (List.mem_singleton.mpr rfl)
  | not e ih => simp only [eval, ih same]
  | and left right ihl ihr | or left right ihl ihr =>
      simp only [eval, ihl fun a membership => same a (List.mem_append_left _ membership),
        ihr fun a membership => same a (List.mem_append_right _ membership)]

theorem eval_map (f : α → β) (value : β → Bool) (e : Formula α) :
    eval value (map f e) = eval (fun a => value (f a)) e := by
  induction e with
  | atom a => rfl
  | not e ih => simp only [map, eval, ih]
  | and left right ihl ihr | or left right ihl ihr => simp only [map, eval, ihl, ihr]

@[simp] theorem atoms_map (f : α → β) (e : Formula α) : atoms (map f e) = (atoms e).map f := by
  induction e with
  | atom a => rfl
  | not e ih => simp only [map, atoms, ih]
  | and left right ihl ihr | or left right ihl ihr =>
      simp only [map, atoms, ihl, ihr, List.map_append]

@[simp] theorem room_map (f : α → β) (e : Formula α) : room (map f e) = room e := by
  induction e with
  | atom a => rfl
  | not e ih => simp only [map, room, ih]
  | and left right ihl ihr | or left right ihl ihr => simp only [map, room, ihl, ihr]

theorem program_ne_nil (e : Formula α) : program e ≠ [] := by
  cases e <;> simp [program]

/-- Running a formula's program pushes its value when the stack has room for
it, and faults otherwise. -/
theorem exec_program (limit : Nat) (value : α → Bool) (e : Formula α) (rest : List (Op α))
    (stack : List Bool) :
    exec limit value (program e ++ rest) stack =
      if stack.length + room e ≤ limit then exec limit value rest (eval value e :: stack)
      else none := by
  induction e generalizing rest stack with
  | atom a =>
      simp only [program, List.cons_append, List.nil_append, exec]
      by_cases full : stack.length ≥ limit
      · have short : ¬stack.length + room (atom a) ≤ limit := by
          simp only [room]
          omega
        rw [if_pos full, if_neg short]
      · have fits : stack.length + room (atom a) ≤ limit := by
          simp only [room]
          omega
        rw [if_neg full, if_pos fits, eval]
  | not e ih =>
      simp only [program, List.append_assoc, List.cons_append, List.nil_append, ih, exec]
      rfl
  | and left right ihl ihr | or left right ihl ihr =>
      simp only [program, List.append_assoc, List.cons_append, List.nil_append, ihl, ihr, exec,
        List.length_cons]
      by_cases fits : stack.length + max (room left) (room right + 1) ≤ limit
      · rw [if_pos (show stack.length + room left ≤ limit by omega),
          if_pos (show stack.length + 1 + room right ≤ limit by omega)]
        exact (if_pos fits).symm
      · refine Eq.trans ?_ (if_neg fits).symm
        by_cases low : stack.length + room left ≤ limit
        · rw [if_pos low, if_neg (by omega)]
        · rw [if_neg low]

/-- A whole program run on an empty stack. -/
theorem exec_program_nil (limit : Nat) (value : α → Bool) (e : Formula α) :
    exec limit value (program e) [] =
      if room e ≤ limit then some [eval value e] else none := by
  have run := exec_program limit value e [] []
  simpa [exec] using run

/-- A formula without negation. -/
def positive : Formula α → Bool
  | atom _ => true
  | not _ => false
  | and left right | or left right => left.positive && right.positive

/-- A formula without negation is monotone in its atoms. -/
theorem eval_mono {e : Formula α} (isPositive : e.positive = true) {value more : α → Bool}
    (grows : ∀ a, value a = true → more a = true) (holds : e.eval value = true) :
    e.eval more = true := by
  induction e with
  | atom a => exact grows a holds
  | not e => cases isPositive
  | and left right ihl ihr =>
      rw [positive, Bool.and_eq_true] at isPositive
      rw [eval, Bool.and_eq_true] at holds ⊢
      exact ⟨ihl isPositive.1 holds.1, ihr isPositive.2 holds.2⟩
  | or left right ihl ihr =>
      rw [positive, Bool.and_eq_true] at isPositive
      rw [eval, Bool.or_eq_true] at holds ⊢
      exact holds.imp (ihl isPositive.1) (ihr isPositive.2)

end Formula

end Geas.Lib
