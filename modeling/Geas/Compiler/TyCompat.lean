import Geas.Compiler.Types

/-!
# Compatible types

Where one type may stand when another is expected: everywhere that it is the same type, and
everywhere that the two differ only where one of them has the type that stands in after an
error.
-/

namespace Geas.Compiler

/-- The node shapes, in numbering order. -/
inductive TyKind where
  | int | uint | float | bool | byte | char | str | unit
  | list | map | option | result | tuple | pledge | named | contract | unknown
  deriving DecidableEq, Repr

namespace Ty

def kind : Ty → TyKind
  | int => .int
  | uint => .uint
  | float => .float
  | bool => .bool
  | byte => .byte
  | char => .char
  | str => .str
  | unit => .unit
  | list _ => .list
  | map _ _ => .map
  | option _ => .option
  | result _ _ => .result
  | tuple _ => .tuple
  | pledge _ _ => .pledge
  | named _ => .named
  | contract _ => .contract
  | unknown => .unknown

/-- Two types are alike but for the recovery type in them. -/
def agrees : Ty → Ty → Bool
  | list elem, list elem' => agrees elem elem'
  | option inner, option inner' => agrees inner inner'
  | map key value, map key' value' => agrees key key' && agrees value value'
  | result ok err, result ok' err' => agrees ok ok' && agrees err err'
  | tuple elems, tuple elems' => agreesAll elems elems'
  | pledge params ret, pledge params' ret' => agreesAll params params' && agrees ret ret'
  | named name, named name' => decide (name = name')
  | contract name, contract name' => decide (name = name')
  | ty, other =>
      decide (ty.kind = .unknown) || decide (other.kind = .unknown) || decide (ty.kind = other.kind)
where
  /-- The types at one place agree, at every place. -/
  agreesAll : List Ty → List Ty → Bool
    | [], [] => true
    | ty :: rest, other :: others => agrees ty other && agreesAll rest others
    | _, _ => false

/-- The recovery type is nowhere in a type. -/
def known : Ty → Bool
  | list elem => known elem
  | option inner => known inner
  | map key value => known key && known value
  | result ok err => known ok && known err
  | tuple elems => allKnown elems
  | pledge params ret => allKnown params && known ret
  | unknown => false
  | _ => true
where
  /-- Nor in any of a list of types. -/
  allKnown : List Ty → Bool
    | [] => true
    | ty :: rest => known ty && allKnown rest

mutual
theorem agrees_refl (ty : Ty) : agrees ty ty = true := by
  cases ty with
  | list elem => exact agrees_refl elem
  | option inner => exact agrees_refl inner
  | map key value => simp only [agrees, agrees_refl key, agrees_refl value, Bool.and_self]
  | result ok err => simp only [agrees, agrees_refl ok, agrees_refl err, Bool.and_self]
  | tuple elems => exact agreesAll_refl elems
  | pledge params ret =>
      simp only [agrees, agreesAll_refl params, agrees_refl ret, Bool.and_self]
  | named name => exact decide_eq_true rfl
  | contract name => exact decide_eq_true rfl
  | _ => rfl

theorem agreesAll_refl (elems : List Ty) : agrees.agreesAll elems elems = true := by
  cases elems with
  | nil => rfl
  | cons ty rest => simp only [agrees.agreesAll, agrees_refl ty, agreesAll_refl rest, Bool.and_self]
end

mutual
theorem agrees_comm (ty other : Ty) : agrees ty other = agrees other ty := by
  cases ty with
  | list elem =>
      cases other with
      | list elem' => exact agrees_comm elem elem'
      | _ => rfl
  | option inner =>
      cases other with
      | option inner' => exact agrees_comm inner inner'
      | _ => rfl
  | map key value =>
      cases other with
      | map key' value' => simp only [agrees, agrees_comm key key', agrees_comm value value']
      | _ => rfl
  | result ok err =>
      cases other with
      | result ok' err' => simp only [agrees, agrees_comm ok ok', agrees_comm err err']
      | _ => rfl
  | tuple elems =>
      cases other with
      | tuple elems' => exact agreesAll_comm elems elems'
      | _ => rfl
  | pledge params ret =>
      cases other with
      | pledge params' ret' =>
          simp only [agrees, agreesAll_comm params params', agrees_comm ret ret']
      | _ => rfl
  | named name =>
      cases other with
      | named name' => simp only [agrees, eq_comm]
      | _ => rfl
  | contract name =>
      cases other with
      | contract name' => simp only [agrees, eq_comm]
      | _ => rfl
  | _ => cases other <;> rfl

theorem agreesAll_comm (elems others : List Ty) :
    agrees.agreesAll elems others = agrees.agreesAll others elems := by
  cases elems with
  | nil => cases others <;> rfl
  | cons ty rest =>
      cases others with
      | nil => rfl
      | cons other others =>
          simp only [agrees.agreesAll, agrees_comm ty other, agreesAll_comm rest others]
end

theorem agrees_of_unknown {ty other : Ty} (recovers : ty.kind = .unknown ∨ other.kind = .unknown) :
    agrees ty other = true := by
  rcases recovers with left | right
  · cases ty <;> first | (cases left; done) | (cases other <;> rfl)
  · cases other <;> first | (cases right; done) | (cases ty <;> rfl)

theorem agrees_of_kind_ne {ty other : Ty} (differ : ty.kind ≠ other.kind)
    (both : ¬ (ty.kind = .unknown ∨ other.kind = .unknown)) : agrees ty other = false := by
  have whole : (decide (ty.kind = .unknown) || decide (other.kind = .unknown) ||
      decide (ty.kind = other.kind)) = false := by
    rw [not_or] at both
    simp [differ, both]
  cases ty <;> cases other <;> first | exact whole | exact absurd rfl differ

theorem agreesAll_of_length_ne {elems others : List Ty} (differ : elems.length ≠ others.length) :
    agrees.agreesAll elems others = false := by
  induction elems generalizing others with
  | nil =>
      cases others with
      | nil => exact absurd rfl differ
      | cons other others => rfl
  | cons ty rest ih =>
      cases others with
      | nil => rfl
      | cons other others =>
          rw [agrees.agreesAll, ih (fun same => differ (congrArg (· + 1) same)), Bool.and_false]

mutual
/-- Types without the recovery type agree only when they are the same. -/
theorem eq_of_agrees {ty other : Ty} (left : known ty = true) (right : known other = true)
    (alike : agrees ty other = true) : ty = other := by
  cases ty with
  | list elem =>
      cases other with
      | list elem' => rw [@eq_of_agrees elem elem' left right alike]
      | unknown => cases right
      | _ => cases alike
  | option inner =>
      cases other with
      | option inner' => rw [@eq_of_agrees inner inner' left right alike]
      | unknown => cases right
      | _ => cases alike
  | map key value =>
      cases other with
      | map key' value' =>
          simp only [known, agrees, Bool.and_eq_true] at left right alike
          rw [eq_of_agrees left.1 right.1 alike.1, eq_of_agrees left.2 right.2 alike.2]
      | unknown => cases right
      | _ => cases alike
  | result ok err =>
      cases other with
      | result ok' err' =>
          simp only [known, agrees, Bool.and_eq_true] at left right alike
          rw [eq_of_agrees left.1 right.1 alike.1, eq_of_agrees left.2 right.2 alike.2]
      | unknown => cases right
      | _ => cases alike
  | tuple elems =>
      cases other with
      | tuple elems' => rw [@eq_of_agreesAll elems elems' left right alike]
      | unknown => cases right
      | _ => cases alike
  | pledge params ret =>
      cases other with
      | pledge params' ret' =>
          simp only [known, agrees, Bool.and_eq_true] at left right alike
          rw [eq_of_agreesAll left.1 right.1 alike.1, eq_of_agrees left.2 right.2 alike.2]
      | unknown => cases right
      | _ => cases alike
  | named name =>
      cases other with
      | named name' => rw [of_decide_eq_true alike]
      | unknown => cases right
      | _ => cases alike
  | contract name =>
      cases other with
      | contract name' => rw [of_decide_eq_true alike]
      | unknown => cases right
      | _ => cases alike
  | unknown => cases left
  | _ => cases other <;> first | rfl | (cases right; done) | cases alike

theorem eq_of_agreesAll {elems others : List Ty} (left : known.allKnown elems = true)
    (right : known.allKnown others = true) (alike : agrees.agreesAll elems others = true) :
    elems = others := by
  cases elems with
  | nil =>
      cases others with
      | nil => rfl
      | cons other others => cases alike
  | cons ty rest =>
      cases others with
      | nil => cases alike
      | cons other others =>
          simp only [known.allKnown, agrees.agreesAll, Bool.and_eq_true] at left right alike
          rw [eq_of_agrees left.1 right.1 alike.1, eq_of_agreesAll left.2 right.2 alike.2]
end

end Ty

end Geas.Compiler
