import Geas.Runtime.Descriptor

/-!
# The requirements evaluator

The runtime's reading of the latches: atoms, the postfix policy lines over a
fixed stack, the structural default lines, and the priority order that turns
them into a contract state.
-/

namespace Geas.Runtime

variable (d : GeasContractDesc) (latches : Latches d)

/-- The pledges of subcontract `s`.  A pledge whose index falls outside the subs
table belongs to none. -/
def subMembers (s : Int) : List (Fin d.npledges) :=
  (List.finRange d.npledges).filter fun i =>
    (d.pledge i).sub == s && !d.pledgeIsLoose i

/-- Whether every pledge of subcontract `s` has latched `want`.  An empty
subcontract reads false. -/
def subAll (s : Int) (want : PledgeLatch) : Bool :=
  !(subMembers d s).isEmpty && (subMembers d s).all fun i => latches i == want

/-- One atom's truth. -/
def atomTrue (atom : GeasReqAtom) : Bool :=
  let want := if atom.kind == atomBroken then PledgeLatch.broken else .fulfilled
  if atom.sub ≥ 0 then subAll d latches atom.sub want
  else if inside : atom.pledge ≥ 0 ∧ atom.pledge.toNat < d.npledges then
    latches ⟨atom.pledge.toNat, inside.2⟩ == want
  else false

/-- `REQ_STACK_MAX`. -/
def reqStackMax : Nat := 128

/-- The op loop of `evalLine` over the stack, top first.  `none` is an early
return of false. -/
def evalOps : List GeasReqOp → List Bool → Option (List Bool)
  | [], stack => some stack
  | op :: rest, stack =>
      if op.op = reqAtom then
        if stack.length ≥ reqStackMax then none
        else
          match d.atoms[op.atom.toNat]? with
          | none => none
          | some atom => evalOps rest (atomTrue d latches atom :: stack)
      else if op.op = reqNot then
        match stack with
        | top :: below => evalOps rest ((!top) :: below)
        | _ => none
      else if op.op = reqAnd then
        match stack with
        | right :: left :: below => evalOps rest ((left && right) :: below)
        | _ => none
      else if op.op = reqOr then
        match stack with
        | right :: left :: below => evalOps rest ((left || right) :: below)
        | _ => none
      else none

/-- One postfix policy line.  A line that was not written, faults or does not
leave exactly one value reads false. -/
def evalLine (ops : List GeasReqOp) : Bool :=
  if ops.isEmpty then false
  else
    match evalOps d latches ops [] with
    | some [value] => value
    | _ => false

/-- The structural default for fulfill and break: every subcontract and every
loose pledge has latched `want`, and there is something to test. -/
def defaultLine (want : PledgeLatch) : Bool :=
  let loose := (List.finRange d.npledges).filter fun i => d.pledgeIsLoose i
  d.npledges != 0 && (d.nsubs != 0 || !loose.isEmpty) &&
    ((List.range d.nsubs).all fun s => subAll d latches s want) &&
    loose.all fun i => latches i == want

/-- The structural default for partial: some subcontract is fulfilled. -/
def defaultPartial : Bool :=
  (List.range d.nsubs).any fun s => subAll d latches s .fulfilled

/-- The break line is armed by the first broken pledge. -/
def armed : Bool := (List.finRange d.npledges).any fun i => latches i == .broken

/-- Whether the descriptor carries requirements data. -/
def hasTrees : Bool :=
  d.hasReqs || d.natoms > 0 || !d.reqFulfill.isEmpty || !d.reqPartial.isEmpty ||
    !d.reqBreak.isEmpty

/-- The three lines of the policy, before arming and priority. -/
def breakLine : Bool :=
  if hasTrees d then evalLine d latches d.reqBreak else defaultLine d latches .broken

def fulfillLine : Bool :=
  if hasTrees d then evalLine d latches d.reqFulfill else defaultLine d latches .fulfilled

def partialLine : Bool :=
  if hasTrees d then evalLine d latches d.reqPartial else defaultPartial d latches

/-- The state the first matching line gives: an armed break, fulfill, partial,
and `Signed` when none matches. -/
def policyState : GeasContractState :=
  if armed d latches && breakLine d latches then .broken
  else if fulfillLine d latches then .fulfilled
  else if partialLine d latches then .partly
  else .signed

/-- Recompute the state from the latches.  Broken is terminal. -/
def evalPolicy (state : GeasContractState) : GeasContractState :=
  if state = .broken then .broken else policyState d latches

/-! ## Which line decided -/

variable {d latches}

theorem policyState_eq_fulfilled : policyState d latches = .fulfilled ↔
    (armed d latches && breakLine d latches) = false ∧ fulfillLine d latches = true := by
  unfold policyState
  split_ifs with breaks fulfills partly <;> simp_all

theorem policyState_eq_partly : policyState d latches = .partly ↔
    (armed d latches && breakLine d latches) = false ∧ fulfillLine d latches = false ∧
      partialLine d latches = true := by
  unfold policyState
  split_ifs with breaks fulfills partly <;> simp_all

theorem policyState_eq_signed : policyState d latches = .signed ↔
    (armed d latches && breakLine d latches) = false ∧ fulfillLine d latches = false ∧
      partialLine d latches = false := by
  unfold policyState
  split_ifs with breaks fulfills partly <;> simp_all

end Geas.Runtime
