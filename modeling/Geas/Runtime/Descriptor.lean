import Geas.Abi.Value

/-!
# Contract descriptors

The static tables a module registers with the runtime.  Counts that ride beside
their tables in C are the lengths of the lists here, and a table index is a
`Fin` wherever the runtime has already checked it.  The index fields a
descriptor may get wrong stay integers.
-/

namespace Geas.Runtime

open Geas.Abi

/-- One pledge of a contract.  `sub` indexes the subs table; anything outside
reads as loose. -/
structure GeasPledgeDesc where
  name : String
  nargs : Nat
  sub : Int
  deriving DecidableEq, Repr

/-- One atom of a policy line: a latch test on a subcontract or on a pledge. -/
structure GeasReqAtom where
  kind : UInt32
  sub : Int
  pledge : Int
  deriving DecidableEq, Repr

/-- `GEAS_ATOM_FULFILLED` and `GEAS_ATOM_BROKEN`. -/
def atomFulfilled : UInt32 := 0
def atomBroken : UInt32 := 1

/-- One op of a policy line's postfix program, two bytes wide. -/
structure GeasReqOp where
  op : UInt8
  atom : UInt8
  deriving DecidableEq, Repr

/-- `GEAS_REQ_ATOM`, `GEAS_REQ_NOT`, `GEAS_REQ_AND` and `GEAS_REQ_OR`. -/
def reqAtom : UInt8 := 0
def reqNot : UInt8 := 1
def reqAnd : UInt8 := 2
def reqOr : UInt8 := 3

/-- One vow: its name, its value's type tag and its default, if it has one. -/
structure GeasVowDesc where
  name : String
  ty : UInt32
  default : Option GeasValue

/-- `GEAS_SUB_TRANSACTIONAL`. -/
def subTransactional : UInt8 := 1

/-- A contract descriptor.  `subs` lists the subcontracts, anonymous ones as
`none`; `subFlags` is the flag byte table, `none` when there is none. -/
structure GeasContractDesc where
  name : String
  shapeHash : UInt64
  version : UInt32
  pledges : List GeasPledgeDesc
  vows : List GeasVowDesc
  subs : List (Option String)
  atoms : List GeasReqAtom
  hasReqs : Bool
  reqFulfill : List GeasReqOp
  reqPartial : List GeasReqOp
  reqBreak : List GeasReqOp
  nschemas : Nat
  subFlags : Option (List UInt8)

namespace GeasContractDesc

variable (d : GeasContractDesc)

/-- Counts of the three tables the runtime walks. -/
abbrev npledges : Nat := d.pledges.length
abbrev nsubs : Nat := d.subs.length
abbrev natoms : Nat := d.atoms.length

/-- A pledge of the table. -/
abbrev pledge (i : Fin d.npledges) : GeasPledgeDesc := d.pledges[i]

/-- The subcontract a pledge names, when the index is inside the table. -/
def subOf (i : Fin d.npledges) : Option (Fin d.nsubs) :=
  let s := (d.pledge i).sub
  if inside : 0 ≤ s ∧ s.toNat < d.nsubs then some ⟨s.toNat, inside.2⟩ else none

/-- A pledge outside every subcontract. -/
def pledgeIsLoose (i : Fin d.npledges) : Bool :=
  let s := (d.pledge i).sub
  s < 0 || s ≥ d.nsubs

/-- The first pledge declared under a name. -/
def findPledge (name : String) : Option (Fin d.npledges) :=
  (List.finRange d.npledges).find? fun i => (d.pledge i).name == name

end GeasContractDesc

/-- The per-pledge latch. -/
inductive PledgeLatch where
  | pending | fulfilled | broken
  deriving DecidableEq, Repr

/-- The per-subcontract transaction state. -/
inductive TxnFate where
  | txnNone | txnOpen | txnDone
  deriving DecidableEq, Repr

/-- The state of an instance. -/
inductive GeasContractState where
  | unsigned | signed | fulfilled | partly | broken
  deriving DecidableEq, Repr

/-- The latches of an instance of `d`, one per pledge. -/
abbrev Latches (d : GeasContractDesc) := Fin d.npledges → PledgeLatch

end Geas.Runtime
