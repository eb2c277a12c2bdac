import Geas.Compiler.Requirements
import Geas.Runtime.Policy

/-!
# Emitting the requirements surface

The code generator's side of a contract's policy: the flattened pledge table,
the subs table, the atom table and one postfix program per line.  A block is
serialized from the tree the satisfiability pass walked; without a block the
defaults are synthesized as chains.  An op is written as a pair of integers into
a table of two-byte ops, so an atom index keeps only its low eight bits.
-/

namespace Geas.Compiler

open Geas.Lib
open Geas.Runtime

/-- `collect`: the pledges in declaration order with the ordinal of their
subcontract. -/
def collectPledges (nsubs : Nat) : List Member → List GeasPledgeDesc
  | [] => []
  | .vow _ :: rest | .clause _ :: rest => collectPledges nsubs rest
  | .pledge node :: rest => ⟨node.name, node.nparams, -1⟩ :: collectPledges nsubs rest
  | .sub node :: rest =>
      node.pledges.map (fun pledge => ⟨pledge.name, pledge.nparams, nsubs⟩) ++
        collectPledges (nsubs + 1) rest

/-- The subcontracts in declaration order. -/
def collectSubs : List Member → List SubNode
  | [] => []
  | .sub node :: rest => node :: collectSubs rest
  | _ :: rest => collectSubs rest

/-- `atom_indices`: the descriptor indices of a source atom. -/
def atomIndices (members : List Member) (name : String) : Int × Int :=
  match rsMember members name with
  | some ⟨.sub, id, _⟩ => (id, -1)
  | some ⟨.pledge, id, none⟩ => (-1, id)
  | _ => (-1, -1)

/-- `build_postfix`: a post order walk over the shared atom enumeration. -/
def buildPostfix (names : List String) : ReqExpr → List (Formula.Op Nat)
  | .atom name => [.push (atomIndex names name)]
  | .not e => buildPostfix names e ++ [.not]
  | .and left right => buildPostfix names left ++ buildPostfix names right ++ [.and]
  | .or left right => buildPostfix names left ++ buildPostfix names right ++ [.or]

/-- One op as the C compiler stores it: the initializers narrowed to bytes. -/
def emitOp : Formula.Op Nat → GeasReqOp
  | .push index => ⟨reqAtom, UInt8.ofNat index⟩
  | .not => ⟨reqNot, 0⟩
  | .and => ⟨reqAnd, 0⟩
  | .or => ⟨reqOr, 0⟩

/-- `emit_ops`: one program as a table. -/
def emitOps (ops : List (Formula.Op Nat)) : List GeasReqOp := ops.map emitOp

/-- `push_chain`: the atoms folded left with one operator. -/
def pushChain (op : Formula.Op Nat) : List Nat → List (Formula.Op Nat)
  | [] => []
  | first :: rest => .push first :: rest.flatMap fun index => [.push index, op]

/-- The tables the descriptor refers to. -/
structure ReqEmit where
  atoms : List GeasReqAtom
  hasReqs : Bool
  reqFulfill : List GeasReqOp
  reqPartial : List GeasReqOp
  reqBreak : List GeasReqOp

/-- The program of an optional line; an unwritten line emits nothing. -/
def emitLine (names : List String) (line : Option ReqExpr) : List GeasReqOp :=
  match line with
  | none => []
  | some e => emitOps (buildPostfix names e)

/-- `emit_source_block`: the written block serialized. -/
def emitSourceBlock (members : List Member) (rb : ReqBlock) : ReqEmit :=
  let names := blockAtoms rb
  { atoms := names.map fun name =>
      let indices := atomIndices members name
      ⟨atomFulfilled, indices.1, indices.2⟩
    hasReqs := true
    reqFulfill := emitLine names rb.fulfill
    reqPartial := emitLine names rb.partly
    reqBreak := emitLine names rb.brk }

/-- The flattened indices of the loose pledges. -/
def loosePledges (pledges : List GeasPledgeDesc) : List Nat :=
  (List.range pledges.length).filter fun k =>
    match pledges[k]? with
    | some pledge => pledge.sub < 0
    | none => false

/-- The atoms of one pass over the items: subcontracts, then loose pledges. -/
def itemAtoms (kind : UInt32) (ns : Nat) (loose : List Nat) : List GeasReqAtom :=
  (List.range ns).map (fun s => ⟨kind, s, -1⟩) ++ loose.map fun pidx => ⟨kind, -1, pidx⟩

/-- `emit_default_block`: the defaults synthesized over all items, fulfilled
atoms first and broken atoms after them. -/
def emitDefaultBlock (members : List Member) : ReqEmit :=
  let ns := (collectSubs members).length
  let loose := loosePledges (collectPledges 0 members)
  let nitems := ns + loose.length
  if nitems = 0 then ⟨[], false, [], [], []⟩
  else
    { atoms := itemAtoms atomFulfilled ns loose ++ itemAtoms atomBroken ns loose
      hasReqs := false
      reqFulfill := emitOps (pushChain .and (List.range nitems))
      reqPartial := emitOps (pushChain .or (List.range ns))
      reqBreak := emitOps (pushChain .and ((List.range nitems).map (nitems + ·))) }

/-- `emit_reqs`. -/
def emitReqs (c : ContractNode) : ReqEmit :=
  match c.reqs with
  | some rb => emitSourceBlock c.members rb
  | none => emitDefaultBlock c.members

/-- The flag bytes, emitted only when some subcontract is transactional. -/
def emitSubFlags (subs : List SubNode) : Option (List UInt8) :=
  if subs.any (·.transactional) then
    some (subs.map fun node => if node.transactional then subTransactional else 0)
  else none

/-- `emit_contract`: the descriptor, with the fields outside the policy taken
from `base`. -/
def emitContract (base : GeasContractDesc) (c : ContractNode) : GeasContractDesc :=
  let re := emitReqs c
  { base with
    name := c.name
    pledges := collectPledges 0 c.members
    subs := (collectSubs c.members).map (·.name)
    atoms := re.atoms
    hasReqs := re.hasReqs
    reqFulfill := re.reqFulfill
    reqPartial := re.reqPartial
    reqBreak := re.reqBreak
    subFlags := emitSubFlags (collectSubs c.members) }

end Geas.Compiler
