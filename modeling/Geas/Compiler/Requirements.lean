import Geas.Lib.Formula
import Mathlib.Data.Nat.Bitwise

/-!
# Requirements blocks

The front end's side of a contract's policy: the parser of a requirements line,
the resolver's check of its atoms against the contract's members, and the
satisfiability pass that rejects contradictory and dead lines.  Names stand for
the interner's ids, which are equal exactly when the names are.  An expression
of the arena is the formula it denotes.
-/

namespace Geas.Compiler

open Geas.Lib

/-- A requirements expression over names. -/
abbrev ReqExpr := Formula String

/-- The three lines of a block, each written or not. -/
structure ReqBlock where
  fulfill : Option ReqExpr
  partly : Option ReqExpr
  brk : Option ReqExpr

/-- The written lines in the order every pass walks them. -/
def ReqBlock.lines (rb : ReqBlock) : List ReqExpr :=
  rb.fulfill.toList ++ rb.partly.toList ++ rb.brk.toList

/-! ## The parser of a line -/

/-- The tokens a requirements expression is made of. -/
inductive ReqToken where
  | ident (name : String)
  | bang | andAnd | orOr | lparen | rparen
  deriving DecidableEq, Repr

/-- The nesting ceiling of `p_enter_nesting`. -/
def nestingCap : Nat := 500

mutual
/-- `parse_req_or`: one nesting level, then a left-folded `||` chain.  Any
recorded fault is `none`.  `fuel` bounds the recursion. -/
def parseReqOr : Nat → Nat → List ReqToken → Option (ReqExpr × List ReqToken)
  | 0, _, _ => none
  | fuel + 1, depth, tokens =>
      if depth + 1 > nestingCap then none
      else
        match parseReqAnd fuel (depth + 1) tokens with
        | some (lhs, rest) => parseReqOrTail fuel (depth + 1) lhs rest
        | none => none

/-- The loop of `parse_req_or_inner`. -/
def parseReqOrTail : Nat → Nat → ReqExpr → List ReqToken → Option (ReqExpr × List ReqToken)
  | fuel + 1, depth, lhs, .orOr :: rest =>
      match parseReqAnd fuel depth rest with
      | some (rhs, rest) => parseReqOrTail fuel depth (.or lhs rhs) rest
      | none => none
  | 0, _, _, .orOr :: _ => none
  | _, _, lhs, rest => some (lhs, rest)

/-- `parse_req_and`: a left-folded `&&` chain. -/
def parseReqAnd : Nat → Nat → List ReqToken → Option (ReqExpr × List ReqToken)
  | 0, _, _ => none
  | fuel + 1, depth, tokens =>
      match parseReqNot fuel depth tokens with
      | some (lhs, rest) => parseReqAndTail fuel depth lhs rest
      | none => none

/-- The loop of `parse_req_and`. -/
def parseReqAndTail : Nat → Nat → ReqExpr → List ReqToken → Option (ReqExpr × List ReqToken)
  | fuel + 1, depth, lhs, .andAnd :: rest =>
      match parseReqNot fuel depth rest with
      | some (rhs, rest) => parseReqAndTail fuel depth (.and lhs rhs) rest
      | none => none
  | 0, _, _, .andAnd :: _ => none
  | _, _, lhs, rest => some (lhs, rest)

/-- `parse_req_not`: at most one `!` before an atom. -/
def parseReqNot : Nat → Nat → List ReqToken → Option (ReqExpr × List ReqToken)
  | 0, _, _ => none
  | fuel + 1, depth, .bang :: rest =>
      match parseReqAtom fuel depth rest with
      | some (inner, rest) => some (.not inner, rest)
      | none => none
  | fuel + 1, depth, tokens => parseReqAtom fuel depth tokens

/-- `parse_req_atom`: a name or a parenthesized expression. -/
def parseReqAtom : Nat → Nat → List ReqToken → Option (ReqExpr × List ReqToken)
  | 0, _, _ => none
  | fuel + 1, depth, .lparen :: rest =>
      match parseReqOr fuel depth rest with
      | some (e, .rparen :: rest) => some (e, rest)
      | _ => none
  | _ + 1, _, .ident name :: rest => some (.atom name, rest)
  | _ + 1, _, _ => none
end

/-- `parse_req_line` on the tokens of one line: all of them are consumed. -/
def parseReqLine (tokens : List ReqToken) : Option ReqExpr :=
  match parseReqOr (5 * tokens.length + 5) 0 tokens with
  | some (e, []) => some e
  | _ => none

/-! ## Members and the resolver -/

/-- A pledge declaration. -/
structure PledgeNode where
  name : String
  nparams : Nat

/-- A subcontract declaration, anonymous when it has no name. -/
structure SubNode where
  name : Option String
  transactional : Bool
  pledges : List PledgeNode

/-- A member of a contract, in declaration order. -/
inductive Member where
  | vow (name : String)
  | clause (name : String)
  | pledge (node : PledgeNode)
  | sub (node : SubNode)

/-- A contract as far as its policy needs it. -/
structure ContractNode where
  name : String
  members : List Member
  reqs : Option ReqBlock

/-- The kinds of the member namespace. -/
inductive MemberKind where
  | vow | clause | pledge | sub
  deriving DecidableEq

/-- An entry of the member table.  `id` is the ordinal of a subcontract or the
flattened index of a pledge, `sub` the subcontract a pledge was declared in. -/
structure MEntry where
  kind : MemberKind
  id : Nat
  sub : Option Nat

/-- The entries `collect_members` declares, given how many subcontracts and
pledges came before.  The pledges of a named subcontract live in their own
namespace, those of an anonymous one join the contract's. -/
def memberEntries (nsubs npledges : Nat) : List Member → List (String × MEntry)
  | [] => []
  | .vow name :: rest => (name, ⟨.vow, 0, none⟩) :: memberEntries nsubs npledges rest
  | .clause name :: rest => (name, ⟨.clause, 0, none⟩) :: memberEntries nsubs npledges rest
  | .pledge node :: rest =>
      (node.name, ⟨.pledge, npledges, none⟩) :: memberEntries nsubs (npledges + 1) rest
  | .sub ⟨some name, _, pledges⟩ :: rest =>
      (name, ⟨.sub, nsubs, none⟩) :: memberEntries (nsubs + 1) (npledges + pledges.length) rest
  | .sub ⟨none, _, pledges⟩ :: rest =>
      pledges.mapIdx (fun i node => (node.name, ⟨.pledge, npledges + i, some nsubs⟩)) ++
        memberEntries (nsubs + 1) (npledges + pledges.length) rest

/-- `rs_member`: the first entry declared under a name. -/
def rsMember (members : List Member) (name : String) : Option MEntry :=
  (memberEntries 0 0 members).lookup name

/-- `named_sub_pledge`: a pledge of one of the named subcontracts. -/
def namedSubPledge (members : List Member) (name : String) : Bool :=
  members.any fun
    | .sub ⟨some _, _, pledges⟩ => pledges.any fun node => node.name == name
    | _ => false

/-- `resolve_req_atom`: what the resolver reports about one atom. -/
def resolveReqAtom (members : List Member) (text : String) : List String :=
  let inside := "pledge '" ++ text ++
    "' is declared inside a subcontract and cannot be named in requirements"
  if text.isEmpty then []
  else
    match rsMember members text with
    | none =>
        if namedSubPledge members text then [inside]
        else ["unknown name '" ++ text ++ "' in requirements"]
    | some ⟨.sub, _, _⟩ => []
    | some ⟨.pledge, _, none⟩ => []
    | some ⟨.pledge, _, some _⟩ => [inside]
    | some _ => ["requirements name '" ++ text ++ "' is not a subcontract or a pledge"]

/-- `req_collect_atoms`: the distinct atoms in order of first appearance. -/
def reqCollectAtoms : ReqExpr → List String → List String
  | .atom name, names => if name ∈ names then names else names ++ [name]
  | .not e, names => reqCollectAtoms e names
  | .and left right, names | .or left right, names =>
      reqCollectAtoms right (reqCollectAtoms left names)

/-- The atoms of a block, collected over its written lines. -/
def blockAtoms (rb : ReqBlock) : List String :=
  rb.lines.foldl (fun names e => reqCollectAtoms e names) []

/-- The grammar's limit on distinct atoms. -/
def atomLimit : Nat := 16

/-- `resolve_requirements`: every atom checked, then the distinct names
counted. -/
def resolveRequirements (c : ContractNode) : List String :=
  match c.reqs with
  | none => []
  | some rb =>
      rb.lines.flatMap (fun e => e.atoms.flatMap (resolveReqAtom c.members)) ++
        if ((blockAtoms rb).filter fun name => !name.isEmpty).length > atomLimit then
          ["too many requirements atoms in contract '" ++ c.name ++ "'; the limit is 16"]
        else []

/-! ## The satisfiability pass -/

/-- The index of an atom in the collected table, zero for a missing one. -/
def atomIndex (names : List String) (name : String) : Nat :=
  if name ∈ names then names.idxOf name else 0

/-- `eval_req`: one line under one assignment, bit `i` of `mask` for atom `i`. -/
def evalReq (names : List String) (mask : Nat) (e : ReqExpr) : Bool :=
  e.eval fun name => mask / 2 ^ atomIndex names name % 2 == 1

/-- What the pass reports. -/
inductive SolveFault where
  /-- `fulfill` and `break` can both hold, first under assignment `mask`. -/
  | bothHold (mask : Nat)
  | fulfillNever
  | breakNever
  deriving DecidableEq, Repr

/-- The witness assignment rendered as the atom list. -/
def witness (names : List String) (mask : Nat) : String :=
  ", ".intercalate (names.mapIdx fun i name => if mask / 2 ^ i % 2 = 0 then "!" ++ name else name)

/-- The text of a report. -/
def SolveFault.message (cname : String) (names : List String) : SolveFault → String
  | .bothHold mask => "requirements 'fulfill' and 'break' can both hold in contract '" ++ cname ++
      "' when " ++ witness names mask
  | .fulfillNever => "requirements 'fulfill' can never hold in contract '" ++ cname ++ "'"
  | .breakNever => "requirements 'break' can never hold in contract '" ++ cname ++ "'"

/-- An optional line under one assignment; an unwritten line is false. -/
def evalOptional (names : List String) (mask : Nat) : Option ReqExpr → Bool
  | none => false
  | some e => evalReq names mask e

/-- `solve_block`: enumerate every assignment and report contradictions and dead
lines. -/
def solveBlock (rb : ReqBlock) : List SolveFault :=
  let names := blockAtoms rb
  if names.length > atomLimit then []
  else
    let masks := List.range (2 ^ names.length)
    let fv := fun mask => evalOptional names mask rb.fulfill
    let bv := fun mask => evalOptional names mask rb.brk
    (match rb.fulfill, rb.brk, masks.find? (fun mask => fv mask && bv mask) with
      | some _, some _, some both => [.bothHold both]
      | _, _, _ => []) ++
    (if rb.fulfill.isSome && !masks.any fv then [.fulfillNever] else []) ++
    (if rb.brk.isSome && !masks.any bv then [.breakNever] else [])

end Geas.Compiler
