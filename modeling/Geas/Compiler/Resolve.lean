import Geas.Lib.FirstWins
import Geas.Compiler.Grammar

/-!
# Name resolution

The pass between the parser and the checker.  It declares the global names, then the
members of every contract, and then checks what refers to them: the provisional clauses a
contract incorporates and the names its requirements test.

A table entry holds the node its arena id leads to.  Contracts go by their position in the
file and subcontracts by their position in the contract, where the tables use ids.  A
fault is its message: the trees of the parser hold no spans.
-/

namespace Geas.Compiler.Parse.Resolve

open Geas.Lib
open Geas.Runtime (CString ascii)

/-! ## Tables -/

/-- What a global name stands for.  A schema stands for the record of its rows. -/
inductive Global where
  | record (fields : List FieldNode)
  | schema (cols : List FieldNode)
  | sum (variants : List VariantNode)
  | variant (node : VariantNode)
  | prov (isInternal : Bool) (sigs : List ClauseSigNode)
  | contract (isInternal : Bool) (members : List Member)

/-- `gk_word`. -/
def gkWord : Global → CString
  | .record _ | .schema _ => ascii "record"
  | .sum _ => ascii "sum"
  | .variant _ => ascii "variant"
  | .prov _ _ => ascii "provisional clause"
  | .contract _ _ => ascii "contract"

/-- A global name, with the package of the file that declared it. -/
structure GEntry where
  target : Global
  pkg : Option Nat

/-- A contract member, and for a pledge the subcontract it was declared in. -/
structure MEntry where
  member : Member
  sub : Option Nat

/-- `mk_word`. -/
def mkWord : Member → CString
  | .vow _ _ _ => ascii "vow"
  | .pledge _ => ascii "pledge"
  | .clause _ => ascii "clause"
  | _ => ascii "subcontract"

/-- The tables and the faults. -/
structure Resolved where
  globals : List (CString × GEntry)
  members : List ((Nat × CString) × MEntry)
  subPledges : List ((Nat × Nat × CString) × PledgeNode)
  incs : List ((Nat × CString) × Unit)
  imports : List (CString × Unit)
  errors : List CString

/-- A pass over the tables. -/
abbrev Pass : Type := Resolved → Resolved

def Resolved.emit (r : Resolved) (msg : CString) : Resolved := { r with errors := r.errors ++ [msg] }

/-- `rs_global`. -/
def rsGlobal (r : Resolved) (name : CString) : Option GEntry := r.globals.lookup name

/-- `rs_member`. -/
def rsMember (r : Resolved) (cid : Nat) (name : CString) : Option MEntry :=
  r.members.lookup (cid, name)

/-- The package of a global name, none when there is no such name. -/
def pkgOf (r : Resolved) (name : CString) : Option Nat := (rsGlobal r name).bind GEntry.pkg

/-! ## Declaring -/

/-- One import, unless the parse has put an empty path in its place. -/
def collectImport (path : CString) : Pass := fun r =>
  if path = [] then r
  else if (r.imports.lookup path).isSome then r
  else { r with imports := r.imports ++ [(path, ())] }

def collectImports (f : File) : Pass := fun r => f.imports.foldl (fun r path => collectImport path r) r

/-- `declare_global`.  The empty name stands where the parse reported a fault. -/
def declareGlobal (target : Global) (pkg : Option Nat) (name : CString) : Pass := fun r =>
  if name = [] then r
  else if (r.globals.lookup name).isSome then
    r.emit (ascii "duplicate " ++ gkWord target ++ ascii " '" ++ name ++ ascii "'")
  else { r with globals := r.globals ++ [(name, ⟨target, pkg⟩)] }

/-- The names of a declaration: those of its variants follow the name of a sum. -/
def collectDecl (pkg : Nat) : Decl → Pass
  | .record name fields => declareGlobal (.record fields) (some pkg) name
  | .sum name variants => fun r =>
      variants.foldl (fun r v => declareGlobal (.variant v) (some pkg) v.name r)
        (declareGlobal (.sum variants) (some pkg) name r)
  | .prov isInternal name sigs => declareGlobal (.prov isInternal sigs) (some pkg) name
  | .contract isInternal name _ members =>
      declareGlobal (.contract isInternal members) (some pkg) name

/-- The declarations with their packages: `decl_pkg_at`, 0 where the loader gave none. -/
def placed (f : File) (declPkg : List Nat) : List (Decl × Nat) :=
  f.decls.zipIdx.map fun (d, i) => (d, declPkg.getD i 0)

def collectGlobals (f : File) (declPkg : List Nat) : Pass := fun r =>
  (placed f declPkg).foldl (fun r (d, pkg) => collectDecl pkg d r) r

/-- `declare_member`. -/
def declareMember (cid : Nat) (cname : CString) (member : Member) (sub : Option Nat)
    (name : CString) : Pass := fun r =>
  if name = [] then r
  else if (r.members.lookup (cid, name)).isSome then
    r.emit (ascii "duplicate " ++ mkWord member ++ ascii " '" ++ name ++ ascii "' in contract '" ++
      cname ++ ascii "'")
  else { r with members := r.members ++ [((cid, name), ⟨member, sub⟩)] }

/-- One pledge of a named subcontract. -/
def declareSubPledge (cid subid : Nat) (sname : CString) (pl : PledgeNode) : Pass := fun r =>
  if pl.name = [] then r
  else if (r.subPledges.lookup (cid, subid, pl.name)).isSome then
    r.emit (ascii "duplicate pledge '" ++ pl.name ++ ascii "' in subcontract '" ++ sname ++
      ascii "'")
  else { r with subPledges := r.subPledges ++ [((cid, subid, pl.name), pl)] }

/-- `collect_sub`: the pledges of a named subcontract have a namespace of their own, those
of an anonymous one join the contract's. -/
def collectSub (cid : Nat) (cname : CString) (subid : Nat) (s : SubNode) : Pass := fun r =>
  match s.name with
  | some sname =>
      s.pledges.foldl (fun r pl => declareSubPledge cid subid sname pl r)
        (declareMember cid cname (.subcontract s) none sname r)
  | none =>
      s.pledges.foldl (fun r pl => declareMember cid cname (.pledge pl) (some subid) pl.name r) r

/-- One member, with whether a requirements block came before it. -/
def collectMember (cid : Nat) (cname : CString) (pkg : Option Nat) (state : Resolved × Bool)
    (place : Member × Nat) : Resolved × Bool :=
  let (r, haveReq) := state
  match place with
  | (.schema name cols, _) => (declareGlobal (.schema cols) pkg name r, haveReq)
  | (.vow name ty init, _) => (declareMember cid cname (.vow name ty init) none name r, haveReq)
  | (.pledge node, _) => (declareMember cid cname (.pledge node) none node.name r, haveReq)
  | (.clause node, _) => (declareMember cid cname (.clause node) none node.name r, haveReq)
  | (.subcontract node, subid) => (collectSub cid cname subid node r, haveReq)
  | (.requirements _, _) =>
      let r := if haveReq then
        r.emit (ascii "duplicate requirements block in contract '" ++ cname ++ ascii "'") else r
      (r, true)
  | (.incorporate _, _) => (r, haveReq)

/-- A contract of a file, under its position. -/
structure Contract where
  cid : Nat
  name : CString
  members : List Member

/-- The contracts of the file, in order. -/
def contracts (f : File) : List Contract :=
  f.decls.zipIdx.filterMap fun
    | (.contract _ name _ members, cid) => some ⟨cid, name, members⟩
    | _ => none

def collectMembers (c : Contract) : Pass := fun r =>
  (c.members.zipIdx.foldl (collectMember c.cid c.name (pkgOf r c.name)) (r, false)).1

/-! ## Incorporates -/

/-- One signature of an incorporated provisional clause. -/
def provideSig (cid : Nat) (cname text : CString) (state : Resolved × List (CString × CString))
    (sig : ClauseSigNode) : Resolved × List (CString × CString) :=
  let (r, provided) := state
  if sig.name = [] then state
  else
    match provided.lookup sig.name with
    | some other =>
        (r.emit (ascii "provisional clauses '" ++ other ++ ascii "' and '" ++ text ++
          ascii "' both provide clause '" ++ sig.name ++ ascii "'"), provided)
    | none =>
        let provided := provided ++ [(sig.name, text)]
        match rsMember r cid sig.name with
        | some ⟨.clause _, _⟩ => (r, provided)
        | _ =>
            (r.emit (ascii "contract '" ++ cname ++ ascii "' does not implement clause '" ++
              sig.name ++ ascii "' from provisional clause '" ++ text ++ ascii "'"), provided)

/-- `resolve_incorporate`. -/
def resolveIncorporate (cid : Nat) (cname : CString) (cpkg : Option Nat)
    (state : Resolved × List (CString × CString)) (text : CString) :
    Resolved × List (CString × CString) :=
  let (r, provided) := state
  if text = [] then state
  else
    match rsGlobal r text with
    | none => (r.emit (ascii "unknown provisional clause '" ++ text ++ ascii "'"), provided)
    | some ⟨.prov isInternal sigs, pkg⟩ =>
        -- an internal provisional clause is visible to its own package alone
        if isInternal = true ∧ pkg ≠ cpkg then
          (r.emit (ascii "internal provisional clause '" ++ text ++
            ascii "' is not visible outside its package"), provided)
        else if (r.incs.lookup (cid, text)).isSome then
          (r.emit (ascii "duplicate incorporate of '" ++ text ++ ascii "' in contract '" ++
            cname ++ ascii "'"), provided)
        else
          sigs.foldl (provideSig cid cname text)
            ({ r with incs := r.incs ++ [((cid, text), ())] }, provided)
    | some _ => (r.emit (ascii "'" ++ text ++ ascii "' is not a provisional clause"), provided)

/-- The names a contract incorporates. -/
def incorporated (members : List Member) : List CString :=
  members.filterMap fun
    | .incorporate name => some name
    | _ => none

def resolveIncorporates (c : Contract) : Pass := fun r =>
  ((incorporated c.members).foldl (resolveIncorporate c.cid c.name (pkgOf r c.name)) (r, [])).1

/-! ## Requirements -/

/-- `named_sub_pledge`. -/
def namedSubPledge (r : Resolved) (c : Contract) (name : CString) : Bool :=
  c.members.zipIdx.any fun
    | (.subcontract s, subid) => s.name.isSome && (r.subPledges.lookup (c.cid, subid, name)).isSome
    | _ => false

/-- `resolve_req_atom`, with the names seen so far. -/
def resolveReqAtom (c : Contract) (state : Resolved × List CString) (text : CString) :
    Resolved × List CString :=
  let (r, seen) := state
  if text = [] then state
  else
    let seen := if seen.contains text then seen else seen ++ [text]
    let inside := ascii "pledge '" ++ text ++
      ascii "' is declared inside a subcontract and cannot be named in requirements"
    match rsMember r c.cid text with
    | none =>
        if namedSubPledge r c text then (r.emit inside, seen)
        else (r.emit (ascii "unknown name '" ++ text ++ ascii "' in requirements"), seen)
    | some ⟨.subcontract _, _⟩ => (r, seen)
    | some ⟨.pledge _, some _⟩ => (r.emit inside, seen)
    | some ⟨.pledge _, none⟩ => (r, seen)
    | some _ =>
        (r.emit (ascii "requirements name '" ++ text ++
          ascii "' is not a subcontract or a pledge"), seen)

/-- `resolve_req_expr`. -/
def resolveReqExpr (c : Contract) (state : Resolved × List CString) :
    Formula CString → Resolved × List CString
  | .atom text => resolveReqAtom c state text
  | .not e => resolveReqExpr c state e
  | .and left right => resolveReqExpr c (resolveReqExpr c state left) right
  | .or left right => resolveReqExpr c (resolveReqExpr c state left) right

/-- A line of the block, if it is written. -/
def resolveReqLine (c : Contract) (state : Resolved × List CString) :
    Option (Formula CString) → Resolved × List CString
  | none => state
  | some e => resolveReqExpr c state e

/-- The requirements blocks of a contract. -/
def reqBlocks (members : List Member) : List ReqBlockNode :=
  members.filterMap fun
    | .requirements block => some block
    | _ => none

/-- The lines of a block, in the order they are resolved. -/
def reqLines (block : ReqBlockNode) : List (Option (Formula CString)) :=
  [block.fulfill, block.partly, block.brk]

/-- The most names a contract's requirements may test. -/
def atomLimit : Nat := 16

/-- `resolve_requirements`: the first block alone. -/
def resolveRequirements (c : Contract) : Pass := fun r =>
  match reqBlocks c.members with
  | [] => r
  | block :: _ =>
      let (r, seen) := (reqLines block).foldl (resolveReqLine c) (r, [])
      if seen.length > atomLimit then
        r.emit (ascii "too many requirements atoms in contract '" ++ c.name ++
          ascii "'; the limit is 16")
      else r

/-! ## The pass -/

def emptyResolved : Resolved := ⟨[], [], [], [], [], []⟩

/-- `resolve_file`: all names are declared before any is looked up. -/
def resolveFile (f : File) (declPkg : List Nat) : Resolved :=
  let r := collectGlobals f declPkg (collectImports f emptyResolved)
  let r := (contracts f).foldl (fun r c => collectMembers c r) r
  (contracts f).foldl (fun r c => resolveRequirements c (resolveIncorporates c r)) r

end Geas.Compiler.Parse.Resolve
