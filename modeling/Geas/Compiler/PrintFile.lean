import Geas.Compiler.ReadReqs

/-!
# Printing files

The tokens of a file: the imports, then the declarations, each on a line of its own, and in
a braced body one line for each field, column, signature, member and pledge.  Attributes
and a list of variant fields are left out when they are empty, as the parser reads them.

Beside the tokens stand, as for expressions, the levels of nesting a parse of them opens,
which trees the grammar spells at all, and whether a record literal of some body stands
bare where one may not.
-/

namespace Geas.Compiler.Parse

open Geas.Lib
open Geas.Runtime (CString ascii)

/-! ## Parts of declarations -/

/-- The deepest of some parts. -/
def deepest {α : Type} (levels : α → Nat) (parts : List α) : Nat :=
  (parts.map levels).foldr max 0

/-- Lines of a braced body. -/
def bodyToks {α : Type} (toks : α → List Token) (lines : List α) : List Token :=
  inBraces (lines.map fun line => onNewLine (toks line)).flatten

def fieldDeclToks (f : FieldNode) : List Token := word f.name :: sym .colon :: typeToks f.ty

def paramsToks (params : List FieldNode) : List Token :=
  inParens (commaSep (params.map fieldDeclToks))

def attrToks (a : AttrNode) : List Token := [word a.key, sym .colon, litToken a.val]

def attrsToks (attrs : List AttrNode) : List Token :=
  if attrs = [] then [] else inBrackets (commaSep (attrs.map attrToks))

def variantToks (v : VariantNode) : List Token :=
  word v.name :: if v.fields = [] then [] else paramsToks v.fields

/-- Variants, with `or` between them. -/
def variantsToks : List VariantNode → List Token
  | [] => []
  | [v] => variantToks v
  | v :: vars => variantToks v ++ sym (.kw .or) :: variantsToks vars

/-- A name, its parameters and its return type, behind the keyword. -/
def signatureToks (name : CString) (params : List FieldNode) (ret : TypeNode) : List Token :=
  word name :: (paramsToks params ++ sym .arrow :: typeToks ret)

def clauseSigToks (s : ClauseSigNode) : List Token :=
  sym (.kw .clause) :: signatureToks s.name s.params s.ret

def pledgeToks (p : PledgeNode) : List Token :=
  sym (.kw .pledge) :: (signatureToks p.name p.params p.ret ++ attrsToks p.attrs ++
    p.body.elim [] fun body => inBraces (stmtsToks body))

def clauseToks (c : ClauseNode) : List Token :=
  sym (.kw .clause) :: (signatureToks c.name c.params c.ret ++ inBraces (stmtsToks c.body))

def subToks (s : SubNode) : List Token :=
  sym (.kw .subcontract) :: ((s.name.elim [] fun name => [word name]) ++
    (if s.transactional then [sym (.kw .transactional)] else []) ++ bodyToks pledgeToks s.pledges)

/-- A line of a requirements block, if it is written. -/
def reqLineToks (label : Token) : Option (Formula CString) → List Token
  | none => []
  | some e => onNewLine (label :: sym .colon :: reqToks e)

def requirementsToks (block : ReqBlockNode) : List Token :=
  sym (.kw .requirements) :: inBraces (reqLineToks (word (ascii "fulfill")) block.fulfill ++
    reqLineToks (word (ascii "partial")) block.partly ++
    reqLineToks (sym (.kw .break_)) block.brk)

def memberToks : Member → List Token
  | .incorporate name => [sym (.kw .incorporate), word name]
  | .vow name ty init =>
      sym (.kw .vow) :: (fieldDeclToks ⟨name, ty⟩ ++
        init.elim [] fun value => sym .assign :: exprToks false value)
  | .pledge node => pledgeToks node
  | .clause node => clauseToks node
  | .subcontract node => subToks node
  | .schema name cols => sym (.kw .schema) :: word name :: bodyToks fieldDeclToks cols
  | .requirements block => requirementsToks block

/-- The keyword of an internal declaration, if it is one. -/
def internalToks (internal : Bool) : List Token := if internal then [sym (.kw .internal)] else []

def declToks : Decl → List Token
  | .record name fields => sym (.kw .record) :: word name :: bodyToks fieldDeclToks fields
  | .sum name variants =>
      word name :: sym (.kw .is) :: sym (.kw .either) :: variantsToks variants
  | .prov internal name sigs =>
      internalToks internal ++ sym (.kw .provisional) :: sym (.kw .clause) :: word name ::
        bodyToks clauseSigToks sigs
  | .contract internal name attrs members =>
      internalToks internal ++ sym (.kw .contract) :: word name ::
        (attrsToks attrs ++ bodyToks memberToks members)

/-- The parts of a dotted path. -/
def pathParts (path : CString) : List CString := path.splitOn 46

/-- Parts with dots before them. -/
def dottedToks (parts : List CString) : List Token :=
  parts.flatMap fun part => [sym .dot, word part]

def importToks (path : CString) : List Token :=
  sym (.kw .import_) :: match pathParts path with
    | [] => []
    | part :: parts => word part :: dottedToks parts

/-- The tokens of a file, with the end. -/
def fileToks (f : File) : List Token :=
  (f.imports.map fun path => onNewLine (importToks path)).flatten ++
    (f.decls.map fun d => onNewLine (declToks d)).flatten ++ [eofToken]

/-! ## Levels -/

def paramsLevels (params : List FieldNode) : Nat := deepest (fun f => typeLevels f.ty) params

def signatureLevels (params : List FieldNode) (ret : TypeNode) : Nat :=
  max (paramsLevels params) (typeLevels ret)

def pledgeLevels (p : PledgeNode) : Nat :=
  max (signatureLevels p.params p.ret) (p.body.elim 0 fun body => 1 + stmtsLevels body)

def clauseLevels (c : ClauseNode) : Nat :=
  max (signatureLevels c.params c.ret) (1 + stmtsLevels c.body)

def reqLineLevels (e : Option (Formula CString)) : Nat := e.elim 0 fun e => 1 + reqLevels e

def memberLevels : Member → Nat
  | .incorporate _ => 0
  | .vow _ ty init => max (typeLevels ty) (init.elim 0 fun value => 1 + exprLevels false value)
  | .pledge node => pledgeLevels node
  | .clause node => clauseLevels node
  | .subcontract node => deepest pledgeLevels node.pledges
  | .schema _ cols => paramsLevels cols
  | .requirements block =>
      max (reqLineLevels block.fulfill) (max (reqLineLevels block.partly) (reqLineLevels block.brk))

def declLevels : Decl → Nat
  | .record _ fields => paramsLevels fields
  | .sum _ variants => deepest (fun v => paramsLevels v.fields) variants
  | .prov _ _ sigs => deepest (fun s => signatureLevels s.params s.ret) sigs
  | .contract _ _ _ members => deepest memberLevels members

/-- The levels a parse of a file opens. -/
def fileLevels (f : File) : Nat := deepest declLevels f.decls

/-! ## Files of the grammar -/

def FieldDeclSpelled (f : FieldNode) : Prop := IsIdent f.name ∧ TypeSpelled f.ty

def ParamsSpelled (params : List FieldNode) : Prop := ∀ f ∈ params, FieldDeclSpelled f

/-- The keys of attributes are known ones. -/
def AttrsSpelled (attrs : List AttrNode) : Prop := ∀ a ∈ attrs, attrKeyKnown a.key = true

def SignatureSpelled (name : CString) (params : List FieldNode) (ret : TypeNode) : Prop :=
  IsIdent name ∧ ParamsSpelled params ∧ TypeSpelled ret

def PledgeSpelled (p : PledgeNode) : Prop :=
  SignatureSpelled p.name p.params p.ret ∧ AttrsSpelled p.attrs ∧
    ∀ body, p.body = some body → StmtsSpelled body

def ClauseSpelled (c : ClauseNode) : Prop :=
  SignatureSpelled c.name c.params c.ret ∧ StmtsSpelled c.body

def SubSpelled (s : SubNode) : Prop :=
  (∀ name, s.name = some name → IsIdent name) ∧ ∀ p ∈ s.pledges, PledgeSpelled p

def MemberSpelled : Member → Prop
  | .incorporate name => IsIdent name
  | .vow name ty init =>
      FieldDeclSpelled ⟨name, ty⟩ ∧ ∀ value, init = some value → ExprSpelled value
  | .pledge node => PledgeSpelled node
  | .clause node => ClauseSpelled node
  | .subcontract node => SubSpelled node
  | .schema name cols => IsIdent name ∧ ParamsSpelled cols
  | .requirements block =>
      ∀ e, block.fulfill = some e ∨ block.partly = some e ∨ block.brk = some e → ReqSpelled e

/-- A sum has a variant at least. -/
def DeclSpelled : Decl → Prop
  | .record name fields => IsIdent name ∧ ParamsSpelled fields
  | .sum name variants =>
      IsIdent name ∧ variants ≠ [] ∧ ∀ v ∈ variants, IsIdent v.name ∧ ParamsSpelled v.fields
  | .prov _ name sigs => IsIdent name ∧ ∀ s ∈ sigs, SignatureSpelled s.name s.params s.ret
  | .contract _ name attrs members =>
      IsIdent name ∧ AttrsSpelled attrs ∧ ∀ m ∈ members, MemberSpelled m

def PathSpelled (path : CString) : Prop := ∀ part ∈ pathParts path, IsIdent part

/-- The file is one the grammar spells. -/
def FileSpelled (f : File) : Prop :=
  (∀ path ∈ f.imports, PathSpelled path) ∧ ∀ d ∈ f.decls, DeclSpelled d

/-! ## The record flag -/

def PledgeClear (p : PledgeNode) : Prop := ∀ body, p.body = some body → StmtsClear false body

def MemberClear : Member → Prop
  | .incorporate _ | .schema _ _ | .requirements _ => True
  | .vow _ _ init => ∀ value, init = some value → Clear false false value
  | .pledge node => PledgeClear node
  | .clause node => StmtsClear false node.body
  | .subcontract node => ∀ p ∈ node.pledges, PledgeClear p

def DeclClear : Decl → Prop
  | .contract _ _ _ members => ∀ m ∈ members, MemberClear m
  | _ => True

/-- No record literal of the printed file stands bare where the parser's flag forbids one. -/
def FileClear (f : File) : Prop := ∀ d ∈ f.decls, DeclClear d

end Geas.Compiler.Parse
