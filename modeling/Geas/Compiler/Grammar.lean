import Geas.Lib.Formula
import Geas.Compiler.Parser

/-!
# The grammar

The parse functions, as the source has them.  They call each other, so each is written
over the functions it may call, and `parsers` ties the knot: with room for `n + 1` calls
a function runs its body over the functions with room for `n`.  Every call is counted
while it is open.
-/

namespace Geas.Compiler.Parse

open Geas.Lib Geas.Lib.Descent
open Geas.Runtime (CString ascii)

/-! ## Declarations -/

/-- A name and its type: a record field, a variant field, a column or a parameter. -/
structure FieldNode where
  name : CString
  ty : TypeNode

/-- An attribute. -/
structure AttrNode where
  key : CString
  val : Lit

structure VariantNode where
  name : CString
  fields : List FieldNode

structure ClauseSigNode where
  name : CString
  params : List FieldNode
  ret : TypeNode

structure PledgeNode where
  name : CString
  params : List FieldNode
  ret : TypeNode
  attrs : List AttrNode
  body : Option (List Stmt)

structure ClauseNode where
  name : CString
  params : List FieldNode
  ret : TypeNode
  body : List Stmt

structure SubNode where
  name : Option CString
  pledges : List PledgeNode
  transactional : Bool

/-- The lines of a requirements block, each written or not. -/
structure ReqBlockNode where
  fulfill : Option (Formula CString)
  partly : Option (Formula CString)
  brk : Option (Formula CString)

inductive Member where
  | incorporate (name : CString)
  | vow (name : CString) (ty : TypeNode) (init : Option Expr)
  | pledge (node : PledgeNode)
  | clause (node : ClauseNode)
  | subcontract (node : SubNode)
  | schema (name : CString) (cols : List FieldNode)
  | requirements (block : ReqBlockNode)

inductive Decl where
  | record (name : CString) (fields : List FieldNode)
  | sum (name : CString) (variants : List VariantNode)
  | prov (internal : Bool) (name : CString) (sigs : List ClauseSigNode)
  | contract (internal : Bool) (name : CString) (attrs : List AttrNode) (members : List Member)

/-- A parsed file. -/
structure File where
  imports : List CString
  decls : List Decl

/-- A parse with no room for another call. -/
instance {α : Type} : Inhabited (P α) := ⟨throw .overflow⟩

/-- The parse functions, as a body may call them. -/
structure Parsers where
  type : P TypeNode
  typeInner : P TypeNode
  typeArgs : P (List TypeNode)
  pledgeType : P TypeNode
  params : P (List FieldNode)
  expr : P Expr
  exprNoRecord : P Expr
  bin : Nat → P Expr
  binInner : Nat → P Expr
  unary : P Expr
  unaryInner : P Expr
  postfixExpr : P Expr
  callArgs : P (List Arg)
  arg : P Arg
  primary : P Expr
  mutExpr : P Expr
  paren : P Expr
  list : P Expr
  identPrimary : Token → P Expr
  recordLit : CString → P Expr
  matchExpr : P Expr
  pattern : P PatternNode
  patternInner : P PatternNode
  variantPattern : P PatternNode
  block : P (List Stmt)
  stmt : P Stmt
  letStmt : P Stmt
  returnStmt : P Stmt
  ifStmt : P Stmt
  whileStmt : P Stmt
  forStmt : P Stmt
  import_ : P CString
  decl : P (List CString × List Decl)
  record : P Decl
  sum : P Decl
  variant : P VariantNode
  prov : Bool → P Decl
  contract : Bool → P Decl
  member : P (Option Member)
  schema : P Member
  pledge : P PledgeNode
  clause : P ClauseNode
  subcontract : P SubNode
  attrs : P (List AttrNode)
  requirements : P ReqBlockNode
  reqLine : P (Formula CString)
  reqOr : P (Formula CString)
  reqOrInner : P (Formula CString)
  reqAnd : P (Formula CString)
  reqNot : P (Formula CString)
  reqAtom : P (Formula CString)
  file : P File
  deriving Inhabited

/-- Run `m` when `b` says so. -/
def optionally {α : Type} (b : Bool) (m : P α) : P (Option α) :=
  if b then m >>= fun a => pure (some a) else pure none

variable (r : Parsers)

/-! ## Types -/

/-- The type recovery makes up. -/
def noType : TypeNode := .named [] []

def parseType : P TypeNode := underCeiling r.typeInner noType

def parseTypeInner : P TypeNode := do
  if ← pKw .pledge then r.pledgeType
  else if ← pAt .ident then
    let name ← pIdent
    if ← pAt .lt then
      let args ← r.typeArgs
      return .named name args
    else return .named name []
  else
    pErrorExpected "a type"
    return noType

def parseTypeArgs : P (List TypeNode) := do
  pExpect .lt "'<'"
  pGroupEnter
  let args ← commaList .gt pAtEof r.type
  pGroupLeave
  pExpect .gt "'>'"
  return args

/-- The return type after an arrow, or a fault and a placeholder. -/
def arrowType (msg : String) : P TypeNode := do
  if ← pEat .arrow then r.type
  else
    pError msg
    return noType

def parsePledgeType : P TypeNode := do
  pBump
  pExpect .lparen "'('"
  pGroupEnter
  let params ← commaList .rparen pAtEof r.type
  pGroupLeave
  pExpect .rparen "')'"
  let ret ← arrowType r "a pledge type declares its return type with '->'"
  return .pledge params ret

/-- A name and its type, with the text of the fault for a missing colon. -/
def fieldDecl (what : String) : P FieldNode := do
  let name ← pIdent
  pExpect .colon what
  let ty ← r.type
  return ⟨name, ty⟩

def parseParams : P (List FieldNode) := do
  pExpect .lparen "'('"
  pGroupEnter
  let params ← commaList .rparen pAtEof
    (fieldDecl r "':' between the parameter name and its type")
  pGroupLeave
  pExpect .rparen "')'"
  return params

/-! ## Expressions -/

def parseExpr : P Expr := r.bin 0

/-- The expression of a header, where a bare record literal is forbidden. -/
def parseExprNoRecord : P Expr := do
  let saved ← pNoRecord
  pSetNoRecord true
  let e ← r.bin 0
  pSetNoRecord saved
  return e

def binopForKind : Kind → Option BinOp
  | .orOr => some .or
  | .andAnd => some .and
  | .eqEq => some .eq
  | .ne => some .ne
  | .lt => some .lt
  | .le => some .le
  | .gt => some .gt
  | .ge => some .ge
  | .plus => some .add
  | .minus => some .sub
  | .star => some .mul
  | .slash => some .div
  | .percent => some .mod
  | _ => none

/-- The left binding power of an operator, loosest lowest. -/
def binLbp : BinOp → Nat
  | .or => 10
  | .and => 20
  | .eq | .ne => 30
  | .lt | .le | .gt | .ge => 40
  | .add | .sub => 50
  | .mul | .div | .mod => 60

def dummyExpr : Expr := .ident []

def parseBin (minBp : Nat) : P Expr := underCeiling (r.binInner minBp) dummyExpr

/-- A turn of the operator loop. -/
def binTurn (minBp : Nat) (lhs : Expr) : P (Turn Expr) := do
  if ← pNlTerm then return .stop lhs
  else
    let k ← pKind
    match binopForKind k with
    | none => return .stop lhs
    | some op =>
        if binLbp op < minBp then return .stop lhs
        else
          pBump
          let rhs ← r.bin (binLbp op + 1)
          return .again (.binary op lhs rhs)

def parseBinInner (minBp : Nat) : P Expr := do
  let lhs ← r.unary
  pLoop (binTurn r minBp) lhs

def parseUnary : P Expr := underCeiling r.unaryInner dummyExpr

/-- The prefix operator of a token. -/
def unopForKind : Kind → Option UnOp
  | .minus => some .neg
  | .bang => some .not
  | _ => none

def parseUnaryInner : P Expr := do
  let k ← pKind
  match unopForKind k with
  | some op =>
      pBump
      let e ← r.unary
      return .unary op e
  | none => r.postfixExpr

/-- An expression inside a group that was just opened, where record literals are allowed
again. -/
def grouped {α : Type} (m : P α) : P α := do
  pGroupEnter
  let saved ← pNoRecord
  pSetNoRecord false
  let a ← m
  pSetNoRecord saved
  pGroupLeave
  return a

/-- A turn of the loop over calls, indices, members and `?`. -/
def postfixTurn (e : Expr) : P (Turn Expr) := do
  if ← pNlTerm then return .stop e
  else if ← pAt .lparen then
    let args ← r.callArgs
    return .again (.call e args)
  else if ← pAt .lbracket then
    pBump
    let idx ← grouped r.expr
    pExpect .rbracket "']'"
    return .again (.index e idx)
  else if ← pAt .dot then
    pBump
    let name ← pMemberName
    return .again (.member e name)
  else if ← pAt .question then
    pBump
    return .again (.question e)
  else return .stop e

def parsePostfix : P Expr := do
  let e ← r.primary
  pLoop (postfixTurn r) e

def parseCallArgs : P (List Arg) := do
  pBump
  let args ← grouped (commaList .rparen pAtEnd r.arg)
  pExpect .rparen "')'"
  return args

/-- The label of an argument: an identifier directly before a colon. -/
def argLabel : P (Option CString) := do
  let k ← pKind
  let k2 ← pKind2
  if k = .ident ∧ k2 = .colon then
    let label ← pIdent
    pBump
    return some label
  else return none

def parseArg : P Arg := do
  let label ← argLabel
  let e ← r.expr
  return .mk label e

/-- A literal, or nothing when the current token is none. -/
def parseLiteralExpr : P (Option Lit) := do
  let t ← pTok
  match t.kind with
  | .lit literal =>
      pBump
      return some literal
  | _ => return none

/-- A primary that is no literal, by its first token. -/
def primaryByToken (t : Token) : P Expr := do
  match t.kind with
  | .kw .match_ => r.matchExpr
  | .kw .mut => r.mutExpr
  | .lparen => r.paren
  | .lbracket => r.list
  | .ident => r.identPrimary t
  | .underscore =>
      pError "'_' is a pattern, not an expression"
      pBump
      return dummyExpr
  | _ =>
      pErrorExpected "an expression"
      pBump
      return dummyExpr

def parsePrimary : P Expr := do
  let t ← pTok
  match ← parseLiteralExpr with
  | some literal => return .lit literal
  | none => primaryByToken r t

def parseMutExpr : P Expr := do
  pBump
  pExpect .lparen "'(' after 'mut'"
  let e ← grouped r.expr
  pExpect .rparen "')'"
  return .mut e

/-- The elements of a tuple behind its first. -/
def tupleTurn (seen : List Expr) : P (Turn (List Expr)) := do
  if ← pEat .comma then
    let e ← r.expr
    return .again (seen ++ [e])
  else return .stop seen

/-- What stands in parentheses: nothing, one expression or the elements of a tuple. -/
def parenElems : P (List Expr) := do
  if ← pAt .rparen then
    pError "expected an expression inside the parentheses"
    pBump
    return []
  else
    let first ← r.expr
    pLoop (tupleTurn r) [first]

/-- The tree of what stands in parentheses.  One expression is itself. -/
def parenTree : List Expr → Expr
  | [] => dummyExpr
  | [e] => e
  | elems => .tuple elems

def parseParen : P Expr := do
  pBump
  let elems ← grouped (parenElems r)
  if elems = [] then return dummyExpr
  else
    pExpect .rparen "')'"
    return parenTree elems

def parseList : P Expr := do
  pBump
  let elems ← grouped (commaList .rbracket pAtEnd r.expr)
  pExpect .rbracket "']'"
  return .list elems

/-- The constructors that take one argument. -/
def ctorForName (name : CString) : Option (Expr → Expr) :=
  if name = ascii "Some" then some .some
  else if name = ascii "Ok" then some .ok
  else if name = ascii "Err" then some .err
  else none

/-- An identifier that is no applied constructor: `None`, the map constructor, a record
literal where one may stand, or a plain name. -/
def parseName (t : Token) : P Expr := do
  let k2 ← pKind2
  if t.text = ascii "None" then
    pBump
    return .none
  else if t.text = ascii "Map" ∧ k2 = .lt then
    let ty ← r.type
    pExpect .lparen "'(' after the Map constructor type"
    pExpect .rparen "')'; a Map starts empty, its constructor takes no arguments"
    return .mapNew ty
  else
    pBump
    let opens ← pAt .lbrace
    let noRecord ← pNoRecord
    let nl ← pNlHere
    if opens = true ∧ noRecord = false ∧ nl = false then r.recordLit t.text
    else return .ident t.text

def parseIdentPrimary (t : Token) : P Expr := do
  let k2 ← pKind2
  match ctorForName t.text with
  | some ctor =>
      if k2 = .lparen then
        pBump
        pBump
        let inner ← grouped r.expr
        pExpect .rparen "')'"
        return ctor inner
      else parseName r t
  | none => parseName r t

/-- One field of a record literal. -/
def recordField : P Field := do
  let name ← pIdent
  pExpect .colon "':' between the field name and its value"
  let saved ← pNoRecord
  pSetNoRecord false
  let value ← r.expr
  pSetNoRecord saved
  return .mk name value

def parseRecordLit (name : CString) : P Expr := do
  pBump
  let saved ← pBraceSave
  let fields ← commaList .rbrace (ask fun p => p.atEnd || decide (p.kind = .rbrace)) (recordField r)
  pBraceRestore saved
  pExpect .rbrace "'\x7d'"
  return .recordLit name fields

/-- The arrow of a match arm, or a fault. -/
def armArrow : P Unit := do
  if ← pEat .arrow then return ()
  else pError "a match arm needs '->' between its pattern and its body"

/-- One arm of a match. -/
def matchArm : P Arm := do
  let pat ← r.pattern
  armArrow
  if ← pAt .lbrace then
    let body ← r.block
    pSep "expected a newline after the match arm"
    return .block pat body
  else
    let body ← r.expr
    pSep "expected a newline after the match arm"
    return .expr pat body

def parseMatchExpr : P Expr := do
  pBump
  let scrut ← r.exprNoRecord
  pExpect .lbrace "'\x7b' to open the match arms"
  let saved ← pBraceSave
  let arms ← bodyLoop "unexpected token in the match arms"
    (fun arms => do
      let arm ← matchArm r
      return arms ++ [arm]) []
  pBraceRestore saved
  pExpectClose "the match body is not closed; expected '\x7d' before end of input"
  return .matchOn scrut arms

/-! ## Patterns -/

def parsePattern : P PatternNode := underCeiling r.patternInner .wildcard

/-- The pattern constructors that take one argument. -/
def patCtorForName (name : CString) : Option (PatternNode → PatternNode) :=
  if name = ascii "Some" then some .some
  else if name = ascii "Ok" then some .ok
  else if name = ascii "Err" then some .err
  else none

/-- A pattern that opens with an identifier. -/
def identPattern (t : Token) : P PatternNode := do
  let k2 ← pKind2
  if k2 = .lparen then
    match patCtorForName t.text with
    | some ctor =>
        pBump
        pBump
        pGroupEnter
        let inner ← r.pattern
        pGroupLeave
        pExpect .rparen "')'"
        return ctor inner
    | none => r.variantPattern
  else if t.text = ascii "None" then
    pBump
    return .none
  else
    let name ← pIdent
    return .bind name

def parsePatternInner : P PatternNode := do
  let t ← pTok
  if t.kind = .underscore then
    pBump
    return .wildcard
  else
    match ← parseLiteralExpr with
    | some literal => return .lit literal
    | none =>
        if t.kind = .ident then identPattern r t
        else
          pErrorExpected "a pattern"
          pBump
          return .wildcard

def parseVariantPattern : P PatternNode := do
  let name ← pIdent
  pBump
  pGroupEnter
  let subs ← commaList .rparen pAtEnd r.pattern
  pGroupLeave
  pExpect .rparen "')'"
  return .variant name subs

/-! ## Statements -/

def parseBlock : P (List Stmt) :=
  underCeiling (do
    pExpect .lbrace "'\x7b'"
    let saved ← pBraceSave
    let stmts ← bodyLoop "unexpected token in the block"
      (fun stmts => do
        let s ← r.stmt
        pSep "expected a newline after the statement"
        return stmts ++ [s]) []
    pBraceRestore saved
    pExpectClose "the block is not closed; expected '\x7d' before end of input"
    return stmts) []

/-- A statement that opens with an expression. -/
def exprStmt : P Stmt := do
  let e ← r.expr
  if ← pNlTerm then return .expr e
  else if ← pEat .assign then
    let rhs ← r.expr
    return .assign e rhs
  else return .expr e

def parseStmt : P Stmt := do
  let k ← pKind
  match k with
  | .kw .let_ => r.letStmt
  | .kw .return_ => r.returnStmt
  | .kw .if_ => r.ifStmt
  | .kw .while_ => r.whileStmt
  | .kw .for_ => r.forStmt
  | .kw .break_ =>
      pBump
      return .brk
  | .kw .continue_ =>
      pBump
      return .cont
  | _ => exprStmt r

def parseLetStmt : P Stmt := do
  pBump
  let mutable ← pEatKw .mut
  let name ← pIdent
  let typed ← pEat .colon
  let ty ← optionally typed r.type
  pExpect .assign "'=' in the let binding"
  let value ← r.expr
  return .letBind mutable name ty value

def parseReturnStmt : P Stmt := do
  pBump
  if ← pAt .rbrace then return .ret none
  else if ← pAtEnd then return .ret none
  else if ← pNlTerm then return .ret none
  else
    let e ← r.expr
    return .ret (some e)

/-- What follows the `else` of an `if`: one `if` more, which is its block, or a block. -/
def elseBranch : P (List Stmt) := do
  if ← pKw .if_ then underCeiling (r.ifStmt >>= fun s => pure [s]) [] else r.block

def parseIfStmt : P Stmt := do
  pBump
  let cond ← r.exprNoRecord
  let thenBlock ← r.block
  let hasElse ← pEatKw .else_
  let els ← optionally hasElse (elseBranch r)
  return .ifElse cond thenBlock els

def parseWhileStmt : P Stmt := do
  pBump
  let cond ← r.exprNoRecord
  let body ← r.block
  return .whileDo cond body

def parseForStmt : P Stmt := do
  pBump
  let name ← pIdent
  pExpectKw .in_ "'in' between the loop variable and its sequence"
  let iter ← r.exprNoRecord
  let body ← r.block
  return .forIn name iter body

/-! ## Requirements -/

def parseReqOr : P (Formula CString) := underCeiling r.reqOrInner (.atom [])

/-- A turn of a left-folded chain: its operator, then one operand more. -/
def chainTurn (k : Kind) (combine : Formula CString → Formula CString → Formula CString)
    (operand : P (Formula CString)) (lhs : Formula CString) : P (Turn (Formula CString)) := do
  if ← pNlTerm then return .stop lhs
  else if ← pEat k then
    let rhs ← operand
    return .again (combine lhs rhs)
  else return .stop lhs

def parseReqOrInner : P (Formula CString) := do
  let lhs ← r.reqAnd
  pLoop (chainTurn .orOr .or r.reqAnd) lhs

def parseReqAnd : P (Formula CString) := do
  let lhs ← r.reqNot
  pLoop (chainTurn .andAnd .and r.reqNot) lhs

def parseReqNot : P (Formula CString) := do
  if ← pEat .bang then
    let inner ← r.reqAtom
    return .not inner
  else r.reqAtom

def parseReqAtom : P (Formula CString) := do
  if ← pAt .lparen then
    pBump
    pGroupEnter
    let e ← r.reqOr
    pGroupLeave
    pExpect .rparen "')'"
    return e
  else if ← pAt .ident then
    let name ← pIdent
    return .atom name
  else
    pErrorExpected "a subcontract or pledge name"
    pBump
    return .atom []

def parseReqLine : P (Formula CString) := do
  pExpect .colon "':' after the requirements label"
  let e ← r.reqOr
  pSep "expected a newline after the requirements line"
  return e

/-- A line of a label, which may have been written before. -/
def reqLabel (seen : Option (Formula CString)) (msg : String) : P (Option (Formula CString)) := do
  pBump
  let e ← r.reqLine
  match seen with
  | some _ =>
      pError msg
      return seen
  | none => return some e

/-- One line of a requirements block.  An unknown label takes its whole line with it. -/
def reqElement (block : ReqBlockNode) : P ReqBlockNode := do
  if ← pIdentIs "fulfill" then
    let line ← reqLabel r block.fulfill "duplicate 'fulfill' line in the requirements block"
    return { block with fulfill := line }
  else if ← pIdentIs "partial" then
    let line ← reqLabel r block.partly "duplicate 'partial' line in the requirements block"
    return { block with partly := line }
  else if ← pKw .break_ then
    let line ← reqLabel r block.brk "duplicate 'break' line in the requirements block"
    return { block with brk := line }
  else
    pError "unknown requirements label; expected 'fulfill', 'partial', or 'break'"
    pBump
    let colon ← pEat .colon
    let _ ← optionally colon r.reqOr
    return block

def parseRequirements : P ReqBlockNode := do
  pBump
  pExpect .lbrace "'\x7b' to open the requirements block"
  let block ← bodyLoop "unexpected token in the requirements block" (reqElement r)
    ⟨none, none, none⟩
  pExpectClose "the requirements block is not closed; expected '\x7d' before end of input"
  return block

/-! ## Declarations and members -/

/-- A further part of a dotted path. -/
def importTurn (path : CString) : P (Turn CString) := do
  if ← pEat .dot then
    let part ← pIdent
    return .again (path ++ [46] ++ part)
  else return .stop path

def parseImport : P CString := do
  pBump
  let first ← pIdent
  pLoop importTurn first

/-- The elements of a braced body, in order. -/
def bodyList {α : Type} (ctx : String) (element : P α) : P (List α) :=
  bodyLoop ctx (fun seen => do
    let a ← element
    return seen ++ [a]) []

/-- A field on a line of its own. -/
def recordFieldDecl : P FieldNode := do
  let field ← fieldDecl r "':' between the field name and its type"
  pSep "expected a newline after the record field"
  return field

def parseRecord : P Decl := do
  pBump
  let name ← pIdent
  pExpect .lbrace "'\x7b' to open the record body"
  let fields ← bodyList "expected a field in the record body" (recordFieldDecl r)
  pExpectClose "the record body is not closed; expected '\x7d' before end of input"
  return .record name fields

/-- One variant more.  An `or` on a new line belongs to nothing. -/
def sumTurn (vars : List VariantNode) : P (Turn (List VariantNode)) := do
  if ← pKw .or then
    if ← pNlTerm then return .stop vars
    else
      pBump
      let v ← r.variant
      return .again (vars ++ [v])
  else return .stop vars

def parseSum : P Decl := do
  let name ← pIdent
  pBump
  pExpectKw .either "'either' after 'is'"
  let first ← r.variant
  let vars ← pLoop (sumTurn r) [first]
  return .sum name vars

def parseVariant : P VariantNode := do
  let name ← pIdent
  let opens ← pAt .lparen
  let nl ← pNlTerm
  if opens = true ∧ nl = false then
    pBump
    pGroupEnter
    let fields ← commaLoop (ask fun p => decide (p.kind = .rparen) || p.atEnd)
      (fieldDecl r "':' between the field name and its type")
    pGroupLeave
    pExpect .rparen "')'"
    return ⟨name, fields⟩
  else return ⟨name, []⟩

/-- One signature of a provisional clause. -/
def clauseSig (sigs : List ClauseSigNode) : P (List ClauseSigNode) := do
  if ← pEatKw .clause then
    let name ← pIdent
    let params ← r.params
    let ret ← arrowType r "a clause signature declares its return type with '->'"
    pSep "expected a newline after the clause signature"
    return sigs ++ [⟨name, params, ret⟩]
  else
    pError "expected a 'clause' signature inside the provisional clause"
    return sigs

def parseProv (internal : Bool) : P Decl := do
  pBump
  pExpectKw .clause "'clause' after 'provisional'"
  let name ← pIdent
  pExpect .lbrace "'\x7b' to open the provisional clause body"
  let sigs ← bodyLoop "unexpected token in the provisional clause" (clauseSig r) []
  pExpectClose "the provisional clause body is not closed; expected '\x7d' before end of input"
  return .prov internal name sigs

/-- Something that must open on the line of its header. -/
def onThisLine {α : Type} (k : Kind) (m : P α) : P (Option α) := do
  let opens ← pAt k
  let nl ← pNlHere
  optionally (opens && !nl) m

/-- One member, with its separator. -/
def memberElement (members : List Member) : P (List Member) := do
  let m ← r.member
  pSep "expected a newline after the contract member"
  return members ++ m.toList

def parseContract (internal : Bool) : P Decl := do
  pBump
  let name ← pIdent
  let attrs ← onThisLine .lbracket r.attrs
  pExpect .lbrace "'\x7b' to open the contract body"
  let members ← bodyLoop "expected a contract member" (memberElement r) []
  pExpectClose "the contract body is not closed; expected '\x7d' before end of input"
  return .contract internal name (attrs.getD []) members

def parseMember : P (Option Member) := do
  let k ← pKind
  match k with
  | .kw .incorporate =>
      pBump
      let name ← pIdent
      return some (.incorporate name)
  | .kw .vow =>
      pBump
      let field ← fieldDecl r "':' between the vow name and its type"
      let given ← pEat .assign
      let init ← optionally given r.expr
      return some (.vow field.name field.ty init)
  | .kw .pledge =>
      let node ← r.pledge
      return some (.pledge node)
  | .kw .clause =>
      let node ← r.clause
      return some (.clause node)
  | .kw .subcontract =>
      let node ← r.subcontract
      return some (.subcontract node)
  | .kw .schema =>
      let node ← r.schema
      return some node
  | .kw .requirements =>
      let block ← r.requirements
      return some (.requirements block)
  | _ =>
      pErrorExpected "a contract member"
      pBump
      return none

/-- A column, ended by a comma or a newline. -/
def schemaColumn : P FieldNode := do
  let col ← fieldDecl r "':' between the column name and its type"
  if ← pEat .comma then return col
  else
    pSep "expected a newline or ',' after the schema column"
    return col

def parseSchema : P Member := do
  pBump
  let name ← pIdent
  pExpect .lbrace "'\x7b' to open the schema body"
  let cols ← bodyList "expected a column in the schema body" (schemaColumn r)
  pExpectClose "the schema body is not closed; expected '\x7d' before end of input"
  return .schema name cols

def parsePledge : P PledgeNode := do
  pBump
  let name ← pIdent
  let params ← r.params
  let ret ← arrowType r "a pledge declares its return type with '->'"
  let attrs ← onThisLine .lbracket r.attrs
  let body ← onThisLine .lbrace r.block
  return ⟨name, params, ret, attrs.getD [], body⟩

def parseClause : P ClauseNode := do
  pBump
  let name ← pIdent
  let params ← r.params
  let ret ← arrowType r "a clause declares its return type with '->'"
  match ← onThisLine .lbrace r.block with
  | some body => return ⟨name, params, ret, body⟩
  | none =>
      pError "a clause needs a body block after its return type"
      return ⟨name, params, ret, []⟩

/-- One element of a subcontract.  A nested subcontract is reported, parsed and
discarded. -/
def subElement (pledges : List PledgeNode) : P (List PledgeNode) := do
  if ← pKw .pledge then
    let node ← r.pledge
    pSep "expected a newline after the pledge"
    return pledges ++ [node]
  else if ← pKw .subcontract then
    pError "a subcontract cannot contain another subcontract"
    let _ ← r.subcontract
    return pledges
  else
    pErrorExpected "a pledge inside the subcontract"
    return pledges

/-- A subcontract behind its keyword. -/
def subcontractRest : P SubNode := do
  let named ← pAt .ident
  let name ← optionally named pIdent
  let transactional ← pEatKw .transactional
  pExpect .lbrace "'\x7b' to open the subcontract body"
  let pledges ← bodyLoop "unexpected token in the subcontract" (subElement r) []
  pExpectClose "the subcontract body is not closed; expected '\x7d' before end of input"
  return ⟨name, pledges, transactional⟩

def parseSubcontract : P SubNode := do
  pBump
  framedSub (subcontractRest r)

def attrKeyKnown (key : CString) : Bool :=
  decide (key = ascii "version" ∨ key = ascii "abi" ∨ key = ascii "symbol")

/-- The key of an attribute, which must be a known one. -/
def attrKey : P CString := do
  let key ← pIdent
  if attrKeyKnown key then return key
  else
    pError "unknown attribute key; the known keys are version, abi, and symbol"
    return key

/-- One attribute, kept when its value is a literal. -/
def parseAttr : P (Option AttrNode) := do
  let key ← attrKey
  pExpect .colon "':' between the attribute key and its value"
  match ← parseLiteralExpr with
  | none =>
      pError "an attribute value must be a literal"
      pBump
      return none
  | some val => return some ⟨key, val⟩

def parseAttrs : P (List AttrNode) := do
  pBump
  pGroupEnter
  let attrs ← commaLoop (ask fun p => decide (p.kind = .rbracket) || p.atEnd) parseAttr
  pGroupLeave
  pExpect .rbracket "']'"
  return attrs.filterMap id

/-- A declaration behind `internal`. -/
def internalDecl : P (List CString × List Decl) := do
  pBump
  let k ← pKind
  match k with
  | .kw .provisional =>
      let d ← r.prov true
      return ([], [d])
  | .kw .contract =>
      let d ← r.contract true
      return ([], [d])
  | _ =>
      pError "'internal' applies to a contract or a provisional clause"
      return ([], [])

/-- A declaration that opens with a name: a sum, or a fault. -/
def namedDecl : P (List CString × List Decl) := do
  let named ← pAt .ident
  let sum ← pKw2 .is
  if named = true ∧ sum = true then
    let d ← r.sum
    return ([], [d])
  else
    pErrorExpected "a declaration"
    pBump
    return ([], [])

def parseDecl : P (List CString × List Decl) := do
  let k ← pKind
  match k with
  | .kw .import_ =>
      pError "imports must appear before every declaration"
      let path ← r.import_
      return ([path], [])
  | .kw .record =>
      let d ← r.record
      return ([], [d])
  | .kw .internal => internalDecl r
  | .kw .provisional =>
      let d ← r.prov false
      return ([], [d])
  | .kw .contract =>
      let d ← r.contract false
      return ([], [d])
  | _ => namedDecl r

/-- One import of the head of a file. -/
def headTurn (imports : List CString) : P (Turn (List CString)) := do
  if ← pKw .import_ then
    let path ← r.import_
    pSep "expected a newline after the import"
    return .again (imports ++ [path])
  else return .stop imports

/-- One declaration of a file. -/
def declTurn (file : File) : P (Turn File) := do
  if ← pAtEnd then return .stop file
  else
    let before ← ask Parser.pos
    let d ← r.decl
    pSep "expected a newline after the declaration"
    pGuardProgress before "expected a declaration at the top level"
    return .again ⟨file.imports ++ d.1, file.decls ++ d.2⟩

def parseFile : P File := do
  let imports ← pLoop (headTurn r) []
  pLoop (declTurn r) ⟨imports, []⟩

/-! ## The knot -/

/-- The parse functions with room for `n` calls in each other. -/
def parsers : Nat → Parsers
  | 0 => default
  | n + 1 =>
    let r := parsers n
    { type := framed (parseType r)
      typeInner := framed (parseTypeInner r)
      typeArgs := framed (parseTypeArgs r)
      pledgeType := framed (parsePledgeType r)
      params := framed (parseParams r)
      expr := framed (parseExpr r)
      exprNoRecord := framed (parseExprNoRecord r)
      bin := fun minBp => framed (parseBin r minBp)
      binInner := fun minBp => framed (parseBinInner r minBp)
      unary := framed (parseUnary r)
      unaryInner := framed (parseUnaryInner r)
      postfixExpr := framed (parsePostfix r)
      callArgs := framed (parseCallArgs r)
      arg := framed (parseArg r)
      primary := framed (parsePrimary r)
      mutExpr := framed (parseMutExpr r)
      paren := framed (parseParen r)
      list := framed (parseList r)
      identPrimary := fun t => framed (parseIdentPrimary r t)
      recordLit := fun name => framed (parseRecordLit r name)
      matchExpr := framed (parseMatchExpr r)
      pattern := framed (parsePattern r)
      patternInner := framed (parsePatternInner r)
      variantPattern := framed (parseVariantPattern r)
      block := framed (parseBlock r)
      stmt := framed (parseStmt r)
      letStmt := framed (parseLetStmt r)
      returnStmt := framed (parseReturnStmt r)
      ifStmt := framed (parseIfStmt r)
      whileStmt := framed (parseWhileStmt r)
      forStmt := framed (parseForStmt r)
      import_ := framed parseImport
      decl := framed (parseDecl r)
      record := framed (parseRecord r)
      sum := framed (parseSum r)
      variant := framed (parseVariant r)
      prov := fun internal => framed (parseProv r internal)
      contract := fun internal => framed (parseContract r internal)
      member := framed (parseMember r)
      schema := framed (parseSchema r)
      pledge := framed (parsePledge r)
      clause := framed (parseClause r)
      subcontract := framed (parseSubcontract r)
      attrs := framed parseAttrs
      requirements := framed (parseRequirements r)
      reqLine := framed (parseReqLine r)
      reqOr := framed (parseReqOr r)
      reqOrInner := framed (parseReqOrInner r)
      reqAnd := framed (parseReqAnd r)
      reqNot := framed (parseReqNot r)
      reqAtom := framed (parseReqAtom r)
      file := framed (parseFile r) }

end Geas.Compiler.Parse
