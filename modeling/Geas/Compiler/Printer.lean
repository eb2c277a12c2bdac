import Geas.Compiler.Bodies
import Geas.Compiler.Grammar
import Geas.Compiler.Names

/-!
# Printing trees

The tokens of a tree, with parentheses exactly where the precedence ladder and the rule
for headers ask for them: an operand that binds too loosely, and a record literal that
would stand bare in the header of an `if`, `while`, `for` or `match`.  Statements and
match arms open a line each; every other token stays on its line.

Beside the tokens stand the levels of nesting a parse of them opens, which trees the
grammar spells at all, and where a record literal stands bare while the parser's flag
forbids one.
-/

namespace Geas.Compiler.Parse

open Geas.Lib
open Geas.Compiler.Lexing (canonical)
open Geas.Compiler.Sigs (decimalText)
open Geas.Runtime (CString ascii)

/-! ## Words -/

/-- The spellings of the hard keywords. -/
def keywordTable : List (String × Keyword) :=
  [("contract", .contract), ("vow", .vow), ("pledge", .pledge), ("clause", .clause),
    ("provisional", .provisional), ("subcontract", .subcontract),
    ("transactional", .transactional), ("schema", .schema), ("requirements", .requirements),
    ("incorporate", .incorporate), ("internal", .internal), ("record", .record),
    ("import", .import_), ("let", .let_), ("mut", .mut), ("return", .return_), ("if", .if_),
    ("else", .else_), ("match", .match_), ("while", .while_), ("for", .for_), ("in", .in_),
    ("break", .break_), ("continue", .continue_), ("is", .is), ("either", .either), ("or", .or)]

/-- The keyword a word spells. -/
def keywordOf (text : CString) : Option Keyword :=
  (keywordTable.find? fun entry => ascii entry.1 = text).map (·.2)

/-- The kind of a word, as `lx_ident` classifies it. -/
def wordKind (text : CString) : Kind :=
  if text = ascii "_" then .underscore
  else if text = ascii "true" then .lit (.bool true)
  else if text = ascii "false" then .lit (.bool false)
  else match keywordOf text with
    | some word => .kw word
    | none => .ident

/-- The names that are constructors of their own. -/
def builtinNames : List CString :=
  [ascii "Some", ascii "None", ascii "Ok", ascii "Err", ascii "Map"]

/-- A word that is an identifier. -/
def IsIdent (name : CString) : Prop := wordKind name = .ident

/-- An identifier that is no constructor. -/
def IsName (name : CString) : Prop := IsIdent name ∧ name ∉ builtinNames

/-- A word that may follow a dot. -/
def IsMember (name : CString) : Prop := isMemberName (wordKind name) = true

/-! ## Tokens -/

/-- A literal as it is written. -/
def litText : Lit → CString
  | .int value => decimalText value
  | .float text => text
  | .str body => 34 :: (body ++ [34])
  | .char scalar => 39 :: (canonical scalar 39 ++ [39])
  | .bool value => if value then ascii "true" else ascii "false"

/-- What is written for a token of a kind.  An identifier brings its own text. -/
def kindText : Kind → CString
  | .ident | .eof => []
  | .lit literal => litText literal
  | .kw w => ascii (((keywordTable.find? fun entry => entry.2 = w).map (·.1)).getD "")
  | .arrow => ascii "->"
  | .eqEq => ascii "=="
  | .ne => ascii "!="
  | .le => ascii "<="
  | .ge => ascii ">="
  | .andAnd => ascii "&&"
  | .orOr => ascii "||"
  | .assign => ascii "="
  | .plus => ascii "+"
  | .minus => ascii "-"
  | .star => ascii "*"
  | .slash => ascii "/"
  | .percent => ascii "%"
  | .lt => ascii "<"
  | .gt => ascii ">"
  | .bang => ascii "!"
  | .question => ascii "?"
  | .colon => ascii ":"
  | .comma => ascii ","
  | .dot => ascii "."
  | .underscore => ascii "_"
  | .lparen => ascii "("
  | .rparen => ascii ")"
  | .lbrace => ascii "\x7b"
  | .rbrace => ascii "\x7d"
  | .lbracket => ascii "["
  | .rbracket => ascii "]"

/-- A symbol or keyword, on a new line or not. -/
def symOn (nl : Bool) (k : Kind) : Token := ⟨k, kindText k, nl⟩

/-- A symbol or keyword. -/
def sym (k : Kind) : Token := symOn false k

/-- A word, on a new line or not. -/
def wordOn (nl : Bool) (name : CString) : Token := ⟨wordKind name, name, nl⟩

/-- A word. -/
def word (name : CString) : Token := wordOn false name

/-- A literal. -/
def litToken (literal : Lit) : Token := sym (.lit literal)

/-- The same tokens, on a new line or not. -/
def opened (nl : Bool) : List Token → List Token
  | [] => []
  | t :: rest => { t with nlBefore := nl } :: rest

/-- The same tokens on a new line. -/
def onNewLine (toks : List Token) : List Token := opened true toks

/-- Tokens in parentheses. -/
def inParens (toks : List Token) : List Token := sym .lparen :: (toks ++ [sym .rparen])

/-- Tokens in brackets. -/
def inBrackets (toks : List Token) : List Token := sym .lbracket :: (toks ++ [sym .rbracket])

/-- Tokens in braces. -/
def inBraces (toks : List Token) : List Token := sym .lbrace :: (toks ++ [sym .rbrace])

/-- Items with commas between them. -/
def commaSep : List (List Token) → List Token
  | [] => []
  | [item] => item
  | item :: items => item ++ sym .comma :: commaSep items

/-! ## Types and patterns -/

mutual

def typeToks : TypeNode → List Token
  | .named name [] => [word name]
  | .named name (arg :: args) =>
      word name :: sym .lt :: (commaSep (typesToks (arg :: args)) ++ [sym .gt])
  | .pledge params ret =>
      sym (.kw .pledge) :: (inParens (commaSep (typesToks params)) ++ sym .arrow :: typeToks ret)

def typesToks : List TypeNode → List (List Token)
  | [] => []
  | ty :: tys => typeToks ty :: typesToks tys

end

mutual

/-- The levels `parse_type` opens. -/
def typeLevels : TypeNode → Nat
  | .named _ args => 1 + typesLevels args
  | .pledge params ret => 1 + max (typesLevels params) (typeLevels ret)

def typesLevels : List TypeNode → Nat
  | [] => 0
  | ty :: tys => max (typeLevels ty) (typesLevels tys)

end

mutual

def TypeSpelled : TypeNode → Prop
  | .named name args => IsIdent name ∧ TypesSpelled args
  | .pledge params ret => TypesSpelled params ∧ TypeSpelled ret

def TypesSpelled : List TypeNode → Prop
  | [] => True
  | ty :: tys => TypeSpelled ty ∧ TypesSpelled tys

end

mutual

def patToks : PatternNode → List Token
  | .wildcard => [sym .underscore]
  | .lit literal => [litToken literal]
  | .bind name => [word name]
  | .variant name subs => word name :: inParens (commaSep (patsToks subs))
  | .some inner => word (ascii "Some") :: inParens (patToks inner)
  | .none => [word (ascii "None")]
  | .ok inner => word (ascii "Ok") :: inParens (patToks inner)
  | .err inner => word (ascii "Err") :: inParens (patToks inner)

def patsToks : List PatternNode → List (List Token)
  | [] => []
  | pat :: pats => patToks pat :: patsToks pats

end

mutual

/-- The levels `parse_pattern` opens. -/
def patLevels : PatternNode → Nat
  | .wildcard | .lit _ | .bind _ | .none => 1
  | .variant _ subs => 1 + patsLevels subs
  | .some inner | .ok inner | .err inner => 1 + patLevels inner

def patsLevels : List PatternNode → Nat
  | [] => 0
  | pat :: pats => max (patLevels pat) (patsLevels pats)

end

mutual

def PatSpelled : PatternNode → Prop
  | .wildcard | .lit _ | .none => True
  | .bind name => IsName name
  | .variant name subs => IsName name ∧ PatsSpelled subs
  | .some inner | .ok inner | .err inner => PatSpelled inner

def PatsSpelled : List PatternNode → Prop
  | [] => True
  | pat :: pats => PatSpelled pat ∧ PatsSpelled pats

end

/-- The tokens of a declared type, if any. -/
def letTypeToks : Option TypeNode → List Token
  | none => []
  | some ty => sym .colon :: typeToks ty

/-! ## Expressions and statements -/

/-- The token of a prefix operator. -/
def unopKind : UnOp → Kind
  | .neg => .minus
  | .not => .bang

/-- The token of an infix operator. -/
def binopKind : BinOp → Kind
  | .or => .orOr
  | .and => .andAnd
  | .eq => .eqEq
  | .ne => .ne
  | .lt => .lt
  | .le => .le
  | .gt => .gt
  | .ge => .ge
  | .add => .plus
  | .sub => .minus
  | .mul => .star
  | .div => .slash
  | .mod => .percent

/-- How tightly an expression holds together: its operator's binding power, that of a
prefix operator, or that of everything tighter. -/
def power : Expr → Nat
  | .binary op _ _ => binLbp op
  | .unary _ _ => 70
  | _ => 80

/-- An operand where only expressions of power `atLeast` may stand bare. -/
def fit {α : Type} (atLeast : Nat) (e : Expr) (bare inside : α) : α :=
  if power e < atLeast then inside else bare

/-- The tokens of `Map<K, V>()`. -/
def mapToks : TypeNode → List Token
  | .named name args =>
      word name :: sym .lt :: (commaSep (typesToks args) ++ [sym .gt, sym .lparen, sym .rparen])
  | .pledge params ret => typeToks (.pledge params ret)

mutual

/-- The tokens of an expression, in a header or elsewhere. -/
def exprToks (header : Bool) : Expr → List Token
  | .lit literal => [litToken literal]
  | .ident name => [word name]
  | .unary op operand =>
      sym (unopKind op) ::
        fit 70 operand (exprToks header operand) (inParens (exprToks false operand))
  | .binary op left right =>
      fit (binLbp op) left (exprToks header left) (inParens (exprToks false left)) ++
        sym (binopKind op) ::
          fit (binLbp op + 1) right (exprToks header right) (inParens (exprToks false right))
  | .call callee args =>
      fit 80 callee (exprToks header callee) (inParens (exprToks false callee)) ++
        inParens (commaSep (argsToks args))
  | .index base key =>
      fit 80 base (exprToks header base) (inParens (exprToks false base)) ++
        inBrackets (exprToks false key)
  | .member base name =>
      fit 80 base (exprToks header base) (inParens (exprToks false base)) ++ [sym .dot, word name]
  | .question operand =>
      fit 80 operand (exprToks header operand) (inParens (exprToks false operand)) ++
        [sym .question]
  | .tuple elems => inParens (commaSep (exprsToks elems))
  | .list elems => inBrackets (commaSep (exprsToks elems))
  | .recordLit name fields =>
      let bare := word name :: inBraces (commaSep (fieldsToks fields))
      if header then inParens bare else bare
  | .matchOn scrutinee arms =>
      sym (.kw .match_) :: (exprToks true scrutinee ++ inBraces (armsToks arms))
  | .some payload => word (ascii "Some") :: inParens (exprToks false payload)
  | .none => [word (ascii "None")]
  | .ok payload => word (ascii "Ok") :: inParens (exprToks false payload)
  | .err payload => word (ascii "Err") :: inParens (exprToks false payload)
  | .mut operand => sym (.kw .mut) :: inParens (exprToks false operand)
  | .mapNew ty => mapToks ty

def exprsToks : List Expr → List (List Token)
  | [] => []
  | e :: es => exprToks false e :: exprsToks es

def argToks : Arg → List Token
  | .mk none value => exprToks false value
  | .mk (some label) value => word label :: sym .colon :: exprToks false value

def argsToks : List Arg → List (List Token)
  | [] => []
  | a :: args => argToks a :: argsToks args

def fieldToks : Field → List Token
  | .mk name value => word name :: sym .colon :: exprToks false value

def fieldsToks : List Field → List (List Token)
  | [] => []
  | f :: fields => fieldToks f :: fieldsToks fields

def armToks : Arm → List Token
  | .expr pat body => onNewLine (patToks pat) ++ sym .arrow :: exprToks false body
  | .block pat body => onNewLine (patToks pat) ++ sym .arrow :: inBraces (stmtsToks body)

def armsToks : List Arm → List Token
  | [] => []
  | a :: arms => armToks a ++ armsToks arms

def stmtToks : Stmt → List Token
  | .letBind mutable name ty value =>
      sym (.kw .let_) :: ((if mutable then [sym (.kw .mut)] else []) ++ word name ::
        (letTypeToks ty ++ sym .assign :: exprToks false value))
  | .assign target value => exprToks false target ++ sym .assign :: exprToks false value
  | .ret none => [sym (.kw .return_)]
  | .ret (some value) => sym (.kw .return_) :: exprToks false value
  | .ifElse cond thenBlock none =>
      sym (.kw .if_) :: (exprToks true cond ++ inBraces (stmtsToks thenBlock))
  | .ifElse cond thenBlock (some elseBlock) =>
      sym (.kw .if_) :: (exprToks true cond ++ inBraces (stmtsToks thenBlock) ++
        sym (.kw .else_) :: inBraces (stmtsToks elseBlock))
  | .whileDo cond body => sym (.kw .while_) :: (exprToks true cond ++ inBraces (stmtsToks body))
  | .forIn name iter body =>
      sym (.kw .for_) :: word name :: sym (.kw .in_) ::
        (exprToks true iter ++ inBraces (stmtsToks body))
  | .brk => [sym (.kw .break_)]
  | .cont => [sym (.kw .continue_)]
  | .expr value => exprToks false value

/-- Statements, each on a line of its own. -/
def stmtsToks : List Stmt → List Token
  | [] => []
  | s :: stmts => onNewLine (stmtToks s) ++ stmtsToks stmts

end

/-! ## Levels -/

mutual

/-- The levels a parse of an expression opens inside the `parse_bin` that reads it.  Each
prefix operator and each primary takes one, each right operand one more, and everything
in parentheses two. -/
def exprLevels (header : Bool) : Expr → Nat
  | .lit _ | .ident _ | .none => 1
  | .unary _ operand =>
      1 + fit 70 operand (exprLevels header operand) (2 + exprLevels false operand)
  | .binary op left right =>
      max (fit (binLbp op) left (exprLevels header left) (2 + exprLevels false left))
        (1 + fit (binLbp op + 1) right (exprLevels header right) (2 + exprLevels false right))
  | .call callee args =>
      max (fit 80 callee (exprLevels header callee) (2 + exprLevels false callee))
        (argsLevels args)
  | .index base key =>
      max (fit 80 base (exprLevels header base) (2 + exprLevels false base))
        (2 + exprLevels false key)
  | .member base _ => fit 80 base (exprLevels header base) (2 + exprLevels false base)
  | .question operand =>
      fit 80 operand (exprLevels header operand) (2 + exprLevels false operand)
  | .tuple elems => max 1 (exprsLevels elems)
  | .list elems => max 1 (exprsLevels elems)
  | .recordLit _ fields =>
      if header then 2 + max 1 (fieldsLevels fields) else max 1 (fieldsLevels fields)
  | .matchOn scrutinee arms => max (2 + exprLevels true scrutinee) (armsLevels arms)
  | .some payload | .ok payload | .err payload => 2 + exprLevels false payload
  | .mut operand => 2 + exprLevels false operand
  | .mapNew ty => 1 + typeLevels ty

def exprsLevels : List Expr → Nat
  | [] => 0
  | e :: es => max (2 + exprLevels false e) (exprsLevels es)

def argsLevels : List Arg → Nat
  | [] => 0
  | .mk _ value :: args => max (2 + exprLevels false value) (argsLevels args)

def fieldsLevels : List Field → Nat
  | [] => 0
  | .mk _ value :: fields => max (2 + exprLevels false value) (fieldsLevels fields)

def armsLevels : List Arm → Nat
  | [] => 0
  | .expr pat body :: arms =>
      max (max (1 + patLevels pat) (2 + exprLevels false body)) (armsLevels arms)
  | .block pat body :: arms =>
      max (max (1 + patLevels pat) (2 + stmtsLevels body)) (armsLevels arms)

/-- The levels a parse of a statement opens inside its block. -/
def stmtLevels : Stmt → Nat
  | .letBind _ _ ty value =>
      max (match ty with
        | none => 0
        | some ty => typeLevels ty) (1 + exprLevels false value)
  | .assign target value => max (1 + exprLevels false target) (1 + exprLevels false value)
  | .ret none | .brk | .cont => 0
  | .ret (some value) | .expr value => 1 + exprLevels false value
  | .ifElse cond thenBlock none => max (1 + exprLevels true cond) (1 + stmtsLevels thenBlock)
  | .ifElse cond thenBlock (some elseBlock) =>
      max (max (1 + exprLevels true cond) (1 + stmtsLevels thenBlock)) (1 + stmtsLevels elseBlock)
  | .whileDo cond body => max (1 + exprLevels true cond) (1 + stmtsLevels body)
  | .forIn _ iter body => max (1 + exprLevels true iter) (1 + stmtsLevels body)

def stmtsLevels : List Stmt → Nat
  | [] => 0
  | s :: stmts => max (stmtLevels s) (stmtsLevels stmts)

end

/-! ## Trees of the grammar -/

mutual

/-- The tree is one the grammar spells: its names are names, a tuple has two elements at
least, and a map constructor names the map type. -/
def ExprSpelled : Expr → Prop
  | .lit _ | .none => True
  | .ident name => IsName name
  | .unary _ operand => ExprSpelled operand
  | .binary _ left right => ExprSpelled left ∧ ExprSpelled right
  | .call callee args => ExprSpelled callee ∧ ArgsSpelled args
  | .index base key => ExprSpelled base ∧ ExprSpelled key
  | .member base name => ExprSpelled base ∧ IsMember name
  | .question operand => ExprSpelled operand
  | .tuple elems => 2 ≤ elems.length ∧ ExprsSpelled elems
  | .list elems => ExprsSpelled elems
  | .recordLit name fields => IsName name ∧ FieldsSpelled fields
  | .matchOn scrutinee arms => ExprSpelled scrutinee ∧ ArmsSpelled arms
  | .some payload | .ok payload | .err payload => ExprSpelled payload
  | .mut operand => ExprSpelled operand
  | .mapNew ty =>
      match ty with
      | .named name args => name = ascii "Map" ∧ TypesSpelled args
      | .pledge _ _ => False

def ExprsSpelled : List Expr → Prop
  | [] => True
  | e :: es => ExprSpelled e ∧ ExprsSpelled es

def ArgsSpelled : List Arg → Prop
  | [] => True
  | .mk none value :: args => ExprSpelled value ∧ ArgsSpelled args
  | .mk (some label) value :: args => IsIdent label ∧ ExprSpelled value ∧ ArgsSpelled args

def FieldsSpelled : List Field → Prop
  | [] => True
  | .mk name value :: fields => IsIdent name ∧ ExprSpelled value ∧ FieldsSpelled fields

def ArmsSpelled : List Arm → Prop
  | [] => True
  | .expr pat body :: arms => PatSpelled pat ∧ ExprSpelled body ∧ ArmsSpelled arms
  | .block pat body :: arms => PatSpelled pat ∧ StmtsSpelled body ∧ ArmsSpelled arms

def StmtSpelled : Stmt → Prop
  | .letBind _ name ty value =>
      IsIdent name ∧ (match ty with
        | none => True
        | some ty => TypeSpelled ty) ∧ ExprSpelled value
  | .assign target value => ExprSpelled target ∧ ExprSpelled value
  | .ret none | .brk | .cont => True
  | .ret (some value) | .expr value => ExprSpelled value
  | .ifElse cond thenBlock none => ExprSpelled cond ∧ StmtsSpelled thenBlock
  | .ifElse cond thenBlock (some elseBlock) =>
      ExprSpelled cond ∧ StmtsSpelled thenBlock ∧ StmtsSpelled elseBlock
  | .whileDo cond body => ExprSpelled cond ∧ StmtsSpelled body
  | .forIn name iter body => IsIdent name ∧ ExprSpelled iter ∧ StmtsSpelled body

def StmtsSpelled : List Stmt → Prop
  | [] => True
  | s :: stmts => StmtSpelled s ∧ StmtsSpelled stmts

end

/-! ## The record flag -/

mutual

/-- No record literal of the printed expression stands bare while the parser's flag
forbids one.  `flag` is the flag in this position: a group clears it and a header sets
it, but the arms of a match, and the blocks in them, find it as the match does. -/
def Clear (flag header : Bool) : Expr → Prop
  | .lit _ | .ident _ | .none | .mapNew _ => True
  | .unary _ operand => fit 70 operand (Clear flag header operand) (Clear false false operand)
  | .binary op left right =>
      fit (binLbp op) left (Clear flag header left) (Clear false false left) ∧
        fit (binLbp op + 1) right (Clear flag header right) (Clear false false right)
  | .call callee args =>
      fit 80 callee (Clear flag header callee) (Clear false false callee) ∧ ArgsClear args
  | .index base key =>
      fit 80 base (Clear flag header base) (Clear false false base) ∧ Clear false false key
  | .member base _ => fit 80 base (Clear flag header base) (Clear false false base)
  | .question operand => fit 80 operand (Clear flag header operand) (Clear false false operand)
  | .tuple elems => ExprsClear elems
  | .list elems => ExprsClear elems
  | .recordLit _ fields => (header = true ∨ flag = false) ∧ FieldsClear fields
  | .matchOn scrutinee arms => Clear true true scrutinee ∧ ArmsClear flag arms
  | .some payload | .ok payload | .err payload => Clear false false payload
  | .mut operand => Clear false false operand

def ExprsClear : List Expr → Prop
  | [] => True
  | e :: es => Clear false false e ∧ ExprsClear es

def ArgsClear : List Arg → Prop
  | [] => True
  | .mk _ value :: args => Clear false false value ∧ ArgsClear args

def FieldsClear : List Field → Prop
  | [] => True
  | .mk _ value :: fields => Clear false false value ∧ FieldsClear fields

def ArmsClear (flag : Bool) : List Arm → Prop
  | [] => True
  | .expr _ body :: arms => Clear flag false body ∧ ArmsClear flag arms
  | .block _ body :: arms => StmtsClear flag body ∧ ArmsClear flag arms

def StmtClear (flag : Bool) : Stmt → Prop
  | .letBind _ _ _ value => Clear flag false value
  | .assign target value => Clear flag false target ∧ Clear flag false value
  | .ret none | .brk | .cont => True
  | .ret (some value) | .expr value => Clear flag false value
  | .ifElse cond thenBlock none => Clear true true cond ∧ StmtsClear flag thenBlock
  | .ifElse cond thenBlock (some elseBlock) =>
      Clear true true cond ∧ StmtsClear flag thenBlock ∧ StmtsClear flag elseBlock
  | .whileDo cond body => Clear true true cond ∧ StmtsClear flag body
  | .forIn _ iter body => Clear true true iter ∧ StmtsClear flag body

def StmtsClear (flag : Bool) : List Stmt → Prop
  | [] => True
  | s :: stmts => StmtClear flag s ∧ StmtsClear flag stmts

end

end Geas.Compiler.Parse
