import Geas.Runtime.Registry

/-!
# The tree of a body

The trees the parser builds for types, patterns, expressions and statements, spans
aside.  An arena id of the source is the subtree it stands for, and a slice of the
shared arena is a list.  A name is the text of its token, or empty where recovery
made one up.
-/

namespace Geas.Compiler

open Geas.Runtime (CString ascii)

/-- The unary operators. -/
inductive UnOp where
  | neg | not
  deriving DecidableEq, Repr

/-- The binary operators. -/
inductive BinOp where
  | add | sub | mul | div | mod | eq | ne | lt | le | gt | ge | and | or
  deriving DecidableEq, Repr

/-- A literal.  A float is kept as its spelling, a string as its canonical body. -/
inductive Lit where
  | int (value : Nat)
  | float (text : CString)
  | str (body : CString)
  | char (scalar : Nat)
  | bool (value : Bool)
  deriving DecidableEq, Repr

/-- A type as it is written. -/
inductive TypeNode where
  | named (name : CString) (args : List TypeNode)
  | pledge (params : List TypeNode) (ret : TypeNode)

/-- A pattern as it is written. -/
inductive PatternNode where
  | wildcard
  | lit (literal : Lit)
  | bind (name : CString)
  | variant (name : CString) (subs : List PatternNode)
  | some (inner : PatternNode)
  | none
  | ok (inner : PatternNode)
  | err (inner : PatternNode)

mutual

/-- An expression. -/
inductive Expr where
  | lit (literal : Lit)
  | ident (name : CString)
  | unary (op : UnOp) (operand : Expr)
  | binary (op : BinOp) (left right : Expr)
  | call (callee : Expr) (args : List Arg)
  | index (base key : Expr)
  | member (base : Expr) (name : CString)
  | question (operand : Expr)
  | tuple (elems : List Expr)
  | list (elems : List Expr)
  | recordLit (name : CString) (fields : List Field)
  | matchOn (scrutinee : Expr) (arms : List Arm)
  | some (payload : Expr)
  | none
  | ok (payload : Expr)
  | err (payload : Expr)
  | mut (operand : Expr)
  | mapNew (ty : TypeNode)

/-- A call argument with its optional label. -/
inductive Arg where
  | mk (label : Option CString) (value : Expr)

/-- A field of a record literal. -/
inductive Field where
  | mk (name : CString) (value : Expr)

/-- A match arm, whose body is an expression or a block. -/
inductive Arm where
  | expr (pat : PatternNode) (body : Expr)
  | block (pat : PatternNode) (body : List Stmt)

/-- A statement.  An `else if` is an else block of one `if`. -/
inductive Stmt where
  | letBind (mutable : Bool) (name : CString) (ty : Option TypeNode) (value : Expr)
  | assign (target value : Expr)
  | ret (value : Option Expr)
  | ifElse (cond : Expr) (thenBlock : List Stmt) (elseBlock : Option (List Stmt))
  | whileDo (cond : Expr) (body : List Stmt)
  | forIn (name : CString) (iter : Expr) (body : List Stmt)
  | brk
  | cont
  | expr (value : Expr)

end

end Geas.Compiler
