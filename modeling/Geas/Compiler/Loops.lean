import Geas.Compiler.Syntax
import Geas.Store.Values
import Mathlib.Data.List.Forall2

/-!
# Which C loop a `break` or `continue` reaches

The C a body is lowered to, as far as its loops go: the lines without a jump, the
branches, the loops and the jumps.  A `while` becomes an endless C loop with its
condition evaluated at the top of every pass, so whatever statements a match block puts
into the condition stand inside that loop; the checker counts them to the loop around.

A loop is known by the place of its statement in the body.  What the emitter reads off
the types (which arm takes every value, the declared fields of a record, what a call is
a call of) depends on the place of the expression too, so it is a parameter.
-/

namespace Geas.Compiler.Loops

open Geas.Runtime (CString ascii)
open Geas.Store

/-- The place of a node in the body: the positions on the way to it, innermost first. -/
abbrev Place := List Nat

/-- What `gen_call` finds a call to be. -/
inductive Callee where
  /-- `len`, a clause, a variant, and `sign` and `resume` on a contract name. -/
  | named
  /-- A pledge of an instance, and its `park`. -/
  | onInstance
  /-- `break`, `status` and `partial` of an instance. -/
  | ofInstance
  /-- An operation of `Store`. -/
  | store
  deriving DecidableEq, Repr

/-- What the emitter reads off the types. -/
structure Typing where
  irrefutable : Place → Bool
  fields : Place → List CString
  callee : Place → Callee

/-- The two jumps. -/
inductive Jump where
  | brk | cont
  deriving DecidableEq, Repr

/-- The emitted C.  `loop` is the C loop of the `while` or `for` at a place, `once` the
`do … while (0)` around the tests of a pattern.  `jump` comes from a statement of the
source: `home` is the innermost `while` or `for` whose body contains that statement. -/
inductive CStmt where
  | line
  /-- `if (…) break;` of the emitter's own, out of the loop it stands in. -/
  | test
  | branch (thenLines elseLines : List CStmt)
  | loop (place : Place) (body : List CStmt)
  | once (body : List CStmt)
  | jump (kind : Jump) (home : Option Place)

/-! ### Store operations -/

/-- An argument of a `Store` operation, read in each way an operation may read it: as a
value, as a predicate, and as `limit(count)`. -/
structure StoreArg (α : Type) where
  value : α
  pred : Pred α
  count : α
  /-- Whether it is `asc(column)` or `desc(column)`. -/
  orders : Bool

/-- The operator of a comparison. -/
def cmpOf : BinOp → GeasCmp
  | .ne => .ne
  | .lt => .lt
  | .le => .le
  | .gt => .gt
  | .ge => .ge
  | _ => .eq

/-- The values of a predicate, in the order they are lowered. -/
def predValues {α : Type} (aggregate : Bool) (pred : Pred α) : List α :=
  (emitPredicate [] aggregate pred).values

/-- `gen_store_op`: what an operation lowers, in order. -/
def storeValues {α : Type} (op : CString) (args : List (StoreArg α)) : List α :=
  if op = ascii "find" ∨ op = ascii "insert" ∨ op = ascii "delete" then
    args[1]?.toList.map StoreArg.value
  else if op = ascii "update" then
    args[1]?.toList.map StoreArg.value ++ args[2]?.toList.map StoreArg.value
  else if op = ascii "query" then
    match args with
    | [_, arg] => predValues false arg.pred
    | [_, arg, last] => if last.orders then predValues false arg.pred else [last.value]
    | [_, arg, _, last] =>
        if cgPredHasOr (cgPredPositive arg.pred) then last.count :: predValues false arg.pred
        else predValues false arg.pred ++ [last.count]
    | _ => []
  else if op = ascii "count" then
    args[1]?.toList.flatMap fun arg => predValues false arg.pred
  else if op = ascii "sum" then
    args[2]?.toList.flatMap fun arg => predValues false arg.pred
  else if op = ascii "min" ∨ op = ascii "max" ∨ op = ascii "avg" then
    args[2]?.toList.flatMap fun arg => predValues true arg.pred
  else []

/-- Whether an expression is `asc(column)` or `desc(column)`. -/
def isOrder : Expr → Bool
  | .call (.ident name) _ => name == ascii "asc" || name == ascii "desc"
  | _ => false

/-- The name an operation is called by. -/
def memberName : Expr → CString
  | .member _ name => name
  | _ => []

/-- The fields of a record literal as they are lowered: in declaration order, of a name
that is given twice the last. -/
def declared {α : Type} (names : List CString) (given : List (CString × α)) : List α :=
  names.filterMap fun name => (given.reverse.find? fun field => field.1 == name).map Prod.snd

/-! ### The emitter -/

section Emitter

variable (o : Typing)

mutual

/-- `gen_expr`, for the expression at a place inside the body of `home`. -/
def genExpr (home : Option Place) (here : Place) : Expr → List CStmt
  | .lit _ | .ident _ | .none | .mapNew _ => [.line]
  | .unary _ operand => genExpr home (0 :: here) operand ++ [.line]
  | .binary op left right =>
      if op = .and ∨ op = .or then
        -- Short circuit: the right operand is lowered inside a guard.
        genExpr home (0 :: here) left ++
          [.line, .branch (genExpr home (1 :: here) right ++ [.line]) []]
      else genExpr home (0 :: here) left ++ genExpr home (1 :: here) right ++ [.line]
  | .call callee args =>
      match o.callee here with
      | .named => (genArgs home here 0 args).flatten ++ [.line]
      | .onInstance => genBase home here callee ++ (genArgs home here 0 args).flatten ++ [.line]
      | .ofInstance => genBase home here callee ++ [.line]
      | .store => (storeValues (memberName callee) (genStoreArgs home here 0 args)).flatten ++ [.line]
  | .index base key =>
      genExpr home (0 :: here) base ++ genExpr home (1 :: here) key ++ [.line, .branch [.line] []]
  | .member base _ => genExpr home (0 :: here) base ++ [.line]
  | .question operand => genExpr home (0 :: here) operand ++ [.branch [.line] [], .line]
  | .tuple elems | .list elems => (genExprs home here 0 elems).flatten ++ [.line]
  | .recordLit _ fields =>
      [.line] ++ (declared (o.fields here) (genFields home here 0 fields)).flatten ++ [.line]
  | .matchOn scrutinee arms => genExpr home (0 :: here) scrutinee ++ [.line] ++ genArms home here 1 arms
  | .some payload | .ok payload | .err payload => genExpr home (0 :: here) payload ++ [.line]
  | .mut operand => genExpr home (0 :: here) operand

/-- The instance a call is made on. -/
def genBase (home : Option Place) (here : Place) : Expr → List CStmt
  | .member base _ => genExpr home (0 :: 0 :: here) base
  | _ => []

def genExprs (home : Option Place) (here : Place) (i : Nat) : List Expr → List (List CStmt)
  | [] => []
  | e :: rest => genExpr home (i :: here) e :: genExprs home here (i + 1) rest

/-- `gen_args`. -/
def genArgs (home : Option Place) (here : Place) (i : Nat) : List Arg → List (List CStmt)
  | [] => []
  | .mk _ value :: rest => genExpr home (i :: here) value :: genArgs home here (i + 1) rest

def genStoreArgs (home : Option Place) (here : Place) (i : Nat) :
    List Arg → List (StoreArg (List CStmt))
  | [] => []
  | .mk _ value :: rest =>
      ⟨genExpr home (i :: here) value, genPred home (i :: here) value, genCount home (i :: here) value,
        isOrder value⟩ :: genStoreArgs home here (i + 1) rest

/-- The predicate of a `Store` operation with the lowered values of its comparisons;
which column a comparison is about makes no difference to the C around it. -/
def genPred (home : Option Place) (here : Place) : Expr → Pred (List CStmt)
  | .unary .not operand => .not (genPred home (0 :: here) operand)
  | .binary .and left right => .and (genPred home (0 :: here) left) (genPred home (1 :: here) right)
  | .binary .or left right => .or (genPred home (0 :: here) left) (genPred home (1 :: here) right)
  | .binary op _ right => .compare ⟨cmpOf op, "", genExpr home (1 :: here) right⟩
  | _ => .compare ⟨.eq, "", []⟩

/-- The count of `limit(count)`. -/
def genCount (home : Option Place) (here : Place) : Expr → List CStmt
  | .call _ (.mk _ value :: _) => genExpr home (0 :: here) value
  | _ => []

def genFields (home : Option Place) (here : Place) (i : Nat) :
    List Field → List (CString × List CStmt)
  | [] => []
  | .mk name value :: rest => (name, genExpr home (i :: here) value) :: genFields home here (i + 1) rest

/-- `gen_arms`: an arm that takes every value is the last that is lowered. -/
def genArms (home : Option Place) (here : Place) (i : Nat) : List Arm → List CStmt
  | [] => []
  | arm :: rest =>
      if o.irrefutable (i :: here) then genArmBody home (i :: here) arm
      else
        [.line, .once [.test, .line],
          .branch (genArmBody home (i :: here) arm) (genArms home here (i + 1) rest)]

/-- `gen_arm_body`. -/
def genArmBody (home : Option Place) (here : Place) : Arm → List CStmt
  | .expr _ body => genExpr home here body ++ [.line]
  | .block _ body => genBlock home here 0 body ++ [.line]

/-- `gen_block` and `gen_block_into`. -/
def genBlock (home : Option Place) (here : Place) (i : Nat) : List Stmt → List CStmt
  | [] => []
  | stmt :: rest => genStmt home (i :: here) stmt ++ genBlock home here (i + 1) rest

/-- `gen_stmt`. -/
def genStmt (home : Option Place) (here : Place) : Stmt → List CStmt
  | .letBind _ _ _ value => genExpr home (0 :: here) value ++ [.line]
  | .assign target value =>
      genLvalue home (0 :: here) target ++ genExpr home (1 :: here) value ++ [.line]
  | .ret .none => [.line]
  | .ret (.some value) => genExpr home (0 :: here) value ++ [.line]
  | .ifElse cond thenBlock .none =>
      genExpr home (0 :: here) cond ++ [.branch (genBlock home (1 :: here) 0 thenBlock) []]
  | .ifElse cond thenBlock (.some elseBlock) =>
      genExpr home (0 :: here) cond ++
        [.branch (genBlock home (1 :: here) 0 thenBlock) (genBlock home (2 :: here) 0 elseBlock)]
  | .whileDo cond body =>
      [.loop here (genExpr home (0 :: here) cond ++ .test :: genBlock (some here) (1 :: here) 0 body)]
  | .forIn _ iter body =>
      genExpr home (0 :: here) iter ++
        [.line, .loop here (.line :: genBlock (some here) (1 :: here) 0 body)]
  | .brk => [.jump .brk home]
  | .cont => [.jump .cont home]
  | .expr value => genExpr home (0 :: here) value

/-- `gen_lvalue`. -/
def genLvalue (home : Option Place) (here : Place) : Expr → List CStmt
  | .ident _ => [.line]
  | .member base _ => genLvalue home (0 :: here) base ++ [.line]
  | .index base key =>
      genLvalue home (0 :: here) base ++ genExpr home (1 :: here) key ++ [.line, .branch [.line] []]
  | _ => []

end

/-! ### Jumps in loop conditions -/

/-- Two facts of what is lowered: it holds no jump outside the bodies of its own loops,
and no condition of a `while` in it does. -/
structure Survey where
  jumpless : Bool
  calm : Bool
  deriving DecidableEq, Repr

namespace Survey

/-- Nothing that jumps. -/
def plain : Survey := ⟨true, true⟩

/-- One part after the other. -/
def both (first second : Survey) : Survey :=
  ⟨first.jumpless && second.jumpless, first.calm && second.calm⟩

/-- Several parts. -/
def all (parts : List Survey) : Survey := parts.foldr both plain

/-- A `while` of a condition and a body. -/
def ofWhile (cond body : Survey) : Survey :=
  ⟨cond.jumpless, cond.jumpless && cond.calm && body.calm⟩

/-- A `for` over an expression with a body. -/
def ofFor (iter body : Survey) : Survey := ⟨iter.jumpless, iter.calm && body.calm⟩

end Survey

mutual

/-- The survey of an expression: of the parts the emitter lowers. -/
def surveyExpr (here : Place) : Expr → Survey
  | .lit _ | .ident _ | .none | .mapNew _ => .plain
  | .unary _ operand => surveyExpr (0 :: here) operand
  | .binary _ left right => .both (surveyExpr (0 :: here) left) (surveyExpr (1 :: here) right)
  | .call callee args =>
      match o.callee here with
      | .named => .all (surveyArgs here 0 args)
      | .onInstance => .both (surveyBase here callee) (.all (surveyArgs here 0 args))
      | .ofInstance => surveyBase here callee
      | .store => .all (storeValues (memberName callee) (surveyStoreArgs here 0 args))
  | .index base key => .both (surveyExpr (0 :: here) base) (surveyExpr (1 :: here) key)
  | .member base _ => surveyExpr (0 :: here) base
  | .question operand => surveyExpr (0 :: here) operand
  | .tuple elems | .list elems => .all (surveyExprs here 0 elems)
  | .recordLit _ fields => .all (declared (o.fields here) (surveyFields here 0 fields))
  | .matchOn scrutinee arms => .both (surveyExpr (0 :: here) scrutinee) (surveyArms here 1 arms)
  | .some payload | .ok payload | .err payload => surveyExpr (0 :: here) payload
  | .mut operand => surveyExpr (0 :: here) operand

def surveyBase (here : Place) : Expr → Survey
  | .member base _ => surveyExpr (0 :: 0 :: here) base
  | _ => .plain

def surveyExprs (here : Place) (i : Nat) : List Expr → List Survey
  | [] => []
  | e :: rest => surveyExpr (i :: here) e :: surveyExprs here (i + 1) rest

def surveyArgs (here : Place) (i : Nat) : List Arg → List Survey
  | [] => []
  | .mk _ value :: rest => surveyExpr (i :: here) value :: surveyArgs here (i + 1) rest

def surveyStoreArgs (here : Place) (i : Nat) : List Arg → List (StoreArg Survey)
  | [] => []
  | .mk _ value :: rest =>
      ⟨surveyExpr (i :: here) value, surveyPred (i :: here) value, surveyCount (i :: here) value,
        isOrder value⟩ :: surveyStoreArgs here (i + 1) rest

def surveyPred (here : Place) : Expr → Pred Survey
  | .unary .not operand => .not (surveyPred (0 :: here) operand)
  | .binary .and left right => .and (surveyPred (0 :: here) left) (surveyPred (1 :: here) right)
  | .binary .or left right => .or (surveyPred (0 :: here) left) (surveyPred (1 :: here) right)
  | .binary op _ right => .compare ⟨cmpOf op, "", surveyExpr (1 :: here) right⟩
  | _ => .compare ⟨.eq, "", .plain⟩

def surveyCount (here : Place) : Expr → Survey
  | .call _ (.mk _ value :: _) => surveyExpr (0 :: here) value
  | _ => .plain

def surveyFields (here : Place) (i : Nat) : List Field → List (CString × Survey)
  | [] => []
  | .mk name value :: rest => (name, surveyExpr (i :: here) value) :: surveyFields here (i + 1) rest

def surveyArms (here : Place) (i : Nat) : List Arm → Survey
  | [] => .plain
  | arm :: rest =>
      if o.irrefutable (i :: here) then surveyArmBody (i :: here) arm
      else .both (surveyArmBody (i :: here) arm) (surveyArms here (i + 1) rest)

def surveyArmBody (here : Place) : Arm → Survey
  | .expr _ body => surveyExpr here body
  | .block _ body => surveyBlock here 0 body

def surveyBlock (here : Place) (i : Nat) : List Stmt → Survey
  | [] => .plain
  | stmt :: rest => .both (surveyStmt (i :: here) stmt) (surveyBlock here (i + 1) rest)

/-- The survey of a statement. -/
def surveyStmt (here : Place) : Stmt → Survey
  | .letBind _ _ _ value => surveyExpr (0 :: here) value
  | .assign target value => .both (surveyLvalue (0 :: here) target) (surveyExpr (1 :: here) value)
  | .ret .none => .plain
  | .ret (.some value) => surveyExpr (0 :: here) value
  | .ifElse cond thenBlock .none =>
      .both (surveyExpr (0 :: here) cond) (surveyBlock (1 :: here) 0 thenBlock)
  | .ifElse cond thenBlock (.some elseBlock) =>
      .both (surveyExpr (0 :: here) cond)
        (.both (surveyBlock (1 :: here) 0 thenBlock) (surveyBlock (2 :: here) 0 elseBlock))
  | .whileDo cond body => .ofWhile (surveyExpr (0 :: here) cond) (surveyBlock (1 :: here) 0 body)
  | .forIn _ iter body => .ofFor (surveyExpr (0 :: here) iter) (surveyBlock (1 :: here) 0 body)
  | .brk | .cont => ⟨false, true⟩
  | .expr value => surveyExpr (0 :: here) value

def surveyLvalue (here : Place) : Expr → Survey
  | .ident _ => .plain
  | .member base _ => surveyLvalue (0 :: here) base
  | .index base key => .both (surveyLvalue (0 :: here) base) (surveyExpr (1 :: here) key)
  | _ => .plain

end

end Emitter

/-! ### The checker -/

mutual

/-- `infer_expr` as far as `loop_depth` goes: every expression is walked at the depth it
stands at. -/
def checkExpr (loopDepth : Nat) : Expr → Bool
  | .lit _ | .ident _ | .none | .mapNew _ => true
  | .unary _ operand => checkExpr loopDepth operand
  | .binary _ left right => checkExpr loopDepth left && checkExpr loopDepth right
  | .call callee args => checkExpr loopDepth callee && checkArgs loopDepth args
  | .index base key => checkExpr loopDepth base && checkExpr loopDepth key
  | .member base _ => checkExpr loopDepth base
  | .question operand => checkExpr loopDepth operand
  | .tuple elems | .list elems => checkExprs loopDepth elems
  | .recordLit _ fields => checkFields loopDepth fields
  | .matchOn scrutinee arms => checkExpr loopDepth scrutinee && checkArms loopDepth arms
  | .some payload | .ok payload | .err payload => checkExpr loopDepth payload
  | .mut operand => checkExpr loopDepth operand

def checkExprs (loopDepth : Nat) : List Expr → Bool
  | [] => true
  | e :: rest => checkExpr loopDepth e && checkExprs loopDepth rest

def checkArgs (loopDepth : Nat) : List Arg → Bool
  | [] => true
  | .mk _ value :: rest => checkExpr loopDepth value && checkArgs loopDepth rest

def checkFields (loopDepth : Nat) : List Field → Bool
  | [] => true
  | .mk _ value :: rest => checkExpr loopDepth value && checkFields loopDepth rest

def checkArms (loopDepth : Nat) : List Arm → Bool
  | [] => true
  | .expr _ body :: rest => checkExpr loopDepth body && checkArms loopDepth rest
  | .block _ body :: rest => checkBlock loopDepth body && checkArms loopDepth rest

/-- `check_block` and `block_value`. -/
def checkBlock (loopDepth : Nat) : List Stmt → Bool
  | [] => true
  | stmt :: rest => checkStmt loopDepth stmt && checkBlock loopDepth rest

/-- `check_stmt`: the depth grows around the body of a loop, and `break` and `continue`
need it above zero. -/
def checkStmt (loopDepth : Nat) : Stmt → Bool
  | .letBind _ _ _ value => checkExpr loopDepth value
  | .assign target value => checkExpr loopDepth target && checkExpr loopDepth value
  | .ret .none => true
  | .ret (.some value) => checkExpr loopDepth value
  | .ifElse cond thenBlock .none => checkExpr loopDepth cond && checkBlock loopDepth thenBlock
  | .ifElse cond thenBlock (.some elseBlock) =>
      checkExpr loopDepth cond && checkBlock loopDepth thenBlock && checkBlock loopDepth elseBlock
  | .whileDo cond body => checkExpr loopDepth cond && checkBlock (loopDepth + 1) body
  | .forIn _ iter body => checkExpr loopDepth iter && checkBlock (loopDepth + 1) body
  | .brk | .cont => loopDepth != 0
  | .expr value => checkExpr loopDepth value

end

/-! ### What a jump reaches -/

/-- A C loop around a line. -/
inductive CLoop where
  | loop (place : Place)
  | once
  deriving DecidableEq, Repr

mutual

/-- Every jump of the source reaches the C loop of its home: the innermost C loop around
the line is that one. -/
def Reaches (inner : Option CLoop) : CStmt → Prop
  | .line | .test => True
  | .branch thenLines elseLines => ReachesAll inner thenLines ∧ ReachesAll inner elseLines
  | .loop place body => ReachesAll (some (.loop place)) body
  | .once body => ReachesAll (some .once) body
  | .jump _ home => ∃ place, home = some place ∧ inner = some (.loop place)

def ReachesAll (inner : Option CLoop) : List CStmt → Prop
  | [] => True
  | first :: rest => Reaches inner first ∧ ReachesAll inner rest

end

/-! ### Two readings of one operation -/

section Relations

variable {α β : Type} {R : α → β → Prop}

/-- Two predicates of one shape with related values. -/
inductive PredRel (R : α → β → Prop) : Pred α → Pred β → Prop where
  | compare {op : GeasCmp} {column : String} {a : α} {b : β} (related : R a b) :
      PredRel R (.compare ⟨op, column, a⟩) (.compare ⟨op, column, b⟩)
  | and {p p' : Pred α} {q q' : Pred β} (left : PredRel R p q) (right : PredRel R p' q') :
      PredRel R (.and p p') (.and q q')
  | or {p p' : Pred α} {q q' : Pred β} (left : PredRel R p q) (right : PredRel R p' q') :
      PredRel R (.or p p') (.or q q')
  | not {p : Pred α} {q : Pred β} (inner : PredRel R p q) : PredRel R (.not p) (.not q)

inductive PositiveRel (R : α → β → Prop) : Positive α → Positive β → Prop where
  | compare {op : GeasCmp} {column : String} {a : α} {b : β} (related : R a b) :
      PositiveRel R (.compare ⟨op, column, a⟩) (.compare ⟨op, column, b⟩)
  | and {p p' : Positive α} {q q' : Positive β} (left : PositiveRel R p q)
      (right : PositiveRel R p' q') : PositiveRel R (.and p p') (.and q q')
  | or {p p' : Positive α} {q q' : Positive β} (left : PositiveRel R p q)
      (right : PositiveRel R p' q') : PositiveRel R (.or p p') (.or q q')

theorem PredRel.norm {p : Pred α} {q : Pred β} (related : PredRel R p q) (neg : Bool) :
    PositiveRel R (cgPredNorm p neg) (cgPredNorm q neg) := by
  induction related generalizing neg with
  | compare related =>
      cases neg
      · exact .compare related
      · exact .compare related
  | and _ _ left right =>
      cases neg
      · exact .and (left false) (right false)
      · exact .or (left true) (right true)
  | or _ _ left right =>
      cases neg
      · exact .or (left false) (right false)
      · exact .and (left true) (right true)
  | not _ inner => exact inner !neg

theorem PredRel.positive {p : Pred α} {q : Pred β} (related : PredRel R p q) :
    PositiveRel R (cgPredPositive p) (cgPredPositive q) :=
  related.norm false

theorem PositiveRel.hasOr {p : Positive α} {q : Positive β} (related : PositiveRel R p q) :
    cgPredHasOr p = cgPredHasOr q := by
  induction related with
  | compare _ => rfl
  | and _ _ left right => simp only [cgPredHasOr, left, right]
  | or _ _ _ _ => rfl

/-- Two comparisons with related right sides. -/
def RightRel (R : α → β → Prop) (c : Comparison α) (c' : Comparison β) : Prop := R c.right c'.right

theorem PositiveRel.dnf {p : Positive α} {q : Positive β} (related : PositiveRel R p q) :
    List.Forall₂ (List.Forall₂ (RightRel R)) (cgDnf p) (cgDnf q) := by
  induction related with
  | compare related => exact .cons (.cons related .nil) .nil
  | or _ _ left right => exact List.rel_append left right
  | and _ _ left right =>
      refine List.rel_flatMap left fun group group' same => ?_
      exact List.rel_map (fun _ _ same' => List.rel_append same same') right

theorem PositiveRel.queryTerms {p : Positive α} {q : Positive β} (related : PositiveRel R p q) :
    List.Forall₂ (RightRel R) (cgQueryTerms p) (cgQueryTerms q) := by
  induction related with
  | compare related => exact .cons related .nil
  | and _ _ left right => exact List.rel_append left right
  | or _ _ _ _ => exact .nil

theorem PredRel.values {p : Pred α} {q : Pred β} (related : PredRel R p q) (aggregate : Bool) :
    List.Forall₂ R (predValues aggregate p) (predValues aggregate q) := by
  have positive := related.positive
  have rights : ∀ {cs : List (Comparison α)} {cs' : List (Comparison β)},
      List.Forall₂ (RightRel R) cs cs' →
        List.Forall₂ R (cs.map Comparison.right) (cs'.map Comparison.right) :=
    fun same => List.forall₂_map_left_iff.mpr (List.forall₂_map_right_iff.mpr same)
  have sameOr := positive.hasOr
  simp only [predValues, emitPredicate]
  by_cases grouped : (aggregate || cgPredHasOr (cgPredPositive q)) = true
  · rw [if_pos grouped, if_pos (by rw [sameOr]; exact grouped)]
    exact rights (List.rel_flatten positive.dnf)
  · rw [if_neg grouped, if_neg (by rw [sameOr]; exact grouped)]
    exact rights positive.queryTerms

/-- Two arguments with related values, predicates and counts. -/
structure ArgRel (R : α → β → Prop) (arg : StoreArg α) (arg' : StoreArg β) : Prop where
  value : R arg.value arg'.value
  pred : PredRel R arg.pred arg'.pred
  count : R arg.count arg'.count
  orders : arg.orders = arg'.orders

theorem storeValues_rel (op : CString) {args : List (StoreArg α)} {args' : List (StoreArg β)}
    (related : List.Forall₂ (ArgRel R) args args') :
    List.Forall₂ R (storeValues op args) (storeValues op args') := by
  have at_ : ∀ i : Nat, List.Forall₂ (ArgRel R) args[i]?.toList args'[i]?.toList := by
    intro i
    induction related generalizing i with
    | nil => exact .nil
    | cons first _ rest =>
        cases i with
        | zero => exact .cons first .nil
        | succ i => exact rest i
  have valueAt : ∀ i : Nat, List.Forall₂ R (args[i]?.toList.map StoreArg.value)
      (args'[i]?.toList.map StoreArg.value) :=
    fun i => List.rel_map (fun _ _ same => same.value) (at_ i)
  have predAt : ∀ (i : Nat) aggregate,
      List.Forall₂ R (args[i]?.toList.flatMap fun arg => predValues aggregate arg.pred)
        (args'[i]?.toList.flatMap fun arg => predValues aggregate arg.pred) :=
    fun i aggregate => List.rel_flatMap (at_ i) fun _ _ same => same.pred.values aggregate
  unfold storeValues
  split
  · exact valueAt 1
  split
  · exact List.rel_append (valueAt 1) (valueAt 2)
  split
  · -- The forms of a query are told apart by the number of arguments.
    rcases related with _ | ⟨_, _ | ⟨pred, _ | ⟨third, _ | ⟨fourth, _ | ⟨_, _⟩⟩⟩⟩⟩
    · exact .nil
    · exact .nil
    · exact pred.pred.values false
    · simp only [third.orders]
      split
      · exact pred.pred.values false
      · exact .cons third.value .nil
    · have sameOr := pred.pred.positive.hasOr
      dsimp only
      split
      · rename_i grouped
        rw [if_pos (by rw [← sameOr]; exact grouped)]
        exact .cons fourth.count (pred.pred.values false)
      · rename_i grouped
        rw [if_neg (by rw [← sameOr]; exact grouped)]
        exact List.rel_append (pred.pred.values false) (.cons fourth.count .nil)
    · exact .nil
  split
  · exact predAt 1 false
  split
  · exact predAt 2 false
  split
  · exact predAt 2 true
  · exact .nil

/-- Two fields of one name with related values. -/
def FieldRel (R : α → β → Prop) (field : CString × α) (field' : CString × β) : Prop :=
  field.1 = field'.1 ∧ R field.2 field'.2

theorem declared_rel (names : List CString) {given : List (CString × α)}
    {given' : List (CString × β)} (related : List.Forall₂ (FieldRel R) given given') :
    List.Forall₂ R (declared names given) (declared names given') := by
  have found : ∀ name {fields : List (CString × α)} {fields' : List (CString × β)},
      List.Forall₂ (FieldRel R) fields fields' →
        Option.Rel R ((fields.find? fun field => field.1 == name).map Prod.snd)
          ((fields'.find? fun field => field.1 == name).map Prod.snd) := by
    intro name fields fields' same
    induction same with
    | nil => exact .none
    | cons first _ rest =>
        simp only [List.find?_cons, ← first.1]
        split
        · exact .some first.2
        · exact rest
  unfold declared
  have sameNames : List.Forall₂ (fun name name' : CString => name = name') names names :=
    List.forall₂_same.mpr fun _ _ => rfl
  refine List.rel_filterMap (fun name name' same => ?_) sameNames
  rw [same]
  exact found name' (List.rel_reverse related)

end Relations

/-! ### Lines and their survey -/

theorem reachesAll_append {inner : Option CLoop} {lines more : List CStmt} :
    ReachesAll inner (lines ++ more) ↔ ReachesAll inner lines ∧ ReachesAll inner more := by
  induction lines with
  | nil => simp [ReachesAll]
  | cons first rest ih =>
      simp only [List.cons_append, ReachesAll, ih]
      exact and_assoc.symm

theorem both_plain (s : Survey) : s.both .plain = s := by
  simp [Survey.both, Survey.plain]

theorem plain_both (s : Survey) : Survey.both .plain s = s := by
  simp [Survey.both, Survey.plain]

/-- Lines with their survey, for statements of one home.  Without free jumps the lines
are right inside any C loop, otherwise inside that of their home and no other. -/
structure Fits (home : Option Place) (accepted : Bool) (lines : List CStmt) (s : Survey) :
    Prop where
  anywhere : s.calm = true → s.jumpless = true → ∀ inner, ReachesAll inner lines
  atHome : s.calm = true → ∀ place, home = some place → ReachesAll (some (.loop place)) lines
  calm : ∀ inner, ReachesAll inner lines → s.calm = true
  jumpless : ∀ inner, ReachesAll inner lines →
    (∀ place, home = some place → inner ≠ some (.loop place)) → s.jumpless = true
  accepted : accepted = true → s.jumpless = true

section Fits

variable {home : Option Place} {accepted : Bool} {lines more : List CStmt} {s t : Survey}

/-- Lines without a jump. -/
theorem Fits.plain (reaches : ∀ inner, ReachesAll inner lines) :
    Fits home accepted lines .plain :=
  ⟨fun _ _ => reaches, fun _ _ _ => reaches _, fun _ _ => rfl, fun _ _ _ => rfl, fun _ => rfl⟩

theorem Fits.append (first : Fits home accepted lines s) (second : Fits home accepted more t) :
    Fits home accepted (lines ++ more) (s.both t) := by
  simp only [Survey.both]
  constructor
  · intro calm jumpless inner
    simp only [Bool.and_eq_true] at calm jumpless
    exact reachesAll_append.mpr
      ⟨first.anywhere calm.1 jumpless.1 inner, second.anywhere calm.2 jumpless.2 inner⟩
  · intro calm place same
    simp only [Bool.and_eq_true] at calm
    exact reachesAll_append.mpr ⟨first.atHome calm.1 place same, second.atHome calm.2 place same⟩
  · intro inner reaches
    have reaches := reachesAll_append.mp reaches
    simp only [Bool.and_eq_true]
    exact ⟨first.calm inner reaches.1, second.calm inner reaches.2⟩
  · intro inner reaches elsewhere
    have reaches := reachesAll_append.mp reaches
    simp only [Bool.and_eq_true]
    exact ⟨first.jumpless inner reaches.1 elsewhere, second.jumpless inner reaches.2 elsewhere⟩
  · intro ok
    simp only [Bool.and_eq_true]
    exact ⟨first.accepted ok, second.accepted ok⟩

/-- Lines followed by some that do not jump. -/
theorem Fits.before (first : Fits home accepted lines s) (tail : List CStmt)
    (reaches : ∀ inner, ReachesAll inner tail) : Fits home accepted (lines ++ tail) s := by
  have both := first.append (Fits.plain reaches : Fits home accepted _ .plain)
  rwa [both_plain] at both

theorem Fits.line (first : Fits home accepted lines s) : Fits home accepted (lines ++ [.line]) s :=
  first.before [.line] fun _ => ⟨trivial, trivial⟩

/-- Lines after some that do not jump. -/
theorem Fits.after (second : Fits home accepted more s) (head : List CStmt)
    (reaches : ∀ inner, ReachesAll inner head) : Fits home accepted (head ++ more) s := by
  have both := (Fits.plain reaches : Fits home accepted _ .plain).append second
  rwa [plain_both] at both

/-- A branch is its two sides. -/
theorem Fits.branch (first : Fits home accepted lines s) (second : Fits home accepted more t) :
    Fits home accepted [.branch lines more] (s.both t) := by
  have both := first.append second
  have same : ∀ inner, ReachesAll inner [.branch lines more] ↔ ReachesAll inner (lines ++ more) := by
    intro inner
    rw [reachesAll_append]
    simp only [ReachesAll, Reaches, and_true]
  exact ⟨fun calm jumpless inner => (same inner).mpr (both.anywhere calm jumpless inner),
    fun calm place home => (same _).mpr (both.atHome calm place home),
    fun inner reaches => both.calm inner ((same inner).mp reaches),
    fun inner reaches => both.jumpless inner ((same inner).mp reaches), both.accepted⟩

/-- A branch without an else. -/
theorem Fits.guarded (first : Fits home accepted lines s) :
    Fits home accepted [.branch lines []] s := by
  have branch := first.branch (Fits.plain fun _ => trivial : Fits home accepted [] .plain)
  rwa [both_plain] at branch

theorem Fits.flatten {parts : List (List CStmt)} {surveys : List Survey}
    (each : List.Forall₂ (Fits home accepted) parts surveys) :
    Fits home accepted parts.flatten (.all surveys) := by
  induction each with
  | nil => exact Fits.plain fun _ => trivial
  | cons first _ rest => exact first.append rest

/-- A place inside the body of `home`. -/
def Inside (home : Option Place) (here : Place) : Prop :=
  ∀ place, home = some place → place.length < here.length

theorem Inside.deeper {here : Place} (inside : Inside home here) (i : Nat) :
    Inside home (i :: here) := fun place same => Nat.lt_succ_of_lt (inside place same)

theorem inside_body (here : Place) (i : Nat) : Inside (some here) (i :: here) := by
  intro place same
  obtain rfl := Option.some.inj same
  exact Nat.lt_succ_self _

/-- The jumps of a condition stand inside the C loop of their `while`, which is not
their home. -/
theorem Fits.whileDo {here : Place} (inside : Inside home here)
    (cond : Fits home accepted lines s) (body : Fits (some here) false more t) :
    Fits home accepted [.loop here (lines ++ .test :: more)] (.ofWhile s t) := by
  have opened : ∀ inner, ReachesAll inner [.loop here (lines ++ .test :: more)] ↔
      ReachesAll (some (.loop here)) lines ∧ ReachesAll (some (.loop here)) more := by
    intro inner
    simp only [ReachesAll, Reaches, reachesAll_append, and_true, true_and]
  have elsewhere : ∀ place, home = some place → some (CLoop.loop here) ≠ some (.loop place) := by
    intro place same equal
    obtain rfl := CLoop.loop.inj (Option.some.inj equal)
    exact Nat.lt_irrefl _ (inside here same)
  have reaches : (Survey.ofWhile s t).calm = true → ∀ inner,
      ReachesAll inner [.loop here (lines ++ .test :: more)] := by
    intro calm inner
    simp only [Survey.ofWhile, Bool.and_eq_true] at calm
    exact (opened inner).mpr ⟨cond.anywhere calm.1.2 calm.1.1 _, body.atHome calm.2 here rfl⟩
  refine ⟨fun calm _ => reaches calm, fun calm _ _ => reaches calm _, ?_, ?_, cond.accepted⟩
  · intro inner reached
    obtain ⟨top, bottom⟩ := (opened inner).mp reached
    simp only [Survey.ofWhile, Bool.and_eq_true]
    exact ⟨⟨cond.jumpless _ top elsewhere, cond.calm _ top⟩, body.calm _ bottom⟩
  · intro inner reached _
    obtain ⟨top, -⟩ := (opened inner).mp reached
    exact cond.jumpless _ top elsewhere

/-- What a `for` walks over is lowered before its loop. -/
theorem Fits.forIn {here : Place} (iter : Fits home accepted lines s)
    (body : Fits (some here) false more t) :
    Fits home accepted (lines ++ [.line, .loop here (.line :: more)]) (.ofFor s t) := by
  have opened : ∀ inner, ReachesAll inner (lines ++ [.line, .loop here (.line :: more)]) ↔
      ReachesAll inner lines ∧ ReachesAll (some (.loop here)) more := by
    intro inner
    simp only [ReachesAll, Reaches, reachesAll_append, and_true, true_and]
  constructor
  · intro calm jumpless inner
    simp only [Survey.ofFor, Bool.and_eq_true] at calm jumpless
    exact (opened inner).mpr ⟨iter.anywhere calm.1 jumpless inner, body.atHome calm.2 here rfl⟩
  · intro calm place same
    simp only [Survey.ofFor, Bool.and_eq_true] at calm
    exact (opened _).mpr ⟨iter.atHome calm.1 place same, body.atHome calm.2 here rfl⟩
  · intro inner reached
    obtain ⟨top, bottom⟩ := (opened inner).mp reached
    simp only [Survey.ofFor, Bool.and_eq_true]
    exact ⟨iter.calm inner top, body.calm _ bottom⟩
  · intro inner reached elsewhere
    exact iter.jumpless inner ((opened inner).mp reached).1 elsewhere
  · exact iter.accepted

/-- A jump is right inside the C loop of its home and nowhere else. -/
theorem Fits.jump (kind : Jump) : Fits home false [.jump kind home] ⟨false, true⟩ := by
  constructor
  · intro _ jumpless
    cases jumpless
  · intro _ place same
    exact ⟨⟨place, same, rfl⟩, trivial⟩
  · intro _ _
    rfl
  · intro inner reached elsewhere
    obtain ⟨⟨place, same, reached⟩, -⟩ := reached
    exact absurd reached (elsewhere place same)
  · intro ok
    cases ok

/-- What is accepted as a part is accepted under a stricter condition. -/
theorem Fits.mono {accepted' : Bool} (fits : Fits home accepted lines s)
    (weaker : accepted' = true → accepted = true) : Fits home accepted' lines s :=
  ⟨fits.anywhere, fits.atHome, fits.calm, fits.jumpless, fun ok => fits.accepted (weaker ok)⟩

end Fits

/-! ### The induction over the tree -/

section Induction

variable {o : Typing}

/-- Both halves of a conjunction the checker makes. -/
theorem and_ok {accepted left right : Bool} (ok : accepted = true → (left && right) = true) :
    (accepted = true → left = true) ∧ (accepted = true → right = true) := by
  constructor
  · intro here
    exact (Bool.and_eq_true_iff.mp (ok here)).1
  · intro here
    exact (Bool.and_eq_true_iff.mp (ok here)).2

mutual

theorem fits_expr {home : Option Place} {accepted : Bool} {here : Place}
    (inside : Inside home here) : ∀ e : Expr,
    (accepted = true → checkExpr 0 e = true) →
      Fits home accepted (genExpr o home here e) (surveyExpr o here e)
  | .lit _, _ => .plain fun _ => ⟨trivial, trivial⟩
  | .ident _, _ => .plain fun _ => ⟨trivial, trivial⟩
  | .none, _ => .plain fun _ => ⟨trivial, trivial⟩
  | .mapNew _, _ => .plain fun _ => ⟨trivial, trivial⟩
  | .unary _ operand, ok =>
      (fits_expr (inside.deeper 0) operand ok).line
  | .binary op left right, ok => by
      have first := fits_expr (inside.deeper 0) left (and_ok ok).1
      have second := fits_expr (inside.deeper 1) right (and_ok ok).2
      simp only [genExpr, surveyExpr]
      split
      · exact first.append (second.line.guarded.after [.line] fun _ => ⟨trivial, trivial⟩)
      · exact (first.append second).line
  | .call callee args, ok => by
      have base := fits_base inside callee (and_ok ok).1
      simp only [genExpr, surveyExpr]
      cases o.callee here with
      | named => exact (Fits.flatten (fits_args inside 0 args (and_ok ok).2)).line
      | onInstance => exact (base.append (Fits.flatten (fits_args inside 0 args (and_ok ok).2))).line
      | ofInstance => exact base.line
      | store =>
          have read := fits_storeArgs inside 0 args (and_ok ok).2
          exact (Fits.flatten (storeValues_rel (memberName callee) read)).line
  | .index base key, ok => by
      have both := (fits_expr (inside.deeper 0) base (and_ok ok).1).append
        (fits_expr (inside.deeper 1) key (and_ok ok).2)
      exact both.before _ fun _ => ⟨trivial, ⟨⟨trivial, trivial⟩, trivial⟩, trivial⟩
  | .member base _, ok => (fits_expr (inside.deeper 0) base ok).line
  | .question operand, ok =>
      (fits_expr (inside.deeper 0) operand ok).before _ fun _ =>
        ⟨⟨⟨trivial, trivial⟩, trivial⟩, trivial, trivial⟩
  | .tuple elems, ok =>
      (Fits.flatten (fits_exprs inside 0 elems ok)).line
  | .list elems, ok =>
      (Fits.flatten (fits_exprs inside 0 elems ok)).line
  | .recordLit _ fields, ok => by
      have values := Fits.flatten (declared_rel (o.fields here) (fits_fields inside 0 fields ok))
      exact (values.after [.line] fun _ => ⟨trivial, trivial⟩).line
  | .matchOn scrutinee arms, ok => by
      have first := (fits_expr (inside.deeper 0) scrutinee (and_ok ok).1).line
      exact first.append (fits_arms inside 1 arms (and_ok ok).2)
  | .some payload, ok => (fits_expr (inside.deeper 0) payload ok).line
  | .ok payload, ok => (fits_expr (inside.deeper 0) payload ok).line
  | .err payload, ok => (fits_expr (inside.deeper 0) payload ok).line
  | .mut operand, ok => fits_expr (inside.deeper 0) operand ok

theorem fits_base {home : Option Place} {accepted : Bool} {here : Place}
    (inside : Inside home here) : ∀ e : Expr,
    (accepted = true → checkExpr 0 e = true) →
      Fits home accepted (genBase o home here e) (surveyBase o here e)
  | .member base _, ok => fits_expr ((inside.deeper 0).deeper 0) base ok
  | .lit _, _ | .ident _, _ | .none, _ | .mapNew _, _ | .unary _ _, _ | .binary _ _ _, _
  | .call _ _, _ | .index _ _, _ | .question _, _ | .tuple _, _ | .list _, _ | .recordLit _ _, _
  | .matchOn _ _, _ | .some _, _ | .ok _, _ | .err _, _ | .mut _, _ => .plain fun _ => trivial

theorem fits_exprs {home : Option Place} {accepted : Bool} {here : Place}
    (inside : Inside home here) (i : Nat) : ∀ es : List Expr,
    (accepted = true → checkExprs 0 es = true) →
      List.Forall₂ (Fits home accepted) (genExprs o home here i es) (surveyExprs o here i es)
  | [], _ => .nil
  | e :: rest, ok =>
      .cons (fits_expr (inside.deeper i) e (and_ok ok).1) (fits_exprs inside (i + 1) rest (and_ok ok).2)

theorem fits_args {home : Option Place} {accepted : Bool} {here : Place}
    (inside : Inside home here) (i : Nat) : ∀ args : List Arg,
    (accepted = true → checkArgs 0 args = true) →
      List.Forall₂ (Fits home accepted) (genArgs o home here i args) (surveyArgs o here i args)
  | [], _ => .nil
  | .mk _ value :: rest, ok =>
      .cons (fits_expr (inside.deeper i) value (and_ok ok).1)
        (fits_args inside (i + 1) rest (and_ok ok).2)

theorem fits_storeArgs {home : Option Place} {accepted : Bool} {here : Place}
    (inside : Inside home here) (i : Nat) : ∀ args : List Arg,
    (accepted = true → checkArgs 0 args = true) →
      List.Forall₂ (ArgRel (Fits home accepted)) (genStoreArgs o home here i args)
        (surveyStoreArgs o here i args)
  | [], _ => .nil
  | .mk _ value :: rest, ok =>
      .cons ⟨fits_expr (inside.deeper i) value (and_ok ok).1,
          fits_pred (inside.deeper i) value (and_ok ok).1,
          fits_count (inside.deeper i) value (and_ok ok).1, rfl⟩
        (fits_storeArgs inside (i + 1) rest (and_ok ok).2)

theorem fits_pred {home : Option Place} {accepted : Bool} {here : Place}
    (inside : Inside home here) : ∀ e : Expr,
    (accepted = true → checkExpr 0 e = true) →
      PredRel (Fits home accepted) (genPred o home here e) (surveyPred o here e)
  | .unary .not operand, ok => .not (fits_pred (inside.deeper 0) operand ok)
  | .binary op left right, ok => by
      have value := fits_expr (inside.deeper 1) right (and_ok ok).2
      have first := fits_pred (inside.deeper 0) left (and_ok ok).1
      have second := fits_pred (inside.deeper 1) right (and_ok ok).2
      cases op with
      | and => exact .and first second
      | or => exact .or first second
      | _ => exact .compare value
  | .unary .neg _, _ | .lit _, _ | .ident _, _ | .none, _ | .mapNew _, _ | .call _ _, _
  | .member _ _, _ | .index _ _, _ | .question _, _ | .tuple _, _ | .list _, _ | .recordLit _ _, _
  | .matchOn _ _, _ | .some _, _ | .ok _, _ | .err _, _ | .mut _, _ =>
      .compare (.plain fun _ => trivial)

theorem fits_count {home : Option Place} {accepted : Bool} {here : Place}
    (inside : Inside home here) : ∀ e : Expr,
    (accepted = true → checkExpr 0 e = true) →
      Fits home accepted (genCount o home here e) (surveyCount o here e)
  | .call _ (.mk _ value :: _), ok =>
      fits_expr (inside.deeper 0) value (and_ok (and_ok ok).2).1
  | .call _ [], _ | .lit _, _ | .ident _, _ | .none, _ | .mapNew _, _ | .unary _ _, _
  | .binary _ _ _, _ | .member _ _, _ | .index _ _, _ | .question _, _ | .tuple _, _ | .list _, _
  | .recordLit _ _, _ | .matchOn _ _, _ | .some _, _ | .ok _, _ | .err _, _ | .mut _, _ =>
      .plain fun _ => trivial

theorem fits_fields {home : Option Place} {accepted : Bool} {here : Place}
    (inside : Inside home here) (i : Nat) : ∀ fields : List Field,
    (accepted = true → checkFields 0 fields = true) →
      List.Forall₂ (FieldRel (Fits home accepted)) (genFields o home here i fields)
        (surveyFields o here i fields)
  | [], _ => .nil
  | .mk _ value :: rest, ok =>
      .cons ⟨rfl, fits_expr (inside.deeper i) value (and_ok ok).1⟩
        (fits_fields inside (i + 1) rest (and_ok ok).2)

theorem fits_arms {home : Option Place} {accepted : Bool} {here : Place}
    (inside : Inside home here) (i : Nat) : ∀ arms : List Arm,
    (accepted = true → checkArms 0 arms = true) →
      Fits home accepted (genArms o home here i arms) (surveyArms o here i arms)
  | [], _ => .plain fun _ => trivial
  | arm :: rest, ok => by
      have okBoth : (accepted = true → checkArms 0 [arm] = true) ∧
          (accepted = true → checkArms 0 rest = true) := by
        cases arm <;> simpa only [checkArms, Bool.and_true] using and_ok ok
      have body := fits_armBody (inside.deeper i) arm okBoth.1
      have others := fits_arms inside (i + 1) rest okBoth.2
      simp only [genArms, surveyArms]
      split
      · exact body
      · exact (body.branch others).after [.line, .once [.test, .line]]
          fun _ => ⟨trivial, ⟨trivial, trivial, trivial⟩, trivial⟩

theorem fits_armBody {home : Option Place} {accepted : Bool} {here : Place}
    (inside : Inside home here) : ∀ arm : Arm,
    (accepted = true → checkArms 0 [arm] = true) →
      Fits home accepted (genArmBody o home here arm) (surveyArmBody o here arm)
  | .expr _ body, ok => (fits_expr inside body (and_ok ok).1).line
  | .block _ body, ok => (fits_block inside 0 body (and_ok ok).1).line

theorem fits_block {home : Option Place} {accepted : Bool} {here : Place}
    (inside : Inside home here) (i : Nat) : ∀ body : List Stmt,
    (accepted = true → checkBlock 0 body = true) →
      Fits home accepted (genBlock o home here i body) (surveyBlock o here i body)
  | [], _ => .plain fun _ => trivial
  | stmt :: rest, ok =>
      (fits_stmt (inside.deeper i) stmt (and_ok ok).1).append
        (fits_block inside (i + 1) rest (and_ok ok).2)

theorem fits_stmt {home : Option Place} {accepted : Bool} {here : Place}
    (inside : Inside home here) : ∀ stmt : Stmt,
    (accepted = true → checkStmt 0 stmt = true) →
      Fits home accepted (genStmt o home here stmt) (surveyStmt o here stmt)
  | .letBind _ _ _ value, ok =>
      (fits_expr (inside.deeper 0) value ok).line
  | .assign target value, ok =>
      ((fits_lvalue (inside.deeper 0) target (and_ok ok).1).append
        (fits_expr (inside.deeper 1) value (and_ok ok).2)).line
  | .ret .none, _ => .plain fun _ => ⟨trivial, trivial⟩
  | .ret (.some value), ok =>
      (fits_expr (inside.deeper 0) value ok).line
  | .ifElse cond thenBlock .none, ok => by
      have branch := (fits_block (inside.deeper 1) 0 thenBlock (and_ok ok).2).guarded
      exact (fits_expr (inside.deeper 0) cond (and_ok ok).1).append branch
  | .ifElse cond thenBlock (.some elseBlock), ok => by
      have branch := (fits_block (inside.deeper 1) 0 thenBlock (and_ok (and_ok ok).1).2).branch
        (fits_block (inside.deeper 2) 0 elseBlock (and_ok ok).2)
      exact (fits_expr (inside.deeper 0) cond (and_ok (and_ok ok).1).1).append branch
  | .whileDo cond body, ok =>
      .whileDo inside (fits_expr (inside.deeper 0) cond (and_ok ok).1)
        (fits_block (inside_body here 1) 0 body fun no => nomatch no)
  | .forIn _ iter body, ok =>
      .forIn (fits_expr (inside.deeper 0) iter (and_ok ok).1)
        (fits_block (inside_body here 1) 0 body fun no => nomatch no)
  | .brk, ok => (Fits.jump .brk).mono ok
  | .cont, ok => (Fits.jump .cont).mono ok
  | .expr value, ok => fits_expr (inside.deeper 0) value ok

theorem fits_lvalue {home : Option Place} {accepted : Bool} {here : Place}
    (inside : Inside home here) : ∀ e : Expr,
    (accepted = true → checkExpr 0 e = true) →
      Fits home accepted (genLvalue o home here e) (surveyLvalue o here e)
  | .ident _, _ => .plain fun _ => ⟨trivial, trivial⟩
  | .member base _, ok => (fits_lvalue (inside.deeper 0) base ok).line
  | .index base key, ok =>
      ((fits_lvalue (inside.deeper 0) base (and_ok ok).1).append
        (fits_expr (inside.deeper 1) key (and_ok ok).2)).before _
          fun _ => ⟨trivial, ⟨⟨trivial, trivial⟩, trivial⟩, trivial⟩
  | .lit _, _ | .none, _ | .mapNew _, _ | .unary _ _, _ | .binary _ _ _, _
  | .call _ _, _ | .question _, _ | .tuple _, _ | .list _, _ | .recordLit _ _, _
  | .matchOn _ _, _ | .some _, _ | .ok _, _ | .err _, _ | .mut _, _ => .plain fun _ => trivial

end

end Induction

/-- Every `break` and `continue` of a body reaches the C loop of the innermost `while` or
`for` whose body contains it. -/
def JumpsHome (o : Typing) (body : List Stmt) : Prop :=
  ReachesAll none (genBlock o none [] 0 body)

/-- No `break` and no `continue` stands in the condition of a `while`, other than in the
body of a loop inside that condition. -/
def CalmConditions (o : Typing) (body : List Stmt) : Prop :=
  (surveyBlock o [] 0 body).calm = true

/-- The jumps of an accepted body reach the loops the checker counted exactly when no
condition of a `while` jumps. -/
theorem jumps_home_iff (o : Typing) (body : List Stmt) (accepted : checkBlock 0 body = true) :
    JumpsHome o body ↔ CalmConditions o body := by
  have outside : Inside none [] := fun _ none => nomatch none
  have fits : Fits none true _ _ := fits_block (o := o) outside 0 body fun _ => accepted
  constructor
  · intro reaches
    exact fits.calm none reaches
  · intro calm
    exact fits.anywhere calm (fits.accepted rfl) none

/-- A loop over a list that goes on in one arm of a match and leaves in another. -/
def plainLoop : List Stmt :=
  [.forIn (ascii "x") (.ident (ascii "xs"))
    [.expr (.matchOn (.ident (ascii "x"))
      [.block (.lit (.int 0)) [.cont], .block .wildcard [.brk]])]]

/-- Wildcards take every value. -/
def plainTyping : Typing := ⟨fun place => place == [2, 0, 0, 1, 0], fun _ => [], fun _ => .named⟩

theorem jumps_home_plainLoop :
    checkBlock 0 plainLoop = true ∧ JumpsHome plainTyping plainLoop :=
  ⟨rfl, (jumps_home_iff plainTyping plainLoop rfl).mpr rfl⟩

/-- `while true { while match 0 { _ -> { break; true } } { } }` -/
def breakInCondition : List Stmt :=
  [.whileDo (.lit (.bool true))
    [.whileDo (.matchOn (.lit (.int 0)) [.block .wildcard [.brk, .expr (.lit (.bool true))]]) []]]

/-- The one arm takes every value. -/
def wildTyping : Typing := ⟨fun _ => true, fun _ => [], fun _ => .named⟩

/-- The checker counts the `break` to the outer loop, whose body it is in; the C `break`
stands in the inner one. -/
theorem breakInCondition_leaves_inner :
    checkBlock 0 breakInCondition = true ∧ ¬ JumpsHome wildTyping breakInCondition := by
  refine ⟨rfl, fun reaches => ?_⟩
  simp [JumpsHome, breakInCondition, wildTyping, genBlock, genStmt, genExpr, genArms, genArmBody,
    ReachesAll, Reaches] at reaches

end Geas.Compiler.Loops
