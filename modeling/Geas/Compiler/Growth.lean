import Geas.Compiler.Grammar

/-!
# Faults stay

No parse function takes a fault back: wherever a run of one ends, at least as many faults
stand as where it started.  This is partial correctness, and asks nothing of the tokens.
-/

namespace Geas.Compiler.Parse

open Geas.Lib Geas.Lib.Descent
open Geas.Runtime (CString ascii)

/-- How many faults were reported. -/
def Parser.faults (p : Parser) : Nat := p.errors.length

variable {α β : Type}

theorem Parser.faults_fault (p : Parser) (msg : CString) : p.faults ≤ (p.fault msg).faults := by
  unfold Parser.fault
  split
  · exact Nat.le_refl _
  · simp [Parser.faults]

/-- A step that leaves the faults alone. -/
theorem grows_update {f : Parser → Parser} (errors : ∀ p, (f p).errors = p.errors) :
    Grows Parser.faults (update f : P Unit) :=
  .update fun p => Nat.le_of_eq (congrArg List.length (errors p)).symm

/-! ## Operations -/

instance : Grows Parser.faults pTok := inferInstanceAs (Grows _ (ask _))
instance : Grows Parser.faults pKind := inferInstanceAs (Grows _ (ask _))
instance : Grows Parser.faults pKind2 := inferInstanceAs (Grows _ (ask _))
instance {k : Kind} : Grows Parser.faults (pAt k) := inferInstanceAs (Grows _ (ask _))
instance : Grows Parser.faults pAtEof := inferInstanceAs (Grows _ (ask _))
instance : Grows Parser.faults pAtEnd := inferInstanceAs (Grows _ (ask _))
instance : Grows Parser.faults pNlHere := inferInstanceAs (Grows _ (ask _))
instance : Grows Parser.faults pNlTerm := inferInstanceAs (Grows _ (ask _))
instance : Grows Parser.faults pNoRecord := inferInstanceAs (Grows _ (ask _))
instance {w : Keyword} : Grows Parser.faults (pKw w) := inferInstanceAs (Grows _ (ask _))

instance : Grows Parser.faults pBump := by
  refine grows_update fun p => ?_
  unfold Parser.bump
  split <;> rfl

instance {msg : String} : Grows Parser.faults (pError msg) :=
  .update fun p => p.faults_fault _

instance {what : String} : Grows Parser.faults (pErrorExpected what) :=
  .update fun p => p.faults_fault _

instance {k : Kind} : Grows Parser.faults (pEat k) := by
  have advances : Grows Parser.faults (update Parser.advance : P Unit) := grows_update fun _ => rfl
  unfold pEat
  infer_instance

instance {k : Kind} {what : String} : Grows Parser.faults (pExpect k what) := by
  unfold pExpect
  infer_instance

instance {w : Keyword} : Grows Parser.faults (pEatKw w) := by
  unfold pEatKw
  infer_instance

instance {w : Keyword} {what : String} : Grows Parser.faults (pExpectKw w what) := by
  unfold pExpectKw
  infer_instance

instance : Grows Parser.faults pIdent := by
  unfold pIdent
  infer_instance

instance : Grows Parser.faults pMemberName := by
  unfold pMemberName
  infer_instance

instance : Grows Parser.faults pGroupEnter := grows_update fun _ => rfl
instance : Grows Parser.faults pGroupLeave := grows_update fun _ => rfl
instance {d : Nat} : Grows Parser.faults (pBraceRestore d) := grows_update fun _ => rfl
instance {b : Bool} : Grows Parser.faults (pSetNoRecord b) := grows_update fun _ => rfl
instance : Grows Parser.faults pLeaveNesting := grows_update fun _ => rfl

instance : Grows Parser.faults pBraceSave := by
  have reset : Grows Parser.faults (update fun p : Parser => { p with groupDepth := 0 } : P Unit) :=
    grows_update fun _ => rfl
  unfold pBraceSave
  infer_instance

instance : Grows Parser.faults pEnterNesting := by
  have entered : Grows Parser.faults (update Parser.enter : P Unit) := by
    refine .update fun p => ?_
    unfold Parser.enter
    simp only
    split
    · simp [Parser.faults]
    · exact Nat.le_refl _
  unfold pEnterNesting
  infer_instance

instance {m : P α} {placeholder : α} [Grows Parser.faults m] :
    Grows Parser.faults (underCeiling m placeholder) := by
  unfold underCeiling
  infer_instance

instance {before : Nat} {ctx : String} : Grows Parser.faults (pGuardProgress before ctx) := by
  have reported : Grows Parser.faults
      (update fun p : Parser => p.fault (ascii ctx ++ ascii ": " ++ p.tokenFound) : P Unit) :=
    .update fun p => p.faults_fault _
  unfold pGuardProgress
  infer_instance

instance {msg : String} : Grows Parser.faults (pSep msg) := by
  unfold pSep
  infer_instance

instance {msg : String} : Grows Parser.faults (pExpectClose msg) := by
  unfold pExpectClose
  infer_instance

instance {turn : β → P (Turn β)} {b : β} [∀ b, Grows Parser.faults (turn b)] :
    Grows Parser.faults (pLoop turn b) :=
  inferInstanceAs (Grows _ (loop _ _ _ _))

instance {ctx : String} {element : β → P β} {b : β} [Grows Parser.faults (element b)] :
    Grows Parser.faults (bodyTurn ctx element b) := by
  unfold bodyTurn
  infer_instance

instance {ctx : String} {element : β → P β} {b : β} [∀ b, Grows Parser.faults (element b)] :
    Grows Parser.faults (bodyLoop ctx element b) :=
  inferInstanceAs (Grows _ (pLoop _ _))

instance {element : P α} {seen : List α} [Grows Parser.faults element] :
    Grows Parser.faults (commaTurn element seen) := by
  unfold commaTurn
  infer_instance

instance {close : Kind} {stops : P Bool} {element : P α} [Grows Parser.faults stops]
    [Grows Parser.faults element] : Grows Parser.faults (commaList close stops element) := by
  unfold commaList commaLoop
  infer_instance

instance {m : P α} [Grows Parser.faults m] : Grows Parser.faults (framed m) := by
  have called : Grows Parser.faults (update Parser.called : P Unit) := grows_update fun _ => rfl
  have returned : Grows Parser.faults (update Parser.returned : P Unit) := grows_update fun _ => rfl
  unfold framed
  infer_instance

instance {m : P α} [Grows Parser.faults m] : Grows Parser.faults (grouped m) := by
  unfold grouped
  infer_instance

instance {b : Bool} {m : P α} [Grows Parser.faults m] : Grows Parser.faults (optionally b m) := by
  unfold optionally
  infer_instance

/-! ## The parse functions -/

/-- No parse function of bodies takes a fault back. -/
class KeepsFaults (r : Parsers) : Prop where
  type : Grows Parser.faults r.type
  typeInner : Grows Parser.faults r.typeInner
  typeArgs : Grows Parser.faults r.typeArgs
  pledgeType : Grows Parser.faults r.pledgeType
  expr : Grows Parser.faults r.expr
  exprNoRecord : Grows Parser.faults r.exprNoRecord
  bin : ∀ minBp, Grows Parser.faults (r.bin minBp)
  binInner : ∀ minBp, Grows Parser.faults (r.binInner minBp)
  unary : Grows Parser.faults r.unary
  unaryInner : Grows Parser.faults r.unaryInner
  postfixExpr : Grows Parser.faults r.postfixExpr
  callArgs : Grows Parser.faults r.callArgs
  arg : Grows Parser.faults r.arg
  primary : Grows Parser.faults r.primary
  mutExpr : Grows Parser.faults r.mutExpr
  paren : Grows Parser.faults r.paren
  list : Grows Parser.faults r.list
  identPrimary : ∀ t, Grows Parser.faults (r.identPrimary t)
  recordLit : ∀ name, Grows Parser.faults (r.recordLit name)
  matchExpr : Grows Parser.faults r.matchExpr
  pattern : Grows Parser.faults r.pattern
  patternInner : Grows Parser.faults r.patternInner
  variantPattern : Grows Parser.faults r.variantPattern
  block : Grows Parser.faults r.block
  stmt : Grows Parser.faults r.stmt
  letStmt : Grows Parser.faults r.letStmt
  returnStmt : Grows Parser.faults r.returnStmt
  ifStmt : Grows Parser.faults r.ifStmt
  whileStmt : Grows Parser.faults r.whileStmt
  forStmt : Grows Parser.faults r.forStmt

attribute [instance] KeepsFaults.type KeepsFaults.typeInner KeepsFaults.typeArgs
  KeepsFaults.pledgeType KeepsFaults.expr KeepsFaults.exprNoRecord KeepsFaults.bin
  KeepsFaults.binInner KeepsFaults.unary KeepsFaults.unaryInner KeepsFaults.postfixExpr
  KeepsFaults.callArgs KeepsFaults.arg KeepsFaults.primary KeepsFaults.mutExpr KeepsFaults.paren
  KeepsFaults.list KeepsFaults.identPrimary KeepsFaults.recordLit KeepsFaults.matchExpr
  KeepsFaults.pattern KeepsFaults.patternInner KeepsFaults.variantPattern KeepsFaults.block
  KeepsFaults.stmt KeepsFaults.letStmt KeepsFaults.returnStmt KeepsFaults.ifStmt
  KeepsFaults.whileStmt KeepsFaults.forStmt

set_option synthInstance.maxSize 1000

section Bodies

variable {r : Parsers} [KeepsFaults r]

theorem parseType_grows : Grows Parser.faults (parseType r) := by
  unfold parseType
  infer_instance

theorem parseTypeInner_grows : Grows Parser.faults (parseTypeInner r) := by
  unfold parseTypeInner
  infer_instance

theorem parseTypeArgs_grows : Grows Parser.faults (parseTypeArgs r) := by
  unfold parseTypeArgs
  infer_instance

instance {msg : String} : Grows Parser.faults (arrowType r msg) := by
  unfold arrowType
  infer_instance

theorem parsePledgeType_grows : Grows Parser.faults (parsePledgeType r) := by
  unfold parsePledgeType
  infer_instance

theorem parseExpr_grows : Grows Parser.faults (parseExpr r) := by
  unfold parseExpr
  infer_instance

theorem parseExprNoRecord_grows : Grows Parser.faults (parseExprNoRecord r) := by
  unfold parseExprNoRecord
  infer_instance

theorem parseBin_grows {minBp : Nat} : Grows Parser.faults (parseBin r minBp) := by
  unfold parseBin
  infer_instance

instance {minBp : Nat} {lhs : Expr} : Grows Parser.faults (binTurn r minBp lhs) := by
  unfold binTurn
  refine .bind inferInstance fun breaks => ?_
  split
  · infer_instance
  · refine .bind inferInstance fun k => ?_
    split
    · infer_instance
    · infer_instance

instance {minBp : Nat} : Grows Parser.faults (parseBinInner r minBp) := by
  unfold parseBinInner
  infer_instance

theorem parseUnary_grows : Grows Parser.faults (parseUnary r) := by
  unfold parseUnary
  infer_instance

theorem parseUnaryInner_grows : Grows Parser.faults (parseUnaryInner r) := by
  unfold parseUnaryInner
  refine .bind inferInstance fun k => ?_
  split
  · infer_instance
  · infer_instance

instance {e : Expr} : Grows Parser.faults (postfixTurn r e) := by
  unfold postfixTurn
  infer_instance

instance : Grows Parser.faults (parsePostfix r) := by
  unfold parsePostfix
  infer_instance

theorem parseCallArgs_grows : Grows Parser.faults (parseCallArgs r) := by
  unfold parseCallArgs
  infer_instance

instance : Grows Parser.faults argLabel := by
  unfold argLabel
  infer_instance

theorem parseArg_grows : Grows Parser.faults (parseArg r) := by
  unfold parseArg
  infer_instance

instance : Grows Parser.faults parseLiteralExpr := by
  unfold parseLiteralExpr
  refine .bind inferInstance fun _ => ?_
  split
  · infer_instance
  · infer_instance

instance {t : Token} : Grows Parser.faults (primaryByToken r t) := by
  unfold primaryByToken
  split
  all_goals infer_instance

theorem parsePrimary_grows : Grows Parser.faults (parsePrimary r) := by
  unfold parsePrimary
  refine .bind inferInstance fun t => .bind inferInstance fun literal => ?_
  split
  · infer_instance
  · infer_instance

theorem parseMutExpr_grows : Grows Parser.faults (parseMutExpr r) := by
  unfold parseMutExpr
  infer_instance

instance {seen : List Expr} : Grows Parser.faults (tupleTurn r seen) := by
  unfold tupleTurn
  infer_instance

instance : Grows Parser.faults (parenElems r) := by
  unfold parenElems
  infer_instance

theorem parseParen_grows : Grows Parser.faults (parseParen r) := by
  unfold parseParen
  infer_instance

theorem parseList_grows : Grows Parser.faults (parseList r) := by
  unfold parseList
  infer_instance

instance {t : Token} : Grows Parser.faults (parseName r t) := by
  unfold parseName
  infer_instance

theorem parseIdentPrimary_grows {t : Token} : Grows Parser.faults (parseIdentPrimary r t) := by
  unfold parseIdentPrimary
  refine .bind inferInstance fun _ => ?_
  split
  · infer_instance
  · infer_instance

instance : Grows Parser.faults (recordField r) := by
  unfold recordField
  infer_instance

theorem parseRecordLit_grows {name : CString} : Grows Parser.faults (parseRecordLit r name) := by
  unfold parseRecordLit
  infer_instance

instance : Grows Parser.faults armArrow := by
  unfold armArrow
  infer_instance

instance : Grows Parser.faults (matchArm r) := by
  unfold matchArm
  infer_instance

theorem parseMatchExpr_grows : Grows Parser.faults (parseMatchExpr r) := by
  unfold parseMatchExpr
  infer_instance

theorem parsePattern_grows : Grows Parser.faults (parsePattern r) := by
  unfold parsePattern
  infer_instance

instance {t : Token} : Grows Parser.faults (identPattern r t) := by
  unfold identPattern
  refine .bind inferInstance fun _ => ?_
  split
  · split
    · infer_instance
    · infer_instance
  · infer_instance

theorem parsePatternInner_grows : Grows Parser.faults (parsePatternInner r) := by
  unfold parsePatternInner
  refine .bind inferInstance fun t => ?_
  split
  · infer_instance
  · refine .bind inferInstance fun literal => ?_
    split
    · infer_instance
    · infer_instance

theorem parseVariantPattern_grows : Grows Parser.faults (parseVariantPattern r) := by
  unfold parseVariantPattern
  infer_instance

theorem parseBlock_grows : Grows Parser.faults (parseBlock r) := by
  unfold parseBlock
  infer_instance

instance : Grows Parser.faults (exprStmt r) := by
  unfold exprStmt
  infer_instance

theorem parseStmt_grows : Grows Parser.faults (parseStmt r) := by
  unfold parseStmt
  refine .bind inferInstance fun k => ?_
  split
  all_goals infer_instance

theorem parseLetStmt_grows : Grows Parser.faults (parseLetStmt r) := by
  unfold parseLetStmt
  infer_instance

theorem parseReturnStmt_grows : Grows Parser.faults (parseReturnStmt r) := by
  unfold parseReturnStmt
  infer_instance

instance : Grows Parser.faults (elseBranch r) := by
  unfold elseBranch
  infer_instance

theorem parseIfStmt_grows : Grows Parser.faults (parseIfStmt r) := by
  unfold parseIfStmt
  infer_instance

theorem parseWhileStmt_grows : Grows Parser.faults (parseWhileStmt r) := by
  unfold parseWhileStmt
  infer_instance

theorem parseForStmt_grows : Grows Parser.faults (parseForStmt r) := by
  unfold parseForStmt
  infer_instance

end Bodies

theorem framed_grows {m : P α} (grows : Grows Parser.faults m) : Grows Parser.faults (framed m) :=
  inferInstance

theorem keepsFaults_zero : KeepsFaults (parsers 0) := by
  have overflows {α : Type} : Grows Parser.faults (throw .overflow : P α) := inferInstance
  constructor <;> intros <;> exact overflows

/-- With any room, no parse function takes a fault back, by induction on the room. -/
instance keepsFaults (n : Nat) : KeepsFaults (parsers n) := by
  induction n with
  | zero => exact keepsFaults_zero
  | succ n ih =>
      exact {
        type := framed_grows parseType_grows
        typeInner := framed_grows parseTypeInner_grows
        typeArgs := framed_grows parseTypeArgs_grows
        pledgeType := framed_grows parsePledgeType_grows
        expr := framed_grows parseExpr_grows
        exprNoRecord := framed_grows parseExprNoRecord_grows
        bin := fun _ => framed_grows parseBin_grows
        binInner := fun minBp => framed_grows (m := parseBinInner (parsers n) minBp) inferInstance
        unary := framed_grows parseUnary_grows
        unaryInner := framed_grows parseUnaryInner_grows
        postfixExpr := framed_grows (m := parsePostfix (parsers n)) inferInstance
        callArgs := framed_grows parseCallArgs_grows
        arg := framed_grows parseArg_grows
        primary := framed_grows parsePrimary_grows
        mutExpr := framed_grows parseMutExpr_grows
        paren := framed_grows parseParen_grows
        list := framed_grows parseList_grows
        identPrimary := fun _ => framed_grows parseIdentPrimary_grows
        recordLit := fun _ => framed_grows parseRecordLit_grows
        matchExpr := framed_grows parseMatchExpr_grows
        pattern := framed_grows parsePattern_grows
        patternInner := framed_grows parsePatternInner_grows
        variantPattern := framed_grows parseVariantPattern_grows
        block := framed_grows parseBlock_grows
        stmt := framed_grows parseStmt_grows
        letStmt := framed_grows parseLetStmt_grows
        returnStmt := framed_grows parseReturnStmt_grows
        ifStmt := framed_grows parseIfStmt_grows
        whileStmt := framed_grows parseWhileStmt_grows
        forStmt := framed_grows parseForStmt_grows }

end Geas.Compiler.Parse
