import Geas.Compiler.ParseFile
import Mathlib.Order.Filter.AtTopBot.Basic

/-!
# More room changes nothing

A parse function with room for more calls ends as one with less room does, wherever the
one with less ends at all.  So a parse that comes to its end answers what every parse with
enough room answers.
-/

namespace Geas.Compiler.Parse

open Geas.Lib Geas.Lib.Descent
open Geas.Runtime (CString)

variable {α β : Type}

/-! ## Operations -/

instance {m m' : P α} {placeholder : α} [Below m m'] :
    Below (underCeiling m placeholder) (underCeiling m' placeholder) := by
  unfold underCeiling
  infer_instance

instance {turn turn' : β → P (Turn β)} {b : β} [∀ b, Below (turn b) (turn' b)] :
    Below (pLoop turn b) (pLoop turn' b) :=
  inferInstanceAs (Below (loop _ _ _ _) (loop _ _ _ _))

instance {ctx : String} {element element' : β → P β} {b : β} [Below (element b) (element' b)] :
    Below (bodyTurn ctx element b) (bodyTurn ctx element' b) := by
  unfold bodyTurn
  infer_instance

instance {ctx : String} {element element' : β → P β} {b : β}
    [∀ b, Below (element b) (element' b)] :
    Below (bodyLoop ctx element b) (bodyLoop ctx element' b) :=
  inferInstanceAs (Below (pLoop _ _) (pLoop _ _))

instance {element element' : P α} {seen : List α} [Below element element'] :
    Below (commaTurn element seen) (commaTurn element' seen) := by
  unfold commaTurn
  infer_instance

instance {stops : P Bool} {element element' : P α} [Below element element'] :
    Below (commaLoop stops element) (commaLoop stops element') := by
  unfold commaLoop
  infer_instance

instance {close : Kind} {stops : P Bool} {element element' : P α} [Below element element'] :
    Below (commaList close stops element) (commaList close stops element') := by
  unfold commaList
  infer_instance

instance {m m' : P α} [Below m m'] : Below (framed m) (framed m') := by
  unfold framed
  infer_instance

instance {m m' : P α} [Below m m'] : Below (framedSub m) (framedSub m') := by
  unfold framedSub
  infer_instance

instance {m m' : P α} [Below m m'] : Below (grouped m) (grouped m') := by
  unfold grouped
  infer_instance

instance {b : Bool} {m m' : P α} [Below m m'] : Below (optionally b m) (optionally b m') := by
  unfold optionally
  infer_instance

instance {k : Kind} {m m' : P α} [Below m m'] : Below (onThisLine k m) (onThisLine k m') := by
  unfold onThisLine
  infer_instance

instance {ctx : String} {element element' : P α} [Below element element'] :
    Below (bodyList ctx element) (bodyList ctx element') := by
  unfold bodyList
  infer_instance

/-! ## The parse functions -/

/-- Each of these parse functions ends as its counterpart does, wherever it ends. -/
class Within (r r' : Parsers) : Prop where
  type : Below r.type r'.type
  typeInner : Below r.typeInner r'.typeInner
  typeArgs : Below r.typeArgs r'.typeArgs
  pledgeType : Below r.pledgeType r'.pledgeType
  params : Below r.params r'.params
  expr : Below r.expr r'.expr
  exprNoRecord : Below r.exprNoRecord r'.exprNoRecord
  bin : ∀ minBp, Below (r.bin minBp) (r'.bin minBp)
  binInner : ∀ minBp, Below (r.binInner minBp) (r'.binInner minBp)
  unary : Below r.unary r'.unary
  unaryInner : Below r.unaryInner r'.unaryInner
  postfixExpr : Below r.postfixExpr r'.postfixExpr
  callArgs : Below r.callArgs r'.callArgs
  arg : Below r.arg r'.arg
  primary : Below r.primary r'.primary
  mutExpr : Below r.mutExpr r'.mutExpr
  paren : Below r.paren r'.paren
  list : Below r.list r'.list
  identPrimary : ∀ t, Below (r.identPrimary t) (r'.identPrimary t)
  recordLit : ∀ name, Below (r.recordLit name) (r'.recordLit name)
  matchExpr : Below r.matchExpr r'.matchExpr
  pattern : Below r.pattern r'.pattern
  patternInner : Below r.patternInner r'.patternInner
  variantPattern : Below r.variantPattern r'.variantPattern
  block : Below r.block r'.block
  stmt : Below r.stmt r'.stmt
  letStmt : Below r.letStmt r'.letStmt
  returnStmt : Below r.returnStmt r'.returnStmt
  ifStmt : Below r.ifStmt r'.ifStmt
  whileStmt : Below r.whileStmt r'.whileStmt
  forStmt : Below r.forStmt r'.forStmt
  import_ : Below r.import_ r'.import_
  decl : Below r.decl r'.decl
  record : Below r.record r'.record
  sum : Below r.sum r'.sum
  variant : Below r.variant r'.variant
  prov : ∀ internal, Below (r.prov internal) (r'.prov internal)
  contract : ∀ internal, Below (r.contract internal) (r'.contract internal)
  member : Below r.member r'.member
  schema : Below r.schema r'.schema
  pledge : Below r.pledge r'.pledge
  clause : Below r.clause r'.clause
  subcontract : Below r.subcontract r'.subcontract
  attrs : Below r.attrs r'.attrs
  requirements : Below r.requirements r'.requirements
  reqLine : Below r.reqLine r'.reqLine
  reqOr : Below r.reqOr r'.reqOr
  reqOrInner : Below r.reqOrInner r'.reqOrInner
  reqAnd : Below r.reqAnd r'.reqAnd
  reqNot : Below r.reqNot r'.reqNot
  reqAtom : Below r.reqAtom r'.reqAtom
  file : Below r.file r'.file

attribute [instance] Within.type Within.typeInner Within.typeArgs Within.pledgeType Within.params Within.expr
  Within.exprNoRecord Within.bin Within.binInner Within.unary Within.unaryInner
  Within.postfixExpr Within.callArgs Within.arg Within.primary Within.mutExpr Within.paren
  Within.list Within.identPrimary Within.recordLit Within.matchExpr Within.pattern
  Within.patternInner Within.variantPattern Within.block Within.stmt Within.letStmt
  Within.returnStmt Within.ifStmt Within.whileStmt Within.forStmt Within.import_ Within.decl
  Within.record Within.sum Within.variant Within.prov Within.contract Within.member Within.schema
  Within.pledge Within.clause Within.subcontract Within.attrs Within.requirements Within.reqLine
  Within.reqOr Within.reqOrInner Within.reqAnd Within.reqNot Within.reqAtom Within.file

set_option synthInstance.maxSize 1000

section Bodies

variable {r r' : Parsers} [Within r r']

instance : Below (parseType r) (parseType r') := by
  unfold parseType
  infer_instance

instance : Below (parseTypeInner r) (parseTypeInner r') := by
  unfold parseTypeInner
  infer_instance

instance : Below (parseTypeArgs r) (parseTypeArgs r') := by
  unfold parseTypeArgs
  infer_instance

instance {msg : String} : Below (arrowType r msg) (arrowType r' msg) := by
  unfold arrowType
  infer_instance

instance : Below (parsePledgeType r) (parsePledgeType r') := by
  unfold parsePledgeType
  infer_instance

instance {what : String} : Below (fieldDecl r what) (fieldDecl r' what) := by
  unfold fieldDecl
  infer_instance

instance : Below (parseParams r) (parseParams r') := by
  unfold parseParams
  infer_instance

instance : Below (parseExpr r) (parseExpr r') := by
  unfold parseExpr
  infer_instance

instance : Below (parseExprNoRecord r) (parseExprNoRecord r') := by
  unfold parseExprNoRecord
  infer_instance

instance {minBp : Nat} : Below (parseBin r minBp) (parseBin r' minBp) := by
  unfold parseBin
  infer_instance

instance {minBp : Nat} {lhs : Expr} : Below (binTurn r minBp lhs) (binTurn r' minBp lhs) := by
  unfold binTurn
  refine .bind inferInstance fun breaks => ?_
  split
  · infer_instance
  · refine .bind inferInstance fun k => ?_
    cases binopForKind k with
    | none => infer_instance
    | some op => infer_instance

instance {minBp : Nat} : Below (parseBinInner r minBp) (parseBinInner r' minBp) := by
  unfold parseBinInner
  infer_instance

instance : Below (parseUnary r) (parseUnary r') := by
  unfold parseUnary
  infer_instance

instance : Below (parseUnaryInner r) (parseUnaryInner r') := by
  unfold parseUnaryInner
  refine .bind inferInstance fun k => ?_
  cases unopForKind k with
  | none => infer_instance
  | some op => infer_instance

instance {e : Expr} : Below (postfixTurn r e) (postfixTurn r' e) := by
  unfold postfixTurn
  infer_instance

instance : Below (parsePostfix r) (parsePostfix r') := by
  unfold parsePostfix
  infer_instance

instance : Below (parseCallArgs r) (parseCallArgs r') := by
  unfold parseCallArgs
  infer_instance

instance : Below (parseArg r) (parseArg r') := by
  unfold parseArg
  infer_instance

instance {t : Token} : Below (primaryByToken r t) (primaryByToken r' t) := by
  unfold primaryByToken
  cases t.kind with
  | kw w => cases w <;> infer_instance
  | _ => infer_instance

instance : Below (parsePrimary r) (parsePrimary r') := by
  unfold parsePrimary
  refine .bind inferInstance fun t => .bind inferInstance fun literal => ?_
  cases literal with
  | none => infer_instance
  | some l => infer_instance

instance : Below (parseMutExpr r) (parseMutExpr r') := by
  unfold parseMutExpr
  infer_instance

instance {seen : List Expr} : Below (tupleTurn r seen) (tupleTurn r' seen) := by
  unfold tupleTurn
  infer_instance

instance : Below (parenElems r) (parenElems r') := by
  unfold parenElems
  infer_instance

instance : Below (parseParen r) (parseParen r') := by
  unfold parseParen
  infer_instance

instance : Below (parseList r) (parseList r') := by
  unfold parseList
  infer_instance

instance {t : Token} : Below (parseName r t) (parseName r' t) := by
  unfold parseName
  infer_instance

instance {t : Token} : Below (parseIdentPrimary r t) (parseIdentPrimary r' t) := by
  unfold parseIdentPrimary
  refine .bind inferInstance fun k => ?_
  cases ctorForName t.text with
  | none => infer_instance
  | some ctor => infer_instance

instance : Below (recordField r) (recordField r') := by
  unfold recordField
  infer_instance

instance {name : CString} : Below (parseRecordLit r name) (parseRecordLit r' name) := by
  unfold parseRecordLit
  infer_instance

instance : Below (matchArm r) (matchArm r') := by
  unfold matchArm
  infer_instance

instance : Below (parseMatchExpr r) (parseMatchExpr r') := by
  unfold parseMatchExpr
  infer_instance

instance : Below (parsePattern r) (parsePattern r') := by
  unfold parsePattern
  infer_instance

instance {t : Token} : Below (identPattern r t) (identPattern r' t) := by
  unfold identPattern
  refine .bind inferInstance fun k => ?_
  split
  · cases patCtorForName t.text with
    | none => infer_instance
    | some ctor => infer_instance
  · infer_instance

instance : Below (parsePatternInner r) (parsePatternInner r') := by
  unfold parsePatternInner
  refine .bind inferInstance fun t => ?_
  split
  · infer_instance
  · refine .bind inferInstance fun literal => ?_
    cases literal with
    | none => infer_instance
    | some l => infer_instance

instance : Below (parseVariantPattern r) (parseVariantPattern r') := by
  unfold parseVariantPattern
  infer_instance

instance : Below (parseBlock r) (parseBlock r') := by
  unfold parseBlock
  infer_instance

instance : Below (exprStmt r) (exprStmt r') := by
  unfold exprStmt
  infer_instance

instance : Below (parseStmt r) (parseStmt r') := by
  unfold parseStmt
  refine .bind inferInstance fun k => ?_
  cases k with
  | kw w => cases w <;> infer_instance
  | _ => infer_instance

instance : Below (parseLetStmt r) (parseLetStmt r') := by
  unfold parseLetStmt
  infer_instance

instance : Below (parseReturnStmt r) (parseReturnStmt r') := by
  unfold parseReturnStmt
  infer_instance

instance : Below (elseBranch r) (elseBranch r') := by
  unfold elseBranch
  infer_instance

instance : Below (parseIfStmt r) (parseIfStmt r') := by
  unfold parseIfStmt
  infer_instance

instance : Below (parseWhileStmt r) (parseWhileStmt r') := by
  unfold parseWhileStmt
  infer_instance

instance : Below (parseForStmt r) (parseForStmt r') := by
  unfold parseForStmt
  infer_instance

instance : Below (parseReqOr r) (parseReqOr r') := by
  unfold parseReqOr
  infer_instance

instance {k : Kind} {combine : Formula CString → Formula CString → Formula CString}
    {operand operand' : P (Formula CString)} {lhs : Formula CString} [Below operand operand'] :
    Below (chainTurn k combine operand lhs) (chainTurn k combine operand' lhs) := by
  unfold chainTurn
  infer_instance

instance : Below (parseReqOrInner r) (parseReqOrInner r') := by
  unfold parseReqOrInner
  infer_instance

instance : Below (parseReqAnd r) (parseReqAnd r') := by
  unfold parseReqAnd
  infer_instance

instance : Below (parseReqNot r) (parseReqNot r') := by
  unfold parseReqNot
  infer_instance

instance : Below (parseReqAtom r) (parseReqAtom r') := by
  unfold parseReqAtom
  infer_instance

instance : Below (parseReqLine r) (parseReqLine r') := by
  unfold parseReqLine
  infer_instance

instance {seen : Option (Formula CString)} {msg : String} :
    Below (reqLabel r seen msg) (reqLabel r' seen msg) := by
  unfold reqLabel
  refine .bind inferInstance fun _ => .bind inferInstance fun e => ?_
  cases seen with
  | none => infer_instance
  | some e => infer_instance

instance {block : ReqBlockNode} : Below (reqElement r block) (reqElement r' block) := by
  unfold reqElement
  infer_instance

instance : Below (parseRequirements r) (parseRequirements r') := by
  unfold parseRequirements
  infer_instance

instance : Below (recordFieldDecl r) (recordFieldDecl r') := by
  unfold recordFieldDecl
  infer_instance

instance : Below (parseRecord r) (parseRecord r') := by
  unfold parseRecord
  infer_instance

instance {vars : List VariantNode} : Below (sumTurn r vars) (sumTurn r' vars) := by
  unfold sumTurn
  infer_instance

instance : Below (parseSum r) (parseSum r') := by
  unfold parseSum
  infer_instance

instance : Below (parseVariant r) (parseVariant r') := by
  unfold parseVariant
  infer_instance

instance {sigs : List ClauseSigNode} : Below (clauseSig r sigs) (clauseSig r' sigs) := by
  unfold clauseSig
  infer_instance

instance {internal : Bool} : Below (parseProv r internal) (parseProv r' internal) := by
  unfold parseProv
  infer_instance

instance {members : List Member} : Below (memberElement r members) (memberElement r' members) := by
  unfold memberElement
  infer_instance

instance {internal : Bool} : Below (parseContract r internal) (parseContract r' internal) := by
  unfold parseContract
  infer_instance

instance : Below (parseMember r) (parseMember r') := by
  unfold parseMember
  refine .bind inferInstance fun k => ?_
  cases k with
  | kw w => cases w <;> infer_instance
  | _ => infer_instance

instance : Below (schemaColumn r) (schemaColumn r') := by
  unfold schemaColumn
  infer_instance

instance : Below (parseSchema r) (parseSchema r') := by
  unfold parseSchema
  infer_instance

instance : Below (parsePledge r) (parsePledge r') := by
  unfold parsePledge
  infer_instance

instance : Below (parseClause r) (parseClause r') := by
  unfold parseClause
  refine .bind inferInstance fun _ => .bind inferInstance fun name => .bind inferInstance
    fun params => .bind inferInstance fun ret => .bind inferInstance fun body => ?_
  cases body with
  | none => infer_instance
  | some body => infer_instance

instance {pledges : List PledgeNode} : Below (subElement r pledges) (subElement r' pledges) := by
  unfold subElement
  infer_instance

instance : Below (subcontractRest r) (subcontractRest r') := by
  unfold subcontractRest
  infer_instance

instance : Below (parseSubcontract r) (parseSubcontract r') := by
  unfold parseSubcontract
  infer_instance

instance : Below (internalDecl r) (internalDecl r') := by
  unfold internalDecl
  refine .bind inferInstance fun _ => .bind inferInstance fun k => ?_
  cases k with
  | kw w => cases w <;> infer_instance
  | _ => infer_instance

instance : Below (namedDecl r) (namedDecl r') := by
  unfold namedDecl
  infer_instance

instance : Below (parseDecl r) (parseDecl r') := by
  unfold parseDecl
  refine .bind inferInstance fun k => ?_
  cases k with
  | kw w => cases w <;> infer_instance
  | _ => infer_instance

instance {imports : List CString} : Below (headTurn r imports) (headTurn r' imports) := by
  unfold headTurn
  infer_instance

instance {file : File} : Below (declTurn r file) (declTurn r' file) := by
  unfold declTurn
  infer_instance

instance : Below (parseFile r) (parseFile r') := by
  unfold parseFile
  infer_instance

end Bodies

theorem framed_below {m m' : P α} (below : Below m m') : Below (framed m) (framed m') :=
  inferInstance

/-- Without room nothing ends. -/
theorem within_zero (r : Parsers) : Within (parsers 0) r := by
  constructor
  all_goals
    intros
    exact ⟨fun runs => by cases runs⟩

/-- Room for one call more changes nothing. -/
theorem within_succ : (n : Nat) → Within (parsers n) (parsers (n + 1))
  | 0 => within_zero _
  | n + 1 =>
      have := within_succ n
      { type := framed_below inferInstance
        typeInner := framed_below inferInstance
        typeArgs := framed_below inferInstance
        pledgeType := framed_below inferInstance
        params := framed_below inferInstance
        expr := framed_below inferInstance
        exprNoRecord := framed_below inferInstance
        bin := fun _ => framed_below inferInstance
        binInner := fun _ => framed_below inferInstance
        unary := framed_below inferInstance
        unaryInner := framed_below inferInstance
        postfixExpr := framed_below inferInstance
        callArgs := framed_below inferInstance
        arg := framed_below inferInstance
        primary := framed_below inferInstance
        mutExpr := framed_below inferInstance
        paren := framed_below inferInstance
        list := framed_below inferInstance
        identPrimary := fun _ => framed_below inferInstance
        recordLit := fun _ => framed_below inferInstance
        matchExpr := framed_below inferInstance
        pattern := framed_below inferInstance
        patternInner := framed_below inferInstance
        variantPattern := framed_below inferInstance
        block := framed_below inferInstance
        stmt := framed_below inferInstance
        letStmt := framed_below inferInstance
        returnStmt := framed_below inferInstance
        ifStmt := framed_below inferInstance
        whileStmt := framed_below inferInstance
        forStmt := framed_below inferInstance
        import_ := framed_below inferInstance
        decl := framed_below inferInstance
        record := framed_below inferInstance
        sum := framed_below inferInstance
        variant := framed_below inferInstance
        prov := fun _ => framed_below inferInstance
        contract := fun _ => framed_below inferInstance
        member := framed_below inferInstance
        schema := framed_below inferInstance
        pledge := framed_below inferInstance
        clause := framed_below inferInstance
        subcontract := framed_below inferInstance
        attrs := framed_below inferInstance
        requirements := framed_below inferInstance
        reqLine := framed_below inferInstance
        reqOr := framed_below inferInstance
        reqOrInner := framed_below inferInstance
        reqAnd := framed_below inferInstance
        reqNot := framed_below inferInstance
        reqAtom := framed_below inferInstance
        file := framed_below inferInstance }

theorem file_below {n m : Nat} (le : n ≤ m) : Below (parsers n).file (parsers m).file := by
  induction le with
  | refl => exact .refl
  | step _ ih => exact ih.trans (within_succ _).file

/-- A parse answers what every parse with enough room answers. -/
theorem parse_of_eventually {toks : List Token} (ends : EndsInEof toks) {file : File}
    {post : Parser → Prop} (runs : ∀ᶠ n in Filter.atTop,
      ∃ p, (parsers n).file (parserNew toks) = .ok (file, p) ∧ post p) :
    ∃ p, parse toks = .ok (file, p) ∧ post p := by
  obtain ⟨n, enough, p, runs, holds⟩ :=
    ((Filter.eventually_ge_atTop (depthBound + subKeywords toks + 1)).and runs).exists
  obtain ⟨file', p', parsed, -⟩ := parse_ends ends
  have same := (file_below enough).same parsed
  rw [runs] at same
  cases same
  exact ⟨p, parsed, holds⟩

end Geas.Compiler.Parse
