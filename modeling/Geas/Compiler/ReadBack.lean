import Geas.Compiler.RoundTrip

/-!
# Printed expressions are read back

The ladder is parsed by two loops: one over the operators of a binding power and more,
one over calls, indices, members and `?`.  A printed expression brings the loop it belongs
to as far as its own tree, and what follows decides whether the loop goes on.  Each form
of the tree is read back when its parts are, so the proof for whole trees is an induction
that only puts the forms together.
-/

namespace Geas.Compiler.Parse

open Geas.Lib Geas.Lib.Descent
open Geas.Runtime (CString ascii)
open Filter (atTop)

/-! ## Newlines -/

theorem pNlTerm_yes {p : Parser} (breaks : Breaks p.groupDepth p.tok) :
    pNlTerm p = .ok (true, p) := by
  change Except.ok (p.hitDepthLimit || (decide (p.groupDepth = 0) && p.tok.nlBefore), p) = _
  rw [decide_eq_true breaks.1, breaks.2]
  simp

theorem pNlTerm_no {p : Parser} (running : p.hitDepthLimit = false)
    (goes : ¬ Breaks p.groupDepth p.tok) : pNlTerm p = .ok (false, p) := by
  change Except.ok (p.hitDepthLimit || (decide (p.groupDepth = 0) && p.tok.nlBefore), p) = _
  rw [running, Bool.false_or]
  by_cases outside : p.groupDepth = 0
  · cases sameLine : p.tok.nlBefore with
    | true => exact absurd ⟨outside, sameLine⟩ goes
    | false => simp
  · simp [outside]

theorem not_breaks_of_sameLine {g : Nat} {t : Token} (sameLine : t.nlBefore = false) :
    ¬ Breaks g t := by
  intro breaks
  rw [Breaks, sameLine] at breaks
  exact absurd breaks.2 (by decide)

/-! ## The two loops -/

section Loops

variable {r : Parsers} {e : Expr} {p : Parser} {m : Nat}

/-- The loop over postfix operators ends before a token that is none. -/
theorem postfixTurn_stops (running : p.hitDepthLimit = false)
    (ends : Breaks p.groupDepth p.tok ∨ isPostfix p.kind = false) :
    postfixTurn r e p = .ok (.stop e, p) := by
  by_cases breaks : Breaks p.groupDepth p.tok
  · exact run_bind (pNlTerm_yes breaks)
  · have none : isPostfix p.kind = false := ends.resolve_left breaks
    refine (run_bind (pNlTerm_no running breaks)).trans ?_
    refine (run_bind (pAt_no fun here => by rw [here] at none; cases none)).trans ?_
    refine (run_bind (pAt_no fun here => by rw [here] at none; cases none)).trans ?_
    refine (run_bind (pAt_no fun here => by rw [here] at none; cases none)).trans ?_
    exact run_bind (pAt_no fun here => by rw [here] at none; cases none)

/-- The loop over operators ends before a token that is none of its powers. -/
theorem binTurn_stops (running : p.hitDepthLimit = false)
    (ends : Breaks p.groupDepth p.tok ∨ ∀ op, binopForKind p.kind = some op → binLbp op < m) :
    binTurn r m e p = .ok (.stop e, p) := by
  by_cases breaks : Breaks p.groupDepth p.tok
  · exact run_bind (pNlTerm_yes breaks)
  · refine (run_bind (pNlTerm_no running breaks)).trans ((run_bind (m := pKind) rfl).trans ?_)
    have looser := ends.resolve_left breaks
    cases found : binopForKind p.kind with
    | none => rfl
    | some op =>
        have below : binLbp op < m := looser op found
        simp only [below, if_true]
        rfl

end Loops

/-- The operator loop over the tokens comes to the tree, for each power up to `pw`. -/
def ChainLeads (flag : Bool) (pw levels : Nat) (toks : List Token) (e : Expr) : Prop :=
  ∀ᶠ n in atTop, ∀ m p rest, m ≤ pw → Before flag levels toks rest p →
    EndsExpr flag (pw + 1) p.groupDepth (next rest) →
    Leads (parseBinInner (parsers n) m) (pLoop (binTurn (parsers n) m) e) toks p

/-- The tokens open as a primary does, and the postfix loop over them comes to the tree. -/
structure Spine (flag : Bool) (levels : Nat) (toks : List Token) (e : Expr) : Prop where
  opens : ∃ t more, toks = t :: more ∧ unopForKind t.kind = none
  leads : ∀ nl, ∀ᶠ n in atTop, ∀ p rest, Before flag levels (opened nl toks) rest p →
    NoRecord flag (next rest) →
    Leads (parsePostfix (parsers n)) (pLoop (postfixTurn (parsers n)) e) (opened nl toks) p

/-- The tokens are read back as the tree `e` wherever an expression of the power `pw` may
stand bare. -/
structure Printed (flag : Bool) (pw levels : Nat) (toks : List Token) (e : Expr) : Prop where
  chain : ∀ nl, ChainLeads flag pw levels (opened nl toks) e
  unary : 70 ≤ pw → ∀ nl, Parses (·.unary) e flag levels (opened nl toks) (EndsUnary flag)
  spine : 80 ≤ pw → ∀ inner, levels ≤ inner + 1 → Spine flag inner toks e

theorem Spine.mono {flag : Bool} {levels more : Nat} {toks : List Token} {e : Expr}
    (spine : Spine flag levels toks e) (le : levels ≤ more) : Spine flag more toks e where
  opens := spine.opens
  leads nl := (spine.leads nl).mono fun _ leads p rest before follows =>
    leads p rest (before.mono le) follows

theorem Spine.unary {flag : Bool} {levels : Nat} {toks : List Token} {e : Expr}
    (spine : Spine flag levels toks e) (nl : Bool) :
    Parses (·.unary) e flag (levels + 1) (opened nl toks) (EndsUnary flag) := by
  refine .call parseUnary (fun _ => rfl) (.underCeiling ?_)
  refine .call parseUnaryInner (fun _ => rfl) ?_
  have postfixes : Parses (·.postfixExpr) e flag levels (opened nl toks) (EndsUnary flag) := by
    refine .call parsePostfix (fun _ => rfl) ?_
    refine (spine.leads nl).mono fun n leads p rest before follows => ?_
    refine ((leads p rest before follows.1).gives fun q reads => ?_).cast (List.append_nil _)
    have behind := before.done reads
    refine .loop_stop (.stays (postfixTurn_stops behind.running ?_))
    rw [reads.groupDepth, behind.tok_of_nil, behind.kind_of_nil]
    exact follows.2
  obtain ⟨t, more, rfl, notUnary⟩ := spine.opens
  refine Filter.Eventually.mono postfixes fun n holds p rest before follows => ?_
  refine .here (pKind_at before) ?_
  simp only [notUnary]
  exact holds p rest before follows

theorem chainLeads_of_unary {flag : Bool} {pw levels : Nat} {toks : List Token} {e : Expr}
    (unary : Parses (·.unary) e flag levels toks (EndsUnary flag)) :
    ChainLeads flag pw levels toks e := by
  refine Filter.Eventually.mono unary fun n holds m p rest _ before follows => ?_
  exact .bind (holds p rest before follows.1)

theorem Printed.of_spine {flag : Bool} {levels : Nat} {toks : List Token} {e : Expr}
    (spine : Spine flag levels toks e) : Printed flag 80 (levels + 1) toks e where
  chain nl := chainLeads_of_unary (spine.unary nl)
  unary _ nl := spine.unary nl
  spine _ _ le := spine.mono (Nat.le_of_succ_le_succ le)

/-- An expression in a position that takes operators of power `m` on. -/
theorem Printed.bin {flag : Bool} {pw levels : Nat} {toks : List Token} {e : Expr}
    (printed : Printed flag pw levels toks e) (nl : Bool) {m : Nat} (le : m ≤ pw) :
    Parses (·.bin m) e flag (levels + 1) (opened nl toks) (EndsExpr flag m) := by
  refine .call (fun r => parseBin r m) (fun _ => rfl) (.underCeiling ?_)
  refine .call (fun r => parseBinInner r m) (fun _ => rfl) ?_
  refine Filter.Eventually.mono (printed.chain nl) fun n leads p rest before follows => ?_
  have chained := leads m p rest le before (follows.weaken (Nat.le_succ_of_le le))
  refine (chained.gives fun q reads => ?_).cast (List.append_nil _)
  have behind := before.done reads
  refine .loop_stop (.stays (binTurn_stops behind.running ?_))
  rw [reads.groupDepth, behind.tok_of_nil, behind.kind_of_nil]
  exact follows.2

theorem Printed.expr {flag : Bool} {pw levels : Nat} {toks : List Token} {e : Expr}
    (printed : Printed flag pw levels toks e) (nl : Bool) :
    Parses (·.expr) e flag (levels + 1) (opened nl toks) (EndsExpr flag 0) :=
  .call parseExpr (fun _ => rfl) (printed.bin nl (Nat.zero_le pw))

/-- An expression in a header. -/
theorem Printed.exprNoRecord {flag : Bool} {pw levels : Nat} {toks : List Token} {e : Expr}
    (printed : Printed true pw levels toks e) (nl : Bool) :
    Parses (·.exprNoRecord) e flag (levels + 1) (opened nl toks) (EndsExpr true 0) := by
  refine .call parseExprNoRecord (fun _ => rfl) ?_
  refine Filter.Eventually.mono (printed.bin nl (Nat.zero_le pw)) fun n holds p rest before follows => ?_
  refine (Gives.flagged (holds _ rest (before.reflag true) follows) fun q _ => .pure).cast
    (List.append_nil _)

/-! ## Operands -/

theorem Parses.primary {e : Expr} {flag : Bool} {levels : Nat} {t : Token} {more : List Token}
    {follow : Nat → Token → Prop} (notLit : ∀ l, t.kind ≠ .lit l)
    (byToken : Parses (fun r => primaryByToken r t) e flag levels (t :: more) follow) :
    Parses (·.primary) e flag levels (t :: more) follow := by
  refine .call parsePrimary (fun _ => rfl) ?_
  refine Filter.Eventually.mono byToken fun n holds p rest before follows => ?_
  refine .here (pTok_at before) (.here (Gives.noLiteral before notLit) ?_)
  exact holds p rest before follows

theorem Spine.of_primary {e : Expr} {flag : Bool} {levels : Nat} {toks : List Token}
    (opens : ∃ t more, toks = t :: more ∧ unopForKind t.kind = none)
    (primary : ∀ nl, Parses (·.primary) e flag levels (opened nl toks) fun _ => NoRecord flag) :
    Spine flag levels toks e where
  opens := opens
  leads nl := (primary nl).mono fun _ holds p rest before follows =>
    .bind (holds p rest before follows)

/-- One more postfix operator. -/
theorem Spine.postfix {e e' : Expr} {flag : Bool} {levels : Nat} {toks more : List Token}
    {t : Token} (spine : Spine flag levels toks e) (notBrace : t.kind ≠ .lbrace)
    (turn : ∀ᶠ n in atTop, ∀ p rest, Before flag levels (t :: more) rest p →
      Gives (postfixTurn (parsers n) e) (.again e') (t :: more) p) :
    Spine flag levels (toks ++ t :: more) e' where
  opens := by
    obtain ⟨t', more', rfl, notUnary⟩ := spine.opens
    exact ⟨t', _, rfl, notUnary⟩
  leads nl := by
    obtain ⟨t', more', rfl, notUnary⟩ := spine.opens
    filter_upwards [spine.leads nl, turn] with n leads turn p rest before follows
    have before : Before flag levels (opened nl (t' :: more') ++ t :: more) rest p := before
    have first := leads p _ before.split fun _ brace => absurd brace notBrace
    refine first.trans fun q reads => ?_
    exact .again (turn q rest (before.after reads)) (List.cons_ne_nil t more)

/-! ## Lists of expressions -/

/-- The tokens an expression opens with. -/
def OpensExpr (k : Kind) : Prop := opensExpr k = true

/-- What may follow an item of a list. -/
def EndsItem (_ : Nat) (t : Token) : Prop := endsAny t.kind = true

theorem OpensExpr.ne {k k' : Kind} (opens : OpensExpr k) (other : opensExpr k' = false) : k ≠ k' := by
  rintro rfl
  rw [OpensExpr, other] at opens
  cases opens

theorem exprsGoOn : KeepsGoing pAtEnd OpensExpr := by
  intro p running opens
  change Except.ok (p.hitDepthLimit || decide (p.kind = .eof), p) = _
  rw [running, decide_eq_false (opens.ne rfl)]
  rfl

theorem Opening.opens {toks : List Token} (opening : Opening toks) :
    ∃ t more, toks = t :: more ∧ OpensExpr t.kind := by
  obtain ⟨t, more, rfl, opens, -⟩ := opening
  exact ⟨t, more, rfl, opens⟩

/-- The elements of a tuple behind those that were read. -/
theorem tupleLoop_gives {r : Parsers} {flag : Bool} {levels : Nat} {elems : List Expr}
    {toks : List (List Token)}
    (each : List.Forall₂ (Item r.expr flag levels (EndsExpr flag 0) OpensExpr) elems toks)
    (seen : List Expr) (p : Parser) (rest : List Token)
    (before : Before flag levels (toks.flatMap (sym .comma :: ·)) rest p)
    (closes : (next rest).kind = .rparen) :
    Gives (pLoop (tupleTurn r) seen) (seen ++ elems) (toks.flatMap (sym .comma :: ·)) p := by
  induction each generalizing seen p with
  | nil =>
      rw [List.append_nil]
      refine .loop_stop ((Gives.eatNot ?_).bind fun _ _ => .pure)
      rw [before.kind_of_nil, closes]
      decide
  | @cons e ts elems tss item each ih =>
      rw [List.flatMap_cons] at before ⊢
      have turned : Gives (tupleTurn r seen) (.again (seen ++ [e])) (sym .comma :: ts) p := by
        have before := before.split
        refine (Gives.eat before rfl).one before fun q group before => ?_
        refine Gives.map (f := fun e => Turn.again (seen ++ [e])) (item.gives q _ before ?_)
        cases tss with
        | nil => exact .closing (by rw [List.flatMap_nil, List.nil_append, closes]; rfl)
        | cons => exact .closing rfl
      refine (Leads.again turned (List.cons_ne_nil _ _)).gives fun q reads => ?_
      have done := ih (seen ++ [e]) q (before.after reads)
      rwa [List.append_assoc] at done

theorem commaSep_cons (item : List Token) (items : List (List Token)) :
    commaSep (item :: items) = item ++ items.flatMap (sym .comma :: ·) := by
  induction items generalizing item with
  | nil => simp [commaSep]
  | cons item' items ih => rw [commaSep, ih, List.flatMap_cons, List.cons_append]; simp

theorem parenElems_gives {r : Parsers} {flag : Bool} {levels : Nat} {elems : List Expr}
    {toks : List (List Token)}
    (each : List.Forall₂ (Item r.expr flag levels (EndsExpr flag 0) OpensExpr) elems toks)
    (some : elems ≠ []) (p : Parser) (rest : List Token)
    (before : Before flag levels (commaSep toks) rest p) (closes : (next rest).kind = .rparen) :
    Gives (parenElems r) elems (commaSep toks) p := by
  cases each with
  | nil => exact absurd rfl some
  | @cons e ts elems tss item each =>
      rw [commaSep_cons] at before ⊢
      refine .here (pAt_no ((item.kind before.split).ne rfl)) ?_
      have first : Gives r.expr e ts p := by
        refine item.gives p _ before.split ?_
        cases tss with
        | nil => exact .closing (by rw [List.flatMap_nil, List.nil_append, closes]; rfl)
        | cons => exact .closing rfl
      refine first.part before fun q _ before => ?_
      exact tupleLoop_gives each [e] q rest before closes

section Groups

variable {flag : Bool} {levels : Nat}

/-- What stands in parentheses is read back as the tree of its elements. -/
theorem parens_spine {elems : List Expr} {toks : List (List Token)}
    (each : Items (·.expr) false levels (EndsExpr false 0) OpensExpr elems toks)
    (some : elems ≠ []) : Spine flag levels (inParens (commaSep toks)) (parenTree elems) := by
  refine .of_primary ⟨_, _, rfl, rfl⟩ fun nl => ?_
  refine Parses.primary (t := symOn nl .lparen) (fun _ here => by cases here) ?_
  have paren : Parses (·.paren) (parenTree elems) flag levels
      (symOn nl .lparen :: (commaSep toks ++ [sym .rparen])) fun _ => NoRecord flag := by
    refine .call parseParen (fun _ => rfl) ?_
    refine each.mono fun n each p rest before _ => ?_
    refine (Gives.bump before (by simp [symOn])).one before fun q _ before => ?_
    refine (Gives.grouped (parenElems_gives each some _ _ before.split.grouped rfl)).part before
      fun q _ before => ?_
    rw [if_neg some]
    exact (Gives.expect before rfl).one before fun _ _ _ => .pure
  exact paren

theorem callArgs_parses {args : List Arg} {toks : List (List Token)}
    (each : Items (·.arg) false levels EndsItem OpensExpr args toks) :
    Parses (·.callArgs) args flag levels (inParens (commaSep toks)) fun _ _ => True := by
  refine .call parseCallArgs (fun _ => rfl) ?_
  have listed : Parses _ args false levels (commaSep toks) _ :=
    each.commaList .rparen exprsGoOn (fun _ => rfl) (by decide) (by simp [OpensExpr, opensExpr])
  refine listed.mono fun n holds p rest before _ => ?_
  refine (Gives.bump before (by decide)).one before fun q _ before => ?_
  refine (Gives.grouped (holds _ _ before.split.grouped ⟨rfl, rfl⟩)).part before
    fun q _ before => ?_
  exact (Gives.expect before rfl).one before fun _ _ _ => .pure

theorem list_spine {elems : List Expr} {toks : List (List Token)}
    (each : Items (·.expr) false levels (EndsExpr false 0) OpensExpr elems toks) :
    Spine flag levels (inBrackets (commaSep toks)) (.list elems) := by
  refine .of_primary ⟨_, _, rfl, rfl⟩ fun nl => ?_
  refine Parses.primary (t := symOn nl .lbracket) (fun _ here => by cases here) ?_
  have listed : Parses _ elems false levels (commaSep toks) _ :=
    each.commaList .rbracket exprsGoOn (fun _ => .closing rfl) (by decide)
      (by simp [OpensExpr, opensExpr])
  have list : Parses (·.list) (.list elems) flag levels
      (symOn nl .lbracket :: (commaSep toks ++ [sym .rbracket])) fun _ => NoRecord flag := by
    refine .call parseList (fun _ => rfl) ?_
    refine listed.mono fun n holds p rest before _ => ?_
    refine (Gives.bump before (by simp [symOn])).one before fun q _ before => ?_
    refine (Gives.grouped (holds _ _ before.split.grouped ⟨rfl, .closing rfl⟩)).part before
      fun q _ before => ?_
    exact (Gives.expect before rfl).one before fun _ _ _ => .pure
  exact list

end Groups

/-! ## Postfix operators -/

section Postfix

variable {flag : Bool} {levels : Nat} {e : Expr} {toks : List Token}

/-- A token of the same line does not end the loop. -/
theorem Before.goesOn {t : Token} {more rest : List Token} {p : Parser}
    (before : Before flag levels (t :: more) rest p) (sameLine : t.nlBefore = false) :
    pNlTerm p = .ok (false, p) := by
  refine pNlTerm_no before.running (not_breaks_of_sameLine ?_)
  rwa [before.tok]

theorem Spine.call (spine : Spine flag levels toks e) {args : List Arg}
    {items : List (List Token)}
    (each : Items (·.arg) false levels EndsItem OpensExpr args items) :
    Spine flag levels (toks ++ inParens (commaSep items)) (.call e args) := by
  refine spine.postfix (by simp [sym, symOn]) ?_
  have parenthesized : Parses (·.callArgs) args flag levels (inParens (commaSep items)) _ :=
    callArgs_parses each
  refine Filter.Eventually.mono parenthesized fun n holds p rest before => ?_
  refine .here (before.goesOn rfl) (.here (pAt_yes before.kind) ?_)
  exact (holds p rest before trivial).map

theorem Spine.index (spine : Spine flag levels toks e) {pw inner : Nat} {key : Expr}
    {keyToks : List Token} (printed : Printed false pw inner keyToks key)
    (same : opened false keyToks = keyToks) (le : inner + 1 ≤ levels) :
    Spine flag levels (toks ++ inBrackets keyToks) (.index e key) := by
  refine spine.postfix (by simp [sym, symOn]) ?_
  have key := (same ▸ printed.expr false).weaken le fun _ _ follows => follows
  refine Filter.Eventually.mono key fun n holds p rest before => ?_
  refine .here (before.goesOn rfl) ?_
  refine .here (pAt_no (by rw [before.kind]; decide)) (.here (pAt_yes before.kind) ?_)
  refine (Gives.bump before (by decide)).one before fun q _ before => ?_
  refine (Gives.grouped (holds _ _ before.split.grouped (.closing rfl))).part before
    fun q _ before => ?_
  exact (Gives.expect before rfl).one before fun _ _ _ => .pure

theorem Spine.member (spine : Spine flag levels toks e) {name : CString} (isMember : IsMember name) :
    Spine flag levels (toks ++ [sym .dot, word name]) (.member e name) := by
  refine spine.postfix (by simp [sym, symOn]) (.of_forall fun n p rest before => ?_)
  refine .here (before.goesOn rfl) ?_
  refine .here (pAt_no (by rw [before.kind]; decide)) ?_
  refine .here (pAt_no (by rw [before.kind]; decide)) (.here (pAt_yes before.kind) ?_)
  refine (Gives.bump before (by decide)).one before fun q _ before => ?_
  refine Gives.map (f := fun name => Turn.again (Expr.member e name)) ?_
  refine .here (pTok_at before) ?_
  rw [if_pos (show isMemberName (word name).kind = true from isMember)]
  refine (Gives.bump before fun here => ?_).one before fun _ _ _ => .pure
  have named : isMemberName (wordKind name) = true := isMember
  rw [show wordKind name = .eof from here] at named
  cases named

theorem Spine.question (spine : Spine flag levels toks e) :
    Spine flag levels (toks ++ [sym .question]) (.question e) := by
  refine spine.postfix (by simp [sym, symOn]) (.of_forall fun n p rest before => ?_)
  refine .here (before.goesOn rfl) ?_
  refine .here (pAt_no (by rw [before.kind]; decide)) ?_
  refine .here (pAt_no (by rw [before.kind]; decide)) ?_
  refine .here (pAt_no (by rw [before.kind]; decide)) (.here (pAt_yes before.kind) ?_)
  exact (Gives.bump before (by decide)).one before fun _ _ _ => .pure

end Postfix

/-! ## Primaries -/

section Primaries

variable {flag : Bool} {levels : Nat}

theorem lit_spine (literal : Lit) : Spine flag levels [litToken literal] (.lit literal) := by
  refine .of_primary ⟨_, _, rfl, rfl⟩ fun nl => ?_
  refine .call parsePrimary (fun _ => rfl) (.of_forall fun n p rest before _ => ?_)
  have before : Before flag levels [symOn nl (.lit literal)] rest p := before
  refine .here (pTok_at before) ?_
  exact (Gives.literal before rfl).one before fun _ _ _ => .pure

theorem primaryByToken_ident {r : Parsers} {t : Token} (isIdent : t.kind = .ident) :
    primaryByToken r t = r.identPrimary t := by
  simp only [primaryByToken, isIdent]

/-- A primary that opens with an identifier. -/
theorem ident_spine {name : CString} (isIdent : IsIdent name) {e : Expr} {more : List Token}
    (parses : ∀ nl, Parses (fun r => parseIdentPrimary r (wordOn nl name)) e flag levels
      (wordOn nl name :: more) fun _ => NoRecord flag) : Spine flag levels (word name :: more) e := by
  refine .of_primary ⟨_, _, rfl, ?_⟩ fun nl => ?_
  · rw [Parse.word, isIdent.kind]
    rfl
  · refine Parses.primary (t := wordOn nl name) (fun l here => ?_) ?_
    · rw [isIdent.kind] at here
      cases here
    · have called : Parses (fun r => r.identPrimary (wordOn nl name)) e flag levels
          (wordOn nl name :: more) fun _ => NoRecord flag :=
        .call (fun r => parseIdentPrimary r (wordOn nl name)) (fun _ => rfl) (parses nl)
      refine Filter.Eventually.mono called fun n holds p rest before follows => ?_
      change Gives (primaryByToken (parsers n) (wordOn nl name)) _ _ p
      rw [primaryByToken_ident (isIdent.kind nl)]
      exact holds p rest before follows

/-- An applied constructor. -/
theorem ctor_spine {name : CString} (isIdent : IsIdent name) {ctor : Expr → Expr}
    (known : ctorForName name = some ctor) {pw inner : Nat} {payload : Expr} {toks : List Token}
    (printed : Printed false pw inner toks payload) (same : opened false toks = toks)
    (le : inner + 1 ≤ levels) : Spine flag levels (word name :: inParens toks) (ctor payload) := by
  refine ident_spine isIdent fun nl => ?_
  have payload := (same ▸ printed.expr false).weaken le fun _ _ follows => follows
  refine Filter.Eventually.mono payload fun n holds p rest before _ => ?_
  refine .here (pKind2_at before) ?_
  have text : (wordOn nl name).text = name := rfl
  rw [text, known]
  simp only
  rw [if_pos (show (next (inParens toks ++ rest)).kind = .lparen from rfl)]
  refine (Gives.bump before (isIdent.real nl)).one before fun q _ before => ?_
  refine (Gives.bump before (by decide)).one before fun q _ before => ?_
  refine (Gives.grouped (holds _ _ before.split.grouped (.closing rfl))).part before
    fun q _ before => ?_
  exact (Gives.expect before rfl).one before fun _ _ _ => .pure

/-- A primary that opens with an identifier that is no constructor with an argument. -/
theorem name_spine {name : CString} (isIdent : IsIdent name) (noCtor : ctorForName name = none)
    {e : Expr} {more : List Token}
    (parses : ∀ nl, Parses (fun r => parseName r (wordOn nl name)) e flag levels
      (wordOn nl name :: more) fun _ => NoRecord flag) : Spine flag levels (word name :: more) e := by
  refine ident_spine isIdent fun nl => ?_
  refine Filter.Eventually.mono (parses nl) fun n holds p rest before follows => ?_
  refine .here (pKind2_at before) ?_
  have text : (wordOn nl name).text = name := rfl
  rw [text, noCtor]
  exact holds p rest before follows

theorem none_spine : Spine flag levels [word (ascii "None")] .none := by
  refine name_spine none_isIdent rfl fun nl => .of_forall fun n p rest before _ => ?_
  refine .here (pKind2_at before) ?_
  rw [if_pos (show (wordOn nl (ascii "None")).text = ascii "None" from rfl)]
  exact (Gives.bump before (none_isIdent.real nl)).one before fun _ _ _ => .pure

theorem mapNew_spine {args : List TypeNode} (spelled : TypesSpelled args)
    (le : typeLevels (.named (ascii "Map") args) ≤ levels) :
    Spine flag levels (mapToks (.named (ascii "Map") args))
      (.mapNew (.named (ascii "Map") args)) := by
  refine name_spine map_isIdent rfl fun nl => ?_
  rw [typeLevels] at le
  have named : Parses (·.type) (.named (ascii "Map") args) flag (1 + typesLevels args)
      (wordOn nl (ascii "Map") :: sym .lt :: (commaSep (typesToks args) ++ [sym .gt])) _ :=
    appliedType_parses map_isIdent (types_parse flag _ args spelled (Nat.le_refl _))
  refine Filter.Eventually.mono named fun n holds p rest before _ => ?_
  have before : Before flag levels ((wordOn nl (ascii "Map") :: sym .lt ::
      (commaSep (typesToks args) ++ [sym .gt])) ++ [sym .lparen, sym .rparen]) rest p := by
    simpa using before
  have text : (wordOn nl (ascii "Map")).text = ascii "Map" := rfl
  refine .here (pKind2_at before) ?_
  rw [text, if_neg (by decide), if_pos ⟨rfl, rfl⟩]
  refine ((holds p _ (before.split.mono le) trivial).part before fun q _ before => ?_).cast
    (by simp)
  refine (Gives.expect before rfl).one before fun q _ before => ?_
  exact (Gives.expect before rfl).one before fun _ _ _ => .pure

theorem IsName.noCtor {name : CString} (isName : IsName name) : ctorForName name = none := by
  have notBuiltin := isName.2
  simp only [builtinNames, List.mem_cons, not_or] at notBuiltin
  simp [ctorForName, notBuiltin]

theorem IsName.ne_none {name : CString} (isName : IsName name) : name ≠ ascii "None" := by
  rintro rfl
  exact isName.2 (by simp [builtinNames])

theorem IsName.ne_map {name : CString} (isName : IsName name) : name ≠ ascii "Map" := by
  rintro rfl
  exact isName.2 (by simp [builtinNames])

/-- A name that no brace follows, or that one follows where none is read. -/
theorem name_gives {name : CString} (isName : IsName name) {r : Parsers} {nl : Bool} {p : Parser}
    {rest : List Token} (before : Before flag levels [wordOn nl name] rest p)
    (follows : NoRecord flag (next rest)) :
    Gives (parseName r (wordOn nl name)) (.ident name) [wordOn nl name] p := by
  refine .here (pKind2_at before) ?_
  have text : (wordOn nl name).text = name := rfl
  rw [text, if_neg isName.ne_none, if_neg fun isMap => isName.ne_map isMap.1]
  refine (Gives.bump before (isName.1.real nl)).one before fun q _ before => ?_
  refine .here (m := pAt .lbrace) rfl (.here (m := pNoRecord) rfl (.here (m := pNlHere) rfl ?_))
  rw [if_neg]
  · exact .pure
  · rintro ⟨brace, allowed, sameLine⟩
    rw [before.noRecord] at allowed
    have sameLine : q.tok.nlBefore = false := sameLine
    rw [before.tok_of_nil] at sameLine
    have brace : q.kind = .lbrace := of_decide_eq_true brace
    rw [before.kind_of_nil] at brace
    rw [follows allowed brace] at sameLine
    cases sameLine

theorem name_ident_spine {name : CString} (isName : IsName name) :
    Spine flag levels [word name] (.ident name) :=
  name_spine isName.1 isName.noCtor fun _ => .of_forall fun _ _ _ before follows =>
    name_gives isName before follows

theorem mut_spine {pw inner : Nat} {operand : Expr} {toks : List Token}
    (printed : Printed false pw inner toks operand) (same : opened false toks = toks)
    (le : inner + 1 ≤ levels) :
    Spine flag levels (sym (.kw .mut) :: inParens toks) (.mut operand) := by
  refine .of_primary ⟨_, _, rfl, rfl⟩ fun nl => ?_
  refine Parses.primary (t := symOn nl (.kw .mut)) (fun _ here => by cases here) ?_
  have inside := (same ▸ printed.expr false).weaken le fun _ _ follows => follows
  have mutExpr : Parses (·.mutExpr) (.mut operand) flag levels
      (symOn nl (.kw .mut) :: inParens toks) fun _ => NoRecord flag := by
    refine .call parseMutExpr (fun _ => rfl) ?_
    refine Filter.Eventually.mono inside fun n holds p rest before _ => ?_
    refine (Gives.bump before (by simp [symOn])).one before fun q _ before => ?_
    refine (Gives.expect before rfl).one before fun q _ before => ?_
    refine (Gives.grouped (holds _ _ before.split.grouped (.closing rfl))).part before
      fun q _ before => ?_
    exact (Gives.expect before rfl).one before fun _ _ _ => .pure
  exact mutExpr

end Primaries

/-! ## Record literals -/

section Records

variable {flag : Bool} {levels : Nat}

theorem recordField_parses {name : CString} (isIdent : IsIdent name) {pw inner : Nat} {value : Expr}
    {toks : List Token} (printed : Printed false pw inner toks value)
    (same : opened false toks = toks) (le : inner + 1 ≤ levels) :
    Parses recordField (.mk name value) flag levels (word name :: sym .colon :: toks)
      (EndsExpr false 0) := by
  have inside := (same ▸ printed.expr false).weaken le fun _ _ follows => follows
  refine Filter.Eventually.mono inside fun n holds p rest before follows => ?_
  refine (Gives.ident before isIdent rfl).one before fun q group before => ?_
  refine (Gives.expect before rfl).one before fun q group' before => ?_
  refine (Gives.flagged (f := fun value => pure (Field.mk name value))
    (holds _ rest (before.reflag false) ?_) fun q _ => .pure).cast (List.append_nil _)
  rw [group', group]
  exact follows

theorem fieldsGoOn :
    KeepsGoing (ask fun p => p.atEnd || decide (p.kind = .rbrace)) (· = .ident) := by
  intro p running isIdent
  have isIdent : p.kind = .ident := isIdent
  change Except.ok (p.hitDepthLimit || decide (p.kind = .eof) || decide (p.kind = .rbrace), p) = _
  rw [running, isIdent]
  rfl

theorem recordLit_spine {name : CString} (isName : IsName name) {fields : List Field}
    {toks : List (List Token)}
    (each : Items recordField false levels (EndsExpr false 0) (· = .ident) fields toks) :
    Spine false levels (word name :: inBraces (commaSep toks)) (.recordLit name fields) := by
  refine name_spine isName.1 isName.noCtor fun nl => ?_
  have listed : Parses _ fields false levels (commaSep toks) _ :=
    each.commaList .rbrace fieldsGoOn (fun _ => .closing rfl) (by decide) (by decide)
  have literal : Parses (fun r => r.recordLit name) (.recordLit name fields) false levels
      (inBraces (commaSep toks)) fun _ _ => True := by
    refine .call (fun r => parseRecordLit r name) (fun _ => rfl) ?_
    refine listed.mono fun n holds p rest before _ => ?_
    refine (Gives.bump before (by decide)).one before fun q _ before => ?_
    refine Gives.inBrace (holds _ _ (before.regroup 0).split ⟨rfl, .closing rfl⟩) fun q reads => ?_
    have closing := before.after reads
    exact (Gives.expect closing rfl).one closing fun _ _ _ => .pure
  refine Filter.Eventually.mono literal fun n holds p rest before _ => ?_
  refine .here (pKind2_at before) ?_
  have text : (wordOn nl name).text = name := rfl
  rw [text, if_neg isName.ne_none, if_neg fun isMap => isName.ne_map isMap.1]
  refine (Gives.bump before (isName.1.real nl)).one before fun q _ before => ?_
  refine .here (m := pAt .lbrace) rfl (.here (m := pNoRecord) rfl (.here (m := pNlHere) rfl ?_))
  rw [if_pos]
  · exact holds q rest before trivial
  · refine ⟨decide_eq_true before.kind, before.noRecord, ?_⟩
    change q.tok.nlBefore = false
    rw [before.tok]
    rfl

end Records

/-! ## Operators -/

section Operators

variable {flag : Bool} {pw levels : Nat}

theorem Printed.prefixed {op : UnOp} {operand : Expr} {toks : List Token}
    (printed : Printed flag pw levels toks operand) (tight : 70 ≤ pw)
    (same : opened false toks = toks) :
    Printed flag 70 (1 + levels) (sym (unopKind op) :: toks) (.unary op operand) := by
  have unary : ∀ nl, Parses (·.unary) (.unary op operand) flag (1 + levels)
      (opened nl (sym (unopKind op) :: toks)) (EndsUnary flag) := by
    intro nl
    rw [Nat.add_comm]
    refine .call parseUnary (fun _ => rfl) (.underCeiling ?_)
    refine .call parseUnaryInner (fun _ => rfl) ?_
    have inside := same ▸ printed.unary tight false
    refine Filter.Eventually.mono inside fun n holds p rest before follows => ?_
    have before : Before flag levels (symOn nl (unopKind op) :: toks) rest p := before
    refine .here (pKind_at before) ?_
    have known : unopForKind (symOn nl (unopKind op)).kind = some op := by cases op <;> rfl
    rw [known]
    have real : (symOn nl (unopKind op)).kind ≠ .eof := by cases op <;> simp [symOn, unopKind]
    refine (Gives.bump before real).one before fun q group before => ?_
    exact (holds q rest before (by rwa [group])).map
  exact ⟨fun nl => chainLeads_of_unary (unary nl), fun _ => unary, fun above => by omega⟩

theorem binop_found (op : BinOp) : binopForKind (sym (binopKind op)).kind = some op := by
  cases op <;> rfl

/-- The loop goes on at an operator that is no tighter than the operand before it. -/
theorem endsExpr_binop {op : BinOp} {g : Nat} (tight : binLbp op ≤ pw) :
    EndsExpr flag (pw + 1) g (sym (binopKind op)) := by
  refine ⟨⟨fun _ brace => ?_, .inr (by cases op <;> rfl)⟩, .inr fun op' found => ?_⟩
  · cases op <;> cases brace
  · rw [binop_found op] at found
    cases found
    exact Nat.lt_succ_of_le tight

theorem binLbp_le (op : BinOp) : binLbp op ≤ 60 := by
  cases op <;> decide

theorem Printed.infixed {op : BinOp} {left right : Expr} {first second : List Token}
    {pw' levels' : Nat} (lhs : Printed flag pw levels first left)
    (rhs : Printed flag pw' levels' second right) (tight : binLbp op ≤ pw)
    (tight' : binLbp op + 1 ≤ pw') (start : ∀ nl others, opened nl (first ++ others) =
      opened nl first ++ others) (same : opened false second = second) :
    Printed flag (binLbp op) (max levels (1 + levels')) (first ++ sym (binopKind op) :: second)
      (.binary op left right) := by
  have loose := binLbp_le op
  refine ⟨fun nl => ?_, fun above => by omega, fun above => by omega⟩
  have operand := same ▸ rhs.bin false tight'
  filter_upwards [lhs.chain nl, operand] with n leads holds m p rest le before follows
  rw [start] at before ⊢
  have first := leads m p _ (Nat.le_trans le tight)
    (before.split.mono (Nat.le_max_left _ _)) (endsExpr_binop tight)
  refine first.trans fun q reads => .again ?_ (List.cons_ne_nil _ _)
  have before := before.after reads
  have group := reads.groupDepth
  refine .here (before.goesOn rfl) (.here (pKind_at before) ?_)
  rw [binop_found op]
  simp only [if_neg (Nat.not_lt.mpr le)]
  refine (Gives.bump before (by cases op <;> decide)).one before fun q' group' before => ?_
  refine (holds q' rest (before.mono ?_) ?_).map
  · rw [Nat.add_comm]
    exact Nat.le_max_right _ _
  · rw [group', group]
    exact follows

end Operators

/-! ## Lines -/

/-- What may follow a line of a braced body: the next line, as lines of this body open, or
the closing brace. -/
def EndsBody (opener : Kind → Prop) (g : Nat) (t : Token) : Prop :=
  g = 0 ∧ ((t.nlBefore = true ∧ opener t.kind) ∨ t.kind = .rbrace)

/-- What may follow a statement or an arm: a line that is no `else`, or the brace. -/
abbrev EndsLine : Nat → Token → Prop := EndsBody (· ≠ .kw .else_)

theorem EndsLine.expr {flag : Bool} {m g : Nat} {t : Token} (ends : EndsLine g t) :
    EndsExpr flag m g t := by
  obtain ⟨outside, newLine | brace⟩ := ends
  · have breaks : Breaks g t := ⟨outside, newLine.1⟩
    exact ⟨⟨fun _ _ => newLine.1, .inl breaks⟩, .inl breaks⟩
  · exact .closing (by rw [brace]; rfl)

/-- A separator stands before the token: the end, a closing brace or a new line. -/
def EndsSep (g : Nat) (t : Token) : Prop := t.kind = .eof ∨ t.kind = .rbrace ∨ Breaks g t

theorem EndsBody.sep {opener : Kind → Prop} {g : Nat} {t : Token} (ends : EndsBody opener g t) :
    EndsSep g t :=
  ends.2.elim (fun newLine => .inr (.inr ⟨ends.1, newLine.1⟩)) fun brace => .inr (.inl brace)

theorem pSep_gives {p : Parser} (ends : EndsSep p.groupDepth p.tok) (msg : String) :
    Gives (pSep msg) () [] p := by
  by_cases eof : p.kind = .eof
  · exact .here (pAt_yes eof) .pure
  refine .here (pAt_no eof) ?_
  by_cases brace : p.kind = .rbrace
  · exact .here (pAt_yes brace) .pure
  refine .here (pAt_no brace) ?_
  exact .here (pNlTerm_yes ((ends.resolve_left eof).resolve_left brace)) .pure

/-- What is read before a separator. -/
theorem Gives.sep {α β : Type} {flag : Bool} {levels : Nat} {m : P α} {a : α} {f : α → β}
    {toks rest : List Token} {p : Parser} (given : Gives m a toks p)
    (before : Before flag levels toks rest p) (ends : EndsSep p.groupDepth (next rest))
    (msg : String) :
    Gives (do
      let a ← m
      pSep msg
      return f a) (f a) toks p := by
  refine (given.bind fun q reads => ?_).cast (List.append_nil _)
  have behind := before.done reads
  refine (pSep_gives ?_ msg).bind fun _ _ => .pure
  rwa [reads.groupDepth, behind.tok_of_nil]

section Lines

variable {α : Type} {element : List α → P (List α)} {flag : Bool} {levels : Nat}
  {opener : Kind → Prop}

/-- A line of a braced body: it is read back, and it opens as one does. -/
structure LineOf (opener : Kind → Prop) (element : List α → P (List α)) (flag : Bool)
    (levels : Nat) (a : α) (toks : List Token) : Prop where
  gives : ∀ seen p rest, Before flag levels toks rest p →
    EndsBody opener p.groupDepth (next rest) → Gives (element seen) (seen ++ [a]) toks p
  opens : ∃ t more, toks = t :: more ∧ t.nlBefore = true ∧ t.kind ≠ .rbrace ∧ t.kind ≠ .eof ∧
    opener t.kind

/-- A line of a block or of the arms of a match. -/
abbrev Line : (List α → P (List α)) → Bool → Nat → α → List Token → Prop :=
  LineOf (· ≠ .kw .else_)

theorem guardProgress_gives {p : Parser} {before : Nat} (moved : p.pos ≠ before) (ctx : String) :
    Gives (pGuardProgress before ctx) () [] p := by
  refine .here (m := ask Parser.pos) rfl ?_
  rw [if_neg moved]
  exact .pure

/-- A turn over an element that is read back. -/
theorem bodyTurn_gives {β : Type} {element : β → P β} {b b' : β} {t : Token}
    {more rest : List Token} {p : Parser} (given : Gives (element b) b' (t :: more) p)
    (before : Before flag levels (t :: more) rest p) (notBrace : t.kind ≠ .rbrace)
    (real : t.kind ≠ .eof) (ctx : String) :
    Gives (bodyTurn ctx element b) (.again b') (t :: more) p := by
  refine .here (pAt_no (by rwa [before.kind])) ?_
  have goes : pAtEnd p = .ok (false, p) := by
    change Except.ok (p.hitDepthLimit || decide (p.kind = .eof), p) = _
    rw [before.running, decide_eq_false (by rwa [before.kind])]
    rfl
  refine .here goes (.here (m := ask Parser.pos) rfl ?_)
  refine (given.bind fun q reads => ?_).cast (List.append_nil _)
  have moved : q.pos ≠ p.pos := by
    rw [reads.pos, List.length_cons]
    omega
  exact (guardProgress_gives moved ctx).bind fun _ _ => .pure

theorem LineOf.turn {a : α} {toks rest : List Token}
    (line : LineOf opener element flag levels a toks) (ctx : String) (seen : List α) (p : Parser)
    (before : Before flag levels toks rest p) (ends : EndsBody opener p.groupDepth (next rest)) :
    Gives (bodyTurn ctx element seen) (.again (seen ++ [a])) toks p := by
  have given := line.gives seen p rest before ends
  obtain ⟨t, more, rfl, -, notBrace, real, -⟩ := line.opens
  exact bodyTurn_gives given before notBrace real ctx

/-- The lines of a braced body are read back one after the other. -/
theorem bodyLoop_gives {items : List α} {toks : List (List Token)}
    (each : List.Forall₂ (LineOf opener element flag levels) items toks) (ctx : String) (seen : List α)
    (p : Parser) (rest : List Token) (before : Before flag levels toks.flatten rest p)
    (outside : p.groupDepth = 0) (closes : (next rest).kind = .rbrace) :
    Gives (bodyLoop ctx element seen) (seen ++ items) toks.flatten p := by
  induction each generalizing seen p with
  | nil =>
      have here : p.kind = .rbrace := before.kind_of_nil.trans closes
      rw [List.append_nil]
      exact .loop_stop (.here (pAt_yes here) .pure)
  | @cons a ts items tss line each ih =>
      rw [List.flatten_cons] at before ⊢
      have follows : EndsBody opener p.groupDepth (next (tss.flatten ++ rest)) := by
        refine ⟨outside, ?_⟩
        cases each with
        | nil => exact .inr closes
        | cons line' each =>
            obtain ⟨t, more, rfl, newLine, -, -, opens⟩ := line'.opens
            exact .inl ⟨newLine, opens⟩
      have turned := line.turn ctx seen p before.split follows
      obtain ⟨t, more, same, -⟩ := line.opens
      refine (Leads.again turned (by simp [same])).gives fun q reads => ?_
      have done := ih (seen ++ [a]) q (before.after reads) (reads.groupDepth.trans outside)
      rwa [List.append_assoc] at done

/-- With room enough, the lines are read back. -/
def LinesOf (opener : Kind → Prop) (element : Parsers → List α → P (List α)) (flag : Bool)
    (levels : Nat) (items : List α) (toks : List (List Token)) : Prop :=
  ∀ᶠ n in atTop, List.Forall₂ (LineOf opener (element (parsers n)) flag levels) items toks

/-- The lines of a block or of the arms of a match. -/
abbrev Lines : (Parsers → List α → P (List α)) → Bool → Nat → List α → List (List Token) → Prop :=
  LinesOf (· ≠ .kw .else_)

theorem expectClose_gives {rest : List Token} {p : Parser}
    (before : Before flag levels [sym .rbrace] rest p) (eofMsg : String) :
    Gives (pExpectClose eofMsg) () [sym .rbrace] p :=
  (Gives.eat before rfl).one before fun _ _ _ => .pure

end Lines

/-! ## Blocks and matches -/

/-- One statement of a block, with its separator. -/
def blockElement (r : Parsers) (stmts : List Stmt) : P (List Stmt) := do
  let s ← r.stmt
  pSep "expected a newline after the statement"
  return stmts ++ [s]

/-- One arm of a match. -/
def matchElement (r : Parsers) (arms : List Arm) : P (List Arm) := do
  let arm ← matchArm r
  return arms ++ [arm]

section Blocks

variable {flag : Bool} {levels : Nat}

theorem block_parses {stmts : List Stmt} {toks : List (List Token)}
    (each : Lines blockElement flag levels stmts toks) :
    Parses (·.block) stmts flag (1 + levels) (inBraces toks.flatten) fun _ _ => True := by
  rw [Nat.add_comm]
  refine .call parseBlock (fun _ => rfl) (.underCeiling ?_)
  refine each.mono fun n each p rest before _ => ?_
  refine (Gives.expect before rfl).one before fun q _ before => ?_
  have inside : Gives (bodyLoop "unexpected token in the block" (blockElement (parsers n)) [])
      ([] ++ stmts) toks.flatten { q with groupDepth := 0 } :=
    bodyLoop_gives each _ [] _ _ (before.regroup 0).split rfl rfl
  refine Gives.inBrace inside fun q reads => ?_
  have closing := before.after reads
  exact (expectClose_gives closing _).one closing fun _ _ _ => .pure

/-- A match is read back. -/
theorem match_spine {pw inner : Nat} {scrutinee : Expr} {header : List Token} {arms : List Arm}
    {toks : List (List Token)} (printed : Printed true pw inner header scrutinee)
    (same : opened false header = header) (le : inner + 1 ≤ levels)
    (each : Lines matchElement flag levels arms toks) :
    Spine flag levels (sym (.kw .match_) :: (header ++ inBraces toks.flatten))
      (.matchOn scrutinee arms) := by
  refine .of_primary ⟨_, _, rfl, rfl⟩ fun nl => ?_
  refine Parses.primary (t := symOn nl (.kw .match_)) (fun _ here => by cases here) ?_
  have scrut : Parses (·.exprNoRecord) scrutinee flag (inner + 1) header _ :=
    same ▸ printed.exprNoRecord false
  have matched : Parses (·.matchExpr) (.matchOn scrutinee arms) flag levels
      (symOn nl (.kw .match_) :: (header ++ inBraces toks.flatten)) fun _ => NoRecord flag := by
    refine .call parseMatchExpr (fun _ => rfl) ?_
    filter_upwards [scrut, each] with n scrut each p rest before _
    refine (Gives.bump before (by simp [symOn])).one before fun q _ before => ?_
    refine (scrut q _ (before.split.mono le) .brace).part before fun q _ before => ?_
    refine (Gives.expect before rfl).one before fun q _ before => ?_
    have inside : Gives (bodyLoop "unexpected token in the match arms" (matchElement (parsers n)) [])
        ([] ++ arms) toks.flatten { q with groupDepth := 0 } :=
      bodyLoop_gives each _ [] _ _ (before.regroup 0).split rfl rfl
    refine Gives.inBrace inside fun q reads => ?_
    have closing := before.after reads
    exact (expectClose_gives closing _).one closing fun _ _ _ => .pure
  exact matched

/-- The pattern of an arm, with its arrow. -/
theorem armHead_gives {r : Parsers} {pat : PatternNode} {toks more rest : List Token} {p : Parser}
    {β : Type} {f : PatternNode → P β} {b : β}
    (pattern : ∀ p rest, Before flag levels toks rest p → EndsPat p.groupDepth (next rest) →
      Gives r.pattern pat toks p)
    (before : Before flag levels (toks ++ sym .arrow :: more) rest p)
    (tail : ∀ q, q.groupDepth = p.groupDepth → Before flag levels more rest q →
      Gives (f pat) b more q) :
    Gives (do
      let pat ← r.pattern
      armArrow
      f pat) b (toks ++ sym .arrow :: more) p := by
  refine (pattern p _ before.split (by simp [EndsPat, next, sym, symOn])).part before
    fun q group before => ?_
  have arrow : Gives armArrow () [sym .arrow] q := (Gives.eat before rfl).bind fun _ _ => .pure
  exact arrow.one before fun q' group' before => tail q' (group'.trans group) before

theorem armBlock_gives {r : Parsers} {pat : PatternNode} {body : List Stmt}
    {toks block rest : List Token} {p : Parser}
    (pattern : ∀ p rest, Before flag levels toks rest p → EndsPat p.groupDepth (next rest) →
      Gives r.pattern pat toks p)
    (blocks : ∀ p rest, Before flag levels (inBraces block) rest p →
      Gives r.block body (inBraces block) p)
    (before : Before flag levels (toks ++ sym .arrow :: inBraces block) rest p)
    (ends : EndsLine p.groupDepth (next rest)) :
    Gives (matchArm r) (.block pat body) (toks ++ sym .arrow :: inBraces block) p := by
  refine armHead_gives pattern before fun q group before => ?_
  refine .here (pAt_yes before.kind) ?_
  exact (blocks q rest before).sep before (by rw [group]; exact ends.sep) _

theorem armExpr_gives {r : Parsers} {pat : PatternNode} {body : Expr}
    {toks value rest : List Token} {p : Parser}
    (pattern : ∀ p rest, Before flag levels toks rest p → EndsPat p.groupDepth (next rest) →
      Gives r.pattern pat toks p)
    (item : Item r.expr flag levels (EndsExpr flag 0) OpensExpr body value)
    (before : Before flag levels (toks ++ sym .arrow :: value) rest p)
    (ends : EndsLine p.groupDepth (next rest)) :
    Gives (matchArm r) (.expr pat body) (toks ++ sym .arrow :: value) p := by
  refine armHead_gives pattern before fun q group before => ?_
  refine .here (pAt_no ((item.kind before).ne rfl)) ?_
  have given := item.gives q rest before (by rw [group]; exact ends.expr)
  exact given.sep before (by rw [group]; exact ends.sep) _

end Blocks

/-! ## Statements -/

section Statements

variable {flag : Bool} {levels : Nat}

theorem Gives.eatKw {w : Keyword} {t : Token} {toks rest : List Token} {p : Parser}
    (before : Before flag levels (t :: toks) rest p) (same : t.kind = .kw w) :
    Gives (pEatKw w) true [t] p := by
  refine .here (pAt_yes (k := .kw w) (before.kind.trans same)) ?_
  exact (Gives.bump before (by rw [same]; exact fun here => by cases here)).map

theorem Gives.expectKw {w : Keyword} {what : String} {t : Token} {toks rest : List Token}
    {p : Parser} (before : Before flag levels (t :: toks) rest p) (same : t.kind = .kw w) :
    Gives (pExpectKw w what) () [t] p :=
  (Gives.eatKw before same).bind fun _ _ => .pure

/-- The statement that a token of kind `k` opens. -/
def stmtByKind (r : Parsers) (k : Kind) : P Stmt :=
  match k with
  | .kw .let_ => r.letStmt
  | .kw .return_ => r.returnStmt
  | .kw .if_ => r.ifStmt
  | .kw .while_ => r.whileStmt
  | .kw .for_ => r.forStmt
  | .kw .break_ => pBump >>= fun _ => pure .brk
  | .kw .continue_ => pBump >>= fun _ => pure .cont
  | _ => exprStmt r

theorem parseStmt_eq (r : Parsers) (p : Parser) : parseStmt r p = stmtByKind r p.kind p := rfl

theorem stmtByKind_of_opens {r : Parsers} {k : Kind} (opens : OpensExpr k) :
    stmtByKind r k = exprStmt r := by
  cases k with
  | kw w => cases w <;> first | rfl | cases opens
  | _ => rfl

/-- A statement is what its first token opens. -/
theorem stmt_parses {s : Stmt} {t : Token} {more : List Token}
    (parses : Parses (fun r => stmtByKind r t.kind) s flag levels (t :: more) EndsLine) :
    Parses (·.stmt) s flag levels (t :: more) EndsLine := by
  refine .call parseStmt (fun _ => rfl) ?_
  refine Filter.Eventually.mono parses fun n holds p rest before follows => ?_
  obtain ⟨a, q, runs, reads⟩ := holds p rest before follows
  refine ⟨a, q, ?_, reads⟩
  rw [parseStmt_eq, before.kind]
  exact runs

/-- A statement that opens with an expression. -/
theorem exprStmt_parses {s : Stmt} {toks : List Token} (opens : ∃ t more, toks = t :: more ∧
    OpensExpr t.kind) (parses : Parses exprStmt s flag levels toks EndsLine) :
    Parses (·.stmt) s flag levels toks EndsLine := by
  obtain ⟨t, more, rfl, opens⟩ := opens
  refine stmt_parses ?_
  rw [funext fun r => stmtByKind_of_opens (r := r) opens]
  exact parses

theorem brk_parses : Parses (·.stmt) .brk flag levels [symOn true (.kw .break_)] EndsLine := by
  refine stmt_parses (.of_forall fun n p rest before _ => ?_)
  exact (Gives.bump before (by decide)).one before fun _ _ _ => .pure

theorem cont_parses : Parses (·.stmt) .cont flag levels [symOn true (.kw .continue_)] EndsLine := by
  refine stmt_parses (.of_forall fun n p rest before _ => ?_)
  exact (Gives.bump before (by decide)).one before fun _ _ _ => .pure

/-- An expression on a line of its own. -/
theorem expr_stmt_parses {value : Expr} {toks : List Token} (opens : ∃ t more, toks = t :: more ∧
    OpensExpr t.kind) (expr : Parses (·.expr) value flag levels toks (EndsExpr flag 0)) :
    Parses (·.stmt) (.expr value) flag levels toks EndsLine := by
  refine exprStmt_parses opens (Filter.Eventually.mono expr fun n holds p rest before follows => ?_)
  refine ((holds p rest before follows.expr).bind fun q reads => ?_).cast (List.append_nil _)
  have behind := before.done reads
  have ends : EndsLine q.groupDepth q.tok := by rwa [reads.groupDepth, behind.tok_of_nil]
  by_cases breaks : Breaks q.groupDepth q.tok
  · exact .here (pNlTerm_yes breaks) .pure
  · refine .here (pNlTerm_no behind.running breaks) ?_
    have brace : q.kind = .rbrace := ends.2.resolve_left fun newLine => breaks ⟨ends.1, newLine.1⟩
    exact (Gives.eatNot (by rw [brace]; decide)).bind fun _ _ => .pure

theorem assign_parses {target value : Expr} {toks toks' : List Token} (opens : ∃ t more,
    toks = t :: more ∧ OpensExpr t.kind)
    (lvalue : Parses (·.expr) target flag levels toks (EndsExpr flag 0))
    (rvalue : Parses (·.expr) value flag levels toks' (EndsExpr flag 0)) :
    Parses (·.stmt) (.assign target value) flag levels (toks ++ sym .assign :: toks') EndsLine := by
  refine exprStmt_parses ?_ ?_
  · obtain ⟨t, more, rfl, opens⟩ := opens
    exact ⟨t, _, rfl, opens⟩
  · filter_upwards [lvalue, rvalue] with n lvalue rvalue p rest before follows
    refine (lvalue p _ before.split (.closing rfl)).part before fun q group before => ?_
    refine .here (before.goesOn rfl) ?_
    refine (Gives.eat before rfl).one before fun q' group' before => ?_
    refine (rvalue q' rest before ?_).map
    rw [group', group]
    exact follows.expr

theorem ret_none_parses :
    Parses (·.stmt) (.ret none) flag levels [symOn true (.kw .return_)] EndsLine := by
  refine stmt_parses (.call (f := (·.returnStmt)) parseReturnStmt (fun _ => rfl) ?_)
  refine .of_forall fun n p rest before follows => ?_
  refine (Gives.bump before (by decide)).one before fun q group before => ?_
  have ends : EndsLine q.groupDepth q.tok := by rwa [group, before.tok_of_nil]
  by_cases brace : q.kind = .rbrace
  · exact .here (pAt_yes brace) .pure
  refine .here (pAt_no brace) ?_
  have newLine := ends.2.resolve_right brace
  refine .here (m := pAtEnd) rfl ?_
  by_cases eof : q.atEnd = true
  · rw [if_pos eof]
    exact .pure
  · rw [if_neg eof]
    exact .here (pNlTerm_yes ⟨ends.1, newLine.1⟩) .pure

theorem ret_some_parses {value : Expr} {toks : List Token} (opening : Opening toks)
    (expr : Parses (·.expr) value flag levels toks (EndsExpr flag 0)) :
    Parses (·.stmt) (.ret (some value)) flag levels (symOn true (.kw .return_) :: toks) EndsLine := by
  refine stmt_parses (.call (f := (·.returnStmt)) parseReturnStmt (fun _ => rfl) ?_)
  refine Filter.Eventually.mono expr fun n holds p rest before follows => ?_
  obtain ⟨t, more, rfl, opens, sameLine, -⟩ := opening
  refine (Gives.bump before (by simp [symOn])).one before fun q group before => ?_
  have opens : OpensExpr q.kind := by rwa [before.kind]
  refine .here (pAt_no (opens.ne rfl)) ?_
  refine .here (exprsGoOn q before.running opens) ?_
  refine .here (before.goesOn sameLine) ?_
  exact (holds q rest before (by rw [group]; exact follows.expr)).map

/-- A keyword that may be written or not, as `mut` and `transactional` may. -/
theorem optionalKw_gives {w : Keyword} {written : Bool} {more rest : List Token} {p : Parser}
    (other : ∃ t others, more = t :: others ∧ t.kind ≠ .kw w)
    (before : Before flag levels ((if written then [sym (.kw w)] else []) ++ more) rest p) :
    Gives (pEatKw w) written (if written then [sym (.kw w)] else []) p := by
  cases written with
  | true =>
      have before : Before flag levels (sym (.kw w) :: more) rest p := before
      exact Gives.eatKw before rfl
  | false =>
      obtain ⟨t, others, rfl, other⟩ := other
      have before : Before flag levels (t :: others) rest p := before
      exact .stays (pEatKw_not (by rwa [before.kind]))

/-- A declared type, or none. -/
theorem letType_leads {r : Parsers} {ty : Option TypeNode} {more rest : List Token} {p : Parser}
    {f : Option TypeNode → P Stmt}
    (declared : ∀ ty', ty = some ty' → ∀ p rest, Before flag levels (typeToks ty') rest p →
      EndsType p.groupDepth (next rest) → Gives r.type ty' (typeToks ty') p)
    (before : Before flag levels (letTypeToks ty ++ sym .assign :: more) rest p) :
    Leads (do
      let typed ← pEat .colon
      let ty ← optionally typed r.type
      f ty) (f ty) (letTypeToks ty) p := by
  cases ty with
  | none =>
      have before : Before flag levels (sym .assign :: more) rest p := before
      refine ⟨p, .refl p, (run_bind (pEat_not (by rw [before.kind]; decide))).trans ?_⟩
      exact run_bind (m := optionally false r.type) rfl
  | some ty =>
      have before : Before flag levels (sym .colon :: (typeToks ty ++ sym .assign :: more)) rest p :=
        before
      have colon : Gives (pEat .colon) true [sym .colon] p := .eat before rfl
      refine (Leads.bind colon).trans fun q reads => ?_
      have before : Before flag levels (typeToks ty ++ sym .assign :: more) rest q :=
        Before.after before reads
      have typed := declared ty rfl q _ before.split (by simp [EndsType, next, sym, symOn])
      exact .bind (Gives.map (f := some) typed)

theorem declared_eventually {ty : Option TypeNode}
    (declared : ∀ ty', ty = some ty' →
      Parses (·.type) ty' flag levels (typeToks ty') EndsType) :
    ∀ᶠ n in atTop, ∀ ty', ty = some ty' → ∀ p rest, Before flag levels (typeToks ty') rest p →
      EndsType p.groupDepth (next rest) → Gives (parsers n).type ty' (typeToks ty') p := by
  cases ty with
  | none => exact .of_forall fun n ty' same => by cases same
  | some ty =>
      refine Filter.Eventually.mono (declared ty rfl) fun n holds ty' same => ?_
      cases same
      exact holds

theorem let_parses {mutable : Bool} {name : CString} (isIdent : IsIdent name)
    {ty : Option TypeNode} {value : Expr} {toks : List Token}
    (declared : ∀ ty', ty = some ty' →
      Parses (·.type) ty' flag levels (typeToks ty') EndsType)
    (expr : Parses (·.expr) value flag levels toks (EndsExpr flag 0)) :
    Parses (·.stmt) (.letBind mutable name ty value) flag levels
      (symOn true (.kw .let_) :: ((if mutable then [sym (.kw .mut)] else []) ++ word name ::
        (letTypeToks ty ++ sym .assign :: toks))) EndsLine := by
  refine stmt_parses (.call (f := (·.letStmt)) parseLetStmt (fun _ => rfl) ?_)
  filter_upwards [declared_eventually declared, expr] with n declared holds p rest before follows
  refine (Gives.bump before (by simp [symOn])).one before fun q group before => ?_
  have notMut : (word name).kind ≠ .kw .mut := by
    rw [Parse.word, isIdent.kind]
    decide
  refine (optionalKw_gives ⟨_, _, rfl, notMut⟩ before).part before fun q' group' before => ?_
  refine (Gives.ident before isIdent rfl).one before fun u named before => ?_
  refine (letType_leads declared before).gives fun v reads => ?_
  have typed := reads.groupDepth
  have before := before.after reads
  refine (Gives.expect before rfl).one before fun w assigned before => ?_
  refine (holds w rest before ?_).map
  rw [assigned, typed, named, group', group]
  exact follows.expr

theorem if_parses {cond : Expr} {header : List Token} {thenBlock : List Stmt} {block : List Token}
    (condition : Parses (·.exprNoRecord) cond flag levels header (EndsExpr true 0))
    (body : Parses (·.block) thenBlock flag levels (inBraces block) fun _ _ => True) :
    Parses (·.stmt) (.ifElse cond thenBlock none) flag levels
      (symOn true (.kw .if_) :: (header ++ inBraces block)) EndsLine := by
  refine stmt_parses (.call (f := (·.ifStmt)) parseIfStmt (fun _ => rfl) ?_)
  filter_upwards [condition, body] with n condition body p rest before follows
  refine (Gives.bump before (by simp [symOn])).one before fun q group before => ?_
  refine (condition q _ before.split .brace).part before fun q' group' before => ?_
  refine ((body q' rest before trivial).bind fun u reads => ?_).cast (List.append_nil _)
  have behind := before.done reads
  have notElse : u.kind ≠ .kw .else_ := by
    rw [behind.kind_of_nil]
    rcases follows.2 with newLine | brace
    · exact newLine.2
    · rw [brace]
      decide
  refine .here (pEatKw_not notElse) (.here (m := optionally false _) rfl ?_)
  exact .pure

theorem ifElse_parses {cond : Expr} {header : List Token} {thenBlock elseBlock : List Stmt}
    {block block' : List Token}
    (condition : Parses (·.exprNoRecord) cond flag levels header (EndsExpr true 0))
    (body : Parses (·.block) thenBlock flag levels (inBraces block) fun _ _ => True)
    (other : Parses (·.block) elseBlock flag levels (inBraces block') fun _ _ => True) :
    Parses (·.stmt) (.ifElse cond thenBlock (some elseBlock)) flag levels
      (symOn true (.kw .if_) :: (header ++ (inBraces block ++ sym (.kw .else_) :: inBraces block')))
      EndsLine := by
  refine stmt_parses (.call (f := (·.ifStmt)) parseIfStmt (fun _ => rfl) ?_)
  filter_upwards [condition, body, other] with n condition body other p rest before follows
  refine (Gives.bump before (by simp [symOn])).one before fun q group before => ?_
  refine (condition q _ before.split .brace).part before fun q' group' before => ?_
  refine (body q' _ before.split trivial).part before fun u _ before => ?_
  refine (Gives.eatKw before rfl).one before fun v _ before => ?_
  have branch : Gives (elseBranch (parsers n)) elseBlock (inBraces block') v :=
    .here (pAt_no (k := .kw .if_) (by rw [before.kind]; decide)) (other v rest before trivial)
  exact (branch.map (f := some)).map

theorem while_parses {cond : Expr} {header : List Token} {body : List Stmt} {block : List Token}
    (condition : Parses (·.exprNoRecord) cond flag levels header (EndsExpr true 0))
    (inside : Parses (·.block) body flag levels (inBraces block) fun _ _ => True) :
    Parses (·.stmt) (.whileDo cond body) flag levels
      (symOn true (.kw .while_) :: (header ++ inBraces block)) EndsLine := by
  refine stmt_parses (.call (f := (·.whileStmt)) parseWhileStmt (fun _ => rfl) ?_)
  filter_upwards [condition, inside] with n condition inside p rest before follows
  refine (Gives.bump before (by simp [symOn])).one before fun q group before => ?_
  refine (condition q _ before.split .brace).part before fun q' group' before => ?_
  exact (inside q' rest before trivial).map

theorem for_parses {name : CString} (isIdent : IsIdent name) {iter : Expr} {header : List Token}
    {body : List Stmt} {block : List Token}
    (sequence : Parses (·.exprNoRecord) iter flag levels header (EndsExpr true 0))
    (inside : Parses (·.block) body flag levels (inBraces block) fun _ _ => True) :
    Parses (·.stmt) (.forIn name iter body) flag levels
      (symOn true (.kw .for_) :: word name :: sym (.kw .in_) :: (header ++ inBraces block))
      EndsLine := by
  refine stmt_parses (.call (f := (·.forStmt)) parseForStmt (fun _ => rfl) ?_)
  filter_upwards [sequence, inside] with n sequence inside p rest before follows
  refine (Gives.bump before (by simp [symOn])).one before fun q group before => ?_
  refine (Gives.ident before isIdent rfl).one before fun u _ before => ?_
  refine (Gives.expectKw before rfl).one before fun v _ before => ?_
  refine (sequence v _ before.split .brace).part before fun q' group' before => ?_
  exact (inside q' rest before trivial).map

end Statements

/-! ## Whole trees -/

theorem fit_bare {α : Type} {atLeast : Nat} {e : Expr} {bare inside : α}
    (tight : ¬ power e < atLeast) : fit atLeast e bare inside = bare :=
  if_neg tight

theorem fit_inside {α : Type} {atLeast : Nat} {e : Expr} {bare inside : α}
    (loose : power e < atLeast) : fit atLeast e bare inside = inside :=
  if_pos loose

theorem Printed.mono {flag : Bool} {pw levels more : Nat} {toks : List Token} {e : Expr}
    (printed : Printed flag pw levels toks e) (le : levels ≤ more) :
    Printed flag pw more toks e where
  chain nl := (printed.chain nl).mono fun _ leads m p rest small before follows =>
    leads m p rest small (before.mono le) follows
  unary tight nl := (printed.unary tight nl).weaken le fun _ _ follows => follows
  spine tight inner above := printed.spine tight inner (le.trans above)

/-- An expression as one item of a list. -/
theorem Printed.items {pw levels room : Nat} {e : Expr} {toks : List Token}
    (printed : Printed false pw levels toks e) (opening : Opening toks) (le : levels + 1 ≤ room)
    {es : List Expr} {others : List (List Token)}
    (rest : Items (·.expr) false room (EndsExpr false 0) OpensExpr es others) :
    Items (·.expr) false room (EndsExpr false 0) OpensExpr (e :: es) (toks :: others) := by
  have first := (opening.same ▸ printed.expr false).weaken le fun _ _ follows => follows
  exact .cons first opening.opens rest

theorem Printed.parens {flag : Bool} {pw levels : Nat} {e : Expr} {toks : List Token}
    (printed : Printed false pw levels toks e) (opening : Opening toks) :
    Printed flag 80 (2 + levels) (inParens toks) e := by
  have spine : Spine flag (levels + 1) (inParens (commaSep [toks])) (parenTree [e]) :=
    parens_spine (printed.items opening (Nat.le_refl _) .nil) (List.cons_ne_nil e [])
  exact (Printed.of_spine spine).mono (by omega)

/-- An operand, in parentheses or not. -/
theorem operand_printed (flag header : Bool) {atLeast : Nat} {e : Expr} (small : atLeast ≤ 80)
    (spelled : ExprSpelled e) (clear : fit atLeast e (Clear flag header e) (Clear false false e))
    (bare : Clear flag header e →
      Printed flag (power e) (exprLevels header e) (exprToks header e) e)
    (inside : Clear false false e →
      Printed false (power e) (exprLevels false e) (exprToks false e) e) :
    ∃ pw, atLeast ≤ pw ∧
      Printed flag pw (fit atLeast e (exprLevels header e) (2 + exprLevels false e))
        (fit atLeast e (exprToks header e) (inParens (exprToks false e))) e := by
  by_cases loose : power e < atLeast
  · rw [fit_inside loose] at clear
    rw [fit_inside loose, fit_inside loose]
    exact ⟨80, small, (inside clear).parens (exprToks_opening false e spelled)⟩
  · rw [fit_bare loose] at clear
    rw [fit_bare loose, fit_bare loose]
    exact ⟨power e, Nat.le_of_not_lt loose, bare clear⟩

theorem exprLevels_pos (header : Bool) : (e : Expr) → 0 < exprLevels header e
  | .lit _ | .ident _ | .none => by simp [exprLevels]
  | .unary _ _ | .tuple _ | .list _ | .some _ | .ok _ | .err _ | .mut _ | .mapNew _ => by
      rw [exprLevels]
      omega
  | .binary _ _ _ | .index _ _ | .matchOn _ _ => by
      rw [exprLevels]
      omega
  | .recordLit _ _ => by
      rw [exprLevels]
      split <;> omega
  | .call callee _ => by
      have positive := exprLevels_pos header callee
      rw [exprLevels, fit]
      split <;> omega
  | .member base _ => by
      have positive := exprLevels_pos header base
      rw [exprLevels, fit]
      split <;> omega
  | .question operand => by
      have positive := exprLevels_pos header operand
      rw [exprLevels, fit]
      split <;> omega

/-- A primary or a postfix operator, with the level its prefix position takes. -/
theorem Printed.of_spine_of_pos {flag : Bool} {levels : Nat} {toks : List Token} {e : Expr}
    (positive : 0 < levels) (spine : ∀ inner, levels = inner + 1 → Spine flag inner toks e) :
    Printed flag 80 levels toks e := by
  obtain ⟨inner, rfl⟩ : ∃ inner, levels = inner + 1 := ⟨levels - 1, by omega⟩
  exact .of_spine (spine inner rfl)

theorem armsToks_eq (arms : List Arm) : armsToks arms = (arms.map armToks).flatten := by
  induction arms with
  | nil => rw [armsToks]; rfl
  | cons arm arms ih => rw [armsToks, ih, List.map_cons, List.flatten_cons]

theorem stmtsToks_eq (stmts : List Stmt) :
    stmtsToks stmts = (stmts.map fun s => onNewLine (stmtToks s)).flatten := by
  induction stmts with
  | nil => rw [stmtsToks]; rfl
  | cons s stmts ih => rw [stmtsToks, ih, List.map_cons, List.flatten_cons]

/-- An argument without a label, which the token behind its first does not make one. -/
theorem argLabel_none {flag : Bool} {levels : Nat} {toks rest : List Token} {p : Parser}
    (before : Before flag levels toks rest p) (opening : Opening toks)
    (alone : toks.tail = [] → (next rest).kind ≠ .colon) : argLabel p = .ok (none, p) := by
  obtain ⟨t, more, rfl, opens, sameLine, noLabel⟩ := opening
  refine (run_bind (pKind_at before)).trans ((run_bind (pKind2_at before)).trans ?_)
  rw [if_neg]
  · rfl
  · rintro ⟨isIdent, colon⟩
    cases more with
    | nil => exact alone rfl colon
    | cons t' more => exact noLabel isIdent colon

theorem argLabel_some {flag : Bool} {levels : Nat} {name : CString} {toks rest : List Token}
    {p : Parser} (isIdent : IsIdent name)
    (before : Before flag levels (word name :: sym .colon :: toks) rest p) :
    Gives argLabel (some name) [word name, sym .colon] p := by
  refine .here (pKind_at before) (.here (pKind2_at before) ?_)
  rw [if_pos ⟨isIdent, rfl⟩]
  refine (Gives.ident before isIdent rfl).bind fun q reads => ?_
  have colon : Before flag levels (sym .colon :: toks) rest q := Before.after before reads
  exact (Gives.bump colon (by decide)).bind fun _ _ => .pure

theorem arg_parses (label : Option CString) {value : Expr} {toks : List Token} {pw levels room : Nat}
    (named : ∀ name, label = some name → IsIdent name)
    (printed : Printed false pw levels toks value) (opening : Opening toks)
    (le : levels + 1 ≤ room) :
    Parses (·.arg) (.mk label value) false room
      ((label.elim [] fun name => [word name, sym .colon]) ++ toks) EndsItem := by
  refine .call parseArg (fun _ => rfl) ?_
  have inside := (opening.same ▸ printed.expr false).weaken le fun _ _ follows => follows
  refine Filter.Eventually.mono inside fun n holds p rest before follows => ?_
  cases label with
  | none =>
      have before : Before false room toks rest p := before
      have unlabelled : argLabel p = .ok (none, p) := by
        refine argLabel_none before opening fun _ colon => ?_
        have ends : endsAny (next rest).kind = true := follows
        rw [colon] at ends
        cases ends
      exact .here unlabelled (holds p rest before (.closing follows)).map
  | some name =>
      have before : Before false room (word name :: sym .colon :: toks) rest p := before
      refine (argLabel_some (named name rfl) before).bind fun q reads => ?_
      exact (holds q rest (before.after reads) (.closing follows)).map

theorem armHead_opens {pat : PatternNode} (spelled : PatSpelled pat) (more : List Token) :
    ∃ t others, onNewLine (patToks pat) ++ more = t :: others ∧ t.nlBefore = true ∧
      t.kind ≠ .rbrace ∧ t.kind ≠ .eof ∧ t.kind ≠ .kw .else_ := by
  obtain ⟨t, others, same, opens⟩ := patToks_opens spelled true
  refine ⟨t, others ++ more, by rw [onNewLine, same, List.cons_append], ?_, ?_⟩
  · cases toks : patToks pat with
    | nil => rw [toks] at same; cases same
    | cons t' others' =>
        rw [toks] at same
        cases same
        rfl
  · rcases opens with here | ⟨l, here⟩ | here
    · rw [here]; decide
    · rw [here]
      simp
    · rw [here]; decide

theorem stmtToks_opens {s : Stmt} (spelled : StmtSpelled s) :
    ∃ t others, onNewLine (stmtToks s) = t :: others ∧ t.nlBefore = true ∧
      t.kind ≠ .rbrace ∧ t.kind ≠ .eof ∧ t.kind ≠ .kw .else_ := by
  have opened {toks : List Token} (opening : Opening toks) (others : List Token) :
      ∃ t others', onNewLine (toks ++ others) = t :: others' ∧ t.nlBefore = true ∧
        t.kind ≠ .rbrace ∧ t.kind ≠ .eof ∧ t.kind ≠ .kw .else_ := by
    obtain ⟨t, more, rfl, opens, -⟩ := opening
    have opens : OpensExpr t.kind := opens
    exact ⟨{ t with nlBefore := true }, more ++ others, rfl, rfl, opens.ne rfl, opens.ne rfl,
      opens.ne rfl⟩
  cases s with
  | letBind mutable name ty value =>
      exact ⟨symOn true (.kw .let_), _, by rw [stmtToks]; rfl, rfl, by simp [symOn]⟩
  | assign target value =>
      rw [StmtSpelled] at spelled
      rw [stmtToks]
      exact opened (exprToks_opening false target spelled.1) _
  | ret value =>
      cases value with
      | none => exact ⟨symOn true (.kw .return_), _, by rw [stmtToks]; rfl, rfl, by simp [symOn]⟩
      | some value =>
          exact ⟨symOn true (.kw .return_), _, by rw [stmtToks]; rfl, rfl, by simp [symOn]⟩
  | ifElse cond thenBlock elseBlock =>
      cases elseBlock with
      | none => exact ⟨symOn true (.kw .if_), _, by rw [stmtToks]; rfl, rfl, by simp [symOn]⟩
      | some elseBlock =>
          exact ⟨symOn true (.kw .if_), _, by rw [stmtToks]; rfl, rfl, by simp [symOn]⟩
  | whileDo cond body =>
      exact ⟨symOn true (.kw .while_), _, by rw [stmtToks]; rfl, rfl, by simp [symOn]⟩
  | forIn name iter body =>
      exact ⟨symOn true (.kw .for_), _, by rw [stmtToks]; rfl, rfl, by simp [symOn]⟩
  | brk => exact ⟨symOn true (.kw .break_), _, by rw [stmtToks]; rfl, rfl, by simp [symOn]⟩
  | cont => exact ⟨symOn true (.kw .continue_), _, by rw [stmtToks]; rfl, rfl, by simp [symOn]⟩
  | expr value =>
      rw [StmtSpelled] at spelled
      rw [stmtToks, ← List.append_nil (exprToks false value)]
      exact opened (exprToks_opening false value spelled) []

/-- The expression of a header. -/
theorem Printed.header {flag : Bool} {pw levels room : Nat} {e : Expr}
    (printed : Printed true pw levels (exprToks true e) e) (spelled : ExprSpelled e)
    (le : 1 + levels ≤ room) :
    Parses (·.exprNoRecord) e flag room (exprToks true e) (EndsExpr true 0) :=
  ((exprToks_opening true e spelled).same ▸ printed.exprNoRecord false).weaken (by omega)
    fun _ _ follows => follows

/-- An expression behind another token. -/
theorem Printed.value {flag : Bool} {pw levels room : Nat} {e : Expr}
    (printed : Printed flag pw levels (exprToks false e) e) (spelled : ExprSpelled e)
    (le : 1 + levels ≤ room) :
    Parses (·.expr) e flag room (exprToks false e) (EndsExpr flag 0) :=
  ((exprToks_opening false e spelled).same ▸ printed.expr false).weaken (by omega)
    fun _ _ follows => follows

theorem LinesOf.block {flag : Bool} {stmts : List Stmt} {levels room : Nat}
    (lines : Lines blockElement flag levels stmts (stmts.map fun s => onNewLine (stmtToks s)))
    (le : 1 + levels ≤ room) :
    Parses (·.block) stmts flag room (inBraces (stmtsToks stmts)) fun _ _ => True := by
  rw [stmtsToks_eq]
  exact (block_parses lines).weaken le fun _ _ follows => follows

mutual

/-- A printed expression is read back. -/
theorem expr_printed (flag header : Bool) : (e : Expr) → ExprSpelled e → Clear flag header e →
    Printed flag (power e) (exprLevels header e) (exprToks header e) e
  | .lit literal, _, _ => by
      rw [exprLevels, exprToks]
      exact .of_spine (lit_spine literal)
  | .ident name, spelled, _ => by
      rw [ExprSpelled] at spelled
      rw [exprLevels, exprToks]
      exact .of_spine (name_ident_spine spelled)
  | .none, _, _ => by
      rw [exprLevels, exprToks]
      exact .of_spine none_spine
  | .unary op operand, spelled, clear => by
      rw [ExprSpelled] at spelled
      rw [Clear] at clear
      rw [exprLevels, exprToks]
      obtain ⟨pw, tight, printed⟩ := operand_printed flag header
        (by decide : 70 ≤ 80) spelled clear (expr_printed flag header operand spelled)
        (expr_printed false false operand spelled)
      exact printed.prefixed tight (exprToks_opening header operand spelled).fit.same
  | .binary op left right, spelled, clear => by
      rw [ExprSpelled] at spelled
      rw [Clear] at clear
      rw [exprLevels, exprToks]
      have loose := binLbp_le op
      obtain ⟨pw, tight, lhs⟩ := operand_printed flag header
        (by omega : binLbp op ≤ 80) spelled.1 clear.1 (expr_printed flag header left spelled.1)
        (expr_printed false false left spelled.1)
      obtain ⟨pw', tight', rhs⟩ := operand_printed flag header
        (by omega : binLbp op + 1 ≤ 80) spelled.2 clear.2 (expr_printed flag header right spelled.2)
        (expr_printed false false right spelled.2)
      exact lhs.infixed rhs tight tight'
        (exprToks_opening header left spelled.1).fit.opened_append
        (exprToks_opening header right spelled.2).fit.same
  | .call callee args, spelled, clear => by
      rw [ExprSpelled] at spelled
      rw [Clear] at clear
      refine .of_spine_of_pos (exprLevels_pos header _) fun inner room => ?_
      rw [exprLevels] at room
      rw [exprToks]
      obtain ⟨pw, tight, printed⟩ := operand_printed flag header
        (by decide : 80 ≤ 80) spelled.1 clear.1 (expr_printed flag header callee spelled.1)
        (expr_printed false false callee spelled.1)
      exact (printed.spine tight inner (by omega)).call
        (args_items args spelled.2 clear.2 inner (by omega))
  | .index base key, spelled, clear => by
      rw [ExprSpelled] at spelled
      rw [Clear] at clear
      refine .of_spine_of_pos (exprLevels_pos header _) fun inner room => ?_
      rw [exprLevels] at room
      rw [exprToks]
      obtain ⟨pw, tight, printed⟩ := operand_printed flag header
        (by decide : 80 ≤ 80) spelled.1 clear.1 (expr_printed flag header base spelled.1)
        (expr_printed false false base spelled.1)
      exact (printed.spine tight inner (by omega)).index
        (expr_printed false false key spelled.2 clear.2)
        (exprToks_opening false key spelled.2).same (by omega)
  | .member base name, spelled, clear => by
      rw [ExprSpelled] at spelled
      rw [Clear] at clear
      refine .of_spine_of_pos (exprLevels_pos header _) fun inner room => ?_
      rw [exprLevels] at room
      rw [exprToks]
      obtain ⟨pw, tight, printed⟩ := operand_printed flag header
        (by decide : 80 ≤ 80) spelled.1 clear (expr_printed flag header base spelled.1)
        (expr_printed false false base spelled.1)
      exact (printed.spine tight inner (by omega)).member spelled.2
  | .question operand, spelled, clear => by
      rw [ExprSpelled] at spelled
      rw [Clear] at clear
      refine .of_spine_of_pos (exprLevels_pos header _) fun inner room => ?_
      rw [exprLevels] at room
      rw [exprToks]
      obtain ⟨pw, tight, printed⟩ := operand_printed flag header
        (by decide : 80 ≤ 80) spelled clear (expr_printed flag header operand spelled)
        (expr_printed false false operand spelled)
      exact (printed.spine tight inner (by omega)).question
  | .tuple elems, spelled, clear => by
      rw [ExprSpelled] at spelled
      rw [Clear] at clear
      refine .of_spine_of_pos (exprLevels_pos header _) fun inner room => ?_
      rw [exprLevels] at room
      rw [exprToks]
      have spine : Spine flag inner _ (parenTree elems) :=
        parens_spine (exprs_items elems spelled.2 clear inner (by omega))
          (by rintro rfl; simp at spelled)
      match elems, spelled, spine with
      | _ :: _ :: _, _, spine => exact spine
  | .list elems, spelled, clear => by
      rw [ExprSpelled] at spelled
      rw [Clear] at clear
      refine .of_spine_of_pos (exprLevels_pos header _) fun inner room => ?_
      rw [exprLevels] at room
      rw [exprToks]
      exact list_spine (exprs_items elems spelled clear inner (by omega))
  | .recordLit name fields, spelled, clear => by
      rw [ExprSpelled] at spelled
      rw [Clear] at clear
      have literal (levels : Nat) (positive : 0 < levels) (room : fieldsLevels fields ≤ levels) :
          Printed false 80 levels (word name :: inBraces (commaSep (fieldsToks fields)))
            (.recordLit name fields) := by
        refine .of_spine_of_pos positive fun inner same => recordLit_spine spelled.1 ?_
        exact fields_items fields spelled.2 clear.2 inner (by omega)
      rw [exprLevels, exprToks]
      have bare := literal (max 1 (fieldsLevels fields)) (by omega) (Nat.le_max_right _ _)
      cases header with
      | true =>
          have opening : Opening (word name :: inBraces (commaSep (fieldsToks fields))) :=
            .word spelled.1.1 (by simp [next, inBraces, sym, symOn])
          exact bare.parens opening
      | false =>
          obtain rfl : flag = false := clear.1.resolve_left (by decide)
          exact bare
  | .matchOn scrutinee arms, spelled, clear => by
      rw [ExprSpelled] at spelled
      rw [Clear] at clear
      refine .of_spine_of_pos (exprLevels_pos header _) fun inner room => ?_
      rw [exprLevels] at room
      rw [exprToks, armsToks_eq]
      exact match_spine (expr_printed true true scrutinee spelled.1 clear.1)
        (exprToks_opening true scrutinee spelled.1).same (by omega)
        (arms_lines flag arms spelled.2 clear.2 inner (by omega))
  | .some payload, spelled, clear => by
      rw [ExprSpelled] at spelled
      rw [Clear] at clear
      refine .of_spine_of_pos (exprLevels_pos header _) fun inner room => ?_
      rw [exprLevels] at room
      rw [exprToks]
      exact ctor_spine some_isIdent rfl (expr_printed false false payload spelled clear)
        (exprToks_opening false payload spelled).same (by omega)
  | .ok payload, spelled, clear => by
      rw [ExprSpelled] at spelled
      rw [Clear] at clear
      refine .of_spine_of_pos (exprLevels_pos header _) fun inner room => ?_
      rw [exprLevels] at room
      rw [exprToks]
      exact ctor_spine ok_isIdent rfl (expr_printed false false payload spelled clear)
        (exprToks_opening false payload spelled).same (by omega)
  | .err payload, spelled, clear => by
      rw [ExprSpelled] at spelled
      rw [Clear] at clear
      refine .of_spine_of_pos (exprLevels_pos header _) fun inner room => ?_
      rw [exprLevels] at room
      rw [exprToks]
      exact ctor_spine err_isIdent rfl (expr_printed false false payload spelled clear)
        (exprToks_opening false payload spelled).same (by omega)
  | .mut operand, spelled, clear => by
      rw [ExprSpelled] at spelled
      rw [Clear] at clear
      refine .of_spine_of_pos (exprLevels_pos header _) fun inner room => ?_
      rw [exprLevels] at room
      rw [exprToks]
      exact mut_spine (expr_printed false false operand spelled clear)
        (exprToks_opening false operand spelled).same (by omega)
  | .mapNew (.named name args), spelled, _ => by
      simp only [ExprSpelled] at spelled
      obtain ⟨rfl, spelled⟩ := spelled
      refine .of_spine_of_pos (exprLevels_pos header _) fun inner room => ?_
      rw [exprLevels] at room
      rw [exprToks]
      exact mapNew_spine spelled (by omega)
  | .mapNew (.pledge params ret), spelled, _ => by
      simp only [ExprSpelled] at spelled

theorem exprs_items : (es : List Expr) → ExprsSpelled es → ExprsClear es → (levels : Nat) →
    exprsLevels es ≤ levels + 1 →
    Items (·.expr) false levels (EndsExpr false 0) OpensExpr es (exprsToks es)
  | [], _, _, _, _ => by
      rw [exprsToks]
      exact .nil
  | e :: es, spelled, clear, levels, le => by
      rw [ExprsSpelled] at spelled
      rw [ExprsClear] at clear
      rw [exprsLevels] at le
      rw [exprsToks]
      exact (expr_printed false false e spelled.1 clear.1).items
        (exprToks_opening false e spelled.1) (by omega)
        (exprs_items es spelled.2 clear.2 levels (by omega))

theorem args_items : (args : List Arg) → ArgsSpelled args → ArgsClear args → (levels : Nat) →
    argsLevels args ≤ levels + 1 →
    Items (·.arg) false levels EndsItem OpensExpr args (argsToks args)
  | [], _, _, _, _ => by
      rw [argsToks]
      exact .nil
  | .mk none value :: args, spelled, clear, levels, le => by
      rw [ArgsSpelled] at spelled
      rw [ArgsClear] at clear
      rw [argsLevels] at le
      rw [argsToks, argToks]
      have opening := exprToks_opening false value spelled.1
      have parsed : Parses (·.arg) (.mk none value) false levels (exprToks false value) EndsItem :=
        arg_parses none (fun _ same => by cases same)
          (expr_printed false false value spelled.1 clear.1) opening (by omega)
      exact .cons parsed opening.opens (args_items args spelled.2 clear.2 levels (by omega))
  | .mk (some label) value :: args, spelled, clear, levels, le => by
      rw [ArgsSpelled] at spelled
      rw [ArgsClear] at clear
      rw [argsLevels] at le
      rw [argsToks, argToks]
      have opens : OpensExpr (word label).kind := by
        rw [Parse.word, spelled.1.kind]
        rfl
      have parsed : Parses (·.arg) (.mk (some label) value) false levels
          (word label :: sym .colon :: exprToks false value) EndsItem :=
        arg_parses (some label) (fun _ same => by cases same; exact spelled.1)
          (expr_printed false false value spelled.2.1 clear.1)
          (exprToks_opening false value spelled.2.1) (by omega)
      exact .cons parsed ⟨_, _, rfl, opens⟩ (args_items args spelled.2.2 clear.2 levels (by omega))

theorem fields_items : (fields : List Field) → FieldsSpelled fields → FieldsClear fields →
    (levels : Nat) → fieldsLevels fields ≤ levels + 1 →
    Items recordField false levels (EndsExpr false 0) (· = .ident) fields (fieldsToks fields)
  | [], _, _, _, _ => by
      rw [fieldsToks]
      exact .nil
  | .mk name value :: fields, spelled, clear, levels, le => by
      rw [FieldsSpelled] at spelled
      rw [FieldsClear] at clear
      rw [fieldsLevels] at le
      rw [fieldsToks, fieldToks]
      refine .cons ?_ ⟨_, _, rfl, spelled.1⟩
        (fields_items fields spelled.2.2 clear.2 levels (by omega))
      exact recordField_parses spelled.1 (expr_printed false false value spelled.2.1 clear.1)
        (exprToks_opening false value spelled.2.1).same (by omega)

theorem arms_lines (flag : Bool) : (arms : List Arm) → ArmsSpelled arms → ArmsClear flag arms →
    (levels : Nat) → armsLevels arms ≤ levels + 1 →
    Lines matchElement flag levels arms (arms.map armToks)
  | [], _, _, _, _ => .of_forall fun _ => .nil
  | .expr pat body :: arms, spelled, clear, levels, le => by
      rw [ArmsSpelled] at spelled
      rw [ArmsClear] at clear
      rw [armsLevels] at le
      rw [List.map_cons, armToks]
      have pattern : Parses (·.pattern) pat flag levels _ _ :=
        (pattern_parses flag true pat spelled.1).weaken (by omega) fun _ _ follows => follows
      have opening := exprToks_opening false body spelled.2.1
      have value : Parses (·.expr) body flag levels _ _ :=
        (expr_printed flag false body spelled.2.1 clear.1).value spelled.2.1 (by omega)
      filter_upwards [pattern, value, arms_lines flag arms spelled.2.2 clear.2 levels (by omega)]
        with n pattern value each
      refine .cons ⟨fun seen p rest before ends => ?_, armHead_opens spelled.1 _⟩ each
      exact (armExpr_gives pattern ⟨value, opening.opens⟩ before ends).map
  | .block pat body :: arms, spelled, clear, levels, le => by
      rw [ArmsSpelled] at spelled
      rw [ArmsClear] at clear
      rw [armsLevels] at le
      rw [List.map_cons, armToks]
      have pattern : Parses (·.pattern) pat flag levels _ _ :=
        (pattern_parses flag true pat spelled.1).weaken (by omega) fun _ _ follows => follows
      have block : Parses (·.block) body flag levels _ _ :=
        (stmts_lines flag body spelled.2.1 clear.1 _ (Nat.le_refl _)).block (by omega)
      filter_upwards [pattern, block, arms_lines flag arms spelled.2.2 clear.2 levels (by omega)]
        with n pattern block each
      refine .cons ⟨fun seen p rest before ends => ?_, armHead_opens spelled.1 _⟩ each
      exact (armBlock_gives pattern (fun p rest before => block p rest before trivial) before
        ends).map

/-- A printed statement is read back. -/
theorem stmt_printed (flag : Bool) : (s : Stmt) → StmtSpelled s → StmtClear flag s →
    (levels : Nat) → stmtLevels s ≤ levels →
    Parses (·.stmt) s flag levels (onNewLine (stmtToks s)) EndsLine
  | .letBind mutable name ty value, spelled, clear, levels, le => by
      simp only [StmtSpelled] at spelled
      rw [StmtClear] at clear
      simp only [stmtLevels] at le
      rw [stmtToks]
      have printed : Parses (·.expr) value flag levels _ _ :=
        (expr_printed flag false value spelled.2.2 clear).value spelled.2.2 (by omega)
      refine let_parses spelled.1 (fun ty' same => ?_) printed
      subst same
      exact (opened_false_typeToks ty' ▸ type_parses flag false ty' spelled.2.1).weaken
        (by simp only at le; omega) fun _ _ follows => follows
  | .assign target value, spelled, clear, levels, le => by
      rw [StmtSpelled] at spelled
      rw [StmtClear] at clear
      rw [stmtLevels] at le
      rw [stmtToks]
      have left := exprToks_opening false target spelled.1
      rw [onNewLine, left.opened_append]
      have lvalue : Parses (·.expr) target flag levels _ (EndsExpr flag 0) :=
        ((expr_printed flag false target spelled.1 clear.1).expr true).weaken (by omega)
          fun _ _ follows => follows
      have rvalue : Parses (·.expr) value flag levels _ _ :=
        (expr_printed flag false value spelled.2 clear.2).value spelled.2 (by omega)
      refine assign_parses ?_ lvalue rvalue
      obtain ⟨t, more, same, opens, -⟩ := left
      rw [same]
      exact ⟨_, _, rfl, opens⟩
  | .ret none, _, _, levels, _ => by
      rw [stmtToks]
      exact ret_none_parses
  | .ret (some value), spelled, clear, levels, le => by
      rw [StmtSpelled] at spelled
      rw [StmtClear] at clear
      rw [stmtLevels] at le
      rw [stmtToks]
      exact ret_some_parses (exprToks_opening false value spelled)
        ((expr_printed flag false value spelled clear).value spelled (by omega))
  | .ifElse cond thenBlock none, spelled, clear, levels, le => by
      rw [StmtSpelled] at spelled
      rw [StmtClear] at clear
      rw [stmtLevels] at le
      rw [stmtToks]
      exact if_parses ((expr_printed true true cond spelled.1 clear.1).header spelled.1 (by omega))
        ((stmts_lines flag thenBlock spelled.2 clear.2 _ (Nat.le_refl _)).block (by omega))
  | .ifElse cond thenBlock (some elseBlock), spelled, clear, levels, le => by
      rw [StmtSpelled] at spelled
      rw [StmtClear] at clear
      rw [stmtLevels] at le
      rw [stmtToks, List.append_assoc]
      exact ifElse_parses ((expr_printed true true cond spelled.1 clear.1).header spelled.1 (by omega))
        ((stmts_lines flag thenBlock spelled.2.1 clear.2.1 _ (Nat.le_refl _)).block (by omega))
        ((stmts_lines flag elseBlock spelled.2.2 clear.2.2 _ (Nat.le_refl _)).block (by omega))
  | .whileDo cond body, spelled, clear, levels, le => by
      rw [StmtSpelled] at spelled
      rw [StmtClear] at clear
      rw [stmtLevels] at le
      rw [stmtToks]
      exact while_parses ((expr_printed true true cond spelled.1 clear.1).header spelled.1 (by omega))
        ((stmts_lines flag body spelled.2 clear.2 _ (Nat.le_refl _)).block (by omega))
  | .forIn name iter body, spelled, clear, levels, le => by
      rw [StmtSpelled] at spelled
      rw [StmtClear] at clear
      rw [stmtLevels] at le
      rw [stmtToks]
      exact for_parses spelled.1 ((expr_printed true true iter spelled.2.1 clear.1).header spelled.2.1 (by omega))
        ((stmts_lines flag body spelled.2.2 clear.2 _ (Nat.le_refl _)).block (by omega))
  | .brk, _, _, levels, _ => by
      rw [stmtToks]
      exact brk_parses
  | .cont, _, _, levels, _ => by
      rw [stmtToks]
      exact cont_parses
  | .expr value, spelled, clear, levels, le => by
      rw [StmtSpelled] at spelled
      rw [StmtClear] at clear
      rw [stmtLevels] at le
      rw [stmtToks]
      obtain ⟨t, more, same, opens, -⟩ := exprToks_opening false value spelled
      have printed : Parses (·.expr) value flag levels _ (EndsExpr flag 0) :=
        ((expr_printed flag false value spelled clear).expr true).weaken (by omega)
          fun _ _ follows => follows
      refine expr_stmt_parses ?_ printed
      rw [same]
      exact ⟨_, _, rfl, opens⟩

theorem stmts_lines (flag : Bool) : (stmts : List Stmt) → StmtsSpelled stmts →
    StmtsClear flag stmts → (levels : Nat) → stmtsLevels stmts ≤ levels →
    Lines blockElement flag levels stmts (stmts.map fun s => onNewLine (stmtToks s))
  | [], _, _, _, _ => .of_forall fun _ => .nil
  | s :: stmts, spelled, clear, levels, le => by
      rw [StmtsSpelled] at spelled
      rw [StmtsClear] at clear
      rw [stmtsLevels] at le
      rw [List.map_cons]
      filter_upwards [stmt_printed flag s spelled.1 clear.1 levels (by omega),
        stmts_lines flag stmts spelled.2 clear.2 levels (by omega)] with n holds each
      refine .cons ⟨fun seen p rest before ends => ?_, stmtToks_opens spelled.1⟩ each
      exact (holds p rest before ends).sep before ends.sep _

end

end Geas.Compiler.Parse
