import Geas.Compiler.Reparse

/-!
# Parsing inverts printing

-/

namespace Geas.Compiler.Parse

open Geas.Lib Geas.Lib.Descent
open Geas.Runtime (CString ascii)
open Filter (atTop)

/-! ## Types -/

/-- The tokens a type opens with. -/
def OpensType (k : Kind) : Prop := k = .ident ∨ k = .kw .pledge

/-- What may follow a type: nothing that looks like its arguments. -/
def EndsType (_ : Nat) (t : Token) : Prop := t.kind ≠ .lt

theorem typeToks_opens {ty : TypeNode} (spelled : TypeSpelled ty) :
    ∃ t more, typeToks ty = t :: more ∧ OpensType t.kind := by
  cases ty with
  | named name args =>
      rw [TypeSpelled] at spelled
      cases args with
      | nil => exact ⟨word name, [], by rw [typeToks], .inl spelled.1⟩
      | cons arg args => exact ⟨word name, _, by rw [typeToks], .inl spelled.1⟩
  | pledge params ret => exact ⟨sym (.kw .pledge), _, by rw [typeToks], .inr rfl⟩

theorem typesGoOn : KeepsGoing pAtEof OpensType := by
  intro p _ opens
  refine pAt_no ?_
  rcases opens with here | here
  · rw [here]; decide
  · rw [here]; decide

theorem typeArgs_parses {flag : Bool} {levels : Nat} {args : List TypeNode}
    {toks : List (List Token)} (each : Items (·.type) flag levels EndsType OpensType args toks) :
    Parses (·.typeArgs) args flag levels (sym .lt :: (commaSep toks ++ [sym .gt]))
      fun _ _ => True := by
  refine .call parseTypeArgs (fun _ => rfl) ?_
  have listed : Parses _ args flag levels (commaSep toks) _ :=
    each.commaList .gt typesGoOn (fun _ => by simp [EndsType, sym, symOn]) (by decide)
      (by simp [OpensType])
  refine listed.mono fun n holds p rest before _ => ?_
  refine (Gives.expect before rfl).one before fun q _ before => ?_
  refine Gives.inGroup (holds _ _ (before.regroup _).split ⟨rfl, by simp [EndsType, next, sym, symOn]⟩)
    fun q reads => ?_
  have closing := before.after reads
  exact (Gives.expect closing rfl).one closing fun _ _ _ => .pure


theorem pledgeType_parses {flag nl : Bool} {levels : Nat} {params : List TypeNode}
    {toks : List (List Token)} {ret : TypeNode}
    (each : Items (·.type) flag levels EndsType OpensType params toks)
    (result : Parses (·.type) ret flag levels (typeToks ret) EndsType) :
    Parses (·.pledgeType) (.pledge params ret) flag levels
      (symOn nl (.kw .pledge) :: (inParens (commaSep toks) ++ sym .arrow :: typeToks ret))
      EndsType := by
  simp only [inParens, List.cons_append, List.append_assoc, List.nil_append]
  refine .call parsePledgeType (fun _ => rfl) ?_
  have listed : Parses _ params flag levels (commaSep toks) _ :=
    each.commaList .rparen typesGoOn (fun _ => by simp [EndsType, sym, symOn]) (by decide)
      (by simp [OpensType])
  filter_upwards [listed, result] with n params ret p rest before follows
  refine (Gives.bump before (by simp [symOn])).one before fun q group before => ?_
  refine (Gives.expect before rfl).one before fun q group' before => ?_
  refine Gives.inGroup (params _ _ (before.regroup _).split ⟨rfl, by simp [EndsType, next, sym, symOn]⟩)
    fun q reads => ?_
  have closing := before.after reads
  refine (Gives.expect closing rfl).one closing fun q group before => ?_
  refine Gives.map ?_
  refine (Gives.eat before rfl).one before fun q _ before => ?_
  exact ret q rest before follows

/-- A type with its arguments written out, which may be none. -/
theorem appliedType_parses {flag nl : Bool} {levels : Nat} {name : CString} (isIdent : IsIdent name)
    {args : List TypeNode} {toks : List (List Token)}
    (each : Items (·.type) flag levels EndsType OpensType args toks) :
    Parses (·.type) (.named name args) flag (1 + levels)
      (wordOn nl name :: sym .lt :: (commaSep toks ++ [sym .gt])) fun _ _ => True := by
  rw [Nat.add_comm]
  refine .call parseType (fun _ => rfl) (.underCeiling ?_)
  refine .call parseTypeInner (fun _ => rfl) ?_
  have arguments : Parses (·.typeArgs) args flag levels (sym .lt :: (commaSep toks ++ [sym .gt])) _ :=
    typeArgs_parses each
  refine Filter.Eventually.mono arguments fun n holds p rest before _ => ?_
  have here : p.kind = .ident := before.kind.trans isIdent
  refine .here (pAt_no (by rw [here]; decide)) ?_
  refine .here (pAt_yes here) ?_
  refine (Gives.ident before isIdent rfl).one before fun q group before => ?_
  have hasArgs : q.kind = .lt := before.kind
  refine .here (pAt_yes hasArgs) ?_
  exact (holds q rest before trivial).map

theorem opened_false_typeToks (ty : TypeNode) : opened false (typeToks ty) = typeToks ty := by
  cases ty with
  | named name args =>
      cases args with
      | nil => rw [typeToks]; rfl
      | cons arg args => rw [typeToks]; rfl
  | pledge params ret => rw [typeToks]; rfl

mutual

theorem type_parses (flag nl : Bool) : (ty : TypeNode) → TypeSpelled ty →
    Parses (·.type) ty flag (typeLevels ty) (opened nl (typeToks ty)) EndsType
  | .named name [], spelled => by
      rw [TypeSpelled] at spelled
      rw [typeLevels, typeToks, typesLevels]
      refine .call parseType (fun _ => rfl) (.underCeiling ?_)
      refine .call parseTypeInner (fun _ => rfl) ?_
      refine Filter.Eventually.of_forall fun n p rest before follows => ?_
      have before : Before flag 0 [wordOn nl name] rest p := before
      have isIdent : p.kind = .ident := before.kind.trans spelled.1
      refine .here (pAt_no (by rw [isIdent]; decide)) ?_
      refine .here (pAt_yes isIdent) ?_
      refine (Gives.ident before spelled.1 rfl).one before fun q group before => ?_
      have noArgs : q.kind ≠ .lt := by
        rw [before.kind_of_nil]
        exact follows
      refine .here (pAt_no noArgs) ?_
      exact .pure
  | .named name (arg :: args), spelled => by
      rw [TypeSpelled] at spelled
      rw [typeLevels, typeToks]
      exact (appliedType_parses spelled.1
        (types_parse flag _ (arg :: args) spelled.2 (Nat.le_refl _))).weaken (Nat.le_refl _)
        fun _ _ _ => trivial
  | .pledge params ret, spelled => by
      rw [TypeSpelled] at spelled
      rw [typeLevels, typeToks, Nat.add_comm]
      refine .call parseType (fun _ => rfl) (.underCeiling ?_)
      refine .call parseTypeInner (fun _ => rfl) ?_
      have result := opened_false_typeToks ret ▸ type_parses flag false ret spelled.2
      have whole : Parses (·.pledgeType) (.pledge params ret) flag _ (symOn nl (.kw .pledge) ::
          (inParens (commaSep (typesToks params)) ++ sym .arrow :: typeToks ret)) EndsType :=
        pledgeType_parses (types_parse flag _ params spelled.1 (Nat.le_max_left _ _))
          (result.weaken (Nat.le_max_right _ _) fun _ _ follows => follows)
      refine Filter.Eventually.mono whole fun n holds p rest before follows => ?_
      have isPledge : p.kind = .kw .pledge :=
        Before.kind (t := symOn nl (.kw .pledge)) before
      refine .here (pAt_yes isPledge) ?_
      exact holds p rest before follows

theorem types_parse (flag : Bool) (levels : Nat) : (tys : List TypeNode) → TypesSpelled tys →
    typesLevels tys ≤ levels → Items (·.type) flag levels EndsType OpensType tys (typesToks tys)
  | [], _, _ => .nil
  | ty :: tys, spelled, le => by
      rw [TypesSpelled] at spelled
      rw [typesLevels] at le
      rw [typesToks]
      have first := opened_false_typeToks ty ▸ type_parses flag false ty spelled.1
      refine .cons (first.weaken (by omega) fun _ _ follows => follows)
        (typeToks_opens spelled.1) ?_
      exact types_parse flag levels tys spelled.2 (by omega)

end

/-! ## Patterns -/

/-- The tokens a pattern opens with. -/
def OpensPat (k : Kind) : Prop := k = .underscore ∨ (∃ l, k = .lit l) ∨ k = .ident

/-- What may follow a pattern: nothing that looks like its arguments. -/
def EndsPat (_ : Nat) (t : Token) : Prop := t.kind ≠ .lparen

theorem IsIdent.kind {name : CString} (isIdent : IsIdent name) (nl : Bool) :
    (wordOn nl name).kind = .ident :=
  isIdent

theorem IsIdent.real {name : CString} (isIdent : IsIdent name) (nl : Bool) :
    (wordOn nl name).kind ≠ .eof := by
  rw [isIdent.kind]
  decide

theorem some_isIdent : IsIdent (ascii "Some") := by rw [IsIdent]; decide

theorem none_isIdent : IsIdent (ascii "None") := by rw [IsIdent]; decide

theorem ok_isIdent : IsIdent (ascii "Ok") := by rw [IsIdent]; decide

theorem err_isIdent : IsIdent (ascii "Err") := by rw [IsIdent]; decide

theorem patToks_opens {pat : PatternNode} (spelled : PatSpelled pat) (nl : Bool) :
    ∃ t more, opened nl (patToks pat) = t :: more ∧ OpensPat t.kind := by
  cases pat with
  | wildcard => exact ⟨_, _, by rw [patToks, opened], .inl rfl⟩
  | lit literal => exact ⟨_, _, by rw [patToks, opened], .inr (.inl ⟨literal, rfl⟩)⟩
  | bind name =>
      rw [PatSpelled] at spelled
      exact ⟨wordOn nl name, _, by rw [patToks]; rfl, .inr (.inr spelled.1)⟩
  | variant name subs =>
      rw [PatSpelled] at spelled
      exact ⟨wordOn nl name, _, by rw [patToks]; rfl, .inr (.inr spelled.1.1)⟩
  | some inner =>
      exact ⟨wordOn nl (ascii "Some"), _, by rw [patToks]; rfl, .inr (.inr some_isIdent)⟩
  | none =>
      exact ⟨wordOn nl (ascii "None"), _, by rw [patToks]; rfl, .inr (.inr none_isIdent)⟩
  | ok inner =>
      exact ⟨wordOn nl (ascii "Ok"), _, by rw [patToks]; rfl, .inr (.inr ok_isIdent)⟩
  | err inner =>
      exact ⟨wordOn nl (ascii "Err"), _, by rw [patToks]; rfl, .inr (.inr err_isIdent)⟩

theorem opened_false_patToks (pat : PatternNode) : opened false (patToks pat) = patToks pat := by
  cases pat <;> (rw [patToks]; rfl)

theorem patsGoOn : KeepsGoing pAtEnd OpensPat := by
  intro p running opens
  have real : p.kind ≠ .eof := by
    rcases opens with here | ⟨l, here⟩ | here
    · rw [here]; decide
    · simp [here]
    · rw [here]; decide
  change Except.ok (p.hitDepthLimit || decide (p.kind = .eof), p) = _
  rw [running, decide_eq_false real]
  rfl

section Patterns

variable {flag nl : Bool} {levels : Nat}

/-- A pattern that opens with an identifier. -/
theorem identPattern_parses {name : CString} (isIdent : IsIdent name) {pat : PatternNode}
    {toks : List Token}
    (parses : Parses (fun r => identPattern r (wordOn nl name)) pat flag levels
      (wordOn nl name :: toks) EndsPat) :
    Parses (·.pattern) pat flag (1 + levels) (wordOn nl name :: toks) EndsPat := by
  rw [Nat.add_comm]
  refine .call parsePattern (fun _ => rfl) (.underCeiling ?_)
  refine .call parsePatternInner (fun _ => rfl) ?_
  refine Filter.Eventually.mono parses fun n holds p rest before follows => ?_
  refine .here (pTok_at before) ?_
  rw [if_neg (by rw [isIdent.kind]; decide)]
  refine .here (Gives.noLiteral before fun l => by simp [isIdent.kind]) ?_
  rw [if_pos (isIdent.kind nl)]
  exact holds p rest before follows

theorem ctorPattern_parses {name : CString} (isIdent : IsIdent name)
    {ctor : PatternNode → PatternNode} (known : patCtorForName name = some ctor)
    {inner : PatternNode} {toks : List Token}
    (parses : Parses (·.pattern) inner flag levels toks EndsPat) :
    Parses (·.pattern) (ctor inner) flag (1 + levels)
      (wordOn nl name :: inParens toks) EndsPat := by
  refine identPattern_parses isIdent ?_
  refine Filter.Eventually.mono parses fun n holds p rest before follows => ?_
  refine .here (pKind2_at before) ?_
  have opens : (next (inParens toks ++ rest)).kind = .lparen := rfl
  have text : (wordOn nl name).text = name := rfl
  rw [if_pos opens, text, known]
  refine (Gives.bump before (isIdent.real nl)).one before
    fun q _ before => ?_
  refine (Gives.bump before (by decide)).one before fun q _ before => ?_
  refine Gives.inGroup (holds _ _ (before.regroup _).split (by simp [EndsPat, next, sym, symOn]))
    fun q reads => ?_
  have closing := before.after reads
  exact (Gives.expect closing rfl).one closing fun _ _ _ => .pure

theorem variantPattern_parses {name : CString} (isName : IsName name) {subs : List PatternNode}
    {toks : List (List Token)} (each : Items (·.pattern) flag levels EndsPat OpensPat subs toks) :
    Parses (·.pattern) (.variant name subs) flag (1 + levels)
      (wordOn nl name :: inParens (commaSep toks)) EndsPat := by
  refine identPattern_parses isName.1 ?_
  have listed : Parses _ subs flag levels (commaSep toks) _ :=
    each.commaList .rparen patsGoOn (fun _ => by simp [EndsPat, sym, symOn]) (by decide)
      (by simp [OpensPat])
  have body : Parses parseVariantPattern (.variant name subs) flag levels
      (wordOn nl name :: inParens (commaSep toks)) EndsPat := by
    refine listed.mono fun n holds p rest before follows => ?_
    refine (Gives.ident before isName.1 rfl).one before fun q _ before => ?_
    refine (Gives.bump before (by decide)).one before fun q _ before => ?_
    refine Gives.inGroup (holds _ _ (before.regroup _).split
      ⟨rfl, by simp [EndsPat, next, sym, symOn]⟩) fun q reads => ?_
    have closing := before.after reads
    exact (Gives.expect closing rfl).one closing fun _ _ _ => .pure
  have called : Parses (·.variantPattern) (.variant name subs) flag levels
      (wordOn nl name :: inParens (commaSep toks)) EndsPat :=
    .call parseVariantPattern (fun _ => rfl) body
  refine Filter.Eventually.mono called fun n holds p rest before follows => ?_
  refine .here (pKind2_at before) ?_
  have unknown : patCtorForName name = none := by
    have notBuiltin := isName.2
    simp only [builtinNames, List.mem_cons, not_or] at notBuiltin
    simp [patCtorForName, notBuiltin]
  have opens : (next (inParens (commaSep toks) ++ rest)).kind = .lparen := rfl
  have text : (wordOn nl name).text = name := rfl
  rw [if_pos opens, text, unknown]
  exact holds p rest before follows

theorem nonePattern_parses :
    Parses (·.pattern) .none flag (1 + 0) [wordOn nl (ascii "None")] EndsPat := by
  refine identPattern_parses none_isIdent ?_
  refine Filter.Eventually.of_forall fun n p rest before follows => ?_
  refine .here (pKind2_at before) ?_
  rw [if_neg (show (next ([] ++ rest)).kind ≠ .lparen from follows),
    if_pos (show (wordOn nl (ascii "None")).text = ascii "None" from rfl)]
  exact (Gives.bump before (none_isIdent.real nl)).map

theorem bindPattern_parses {name : CString} (isName : IsName name) :
    Parses (·.pattern) (.bind name) flag (1 + 0) [wordOn nl name] EndsPat := by
  refine identPattern_parses isName.1 ?_
  refine Filter.Eventually.of_forall fun n p rest before follows => ?_
  refine .here (pKind2_at before) ?_
  have notNone : (wordOn nl name).text ≠ ascii "None" := by
    intro same
    exact isName.2 (by simp [builtinNames, show name = ascii "None" from same])
  rw [if_neg (show (next ([] ++ rest)).kind ≠ .lparen from follows), if_neg notNone]
  exact (Gives.ident before isName.1 rfl).map

end Patterns

mutual

theorem pattern_parses (flag nl : Bool) : (pat : PatternNode) → PatSpelled pat →
    Parses (·.pattern) pat flag (patLevels pat) (opened nl (patToks pat)) EndsPat
  | .wildcard, _ => by
      rw [patLevels, patToks]
      refine .call parsePattern (fun _ => rfl) (.underCeiling ?_)
      refine .call parsePatternInner (fun _ => rfl) ?_
      refine Filter.Eventually.of_forall fun n p rest before follows => ?_
      have before : Before flag 0 [symOn nl .underscore] rest p := before
      refine .here (pTok_at before) ?_
      rw [if_pos (show (symOn nl .underscore).kind = .underscore from rfl)]
      exact (Gives.bump before (by simp [symOn])).map
  | .lit literal, _ => by
      rw [patLevels, patToks]
      refine .call parsePattern (fun _ => rfl) (.underCeiling ?_)
      refine .call parsePatternInner (fun _ => rfl) ?_
      refine Filter.Eventually.of_forall fun n p rest before follows => ?_
      have before : Before flag 0 [symOn nl (.lit literal)] rest p := before
      refine .here (pTok_at before) ?_
      rw [if_neg (by simp [symOn])]
      exact (Gives.literal before rfl).one before fun _ _ _ => .pure
  | .bind name, spelled => by
      rw [PatSpelled] at spelled
      rw [patLevels, patToks]
      exact bindPattern_parses spelled
  | .none, _ => by
      rw [patLevels, patToks]
      exact nonePattern_parses
  | .variant name subs, spelled => by
      rw [PatSpelled] at spelled
      rw [patLevels, patToks]
      exact variantPattern_parses spelled.1 (patterns_parse flag _ subs spelled.2 (Nat.le_refl _))
  | .some inner, spelled => by
      rw [PatSpelled] at spelled
      rw [patLevels, patToks]
      exact ctorPattern_parses some_isIdent rfl
        (opened_false_patToks inner ▸ pattern_parses flag false inner spelled)
  | .ok inner, spelled => by
      rw [PatSpelled] at spelled
      rw [patLevels, patToks]
      exact ctorPattern_parses ok_isIdent rfl
        (opened_false_patToks inner ▸ pattern_parses flag false inner spelled)
  | .err inner, spelled => by
      rw [PatSpelled] at spelled
      rw [patLevels, patToks]
      exact ctorPattern_parses err_isIdent rfl
        (opened_false_patToks inner ▸ pattern_parses flag false inner spelled)

theorem patterns_parse (flag : Bool) (levels : Nat) : (pats : List PatternNode) →
    PatsSpelled pats → patsLevels pats ≤ levels →
    Items (·.pattern) flag levels EndsPat OpensPat pats (patsToks pats)
  | [], _, _ => .nil
  | pat :: pats, spelled, le => by
      rw [PatsSpelled] at spelled
      rw [patsLevels] at le
      rw [patsToks]
      have first := opened_false_patToks pat ▸ pattern_parses flag false pat spelled.1
      refine .cons (first.weaken (by omega) fun _ _ follows => follows)
        (opened_false_patToks pat ▸ patToks_opens spelled.1 false) ?_
      exact patterns_parse flag levels pats spelled.2 (by omega)

end

/-! ## Where expressions open and end -/

/-- The tokens an expression opens with. -/
def opensExpr : Kind → Bool
  | .lit _ | .ident | .kw .match_ | .kw .mut | .lparen | .lbracket | .minus | .bang => true
  | _ => false

/-- The tokens open an expression, which no label precedes. -/
def Opening (toks : List Token) : Prop :=
  ∃ t more, toks = t :: more ∧ opensExpr t.kind = true ∧ t.nlBefore = false ∧
    (t.kind = .ident → (next more).kind ≠ .colon)

theorem Opening.append {toks : List Token} (opening : Opening toks) {others : List Token}
    (notColon : (next others).kind ≠ .colon) : Opening (toks ++ others) := by
  obtain ⟨t, more, rfl, opens, sameLine, noLabel⟩ := opening
  refine ⟨t, more ++ others, rfl, opens, sameLine, fun isIdent => ?_⟩
  cases more with
  | nil => exact notColon
  | cons t' more => exact noLabel isIdent

theorem Opening.symbol {k : Kind} {toks : List Token} (opens : opensExpr k = true)
    (notIdent : k ≠ .ident) : Opening (sym k :: toks) :=
  ⟨sym k, toks, rfl, opens, rfl, fun isIdent => absurd isIdent notIdent⟩

theorem Opening.word {name : CString} {toks : List Token} (isIdent : IsIdent name)
    (notColon : (next toks).kind ≠ .colon) : Opening (word name :: toks) :=
  ⟨Parse.word name, toks, rfl, by rw [Parse.word, isIdent.kind]; rfl, rfl, fun _ => notColon⟩

theorem Opening.same {toks : List Token} (opening : Opening toks) : opened false toks = toks := by
  obtain ⟨t, more, rfl, -, sameLine, -⟩ := opening
  change { t with nlBefore := false } :: more = t :: more
  rw [← sameLine]

theorem Opening.opened_append {toks : List Token} (opening : Opening toks) (nl : Bool)
    (others : List Token) : opened nl (toks ++ others) = opened nl toks ++ others := by
  obtain ⟨t, more, rfl, -⟩ := opening
  rfl

theorem Opening.fit {e : Expr} {atLeast : Nat} {bare inside : List Token} (opening : Opening bare) :
    Opening (fit atLeast e bare (inParens inside)) := by
  unfold Parse.fit
  split
  · exact .symbol rfl (by decide)
  · exact opening

theorem map_isIdent : IsIdent (ascii "Map") := by rw [IsIdent]; decide

theorem binopKind_notColon (op : BinOp) (toks : List Token) :
    (next (sym (binopKind op) :: toks)).kind ≠ .colon := by
  cases op <;> simp [next, sym, symOn, binopKind]

theorem exprToks_opening (header : Bool) : (e : Expr) → ExprSpelled e → Opening (exprToks header e)
  | .lit literal, _ => by
      rw [exprToks]
      exact .symbol rfl (by simp)
  | .ident name, spelled => by
      rw [ExprSpelled] at spelled
      rw [exprToks]
      exact .word spelled.1 (by simp [next, eofToken])
  | .unary op operand, _ => by
      rw [exprToks]
      exact .symbol (by cases op <;> rfl) (by cases op <;> decide)
  | .binary op left right, spelled => by
      rw [ExprSpelled] at spelled
      rw [exprToks]
      exact (exprToks_opening header left spelled.1).fit.append (binopKind_notColon op _)
  | .call callee args, spelled => by
      rw [ExprSpelled] at spelled
      rw [exprToks]
      exact (exprToks_opening header callee spelled.1).fit.append (by simp [next, inParens, sym, symOn])
  | .index base key, spelled => by
      rw [ExprSpelled] at spelled
      rw [exprToks]
      exact (exprToks_opening header base spelled.1).fit.append
        (by simp [next, inBrackets, sym, symOn])
  | .member base name, spelled => by
      rw [ExprSpelled] at spelled
      rw [exprToks]
      exact (exprToks_opening header base spelled.1).fit.append (by simp [next, sym, symOn])
  | .question operand, spelled => by
      rw [ExprSpelled] at spelled
      rw [exprToks]
      exact (exprToks_opening header operand spelled).fit.append (by simp [next, sym, symOn])
  | .tuple elems, _ => by
      rw [exprToks]
      exact .symbol rfl (by decide)
  | .list elems, _ => by
      rw [exprToks]
      exact .symbol rfl (by decide)
  | .recordLit name fields, spelled => by
      rw [ExprSpelled] at spelled
      rw [exprToks]
      cases header with
      | true => exact .symbol rfl (by decide)
      | false => exact .word spelled.1.1 (by simp [next, inBraces, sym, symOn])
  | .matchOn scrutinee arms, _ => by
      rw [exprToks]
      exact .symbol rfl (by decide)
  | .some payload, _ => by
      rw [exprToks]
      exact .word some_isIdent (by simp [next, inParens, sym, symOn])
  | .none, _ => by
      rw [exprToks]
      exact .word none_isIdent (by simp [next, eofToken])
  | .ok payload, _ => by
      rw [exprToks]
      exact .word ok_isIdent (by simp [next, inParens, sym, symOn])
  | .err payload, _ => by
      rw [exprToks]
      exact .word err_isIdent (by simp [next, inParens, sym, symOn])
  | .mut operand, _ => by
      rw [exprToks]
      exact .symbol rfl (by decide)
  | .mapNew (.named name args), spelled => by
      simp only [ExprSpelled] at spelled
      rw [exprToks, mapToks, spelled.1]
      exact .word map_isIdent (by simp [next, sym, symOn])
  | .mapNew (.pledge params ret), spelled => by
      simp only [ExprSpelled] at spelled

/-- A token that continues an expression behind its primary. -/
def isPostfix : Kind → Bool
  | .lparen | .lbracket | .dot | .question => true
  | _ => false

/-- A newline that ends an expression. -/
def Breaks (g : Nat) (t : Token) : Prop := g = 0 ∧ t.nlBefore = true

/-- No brace that would make the name before it a record literal. -/
def NoRecord (flag : Bool) (t : Token) : Prop := flag = false → t.kind = .lbrace → t.nlBefore = true

/-- What may follow an operand of a prefix operator. -/
def EndsUnary (flag : Bool) (g : Nat) (t : Token) : Prop :=
  NoRecord flag t ∧ (Breaks g t ∨ isPostfix t.kind = false)

/-- What may follow an expression of a position that takes operators of power `m` on. -/
def EndsExpr (flag : Bool) (m g : Nat) (t : Token) : Prop :=
  EndsUnary flag g t ∧ (Breaks g t ∨ ∀ op, binopForKind t.kind = some op → binLbp op < m)

theorem EndsExpr.weaken {flag : Bool} {m m' g : Nat} {t : Token} (le : m ≤ m')
    (ends : EndsExpr flag m g t) : EndsExpr flag m' g t := by
  refine ⟨ends.1, ends.2.imp_right fun looser op here => ?_⟩
  exact Nat.lt_of_lt_of_le (looser op here) le

/-- A token that is no part of an expression. -/
def endsAny : Kind → Bool
  | .comma | .rparen | .rbracket | .rbrace | .assign => true
  | _ => false

theorem EndsExpr.closing {flag : Bool} {m g : Nat} {t : Token} (ends : endsAny t.kind = true) :
    EndsExpr flag m g t := by
  unfold EndsExpr EndsUnary NoRecord
  cases same : t.kind <;> rw [same] at ends <;> simp_all [endsAny, isPostfix, binopForKind]

/-- The brace behind a header. -/
theorem EndsExpr.brace {m g : Nat} : EndsExpr true m g (sym .lbrace) := by
  refine ⟨⟨fun off => by simp at off, .inr rfl⟩, .inr fun op here => ?_⟩
  simp [sym, symOn, binopForKind] at here

end Geas.Compiler.Parse
