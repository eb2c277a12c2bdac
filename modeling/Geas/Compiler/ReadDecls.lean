import Geas.Compiler.PrintFile
import Mathlib.Order.Filter.Finite

/-!
# Printed declarations are read back

Every declaration and every member of a contract, by the parts it is made of.  What may
follow one is a line that opens as declarations and members do, a closing brace or the end:
a type would read on into a `<`, a vow into a `=`, and a pledge into a `[` or a brace.
-/

namespace Geas.Compiler.Parse

open Geas.Lib Geas.Lib.Descent
open Geas.Runtime (CString ascii)
open Filter (atTop)

/-! ## Parts -/

theorem le_deepest {α : Type} (levels : α → Nat) {parts : List α} {a : α} (inside : a ∈ parts) :
    levels a ≤ deepest levels parts := by
  induction parts with
  | nil => cases inside
  | cons part parts ih =>
      change levels a ≤ max (levels part) (deepest levels parts)
      rcases List.mem_cons.mp inside with rfl | later
      · exact Nat.le_max_left _ _
      · exact (ih later).trans (Nat.le_max_right _ _)

section Parts

variable {α : Type} {flag : Bool} {levels : Nat} {follow : Nat → Token → Prop}
  {opener : Kind → Prop}

/-- The elements of a comma list, each by itself. -/
theorem Items.of_each {f : Parsers → P α} {toks : α → List Token} {items : List α}
    (each : ∀ a ∈ items, Parses f a flag levels (toks a) follow)
    (opens : ∀ a ∈ items, ∃ t more, toks a = t :: more ∧ opener t.kind) :
    Items f flag levels follow opener items (items.map toks) := by
  induction items with
  | nil => exact .nil
  | cons a items ih =>
      have head := List.mem_cons_self (a := a) (l := items)
      refine .cons (each a head) (opens a head) (ih ?_ ?_)
      · exact fun b later => each b (List.mem_cons_of_mem a later)
      · exact fun b later => opens b (List.mem_cons_of_mem a later)

/-- The lines of a body, each by itself. -/
theorem LinesOf.of_each {element : Parsers → List α → P (List α)} {toks : α → List Token}
    {items : List α}
    (each : ∀ a ∈ items, ∀ᶠ n in atTop, LineOf opener (element (parsers n)) flag levels a (toks a)) :
    LinesOf opener element flag levels items (items.map toks) := by
  induction items with
  | nil => exact .of_forall fun _ => .nil
  | cons a items ih =>
      filter_upwards [each a List.mem_cons_self,
        ih fun b later => each b (List.mem_cons_of_mem a later)] with n line rest
      exact .cons line rest

end Parts

/-! ## What may follow -/

/-- The tokens the lines of a file and of the bodies of declarations open with. -/
def opensLine : Kind → Bool
  | .ident | .kw _ => true
  | _ => false

/-- What may follow a declaration or a member. -/
def EndsDecl (g : Nat) (t : Token) : Prop :=
  g = 0 ∧ ((t.nlBefore = true ∧ opensLine t.kind = true) ∨ t.kind = .rbrace ∨ t.kind = .eof)

namespace EndsDecl

variable {g : Nat} {t : Token}

theorem of_body (ends : EndsBody (opensLine · = true) g t) : EndsDecl g t :=
  ⟨ends.1, ends.2.imp_right .inl⟩

theorem sep (ends : EndsDecl g t) : EndsSep g t := by
  obtain ⟨outside, newLine | brace | eof⟩ := ends
  · exact .inr (.inr ⟨outside, newLine.1⟩)
  · exact .inr (.inl brace)
  · exact .inl eof

/-- No other token follows. -/
theorem kind_ne {k : Kind} (ends : EndsDecl g t) (other : opensLine k = false)
    (notBrace : k ≠ .rbrace) (notEof : k ≠ .eof) : t.kind ≠ k := by
  rintro rfl
  obtain ⟨-, newLine | brace | eof⟩ := ends
  · rw [newLine.2] at other
    cases other
  · exact notBrace brace
  · exact notEof eof

theorem type (ends : EndsDecl g t) : EndsType g t :=
  ends.kind_ne rfl (by decide) (by decide)

theorem expr {flag : Bool} {m : Nat} (ends : EndsDecl g t) : EndsExpr flag m g t := by
  obtain ⟨outside, newLine | brace | eof⟩ := ends
  · have breaks : Breaks g t := ⟨outside, newLine.1⟩
    exact ⟨⟨fun _ _ => newLine.1, .inl breaks⟩, .inl breaks⟩
  · exact .closing (by rw [brace]; rfl)
  · refine ⟨⟨fun _ here => ?_, .inr (by rw [eof]; rfl)⟩, .inr fun op here => ?_⟩
    · rw [eof] at here
      cases here
    · rw [eof] at here
      cases here

end EndsDecl

section Declarations

variable {flag : Bool} {levels : Nat}

/-! ## Fields, parameters and attributes -/

theorem fieldDecl_parses (what : String) {f : FieldNode} (spelled : FieldDeclSpelled f) (nl : Bool)
    (le : typeLevels f.ty ≤ levels) :
    Parses (fun r => fieldDecl r what) f flag levels (opened nl (fieldDeclToks f)) EndsType := by
  have typed : Parses (·.type) f.ty flag levels (typeToks f.ty) EndsType :=
    (opened_false_typeToks f.ty ▸ type_parses flag false f.ty spelled.2).weaken le
      fun _ _ follows => follows
  refine Filter.Eventually.mono typed fun n holds p rest before follows => ?_
  have before : Before flag levels (wordOn nl f.name :: sym .colon :: typeToks f.ty) rest p := before
  refine (Gives.ident before (spelled.1.kind nl) rfl).one before fun q group before => ?_
  refine (Gives.expect before rfl).one before fun q' group' before => ?_
  refine (holds q' rest before ?_).map
  rwa [group', group]

theorem fieldDecl_opens {f : FieldNode} (spelled : FieldDeclSpelled f) :
    ∃ t more, fieldDeclToks f = t :: more ∧ t.kind = .ident :=
  ⟨_, _, rfl, spelled.1⟩

/-- Fields in parentheses, of which there may be none. -/
theorem params_items (what : String) {params : List FieldNode} (spelled : ParamsSpelled params)
    (le : paramsLevels params ≤ levels) :
    Items (fun r => fieldDecl r what) flag levels EndsType (· = .ident) params
      (params.map fieldDeclToks) := by
  refine .of_each (fun f inside => ?_) fun f inside => fieldDecl_opens (spelled f inside)
  exact fieldDecl_parses what (spelled f inside) false ((le_deepest _ inside).trans le)

theorem namesGoOn : KeepsGoing pAtEof (· = .ident) := by
  intro p _ opens
  exact pAt_no (by rw [opens]; decide)

theorem params_parses {params : List FieldNode} (spelled : ParamsSpelled params)
    (le : paramsLevels params ≤ levels) :
    Parses (·.params) params flag levels (paramsToks params) fun _ _ => True := by
  refine .call parseParams (fun _ => rfl) ?_
  have listed : Parses _ params flag levels (commaSep (params.map fieldDeclToks)) _ :=
    (params_items "':' between the parameter name and its type" spelled le).commaList .rparen
      namesGoOn (fun _ => by simp [EndsType, sym, symOn]) (by decide) (by decide)
  refine Filter.Eventually.mono listed fun n holds p rest before _ => ?_
  refine (Gives.expect before rfl).one before fun q _ before => ?_
  refine Gives.inGroup (holds _ _ (before.regroup _).split
    ⟨rfl, by simp [EndsType, next, sym, symOn]⟩) fun q reads => ?_
  have closing := before.after reads
  exact (Gives.expect closing rfl).one closing fun _ _ _ => .pure

/-- Parentheses around fields of which there is one at least. -/
theorem variant_parses {v : VariantNode} (isIdent : IsIdent v.name)
    (spelled : ParamsSpelled v.fields) (le : paramsLevels v.fields ≤ levels) :
    Parses (·.variant) v flag levels (variantToks v)
      fun g t => Breaks g t ∨ t.kind ≠ .lparen := by
  refine .call parseVariant (fun _ => rfl) ?_
  obtain ⟨name, fields⟩ := v
  by_cases none : fields = []
  · subst none
    refine .of_forall fun n p rest before follows => ?_
    refine (Gives.ident before isIdent rfl).one before fun q group before => ?_
    refine .here (m := pAt .lparen) rfl (.here (m := pNlTerm) rfl ?_)
    rw [if_neg]
    · exact .pure
    · rintro ⟨opens, sameLine⟩
      rw [← group, ← before.tok_of_nil] at follows
      rcases follows with breaks | other
      · rw [Parser.nlTerm, before.running, breaks.1, breaks.2] at sameLine
        cases sameLine
      · exact other (of_decide_eq_true opens)
  · have items : Items _ flag levels EndsType (· = .ident) fields (fields.map fieldDeclToks) :=
      params_items "':' between the field name and its type" spelled le
    have toks : variantToks ⟨name, fields⟩ = word name :: paramsToks fields := by
      rw [variantToks, if_neg none]
    rw [toks]
    refine Filter.Eventually.mono items fun n each p rest before _ => ?_
    refine (Gives.ident before isIdent rfl).one before fun q _ before => ?_
    refine .here (pAt_yes before.kind) (.here (before.goesOn rfl) ?_)
    rw [if_pos ⟨rfl, rfl⟩]
    refine (Gives.bump before (by decide)).one before fun q _ before => ?_
    have goes : KeepsGoing (ask fun p => decide (p.kind = .rparen) || p.atEnd) (· = .ident) := by
      intro p running opens
      change Except.ok (decide (p.kind = .rparen) || (p.hitDepthLimit || decide (p.kind = .eof)), p) = _
      rw [running, opens]
      rfl
    have listed := commaLoop_gives each goes (fun _ => by simp [EndsType, sym, symOn]) none []
      { q with groupDepth := q.groupDepth + 1 } _ (before.regroup _).split
      (by simp [EndsType, next, sym, symOn]) (by simp [next, sym, symOn])
    refine Gives.inGroup listed fun q reads => ?_
    have closing := before.after reads
    exact (Gives.expect closing rfl).one closing fun _ _ _ => .pure

theorem attrKey_ident {key : CString} (known : attrKeyKnown key = true) : IsIdent key := by
  have spelled : key = ascii "version" ∨ key = ascii "abi" ∨ key = ascii "symbol" := by
    simpa [attrKeyKnown] using known
  rcases spelled with rfl | rfl | rfl <;> (rw [IsIdent]; decide)

theorem attr_gives {a : AttrNode} (known : attrKeyKnown a.key = true) {p : Parser}
    {rest : List Token} (before : Before flag levels (attrToks a) rest p) :
    Gives parseAttr (some a) (attrToks a) p := by
  have key : Gives attrKey a.key [word a.key] p := by
    refine ((Gives.ident before (attrKey_ident known) rfl).bind fun q _ => ?_).cast
      (List.append_nil _)
    change Gives (if attrKeyKnown a.key = true then pure a.key else _) _ _ q
    rw [if_pos known]
    exact .pure
  refine key.one before fun q _ before => ?_
  refine (Gives.expect before rfl).one before fun q _ before => ?_
  exact (Gives.literal before rfl).one before fun _ _ _ => .pure

theorem attrs_items {attrs : List AttrNode} (spelled : AttrsSpelled attrs) :
    List.Forall₂ (Item parseAttr flag levels (fun _ _ => True) (· = .ident))
      (attrs.map Option.some) (attrs.map attrToks) := by
  induction attrs with
  | nil => exact .nil
  | cons a attrs ih =>
      have known := spelled a List.mem_cons_self
      refine .cons ⟨fun p rest before _ => attr_gives known before, _, _, rfl, attrKey_ident known⟩ ?_
      exact ih fun b later => spelled b (List.mem_cons_of_mem a later)

theorem attrs_parses {attrs : List AttrNode} (spelled : AttrsSpelled attrs) (some : attrs ≠ []) :
    Parses (·.attrs) attrs flag levels (attrsToks attrs) fun _ _ => True := by
  refine .call (fun _ => parseAttrs) (fun _ => rfl) (.of_forall fun n p rest before _ => ?_)
  rw [attrsToks, if_neg some] at before ⊢
  refine (Gives.bump before (by decide)).one before fun q _ before => ?_
  have goes : KeepsGoing (ask fun p => decide (p.kind = .rbracket) || p.atEnd) (· = .ident) := by
    intro p running opens
    change Except.ok (decide (p.kind = .rbracket) || (p.hitDepthLimit || decide (p.kind = .eof)), p) =
      _
    rw [running, opens]
    rfl
  have listed := commaLoop_gives (attrs_items spelled) goes (fun _ => trivial) (by simpa using some) []
    { q with groupDepth := q.groupDepth + 1 } _ (before.regroup _).split trivial
    (by simp [next, sym, symOn])
  refine Gives.inGroup listed fun q reads => ?_
  have closing := before.after reads
  refine (Gives.expect closing rfl).one closing fun _ _ _ => ?_
  have kept : (attrs.map Option.some).filterMap id = attrs := by
    rw [List.filterMap_map]
    exact List.filterMap_some
  rw [List.nil_append, kept]
  exact .pure

theorem attrs_eventually {attrs : List AttrNode} (spelled : AttrsSpelled attrs) :
    ∀ᶠ n in atTop, attrs ≠ [] → ∀ p rest, Before flag levels (attrsToks attrs) rest p →
      Gives (parsers n).attrs attrs (attrsToks attrs) p := by
  by_cases none : attrs = []
  · exact .of_forall fun _ some => absurd none some
  · exact (attrs_parses spelled none).mono fun _ holds _ p rest before => holds p rest before trivial

/-- What must open on the line of its header, and does. -/
theorem onThisLine_some {α : Type} {m : P α} {a : α} {t : Token} {toks rest : List Token}
    {p : Parser} (given : Gives m a (t :: toks) p)
    (before : Before flag levels (t :: toks) rest p) (sameLine : t.nlBefore = false) :
    Gives (onThisLine t.kind m) (some a) (t :: toks) p := by
  refine .here (pAt_yes before.kind) (.here (m := pNlHere) rfl ?_)
  change Gives (optionally (true && !p.tok.nlBefore) m) _ _ p
  rw [before.tok, sameLine]
  exact given.map

/-- What must open on the line of its header, and does not. -/
theorem onThisLine_none {α : Type} {m : P α} {k : Kind} {p : Parser}
    (absent : p.kind ≠ k ∨ p.tok.nlBefore = true) : onThisLine k m p = .ok (none, p) := by
  refine (run_bind (m := pAt k) rfl).trans ((run_bind (m := pNlHere) rfl).trans ?_)
  have no : (decide (p.kind = k) && !p.tok.nlBefore) = false := by
    rcases absent with other | newLine
    · rw [decide_eq_false other]
      rfl
    · rw [newLine, Bool.not_true, Bool.and_false]
  rw [no]
  rfl

/-- The attributes, if there are any. -/
theorem attrs_gives {r : Parsers} {attrs : List AttrNode} {more rest : List Token} {p : Parser}
    (listed : attrs ≠ [] → ∀ p rest, Before flag levels (attrsToks attrs) rest p →
      Gives r.attrs attrs (attrsToks attrs) p)
    (before : Before flag levels (attrsToks attrs ++ more) rest p)
    (others : (next (more ++ rest)).kind ≠ .lbracket ∨ (next (more ++ rest)).nlBefore = true) :
    ∃ written : Option (List AttrNode), written.getD [] = attrs ∧
      Gives (onThisLine .lbracket r.attrs) written (attrsToks attrs) p := by
  by_cases none : attrs = []
  · subst none
    have before : Before flag levels more rest p := before
    have here : p.tok = next (more ++ rest) := by rw [Parser.tok, before.toks]; rfl
    refine ⟨Option.none, rfl, .stays (onThisLine_none ?_)⟩
    rwa [Parser.kind, here]
  · have given := listed none p _ before.split
    refine ⟨some attrs, rfl, ?_⟩
    rw [attrsToks, if_neg none] at before given ⊢
    exact onThisLine_some given before.split rfl

/-! ## Signatures -/

/-- The parts of a signature, before what follows them. -/
theorem signature_gives {β : Type} {r : Parsers} {name : CString} {params : List FieldNode}
    {ret : TypeNode} {msg : String} {more rest : List Token} {p : Parser}
    {f : CString → List FieldNode → TypeNode → P β} {b : β} (isIdent : IsIdent name)
    (parameters : ∀ p rest, Before flag levels (paramsToks params) rest p →
      Gives r.params params (paramsToks params) p)
    (typed : ∀ p rest, Before flag levels (typeToks ret) rest p →
      EndsType p.groupDepth (next rest) → Gives r.type ret (typeToks ret) p)
    (before : Before flag levels (signatureToks name params ret ++ more) rest p)
    (ends : EndsType p.groupDepth (next (more ++ rest)))
    (tail : ∀ q, q.groupDepth = p.groupDepth → Before flag levels more rest q →
      Gives (f name params ret) b more q) :
    Gives (do
      let name ← pIdent
      let params ← r.params
      let ret ← arrowType r msg
      f name params ret) b (signatureToks name params ret ++ more) p := by
  unfold signatureToks at before ⊢
  rw [List.cons_append] at before ⊢
  refine (Gives.ident before isIdent rfl).one before fun q group before => ?_
  rw [List.append_assoc] at before ⊢
  refine (parameters q _ before.split).part before fun q' group' before => ?_
  rw [List.cons_append] at before ⊢
  have groups := group'.trans group
  have arrow : Gives (arrowType r msg) ret (sym .arrow :: typeToks ret) q' := by
    have whole : Before flag levels ((sym .arrow :: typeToks ret) ++ more) rest q' := before
    have before := whole.split
    refine (Gives.eat before rfl).one before fun u group'' before => ?_
    refine typed u _ before ?_
    rwa [group'', groups]
  exact arrow.part before fun u group'' before => tail u (group''.trans groups) before

theorem type_alone {ty : TypeNode} (spelled : TypeSpelled ty) (le : typeLevels ty ≤ levels) :
    Parses (·.type) ty flag levels (typeToks ty) EndsType :=
  (opened_false_typeToks ty ▸ type_parses flag false ty spelled).weaken le
    fun _ _ follows => follows

theorem clauseSig_line {s : ClauseSigNode} (spelled : SignatureSpelled s.name s.params s.ret)
    (le : signatureLevels s.params s.ret ≤ levels) :
    ∀ᶠ n in atTop, LineOf (opensLine · = true) (clauseSig (parsers n)) flag levels s
      (onNewLine (clauseSigToks s)) := by
  obtain ⟨isIdent, params, ret⟩ := spelled
  have parameters : Parses (·.params) s.params flag levels _ _ :=
    params_parses params ((Nat.le_max_left _ _).trans le)
  have typed : Parses (·.type) s.ret flag levels _ _ :=
    type_alone ret ((Nat.le_max_right _ _).trans le)
  filter_upwards [parameters, typed] with n parameters typed
  refine ⟨fun seen p rest before ends => ?_, symOn true (.kw .clause), _, rfl, rfl, by decide,
    by decide, rfl⟩
  have before : Before flag levels (symOn true (.kw .clause) :: signatureToks s.name s.params s.ret)
    rest p := before
  have ends := EndsDecl.of_body ends
  refine (Gives.eatKw before rfl).one before fun q group before => ?_
  rw [← List.append_nil (signatureToks s.name s.params s.ret)] at before ⊢
  have here : EndsDecl q.groupDepth (next rest) := by rwa [group]
  refine signature_gives isIdent (fun p rest before => parameters p rest before trivial) typed before
    here.type fun u group' before => ?_
  refine (pSep_gives ?_ _).bind fun _ _ => .pure
  rw [group', before.tok_of_nil]
  exact here.sep

/-! ## Pledges, clauses and subcontracts -/

/-- The body of a pledge, if it has one. -/
theorem body_gives {r : Parsers} {body : Option (List Stmt)} {rest : List Token} {p : Parser}
    (blocks : ∀ stmts, body = some stmts → ∀ p rest,
      Before flag levels (inBraces (stmtsToks stmts)) rest p →
        Gives r.block stmts (inBraces (stmtsToks stmts)) p)
    (before : Before flag levels (body.elim [] fun body => inBraces (stmtsToks body)) rest p)
    (ends : EndsDecl p.groupDepth (next rest)) :
    Gives (onThisLine .lbrace r.block) body (body.elim [] fun body => inBraces (stmtsToks body)) p := by
  cases body with
  | none =>
      have before : Before flag levels [] rest p := before
      refine .stays (onThisLine_none (.inl ?_))
      rw [before.kind_of_nil]
      exact ends.kind_ne rfl (by decide) (by decide)
  | some stmts => exact onThisLine_some (blocks stmts rfl p rest before) before rfl

/-- What follows the return type of a pledge is none of its type. -/
theorem pledgeTail_type {attrs : List AttrNode} {body : Option (List Stmt)} {rest : List Token}
    {g : Nat} (ends : EndsDecl g (next rest)) :
    EndsType g (next ((attrsToks attrs ++ body.elim [] fun body => inBraces (stmtsToks body)) ++
      rest)) := by
  unfold attrsToks
  split
  · cases body with
    | none => exact ends.type
    | some body => exact fun here => by cases here
  · exact fun here => by cases here

theorem block_alone {body : List Stmt} (spelled : StmtsSpelled body) (clear : StmtsClear flag body)
    (le : 1 + stmtsLevels body ≤ levels) :
    Parses (·.block) body flag levels (inBraces (stmtsToks body)) fun _ _ => True :=
  (stmts_lines flag body spelled clear _ (Nat.le_refl _)).block le

theorem pledge_parses {p : PledgeNode} (spelled : PledgeSpelled p) (clear : PledgeClear p)
    (nl : Bool) (le : pledgeLevels p ≤ levels) :
    Parses (·.pledge) p false levels (opened nl (pledgeToks p)) EndsDecl := by
  obtain ⟨name, params, ret, attrs, body⟩ := p
  obtain ⟨⟨isIdent, spelledParams, spelledRet⟩, spelledAttrs, spelledBody⟩ := spelled
  simp only [pledgeLevels, signatureLevels] at le
  refine .call parsePledge (fun _ => rfl) ?_
  have parameters : Parses (·.params) params false levels _ _ := params_parses spelledParams (by omega)
  have typed : Parses (·.type) ret false levels _ _ := type_alone spelledRet (by omega)
  have blocks : ∀ᶠ n in atTop, ∀ stmts, body = some stmts → ∀ p rest,
      Before false levels (inBraces (stmtsToks stmts)) rest p →
        Gives (parsers n).block stmts (inBraces (stmtsToks stmts)) p := by
    cases body with
    | none => exact .of_forall fun _ _ same => by cases same
    | some stmts =>
        have le : 1 + stmtsLevels stmts ≤ levels := (Nat.le_max_right _ _).trans le
        refine (block_alone (spelledBody stmts rfl) (clear stmts rfl) le).mono fun _ holds _ same => ?_
        cases same
        exact fun p rest before => holds p rest before trivial
  filter_upwards [parameters, typed, attrs_eventually spelledAttrs, blocks]
    with n parameters typed listed blocks q rest before ends
  have before : Before false levels (symOn nl (.kw .pledge) :: (signatureToks name params ret ++
      attrsToks attrs ++ body.elim [] fun body => inBraces (stmtsToks body))) rest q := before
  refine (Gives.bump before (by simp [symOn])).one before fun u group before => ?_
  rw [List.append_assoc] at before ⊢
  rw [← group] at ends
  refine signature_gives isIdent (fun p rest before => parameters p rest before trivial) typed before
    (pledgeTail_type ends) fun v group before => ?_
  rw [← group] at ends
  have notBracket : (next ((body.elim [] fun body => inBraces (stmtsToks body)) ++ rest)).kind ≠
      .lbracket := by
    cases body with
    | none => exact ends.kind_ne rfl (by decide) (by decide)
    | some body => exact fun here => by cases here
  obtain ⟨written, same, given⟩ := attrs_gives listed before (.inl notBracket)
  refine given.part before fun w group before => ?_
  rw [← group] at ends
  subst same
  exact (body_gives blocks before ends).map

theorem clause_parses {c : ClauseNode} (spelled : ClauseSpelled c) (clear : StmtsClear false c.body)
    (nl : Bool) (le : clauseLevels c ≤ levels) :
    Parses (·.clause) c false levels (opened nl (clauseToks c)) EndsDecl := by
  obtain ⟨name, params, ret, body⟩ := c
  obtain ⟨⟨isIdent, spelledParams, spelledRet⟩, spelledBody⟩ := spelled
  simp only [clauseLevels, signatureLevels] at le
  refine .call parseClause (fun _ => rfl) ?_
  have parameters : Parses (·.params) params false levels _ _ := params_parses spelledParams (by omega)
  have typed : Parses (·.type) ret false levels _ _ := type_alone spelledRet (by omega)
  have blocks : Parses (·.block) body false levels _ _ := block_alone spelledBody clear (by omega)
  filter_upwards [parameters, typed, blocks] with n parameters typed blocks q rest before ends
  have before : Before false levels (symOn nl (.kw .clause) :: (signatureToks name params ret ++
      inBraces (stmtsToks body))) rest q := before
  refine (Gives.bump before (by simp [symOn])).one before fun u group before => ?_
  refine signature_gives isIdent (fun p rest before => parameters p rest before trivial) typed before
    (fun here => by cases here) fun v group before => ?_
  have given := onThisLine_some (blocks v rest before trivial) before rfl
  refine (Gives.bind given fun _ _ => ?_).cast (List.append_nil _)
  exact .pure

/-- One pledge of a subcontract. -/
theorem subPledge_line {p : PledgeNode} (spelled : PledgeSpelled p) (clear : PledgeClear p)
    (le : pledgeLevels p ≤ levels) :
    ∀ᶠ n in atTop, LineOf (opensLine · = true) (subElement (parsers n)) false levels p
      (onNewLine (pledgeToks p)) := by
  refine (pledge_parses spelled clear true le).mono fun n holds => ?_
  refine ⟨fun seen q rest before ends => ?_, symOn true (.kw .pledge), _, rfl, rfl, by decide,
    by decide, rfl⟩
  have here : q.kind = .kw .pledge := Before.kind (t := symOn true (.kw .pledge)) before
  refine .here (pAt_yes here) ?_
  exact (holds q rest before (.of_body ends)).sep before ends.sep _

/-- The name of a subcontract, if it has one. -/
theorem subName_leads {β : Type} {name : Option CString} {more rest : List Token} {p : Parser}
    {f : Option CString → P β} (isIdent : ∀ n, name = some n → IsIdent n)
    (other : (next (more ++ rest)).kind ≠ .ident)
    (before : Before flag levels ((name.elim [] fun name => [word name]) ++ more) rest p) :
    Leads (do
      let named ← pAt .ident
      let name ← optionally named pIdent
      f name) (f name) (name.elim [] fun name => [word name]) p := by
  cases name with
  | none =>
      have before : Before flag levels more rest p := before
      have absent : p.kind ≠ .ident := by
        rw [Parser.kind, Parser.tok, before.toks]
        exact other
      refine ⟨p, .refl p, (run_bind (pAt_no absent)).trans ?_⟩
      exact run_bind (m := optionally false pIdent) rfl
  | some name =>
      have before : Before flag levels (word name :: more) rest p := before
      have present : p.kind = .ident := before.kind.trans (isIdent name rfl)
      have named : Gives (optionally true pIdent) (some name) [word name] p :=
        (Gives.ident before (isIdent name rfl) rfl).map
      obtain ⟨q, reads, runs⟩ := Leads.bind (f := f) named
      exact ⟨q, reads, (run_bind (pAt_yes present)).trans runs⟩

theorem Reads.subOpened {toks : List Token} {p q : Parser} (reads : Reads toks p.subOpened q) :
    Reads toks p q.subClosed :=
  ⟨reads.toks, reads.pos, reads.errors, reads.groupDepth, reads.depth, reads.hitDepthLimit,
    reads.noRecord⟩

theorem sub_parses {s : SubNode} (spelled : SubSpelled s) (clear : ∀ p ∈ s.pledges, PledgeClear p)
    (le : deepest pledgeLevels s.pledges ≤ levels) :
    Parses (·.subcontract) s false levels (onNewLine (subToks s)) EndsDecl := by
  obtain ⟨name, pledges, transactional⟩ := s
  refine .call parseSubcontract (fun _ => rfl) ?_
  have lines : LinesOf (opensLine · = true) subElement false levels pledges
      (pledges.map fun p => onNewLine (pledgeToks p)) :=
    .of_each fun p inside => subPledge_line (spelled.2 p inside) (clear p inside)
      ((le_deepest _ inside).trans le)
  refine Filter.Eventually.mono lines fun n lines q rest before ends => ?_
  have before : Before false levels (symOn true (.kw .subcontract) ::
      ((name.elim [] fun name => [word name]) ++ (if transactional then
        [sym (.kw .transactional)] else []) ++ bodyToks pledgeToks pledges)) rest q := before
  refine (Gives.bump before (by decide)).one before fun u group before => ?_
  rw [← group] at ends
  have inside : Gives (subcontractRest (parsers n)) ⟨name, pledges, transactional⟩
      ((name.elim [] fun name => [word name]) ++ (if transactional then
        [sym (.kw .transactional)] else []) ++ bodyToks pledgeToks pledges) u.subOpened := by
    have before : Before false levels _ rest u.subOpened :=
      ⟨before.toks, before.running, before.noRecord, before.depth⟩
    have outside : u.subOpened.groupDepth = 0 := ends.1
    rw [List.append_assoc] at before ⊢
    refine (subName_leads spelled.1 ?_ before).gives fun v reads => ?_
    · cases transactional <;> exact fun here => by cases here
    have outside := reads.groupDepth.trans outside
    have before := before.after reads
    refine (optionalKw_gives ⟨_, _, rfl, fun here => by cases here⟩ before).part before
      fun w group before => ?_
    have outside := group.trans outside
    refine (Gives.expect before rfl).one before fun x group before => ?_
    have listed := bodyLoop_gives lines "unexpected token in the subcontract" [] x _ before.split
      (group.trans outside) rfl
    refine listed.part before fun y _ before => ?_
    exact (expectClose_gives before _).one before fun _ _ _ => .pure
  obtain ⟨_, v, runs, rfl, reads⟩ := inside
  exact ⟨_, _, (run_bind (m := update Parser.subOpened) rfl).trans ((run_bind runs).trans rfl), rfl,
    reads.subOpened⟩

/-! ## Requirements -/

theorem reqLine_parses {e : Formula CString} (spelled : ReqSpelled e)
    (le : 1 + reqLevels e ≤ levels) :
    Parses (·.reqLine) e flag levels (sym .colon :: reqToks e) EndsDecl := by
  refine .call parseReqLine (fun _ => rfl) ?_
  have formula : Parses (·.reqOr) e flag levels (reqToks e) EndsReq :=
    (req_printed flag e spelled).reqOr.weaken (by omega) fun _ _ follows => follows
  refine Filter.Eventually.mono formula fun n holds p rest before ends => ?_
  refine (Gives.expect before rfl).one before fun q group before => ?_
  rw [← group] at ends
  have follows : EndsReq q.groupDepth (next rest) :=
    .inr ⟨ends.kind_ne rfl (by decide) (by decide), ends.kind_ne rfl (by decide) (by decide)⟩
  exact (holds q rest before follows).sep before ends.sep _

/-- A line of a label that was not written before. -/
theorem reqLabel_gives {r : Parsers} {e : Formula CString} {label : Token} {msg : String}
    {rest : List Token} {p : Parser} (real : label.kind ≠ .eof)
    (lines : ∀ p rest, Before flag levels (sym .colon :: reqToks e) rest p →
      EndsDecl p.groupDepth (next rest) → Gives r.reqLine e (sym .colon :: reqToks e) p)
    (before : Before flag levels (label :: sym .colon :: reqToks e) rest p)
    (ends : EndsDecl p.groupDepth (next rest)) :
    Gives (reqLabel r none msg) (some e) (label :: sym .colon :: reqToks e) p := by
  refine (Gives.bump before real).one before fun q group before => ?_
  exact (lines q rest before (by rwa [group])).map

/-- A line of a requirements block that may be left out. -/
theorem reqLine_leads {r : Parsers} {label : Token} {e : Option (Formula CString)}
    {block : ReqBlockNode} (block' : ReqBlockNode) {ctx : String} {more rest : List Token} {p : Parser}
    (absent : e = none → block' = block)
    (present : ∀ e', e = some e' → ∀ p rest,
      Before flag levels (onNewLine (label :: sym .colon :: reqToks e')) rest p →
        EndsDecl p.groupDepth (next rest) →
          Gives (reqElement r block) block' (onNewLine (label :: sym .colon :: reqToks e')) p)
    (notBrace : label.kind ≠ .rbrace) (real : label.kind ≠ .eof)
    (before : Before flag levels (reqLineToks label e ++ more) rest p)
    (ends : EndsDecl p.groupDepth (next (more ++ rest))) :
    Leads (bodyLoop ctx (reqElement r) block) (bodyLoop ctx (reqElement r) block')
      (reqLineToks label e) p := by
  cases e with
  | none =>
      obtain rfl := absent rfl
      exact ⟨p, .refl p, rfl⟩
  | some e =>
      have given := present e rfl p _ before.split ends
      exact .again (bodyTurn_gives given before.split notBrace real ctx) (List.cons_ne_nil _ _)

theorem fulfill_isIdent : IsIdent (ascii "fulfill") := by rw [IsIdent]; decide

theorem partial_isIdent : IsIdent (ascii "partial") := by rw [IsIdent]; decide

theorem pIdentIs_at {text : String} {name : CString} (isIdent : IsIdent name) {nl : Bool}
    {toks rest : List Token} {p : Parser}
    (before : Before flag levels (wordOn nl name :: toks) rest p) :
    pIdentIs text p = .ok (decide (name = ascii text), p) := by
  change Except.ok (decide (p.kind = .ident ∧ p.tok.text = ascii text), p) = _
  have text' : (wordOn nl name).text = name := rfl
  rw [before.tok, text', before.kind, isIdent.kind]
  simp

theorem pIdentIs_kw {text : String} {w : Keyword} {p : Parser} (here : p.kind = .kw w) :
    pIdentIs text p = .ok (false, p) := by
  change Except.ok (decide (p.kind = .ident ∧ p.tok.text = ascii text), p) = _
  rw [here]
  simp

section Lines

variable {r : Parsers} {e : Formula CString} {block : ReqBlockNode} {rest : List Token} {p : Parser}

theorem fulfill_gives (unset : block.fulfill = none)
    (lines : ∀ p rest, Before flag levels (sym .colon :: reqToks e) rest p →
      EndsDecl p.groupDepth (next rest) → Gives r.reqLine e (sym .colon :: reqToks e) p)
    (before : Before flag levels (onNewLine (word (ascii "fulfill") :: sym .colon :: reqToks e)) rest
      p) (ends : EndsDecl p.groupDepth (next rest)) :
    Gives (reqElement r block) { block with fulfill := some e }
      (onNewLine (word (ascii "fulfill") :: sym .colon :: reqToks e)) p := by
  have before : Before flag levels (wordOn true (ascii "fulfill") :: sym .colon :: reqToks e) rest p :=
    before
  refine .here (pIdentIs_at fulfill_isIdent before) ?_
  rw [if_pos (by decide), unset]
  exact (reqLabel_gives (fulfill_isIdent.real true) lines before ends).map

theorem partial_gives (unset : block.partly = none)
    (lines : ∀ p rest, Before flag levels (sym .colon :: reqToks e) rest p →
      EndsDecl p.groupDepth (next rest) → Gives r.reqLine e (sym .colon :: reqToks e) p)
    (before : Before flag levels (onNewLine (word (ascii "partial") :: sym .colon :: reqToks e)) rest
      p) (ends : EndsDecl p.groupDepth (next rest)) :
    Gives (reqElement r block) { block with partly := some e }
      (onNewLine (word (ascii "partial") :: sym .colon :: reqToks e)) p := by
  have before : Before flag levels (wordOn true (ascii "partial") :: sym .colon :: reqToks e) rest p :=
    before
  refine .here (pIdentIs_at partial_isIdent before) ?_
  rw [if_neg (by decide)]
  refine .here (pIdentIs_at partial_isIdent before) ?_
  rw [if_pos (by decide), unset]
  exact (reqLabel_gives (partial_isIdent.real true) lines before ends).map

theorem break_gives (unset : block.brk = none)
    (lines : ∀ p rest, Before flag levels (sym .colon :: reqToks e) rest p →
      EndsDecl p.groupDepth (next rest) → Gives r.reqLine e (sym .colon :: reqToks e) p)
    (before : Before flag levels (onNewLine (sym (.kw .break_) :: sym .colon :: reqToks e)) rest p)
    (ends : EndsDecl p.groupDepth (next rest)) :
    Gives (reqElement r block) { block with brk := some e }
      (onNewLine (sym (.kw .break_) :: sym .colon :: reqToks e)) p := by
  have before : Before flag levels (symOn true (.kw .break_) :: sym .colon :: reqToks e) rest p :=
    before
  refine .here (pIdentIs_kw before.kind) (.here (pIdentIs_kw before.kind) ?_)
  refine .here (pAt_yes (k := .kw .break_) before.kind) ?_
  rw [unset]
  exact (reqLabel_gives (by decide) lines before ends).map

end Lines

/-- A line of a requirements block, or whatever stands behind it, ends the line before. -/
theorem reqLines_end {label : Token} {e : Option (Formula CString)} {more : List Token} {g : Nat}
    (outside : g = 0) (opens : opensLine label.kind = true) (ends : EndsDecl g (next more)) :
    EndsDecl g (next (reqLineToks label e ++ more)) := by
  cases e with
  | none => exact ends
  | some e => exact ⟨outside, .inl ⟨rfl, opens⟩⟩

/-- The expression of a line is read back, if the line is written. -/
def LineReads (r : Parsers) (flag : Bool) (levels : Nat) (e : Option (Formula CString)) : Prop :=
  ∀ e', e = some e' → ∀ p rest, Before flag levels (sym .colon :: reqToks e') rest p →
    EndsDecl p.groupDepth (next rest) → Gives r.reqLine e' (sym .colon :: reqToks e') p

theorem lineReads_eventually {e : Option (Formula CString)}
    (spelled : ∀ e', e = some e' → ReqSpelled e') (le : reqLineLevels e ≤ levels) :
    ∀ᶠ n in atTop, LineReads (parsers n) flag levels e := by
  cases e with
  | none => exact .of_forall fun _ _ same => by cases same
  | some e =>
      have parses : Parses (·.reqLine) e flag levels _ _ := reqLine_parses (spelled e rfl) le
      refine Filter.Eventually.mono parses fun _ holds _ same => ?_
      cases same
      exact holds

/-- The three lines, in the order they are printed in. -/
theorem reqLines_gives {r : Parsers} {fulfill partly brk : Option (Formula CString)} {ctx : String}
    {rest : List Token} {p : Parser} (fulfills : LineReads r flag levels fulfill)
    (partlys : LineReads r flag levels partly) (brks : LineReads r flag levels brk)
    (before : Before flag levels (reqLineToks (word (ascii "fulfill")) fulfill ++
      (reqLineToks (word (ascii "partial")) partly ++ (reqLineToks (sym (.kw .break_)) brk ++ [])))
      rest p) (outside : p.groupDepth = 0) (closes : (next rest).kind = .rbrace) :
    Gives (bodyLoop ctx (reqElement r) ⟨none, none, none⟩) ⟨fulfill, partly, brk⟩
      (reqLineToks (word (ascii "fulfill")) fulfill ++
        (reqLineToks (word (ascii "partial")) partly ++ (reqLineToks (sym (.kw .break_)) brk ++ [])))
      p := by
  have closing (q : Parser) (group : q.groupDepth = 0) : EndsDecl q.groupDepth (next rest) :=
    ⟨group, .inr (.inl closes)⟩
  have last (q : Parser) (group : q.groupDepth = 0) : EndsDecl q.groupDepth
      (next (reqLineToks (sym (.kw .break_)) brk ++ [] ++ rest)) := by
    rw [List.append_nil]
    exact reqLines_end group rfl (closing q group)
  refine (reqLine_leads ⟨fulfill, none, none⟩ (fun same => by rw [same]) ?_ ?_ ?_ before
    ?_).gives fun q reads => ?_
  · rintro e rfl p rest before ends
    exact fulfill_gives rfl (fulfills e rfl) before ends
  · exact fun here => by cases here
  · exact fun here => by cases here
  · rw [List.append_assoc]
    exact reqLines_end outside rfl (last p outside)
  have outside := reads.groupDepth.trans outside
  have before := before.after reads
  refine (reqLine_leads ⟨fulfill, partly, none⟩ (fun same => by rw [same]) ?_ ?_ ?_ before
    (last q outside)).gives fun u reads => ?_
  · rintro e rfl p rest before ends
    exact partial_gives rfl (partlys e rfl) before ends
  · exact fun here => by cases here
  · exact fun here => by cases here
  have outside := reads.groupDepth.trans outside
  have before := before.after reads
  refine (reqLine_leads ⟨fulfill, partly, brk⟩ (fun same => by rw [same]) ?_ ?_ ?_ before
    (closing u outside)).gives fun v reads => ?_
  · rintro e rfl p rest before ends
    exact break_gives rfl (brks e rfl) before ends
  · exact fun here => by cases here
  · exact fun here => by cases here
  have atBrace : v.kind = .rbrace := (before.after reads).kind_of_nil.trans closes
  exact .loop_stop (.here (pAt_yes atBrace) .pure)

theorem requirements_parses {block : ReqBlockNode}
    (spelled : ∀ e, block.fulfill = some e ∨ block.partly = some e ∨ block.brk = some e →
      ReqSpelled e)
    (le : max (reqLineLevels block.fulfill) (max (reqLineLevels block.partly)
      (reqLineLevels block.brk)) ≤ levels) :
    Parses (·.requirements) block flag levels (onNewLine (requirementsToks block)) EndsDecl := by
  refine .call parseRequirements (fun _ => rfl) ?_
  have fulfills : ∀ᶠ n in atTop, LineReads (parsers n) flag levels block.fulfill :=
    lineReads_eventually (fun e same => spelled e (.inl same)) (by omega)
  have partlys : ∀ᶠ n in atTop, LineReads (parsers n) flag levels block.partly :=
    lineReads_eventually (fun e same => spelled e (.inr (.inl same))) (by omega)
  have brks : ∀ᶠ n in atTop, LineReads (parsers n) flag levels block.brk :=
    lineReads_eventually (fun e same => spelled e (.inr (.inr same))) (by omega)
  filter_upwards [fulfills, partlys, brks] with n fulfills partlys brks p rest before ends
  have before : Before flag levels (symOn true (.kw .requirements) :: inBraces
      (reqLineToks (word (ascii "fulfill")) block.fulfill ++
        reqLineToks (word (ascii "partial")) block.partly ++
          reqLineToks (sym (.kw .break_)) block.brk)) rest p := before
  refine (Gives.bump before (by decide)).one before fun q group before => ?_
  refine (Gives.expect before rfl).one before fun q' group' before => ?_
  have outside : q'.groupDepth = 0 := group'.trans (group.trans ends.1)
  have lines : reqLineToks (word (ascii "fulfill")) block.fulfill ++
      reqLineToks (word (ascii "partial")) block.partly ++
        reqLineToks (sym (.kw .break_)) block.brk =
      reqLineToks (word (ascii "fulfill")) block.fulfill ++
        (reqLineToks (word (ascii "partial")) block.partly ++
          (reqLineToks (sym (.kw .break_)) block.brk ++ [])) := by
    rw [List.append_nil, List.append_assoc]
  rw [lines] at before ⊢
  refine (reqLines_gives fulfills partlys brks before.split outside rfl).part before
    fun u _ before => ?_
  exact (expectClose_gives before _).one before fun _ _ _ => .pure

/-! ## Bodies -/

/-- A body whose lines are fields. -/
theorem fieldLines (element : Parsers → P FieldNode) {what : String}
    (reads : ∀ r f toks p rest, Before flag levels toks rest p → EndsDecl p.groupDepth (next rest) →
      Gives (fieldDecl r what) f toks p → Gives (element r) f toks p)
    {fields : List FieldNode} (spelled : ParamsSpelled fields) (le : paramsLevels fields ≤ levels) :
    LinesOf (opensLine · = true)
      (fun r seen => element r >>= fun a => pure (seen ++ [a])) flag levels
      fields (fields.map fun f => onNewLine (fieldDeclToks f)) := by
  refine .of_each fun f inside => ?_
  have here := spelled f inside
  have declared : Parses (fun r => fieldDecl r what) f flag levels _ EndsType :=
    fieldDecl_parses what here true ((le_deepest _ inside).trans le)
  refine Filter.Eventually.mono declared fun n holds => ?_
  refine ⟨fun seen p rest before ends => ?_, wordOn true f.name, _, rfl, rfl, ?_, ?_, ?_⟩
  · have ends := EndsDecl.of_body ends
    exact (reads _ f _ p rest before ends (holds p rest before ends.type)).map
  · rw [here.1.kind]
    decide
  · rw [here.1.kind]
    decide
  · rw [here.1.kind]
    rfl

theorem record_parses {name : CString} {fields : List FieldNode} (isIdent : IsIdent name)
    (spelled : ParamsSpelled fields) (le : paramsLevels fields ≤ levels) :
    Parses (·.record) (.record name fields) flag levels
      (symOn true (.kw .record) :: word name :: bodyToks fieldDeclToks fields) EndsDecl := by
  refine .call parseRecord (fun _ => rfl) ?_
  have lines : LinesOf _ _ flag levels fields _ :=
    fieldLines recordFieldDecl (fun r f toks p rest before ends given =>
      given.sep before ends.sep _) spelled le
  refine Filter.Eventually.mono lines fun n lines p rest before ends => ?_
  refine (Gives.bump before (by simp [symOn])).one before fun q group before => ?_
  refine (Gives.ident before isIdent rfl).one before fun q' group' before => ?_
  refine (Gives.expect before rfl).one before fun u group'' before => ?_
  have outside : u.groupDepth = 0 := group''.trans (group'.trans (group.trans ends.1))
  refine (bodyLoop_gives lines _ [] u _ before.split outside rfl).part before fun v _ before => ?_
  exact (expectClose_gives before _).one before fun _ _ _ => .pure

theorem schema_parses {name : CString} {cols : List FieldNode} (isIdent : IsIdent name)
    (spelled : ParamsSpelled cols) (le : paramsLevels cols ≤ levels) :
    Parses (·.schema) (.schema name cols) flag levels
      (symOn true (.kw .schema) :: word name :: bodyToks fieldDeclToks cols) EndsDecl := by
  refine .call parseSchema (fun _ => rfl) ?_
  have lines : LinesOf _ _ flag levels cols _ :=
    fieldLines schemaColumn (fun r f toks p rest before ends given => by
      refine (given.bind fun q reads => ?_).cast (List.append_nil _)
      have behind := before.done reads
      rw [← reads.groupDepth] at ends
      have noComma : q.kind ≠ .comma := by
        rw [behind.kind_of_nil]
        exact ends.kind_ne rfl (by decide) (by decide)
      refine .here (pEat_not noComma) ?_
      refine (pSep_gives ?_ _).bind fun _ _ => .pure
      rw [behind.tok_of_nil]
      exact ends.sep) spelled le
  refine Filter.Eventually.mono lines fun n lines p rest before ends => ?_
  refine (Gives.bump before (by decide)).one before fun q group before => ?_
  refine (Gives.ident before isIdent rfl).one before fun q' group' before => ?_
  refine (Gives.expect before rfl).one before fun u group'' before => ?_
  have outside : u.groupDepth = 0 := group''.trans (group'.trans (group.trans ends.1))
  refine (bodyLoop_gives lines _ [] u _ before.split outside rfl).part before fun v _ before => ?_
  exact (expectClose_gives before _).one before fun _ _ _ => .pure

theorem prov_parses (internal nl : Bool) {name : CString} {sigs : List ClauseSigNode}
    (isIdent : IsIdent name) (spelled : ∀ s ∈ sigs, SignatureSpelled s.name s.params s.ret)
    (le : deepest (fun s => signatureLevels s.params s.ret) sigs ≤ levels) :
    Parses (fun r => r.prov internal) (.prov internal name sigs) flag levels
      (symOn nl (.kw .provisional) :: sym (.kw .clause) :: word name :: bodyToks clauseSigToks sigs)
      EndsDecl := by
  refine .call (fun r => parseProv r internal) (fun _ => rfl) ?_
  have lines : LinesOf (opensLine · = true) clauseSig flag levels sigs
      (sigs.map fun s => onNewLine (clauseSigToks s)) :=
    .of_each fun s inside => clauseSig_line (spelled s inside)
      ((le_deepest (fun s : ClauseSigNode => signatureLevels s.params s.ret) inside).trans le)
  refine Filter.Eventually.mono lines fun n lines p rest before ends => ?_
  refine (Gives.bump before (by simp [symOn])).one before fun q group before => ?_
  refine (Gives.expectKw before rfl).one before fun q' group' before => ?_
  refine (Gives.ident before isIdent rfl).one before fun u named before => ?_
  refine (Gives.expect before rfl).one before fun v opened before => ?_
  have outside : v.groupDepth = 0 := opened.trans (named.trans (group'.trans (group.trans ends.1)))
  refine (bodyLoop_gives lines _ [] v _ before.split outside rfl).part before fun w _ before => ?_
  exact (expectClose_gives before _).one before fun _ _ _ => .pure

/-! ## Sums -/

/-- Variants behind those that were read. -/
theorem sumLoop_gives {r : Parsers} {vars : List VariantNode}
    (each : ∀ v ∈ vars, ∀ p rest, Before flag levels (variantToks v) rest p →
      (Breaks p.groupDepth (next rest) ∨ (next rest).kind ≠ .lparen) →
        Gives r.variant v (variantToks v) p)
    (seen : List VariantNode) (p : Parser) (rest : List Token)
    (before : Before flag levels (vars.flatMap fun v => sym (.kw .or) :: variantToks v) rest p)
    (ends : EndsDecl p.groupDepth (next rest)) :
    Gives (pLoop (sumTurn r) seen) (seen ++ vars)
      (vars.flatMap fun v => sym (.kw .or) :: variantToks v) p := by
  induction vars generalizing seen p with
  | nil =>
      rw [List.append_nil]
      have before : Before flag levels [] rest p := before
      refine .loop_stop ?_
      by_cases here : p.kind = .kw .or
      · -- an `or` that opens a line is no part of the sum
        have newLine : Breaks p.groupDepth p.tok := by
          obtain ⟨outside, newLine | brace | eof⟩ := ends
          · exact ⟨outside, by rw [before.tok_of_nil]; exact newLine.1⟩
          · rw [before.kind_of_nil, brace] at here
            cases here
          · rw [before.kind_of_nil, eof] at here
            cases here
        exact .here (pAt_yes here) (.here (pNlTerm_yes newLine) .pure)
      · exact .here (pAt_no here) .pure
  | cons v vars ih =>
      rw [List.flatMap_cons] at before ⊢
      have follows : Breaks p.groupDepth
            (next ((vars.flatMap fun v => sym (.kw .or) :: variantToks v) ++ rest)) ∨
          (next ((vars.flatMap fun v => sym (.kw .or) :: variantToks v) ++ rest)).kind ≠ .lparen := by
        cases vars with
        | nil => exact .inr (ends.kind_ne rfl (by decide) (by decide))
        | cons v' vars => exact .inr fun here => by cases here
      have turned : Gives (sumTurn r seen) (.again (seen ++ [v])) (sym (.kw .or) :: variantToks v) p := by
        have before := before.split
        refine .here (pAt_yes (k := .kw .or) before.kind) (.here (before.goesOn rfl) ?_)
        refine (Gives.bump before (by decide)).one before fun q group before => ?_
        refine (each v List.mem_cons_self q _ before ?_).map
        rwa [group]
      refine (Leads.again turned (List.cons_ne_nil _ _)).gives fun q reads => ?_
      have done := ih (fun v' later => each v' (List.mem_cons_of_mem v later)) (seen ++ [v]) q
        (before.after reads) (by rwa [reads.groupDepth])
      rwa [List.append_assoc] at done

theorem variantsToks_cons (v : VariantNode) (vars : List VariantNode) :
    variantsToks (v :: vars) =
      variantToks v ++ vars.flatMap fun v => sym (.kw .or) :: variantToks v := by
  induction vars generalizing v with
  | nil => rw [variantsToks, List.flatMap_nil, List.append_nil]
  | cons v' vars ih =>
      rw [variantsToks, ih, List.flatMap_cons]
      · rfl
      · exact List.cons_ne_nil v' vars

theorem sum_parses {name : CString} {variants : List VariantNode} (isIdent : IsIdent name)
    (some : variants ≠ []) (spelled : ∀ v ∈ variants, IsIdent v.name ∧ ParamsSpelled v.fields)
    (le : deepest (fun v => paramsLevels v.fields) variants ≤ levels) :
    Parses (·.sum) (.sum name variants) flag levels
      (wordOn true name :: sym (.kw .is) :: sym (.kw .either) :: variantsToks variants) EndsDecl := by
  cases variants with
  | nil => exact absurd rfl some
  | cons v vars =>
      rw [variantsToks_cons]
      refine .call parseSum (fun _ => rfl) ?_
      have each (v' : VariantNode) (inside : v' ∈ v :: vars) :
          Parses (·.variant) v' flag levels (variantToks v') _ :=
        variant_parses (spelled v' inside).1 (spelled v' inside).2
          ((le_deepest (fun v : VariantNode => paramsLevels v.fields) inside).trans le)
      have all : ∀ᶠ n in atTop, ∀ v' ∈ v :: vars, ∀ p rest,
          Before flag levels (variantToks v') rest p →
            (Breaks p.groupDepth (next rest) ∨ (next rest).kind ≠ .lparen) →
              Gives (parsers n).variant v' (variantToks v') p :=
        (Filter.eventually_all_finite (List.finite_toSet (v :: vars))).mpr each
      refine Filter.Eventually.mono all fun n all p rest before ends => ?_
      refine (Gives.ident before (isIdent.kind true) rfl).one before fun q group before => ?_
      refine (Gives.bump before (by decide)).one before fun q' group' before => ?_
      refine (Gives.expectKw before rfl).one before fun u group'' before => ?_
      rw [← group, ← group', ← group''] at ends
      have follows : (next ((vars.flatMap fun v => sym (.kw .or) :: variantToks v) ++ rest)).kind ≠
          .lparen := by
        cases vars with
        | nil => exact ends.kind_ne rfl (by decide) (by decide)
        | cons v' vars => exact fun here => by cases here
      refine (all v List.mem_cons_self u _ before.split (.inr follows)).part before
        fun w group before => ?_
      rw [← group] at ends
      exact (sumLoop_gives (fun v' later => all v' (List.mem_cons_of_mem v later)) [v] w rest before
        ends).map

/-! ## Members and contracts -/

/-- The member a keyword opens. -/
theorem member_of {m : Member} {w : Keyword} {toks : List Token}
    (parses : ∀ᶠ n in atTop, ∀ p rest, Before flag levels (symOn true (.kw w) :: toks) rest p →
      EndsDecl p.groupDepth (next rest) →
        Gives (parseMember (parsers n)) (some m) (symOn true (.kw w) :: toks) p) :
    Parses (·.member) (some m) flag levels (symOn true (.kw w) :: toks) EndsDecl :=
  .call parseMember (fun _ => rfl) parses

theorem vow_parses {name : CString} {ty : TypeNode} {init : Option Expr}
    (spelled : FieldDeclSpelled ⟨name, ty⟩) (spelledInit : ∀ e, init = some e → ExprSpelled e)
    (clear : ∀ e, init = some e → Clear flag false e)
    (le : max (typeLevels ty) (init.elim 0 fun value => 1 + exprLevels false value) ≤ levels) :
    Parses (·.member) (some (.vow name ty init)) flag levels
      (symOn true (.kw .vow) :: (fieldDeclToks ⟨name, ty⟩ ++
        init.elim [] fun value => sym .assign :: exprToks false value)) EndsDecl := by
  have declared : Parses (fun r => fieldDecl r "':' between the vow name and its type") ⟨name, ty⟩
      flag levels (fieldDeclToks ⟨name, ty⟩) EndsType :=
    fieldDecl_parses _ spelled false ((Nat.le_max_left _ _).trans le)
  cases init with
  | none =>
      refine member_of (Filter.Eventually.mono declared fun n declared p rest before ends => ?_)
      refine .here (pKind_at before) ((Gives.bump before (by decide)).one before fun q group before => ?_)
      rw [← group] at ends
      refine (declared q _ before.split ends.type).part before fun u group before => ?_
      have noAssign : u.kind ≠ .assign := by
        rw [before.kind_of_nil]
        exact ends.kind_ne rfl (by decide) (by decide)
      exact .here (pEat_not noAssign) .pure
  | some value =>
      have expr : Parses (·.expr) value flag levels (exprToks false value) (EndsExpr flag 0) :=
        (expr_printed flag false value (spelledInit value rfl) (clear value rfl)).value
          (spelledInit value rfl) ((Nat.le_max_right _ _).trans le)
      refine member_of ?_
      filter_upwards [declared, expr] with n declared expr p rest before ends
      refine .here (pKind_at before) ((Gives.bump before (by decide)).one before fun q group before => ?_)
      rw [← group] at ends
      refine (declared q _ before.split fun here => by cases here).part before fun u group before => ?_
      rw [← group] at ends
      refine (Gives.eat before rfl).one before fun v group before => ?_
      rw [← group] at ends
      exact ((expr v rest before ends.expr).map (f := some)).map

theorem member_parses {m : Member} (spelled : MemberSpelled m) (clear : MemberClear m)
    (le : memberLevels m ≤ levels) :
    Parses (·.member) (some m) false levels (onNewLine (memberToks m)) EndsDecl := by
  cases m with
  | incorporate name =>
      refine member_of (.of_forall fun n p rest before ends => ?_)
      refine .here (pKind_at before) ((Gives.bump before (by decide)).one before fun q _ before => ?_)
      exact (Gives.ident before spelled rfl).map
  | vow name ty init => exact vow_parses spelled.1 spelled.2 clear le
  | pledge node =>
      refine member_of ((pledge_parses spelled clear true le).mono fun n holds p rest before ends => ?_)
      exact .here (pKind_at before) (holds p rest before ends).map
  | clause node =>
      refine member_of ((clause_parses spelled clear true le).mono fun n holds p rest before ends => ?_)
      exact .here (pKind_at before) (holds p rest before ends).map
  | subcontract node =>
      refine member_of ((sub_parses spelled clear le).mono fun n holds p rest before ends => ?_)
      exact .here (pKind_at before) (holds p rest before ends).map
  | schema name cols =>
      have parses : Parses (·.schema) (.schema name cols) false levels _ EndsDecl :=
        schema_parses spelled.1 spelled.2 le
      refine member_of (Filter.Eventually.mono parses fun n holds p rest before ends => ?_)
      exact .here (pKind_at before) (holds p rest before ends).map
  | requirements block =>
      have parses : Parses (·.requirements) block false levels _ EndsDecl :=
        requirements_parses spelled le
      refine member_of (Filter.Eventually.mono parses fun n holds p rest before ends => ?_)
      exact .here (pKind_at before) (holds p rest before ends).map

theorem memberToks_opens (m : Member) : ∃ w others, onNewLine (memberToks m) =
    symOn true (.kw w) :: others := by
  cases m <;> exact ⟨_, _, rfl⟩

theorem member_line {m : Member} (spelled : MemberSpelled m) (clear : MemberClear m)
    (le : memberLevels m ≤ levels) :
    ∀ᶠ n in atTop, LineOf (opensLine · = true) (memberElement (parsers n)) false levels m
      (onNewLine (memberToks m)) := by
  refine (member_parses spelled clear le).mono fun n holds => ?_
  obtain ⟨w, others, same⟩ := memberToks_opens m
  refine ⟨fun seen p rest before ends => ?_, symOn true (.kw w), others, same, rfl,
    (fun here => by cases here), (fun here => by cases here), ?_⟩
  · exact (holds p rest before (.of_body ends)).sep before ends.sep _
  · rfl

theorem contract_parses (internal nl : Bool) {name : CString} {attrs : List AttrNode}
    {members : List Member} (isIdent : IsIdent name) (spelledAttrs : AttrsSpelled attrs)
    (spelled : ∀ m ∈ members, MemberSpelled m) (clear : ∀ m ∈ members, MemberClear m)
    (le : deepest memberLevels members ≤ levels) :
    Parses (fun r => r.contract internal) (.contract internal name attrs members) false levels
      (symOn nl (.kw .contract) :: word name :: (attrsToks attrs ++ bodyToks memberToks members))
      EndsDecl := by
  refine .call (fun r => parseContract r internal) (fun _ => rfl) ?_
  have lines : LinesOf (opensLine · = true) memberElement false levels members
      (members.map fun m => onNewLine (memberToks m)) :=
    .of_each fun m inside => member_line (spelled m inside) (clear m inside)
      ((le_deepest _ inside).trans le)
  filter_upwards [lines, attrs_eventually spelledAttrs] with n lines listed p rest before ends
  refine (Gives.bump before (by simp [symOn])).one before fun q group before => ?_
  refine (Gives.ident before isIdent rfl).one before fun u named before => ?_
  obtain ⟨written, same, given⟩ := attrs_gives listed before (.inl fun here => by cases here)
  subst same
  refine given.part before fun v attributed before => ?_
  refine (Gives.expect before rfl).one before fun w opened before => ?_
  have outside : w.groupDepth = 0 :=
    opened.trans (attributed.trans (named.trans (group.trans ends.1)))
  refine (bodyLoop_gives lines _ [] w _ before.split outside rfl).part before fun x _ before => ?_
  exact (expectClose_gives before _).one before fun _ _ _ => .pure

/-! ## Declarations -/

theorem pKw2_yes {w : Keyword} {p : Parser} (behind : p.tok2.kind = .kw w) :
    pKw2 w p = .ok (true, p) := by
  change Except.ok (decide (p.tok2.kind = .kw w), p) = _
  rw [behind, decide_eq_true rfl]

theorem decl_parses {d : Decl} (spelled : DeclSpelled d) (clear : DeclClear d)
    (le : declLevels d ≤ levels) :
    Parses (·.decl) ([], [d]) false levels (onNewLine (declToks d)) EndsDecl := by
  cases d with
  | record name fields =>
      have parses : Parses (·.record) (.record name fields) false levels _ EndsDecl :=
        record_parses spelled.1 spelled.2 le
      refine .call parseDecl (fun _ => rfl) (Filter.Eventually.mono parses
        fun n holds p rest before ends => ?_)
      exact .here (pKind_at before) (holds p rest before ends).map
  | sum name variants =>
      have parses : Parses (·.sum) (.sum name variants) false levels _ EndsDecl :=
        sum_parses spelled.1 spelled.2.1 spelled.2.2 le
      refine .call parseDecl (fun _ => rfl) (Filter.Eventually.mono parses
        fun n holds p rest before ends => ?_)
      have named : p.kind = .ident := before.kind.trans (spelled.1.kind true)
      have opens : pKind p = .ok (.ident, p) := (pKind_at before).trans (by rw [← before.kind, named])
      have isNext : p.tok2.kind = .kw .is := by
        rw [Parser.tok2, before.toks]
        rfl
      refine .here opens (.here (pAt_yes named) (.here (pKw2_yes isNext) ?_))
      exact (holds p rest before ends).map
  | prov internal name sigs =>
      have parses (nl : Bool) : Parses (fun r => r.prov internal) (.prov internal name sigs) false
          levels _ EndsDecl := prov_parses internal nl spelled.1 spelled.2 le
      cases internal with
      | false =>
          refine .call parseDecl (fun _ => rfl) (Filter.Eventually.mono (parses true)
            fun n holds p rest before ends => ?_)
          exact .here (pKind_at before) (holds p rest before ends).map
      | true =>
          refine .call parseDecl (fun _ => rfl) (Filter.Eventually.mono (parses false)
            fun n holds p rest before ends => ?_)
          refine .here (pKind_at before) ((Gives.bump before (by decide)).one before
            fun q group before => ?_)
          rw [← group] at ends
          exact .here (pKind_at before) (holds q rest before ends).map
  | contract internal name attrs members =>
      have parses (nl : Bool) :=
        contract_parses internal nl spelled.1 spelled.2.1 spelled.2.2 clear le
      cases internal with
      | false =>
          refine .call parseDecl (fun _ => rfl) (Filter.Eventually.mono (parses true)
            fun n holds p rest before ends => ?_)
          exact .here (pKind_at before) (holds p rest before ends).map
      | true =>
          refine .call parseDecl (fun _ => rfl) (Filter.Eventually.mono (parses false)
            fun n holds p rest before ends => ?_)
          refine .here (pKind_at before) ((Gives.bump before (by decide)).one before
            fun q group before => ?_)
          rw [← group] at ends
          exact .here (pKind_at before) (holds q rest before ends).map

end Declarations

end Geas.Compiler.Parse
