import Geas.Compiler.LexGrammar
import Geas.Compiler.ReadFile

/-!
# Source texts

The text of a file: its tokens as they are written, each behind a blank, or behind a
newline where one precedes it.  The lexer reads these tokens back from the text, so the
parser reads the file back from its text.
-/

namespace Geas.Compiler.Parse

open Geas.Lib
open Geas.Compiler.Lexing (lex parseLiteral Lexeme Rendered Stands Gap Ends FloatText Digits
  Spells Piece canonical hexVal intMax number slice)
open Geas.Compiler.Sigs (decimalText)
open Geas.Runtime (CString ascii)

/-! ## From the lexer to the parser -/

/-- The kind of a token that is no keyword and no literal. -/
def symbolKind : Lexing.Kind → Kind
  | .arrow => .arrow
  | .eqEq => .eqEq
  | .ne => .ne
  | .le => .le
  | .ge => .ge
  | .andAnd => .andAnd
  | .orOr => .orOr
  | .assign => .assign
  | .plus => .plus
  | .minus => .minus
  | .star => .star
  | .slash => .slash
  | .percent => .percent
  | .lt => .lt
  | .gt => .gt
  | .bang => .bang
  | .question => .question
  | .colon => .colon
  | .comma => .comma
  | .dot => .dot
  | .underscore => .underscore
  | .lparen => .lparen
  | .rparen => .rparen
  | .lbrace => .lbrace
  | .rbrace => .rbrace
  | .lbracket => .lbracket
  | .rbracket => .rbracket
  | .eof => .eof
  | _ => .ident

/-- A token's kind to the parser: a literal with its payload, and a keyword by its word. -/
def parserKind (src : List UInt8) (t : Lexing.Token) : Kind :=
  match parseLiteral src t with
  | some literal => .lit literal
  | none => if t.kind = .kw then (keywordOf (t.text src)).elim .ident .kw else symbolKind t.kind

def parserToken (src : List UInt8) (t : Lexing.Token) : Token :=
  ⟨parserKind src t, t.text src, t.nlBefore⟩

/-- The tokens of a source, as `load_file` hands them to the parser. -/
def parserTokens (src : List UInt8) : List Token := (lex src).tokens.map (parserToken src)

/-- The kind a token of the parser has to the lexer. -/
def lexKind : Kind → Lexing.Kind
  | .ident => .ident
  | .lit (.int _) => .int
  | .lit (.float _) => .float
  | .lit (.str _) => .str
  | .lit (.char _) => .char
  | .lit (.bool _) => .bool
  | .kw _ => .kw
  | .arrow => .arrow
  | .eqEq => .eqEq
  | .ne => .ne
  | .le => .le
  | .ge => .ge
  | .andAnd => .andAnd
  | .orOr => .orOr
  | .assign => .assign
  | .plus => .plus
  | .minus => .minus
  | .star => .star
  | .slash => .slash
  | .percent => .percent
  | .lt => .lt
  | .gt => .gt
  | .bang => .bang
  | .question => .question
  | .colon => .colon
  | .comma => .comma
  | .dot => .dot
  | .underscore => .underscore
  | .lparen => .lparen
  | .rparen => .rparen
  | .lbrace => .lbrace
  | .rbrace => .rbrace
  | .lbracket => .lbracket
  | .rbracket => .rbracket
  | .eof => .eof

def lexeme (t : Token) : Lexeme := ⟨lexKind t.kind, t.text, t.nlBefore⟩

/-! ## Texts -/

/-- What stands before a token. -/
def separator (t : Token) : UInt8 := if t.nlBefore then 10 else 32

/-- Tokens as they are written. -/
def sourceText (toks : List Token) : List UInt8 := toks.flatMap fun t => separator t :: t.text

/-- The text of a file. -/
def fileText (f : File) : List UInt8 := sourceText (fileToks f)

/-- The bytes of a word. -/
def isWord : CString → Bool
  | [] => false
  | b :: text => isIdentStart b && text.all isIdentContinue

/-- The literals that can be written. -/
def LitWritten : Lit → Prop
  | .int value => value ≤ intMax
  | .float text => FloatText text
  | .str text => ∃ value, text = Lexing.body value
  | .char scalar => scalar.isValidChar
  | .bool _ => True

/-- A token that can be written: a name is a word, and a literal has a spelling. -/
def Written (t : Token) : Prop :=
  match t.kind with
  | .ident => isWord t.text = true
  | .lit literal => LitWritten literal
  | _ => True

/-- A token whose text is the one of its kind. -/
def Faithful (t : Token) : Prop :=
  t.kind = wordKind t.text ∨ (t.kind ≠ .ident ∧ t.kind ≠ .eof) ∧ t.text = kindText t.kind

/-! ## Printed tokens are faithful -/

/-- Tokens that are all faithful. -/
def AllFaithful (toks : List Token) : Prop := ∀ t ∈ toks, Faithful t

section Lists

variable {toks toks' : List Token} {t : Token}

@[simp] theorem allFaithful_nil : AllFaithful [] := by simp [AllFaithful]

@[simp] theorem allFaithful_cons : AllFaithful (t :: toks) ↔ Faithful t ∧ AllFaithful toks := by
  simp [AllFaithful]

@[simp] theorem allFaithful_append :
    AllFaithful (toks ++ toks') ↔ AllFaithful toks ∧ AllFaithful toks' :=
  List.forall_mem_append

@[simp] theorem faithful_word (name : CString) : Faithful (word name) := .inl rfl

@[simp] theorem faithful_sym {k : Kind} (named : k ≠ .ident) (inside : k ≠ .eof) :
    Faithful (sym k) := .inr ⟨⟨named, inside⟩, rfl⟩

@[simp] theorem faithful_litToken (literal : Lit) : Faithful (litToken literal) :=
  .inr ⟨⟨nofun, nofun⟩, rfl⟩

@[simp] theorem allFaithful_onNewLine : AllFaithful (onNewLine toks) ↔ AllFaithful toks := by
  cases toks with
  | nil => exact Iff.rfl
  | cons t rest =>
      rw [onNewLine, opened, allFaithful_cons, allFaithful_cons]
      exact Iff.rfl

@[simp] theorem allFaithful_inParens : AllFaithful (inParens toks) ↔ AllFaithful toks := by
  simp [inParens]

@[simp] theorem allFaithful_inBrackets : AllFaithful (inBrackets toks) ↔ AllFaithful toks := by
  simp [inBrackets]

@[simp] theorem allFaithful_inBraces : AllFaithful (inBraces toks) ↔ AllFaithful toks := by
  simp [inBraces]

@[simp] theorem allFaithful_commaSep (items : List (List Token)) :
    AllFaithful (commaSep items) ↔ ∀ item ∈ items, AllFaithful item := by
  induction items with
  | nil => simp [commaSep]
  | cons item items ih =>
      cases items with
      | nil => simp [commaSep]
      | cons next items => simp [commaSep, ih]

@[simp] theorem allFaithful_fit (atLeast : Nat) (e : Expr) (bare : AllFaithful toks)
    (inside : AllFaithful toks') : AllFaithful (fit atLeast e toks toks') := by
  rw [fit]
  split
  · exact inside
  · exact bare

end Lists

mutual

theorem typeToks_faithful : (ty : TypeNode) → AllFaithful (typeToks ty)
  | .named name [] => by simp [typeToks]
  | .named name (arg :: args) => by
      have inside := typesToks_faithful (arg :: args)
      simpa [typeToks] using inside
  | .pledge params ret => by
      have inside := typesToks_faithful params
      have result := typeToks_faithful ret
      simpa [typeToks, result] using inside

theorem typesToks_faithful : (tys : List TypeNode) → ∀ item ∈ typesToks tys, AllFaithful item
  | [] => by simp [typesToks]
  | ty :: tys => by
      have first := typeToks_faithful ty
      have others := typesToks_faithful tys
      simpa [typesToks, first] using others

end

mutual

theorem patToks_faithful : (pat : PatternNode) → AllFaithful (patToks pat)
  | .wildcard | .lit _ | .bind _ | .none => by simp [patToks]
  | .variant name subs => by
      have inside := patsToks_faithful subs
      simpa [patToks] using inside
  | .some inner | .ok inner | .err inner => by simpa [patToks] using patToks_faithful inner

theorem patsToks_faithful : (pats : List PatternNode) → ∀ item ∈ patsToks pats, AllFaithful item
  | [] => by simp [patsToks]
  | pat :: pats => by
      have first := patToks_faithful pat
      have others := patsToks_faithful pats
      simpa [patsToks, first] using others

end

theorem letTypeToks_faithful (ty : Option TypeNode) : AllFaithful (letTypeToks ty) := by
  cases ty with
  | none => simp [letTypeToks]
  | some ty => simp [letTypeToks, typeToks_faithful ty]

theorem mapToks_faithful (ty : TypeNode) : AllFaithful (mapToks ty) := by
  cases ty with
  | named name args => simpa [mapToks] using typesToks_faithful args
  | pledge params ret => exact typeToks_faithful _

theorem unopKind_symbol (op : UnOp) : unopKind op ≠ .ident ∧ unopKind op ≠ .eof := by
  cases op <;> simp [unopKind]

theorem binopKind_symbol (op : BinOp) : binopKind op ≠ .ident ∧ binopKind op ≠ .eof := by
  cases op <;> simp [binopKind]

mutual

theorem exprToks_faithful (header : Bool) : (e : Expr) → AllFaithful (exprToks header e)
  | .lit _ | .ident _ | .none => by simp [exprToks]
  | .unary op operand => by
      simp [exprToks, unopKind_symbol op, exprToks_faithful header operand,
        exprToks_faithful false operand]
  | .binary op left right => by
      simp [exprToks, binopKind_symbol op, exprToks_faithful header left,
        exprToks_faithful false left, exprToks_faithful header right,
        exprToks_faithful false right]
  | .call callee args => by
      have inside := argsToks_faithful args
      simpa [exprToks, exprToks_faithful header callee, exprToks_faithful false callee] using inside
  | .index base key => by
      simp [exprToks, exprToks_faithful header base, exprToks_faithful false base,
        exprToks_faithful false key]
  | .member base name => by
      simp [exprToks, exprToks_faithful header base, exprToks_faithful false base]
  | .question operand => by
      simp [exprToks, exprToks_faithful header operand, exprToks_faithful false operand]
  | .tuple elems | .list elems => by simpa [exprToks] using exprsToks_faithful elems
  | .recordLit name fields => by
      have inside := fieldsToks_faithful fields
      cases header <;> simpa [exprToks] using inside
  | .matchOn scrutinee arms => by
      simp [exprToks, exprToks_faithful true scrutinee, armsToks_faithful arms]
  | .some payload | .ok payload | .err payload => by
      simpa [exprToks] using exprToks_faithful false payload
  | .mut operand => by simpa [exprToks] using exprToks_faithful false operand
  | .mapNew ty => by simpa [exprToks] using mapToks_faithful ty

theorem exprsToks_faithful : (es : List Expr) → ∀ item ∈ exprsToks es, AllFaithful item
  | [] => by simp [exprsToks]
  | e :: es => by
      have first := exprToks_faithful false e
      have others := exprsToks_faithful es
      simpa [exprsToks, first] using others

theorem argToks_faithful : (a : Arg) → AllFaithful (argToks a)
  | .mk none value => by simpa [argToks] using exprToks_faithful false value
  | .mk (some label) value => by simpa [argToks] using exprToks_faithful false value

theorem argsToks_faithful : (args : List Arg) → ∀ item ∈ argsToks args, AllFaithful item
  | [] => by simp [argsToks]
  | a :: args => by
      have first := argToks_faithful a
      have others := argsToks_faithful args
      simpa [argsToks, first] using others

theorem fieldToks_faithful : (f : Field) → AllFaithful (fieldToks f)
  | .mk name value => by simpa [fieldToks] using exprToks_faithful false value

theorem fieldsToks_faithful : (fields : List Field) → ∀ item ∈ fieldsToks fields, AllFaithful item
  | [] => by simp [fieldsToks]
  | f :: fields => by
      have first := fieldToks_faithful f
      have others := fieldsToks_faithful fields
      simpa [fieldsToks, first] using others

theorem armToks_faithful : (a : Arm) → AllFaithful (armToks a)
  | .expr pat body => by
      simp [armToks, patToks_faithful pat, exprToks_faithful false body]
  | .block pat body => by
      simp [armToks, patToks_faithful pat, stmtsToks_faithful body]

theorem armsToks_faithful : (arms : List Arm) → AllFaithful (armsToks arms)
  | [] => by simp [armsToks]
  | a :: arms => by simp [armsToks, armToks_faithful a, armsToks_faithful arms]

theorem stmtToks_faithful : (s : Stmt) → AllFaithful (stmtToks s)
  | .letBind mutable name ty value => by
      cases mutable <;> simp [stmtToks, letTypeToks_faithful ty, exprToks_faithful false value]
  | .assign target value => by
      simp [stmtToks, exprToks_faithful false target, exprToks_faithful false value]
  | .ret none | .brk | .cont => by simp [stmtToks]
  | .ret (some value) => by simpa [stmtToks] using exprToks_faithful false value
  | .expr value => by simpa [stmtToks] using exprToks_faithful false value
  | .ifElse cond thenBlock none => by
      simp [stmtToks, exprToks_faithful true cond, stmtsToks_faithful thenBlock]
  | .ifElse cond thenBlock (some elseBlock) => by
      simp [stmtToks, exprToks_faithful true cond, stmtsToks_faithful thenBlock,
        stmtsToks_faithful elseBlock]
  | .whileDo cond body => by
      simp [stmtToks, exprToks_faithful true cond, stmtsToks_faithful body]
  | .forIn name iter body => by
      simp [stmtToks, exprToks_faithful true iter, stmtsToks_faithful body]

theorem stmtsToks_faithful : (stmts : List Stmt) → AllFaithful (stmtsToks stmts)
  | [] => by simp [stmtsToks]
  | s :: stmts => by simp [stmtsToks, stmtToks_faithful s, stmtsToks_faithful stmts]

end

theorem reqToks_faithful (e : Formula CString) : AllFaithful (reqToks e) := by
  have fits (atLeast : Nat) (e : Formula CString) (every : AllFaithful (reqToks e)) :
      AllFaithful (reqFit atLeast e (reqToks e) (inParens (reqToks e))) := by
    rw [reqFit]
    split
    · simpa using every
    · exact every
  induction e with
  | atom name => simp [reqToks]
  | not e ih => simp [reqToks, fits _ e ih]
  | and left right ihLeft ihRight => simp [reqToks, fits _ left ihLeft, fits _ right ihRight]
  | or left right ihLeft ihRight => simp [reqToks, fits _ left ihLeft, fits _ right ihRight]

/-! ### Declarations -/

theorem bodyToks_faithful {α : Type} {toks : α → List Token} (every : ∀ a, AllFaithful (toks a))
    (lines : List α) : AllFaithful (bodyToks toks lines) := by
  rw [bodyToks, allFaithful_inBraces]
  induction lines with
  | nil => simp
  | cons a lines ih => simpa [every a] using ih

theorem fieldDeclToks_faithful (f : FieldNode) : AllFaithful (fieldDeclToks f) := by
  simp [fieldDeclToks, typeToks_faithful f.ty]

theorem paramsToks_faithful (params : List FieldNode) : AllFaithful (paramsToks params) := by
  simp [paramsToks, fieldDeclToks_faithful]

theorem attrsToks_faithful (attrs : List AttrNode) : AllFaithful (attrsToks attrs) := by
  rw [attrsToks]
  split
  · simp
  · simp [attrToks]

theorem variantToks_faithful (v : VariantNode) : AllFaithful (variantToks v) := by
  rw [variantToks]
  split
  · simp
  · simp [paramsToks_faithful v.fields]

theorem variantsToks_faithful (variants : List VariantNode) :
    AllFaithful (variantsToks variants) := by
  induction variants with
  | nil => simp [variantsToks]
  | cons v variants ih =>
      cases variants with
      | nil => simp [variantsToks, variantToks_faithful v]
      | cons v' variants => simp [variantsToks, variantToks_faithful v, ih]

theorem signatureToks_faithful (name : CString) (params : List FieldNode) (ret : TypeNode) :
    AllFaithful (signatureToks name params ret) := by
  simp [signatureToks, paramsToks_faithful params, typeToks_faithful ret]

theorem pledgeToks_faithful (p : PledgeNode) : AllFaithful (pledgeToks p) := by
  have body : AllFaithful (p.body.elim [] fun body => inBraces (stmtsToks body)) := by
    cases p.body with
    | none => simp
    | some body => simp [stmtsToks_faithful body]
  simp [pledgeToks, signatureToks_faithful p.name p.params p.ret, attrsToks_faithful p.attrs, body]

theorem clauseToks_faithful (c : ClauseNode) : AllFaithful (clauseToks c) := by
  simp [clauseToks, signatureToks_faithful c.name c.params c.ret, stmtsToks_faithful c.body]

theorem subToks_faithful (s : SubNode) : AllFaithful (subToks s) := by
  have name : AllFaithful (s.name.elim [] fun name => [word name]) := by cases s.name <;> simp
  have marks : AllFaithful (if s.transactional then [sym (.kw .transactional)] else []) := by
    cases s.transactional <;> simp
  simp [subToks, name, marks, bodyToks_faithful pledgeToks_faithful s.pledges]

theorem requirementsToks_faithful (block : ReqBlockNode) : AllFaithful (requirementsToks block) := by
  have line {label : Token} (known : Faithful label) (e : Option (Formula CString)) :
      AllFaithful (reqLineToks label e) := by
    cases e with
    | none => simp [reqLineToks]
    | some e => simp [reqLineToks, known, reqToks_faithful e]
  simp [requirementsToks, line]

theorem memberToks_faithful (m : Member) : AllFaithful (memberToks m) := by
  cases m with
  | incorporate name => simp [memberToks]
  | vow name ty init =>
      have given : AllFaithful (init.elim [] fun value => sym .assign :: exprToks false value) := by
        cases init with
        | none => simp
        | some value => simp [exprToks_faithful false value]
      simp [memberToks, fieldDeclToks_faithful, given]
  | pledge node => exact pledgeToks_faithful node
  | clause node => exact clauseToks_faithful node
  | subcontract node => exact subToks_faithful node
  | schema name cols => simp [memberToks, bodyToks_faithful fieldDeclToks_faithful cols]
  | requirements block => exact requirementsToks_faithful block

theorem declToks_faithful (d : Decl) : AllFaithful (declToks d) := by
  have marks (internal : Bool) : AllFaithful (internalToks internal) := by
    cases internal <;> simp [internalToks]
  cases d with
  | record name fields => simp [declToks, bodyToks_faithful fieldDeclToks_faithful fields]
  | sum name variants => simp [declToks, variantsToks_faithful variants]
  | prov internal name sigs =>
      have lines (s : ClauseSigNode) : AllFaithful (clauseSigToks s) := by
        simp [clauseSigToks, signatureToks_faithful s.name s.params s.ret]
      simp [declToks, marks, bodyToks_faithful lines sigs]
  | contract internal name attrs members =>
      simp [declToks, marks, attrsToks_faithful attrs, bodyToks_faithful memberToks_faithful members]

theorem importToks_faithful (path : CString) : AllFaithful (importToks path) := by
  have dotted (parts : List CString) : AllFaithful (dottedToks parts) := by
    induction parts with
    | nil => simp [dottedToks]
    | cons part parts ih => simpa [dottedToks] using ih
  rw [importToks]
  split
  · simp
  · simp [dotted]

/-- The tokens of a file in front of its end. -/
def fileBody (f : File) : List Token :=
  (f.imports.map fun path => onNewLine (importToks path)).flatten ++
    (f.decls.map fun d => onNewLine (declToks d)).flatten

theorem fileToks_eq (f : File) : fileToks f = fileBody f ++ [eofToken] := rfl

theorem fileBody_faithful (f : File) : AllFaithful (fileBody f) := by
  have lines {α : Type} {toks : α → List Token} (every : ∀ a, AllFaithful (toks a))
      (parts : List α) : AllFaithful (parts.map fun a => onNewLine (toks a)).flatten := by
    induction parts with
    | nil => simp
    | cons a parts ih => simpa [every a] using ih
  simp [fileBody, lines importToks_faithful, lines declToks_faithful]

/-! ## Words -/

/-- The keywords, as the lexer and the parser know them. -/
theorem keywordTable_words : ∀ entry ∈ keywordTable,
    isWord (ascii entry.1) = true ∧ Lexing.Lexer.wordKind (ascii entry.1) = .kw ∧
      keywordOf (ascii entry.1) = some entry.2 ∧ kindText (.kw entry.2) = ascii entry.1 := by
  decide

theorem keywordTable_total (w : Keyword) : ∃ entry ∈ keywordTable, entry.2 = w := by
  have every : ∀ w : Keyword, w ∈ keywordTable.map (·.2) := by
    intro w
    cases w <;> decide
  obtain ⟨entry, inside, same⟩ := List.mem_map.mp (every w)
  exact ⟨entry, inside, same⟩

/-- A word to the lexer is one of the same kind to the parser. -/
theorem wordKind_lexed {text : CString} (shaped : wordKind text = .ident → isWord text = true) :
    isWord text = true ∧ Lexing.Lexer.wordKind text = lexKind (wordKind text) := by
  by_cases blank : text = ascii "_"
  · subst blank
    decide
  by_cases yes : text = ascii "true"
  · subst yes
    decide
  by_cases no : text = ascii "false"
  · subst no
    decide
  have kind : wordKind text = (keywordOf text).elim .ident .kw := by
    rw [wordKind, if_neg blank, if_neg yes, if_neg no]
    cases keywordOf text <;> rfl
  cases found : keywordOf text with
  | some w =>
      obtain ⟨entry, here, same⟩ := Option.map_eq_some_iff.mp found
      have inside := List.mem_of_find?_eq_some here
      have named : ascii entry.1 = text := by simpa using List.find?_some here
      obtain ⟨word, lexed, -, -⟩ := keywordTable_words entry inside
      rw [named] at word lexed
      rw [kind, found]
      exact ⟨word, lexed⟩
  | none =>
      rw [kind, found] at shaped ⊢
      have absent : text ∉ Lexing.keywords := by
        intro inside
        have listed : Lexing.keywords = keywordTable.map fun entry => ascii entry.1 := rfl
        rw [listed] at inside
        obtain ⟨entry, here, same⟩ := List.mem_map.mp inside
        have missing := List.find?_eq_none.mp (Option.map_eq_none_iff.mp found) entry here
        exact missing (by simpa using same)
      refine ⟨shaped rfl, ?_⟩
      rw [Lexing.Lexer.wordKind, if_neg blank, if_neg (by simp [yes, no]), if_neg absent]
      rfl

/-! ## Literals -/

theorem nibbles_le (n v : Nat) (small : v < 16 ^ (n + 1)) : Lexing.nibbles v ≤ n + 1 := by
  induction n generalizing v with
  | zero =>
      rw [Lexing.nibbles, if_neg (by omega)]
  | succ n ih =>
      rw [Lexing.nibbles]
      split
      · have less := ih (v / 16) (by rw [Nat.pow_succ] at small; omega)
        omega
      · omega

/-- The digits of a scalar value in hex. -/
theorem hexMin_escaped (c : Char) : ∃ digits : List Nat,
    List.Forall₂ (fun b digit => hexVal b = some digit) (Lexing.hexMin c.toNat) digits ∧
      0 < digits.length ∧ digits.length ≤ 6 ∧ number 16 digits = c.toNat := by
  obtain ⟨digits, written, small, value⟩ := Lexing.hexMin_digits c.toNat
  have each : ∀ d < 16, hexVal (Lexing.hexChar d) = some d := by decide
  have length : digits.length = (Lexing.hexMin c.toNat).length := by
    rw [written, List.length_map]
  have bound : c.toNat < 16 ^ 6 := (Lexing.char_lt c).trans (by decide)
  refine ⟨digits, ?_, ?_, ?_, value⟩
  · rw [written, List.forall₂_map_left_iff]
    exact List.forall₂_same.mpr fun d inside => each d (small d inside)
  · rw [length, Lexing.hexMin]
    split
    · decide
    · rw [List.length_map, List.length_reverse, List.length_range, Lexing.nibbles]
      split <;> omega
  · rw [length, Lexing.hexMin]
    split
    · decide
    · rw [List.length_map, List.length_reverse, List.length_range]
      exact nibbles_le 5 _ bound

/-- The canonical form of a character is one of its spellings. -/
theorem canonical_piece (c : Char) {quote : Nat} (known : quote = 34 ∨ quote = 39)
    {barred : List Nat} (within : ∀ n ∈ barred, n = 10 ∨ n = quote ∨ n = 92) :
    Piece barred (canonical c.toNat quote) c := by
  rw [canonical]
  split_ifs with slash quoted printable
  · exact .escape (.letter (by rw [slash]; decide))
  · refine .escape (.letter ?_)
    rw [quoted]
    rcases known with rfl | rfl <;> decide
  · rw [← Lexing.encode_ascii (by omega)]
    refine .plain fun inside => ?_
    rcases within _ inside with same | same | same
    · omega
    · exact quoted same
    · exact slash same
  · obtain ⟨digits, hex, nonempty, few, value⟩ := hexMin_escaped c
    exact .escape (.scalar hex nonempty few value)

theorem body_spells (value : List Char) : Spells (Lexing.body value) value := by
  induction value with
  | nil => exact .nil
  | cons c value ih =>
      rw [Lexing.body_cons]
      exact .cons (canonical_piece c (.inl rfl) (by decide)) ih

theorem digits_of_all {text : CString} (every : text.all Lexing.isDigit = true) :
    Digits 10 text (text.map Lexing.digitVal) := by
  obtain ⟨front, digits, shape, spelled, -⟩ :=
    Lexing.digitRun_spells 10 (.inr (.inl rfl)) text
  have run : Lexing.digitRun 10 text = [] := by
    rw [← List.append_nil text]
    apply Lexing.dropWhile_run _ (by simp)
    intro b inside
    rw [Lexing.isDigitOf, if_neg (by decide), if_neg (by decide),
      List.all_eq_true.mp every b inside, Bool.or_true]
  rw [run, List.append_nil] at shape
  subst shape
  have clean : 95 ∉ text := fun inside => by
    have digit := List.all_eq_true.mp every _ inside
    cases digit
  rw [(spelled.plain clean).2]
  exact spelled

theorem decimalText_digits (n : Nat) : ∃ b text digits, decimalText n = b :: text ∧
    Lexing.isDigit b = true ∧ Digits 10 (b :: text) digits ∧ digits ≠ [] ∧
      number 10 digits = n := by
  have read := Lexing.cInteger_decimalText n
  generalize decimalText n = text at read
  rw [Lexing.cInteger] at read
  split_ifs at read with zero plain
  · exact ⟨48, [], [0], zero, rfl, .digit rfl (by decide) .nil, List.cons_ne_nil _ _,
      Option.some.inj read⟩
  · obtain ⟨b, text, rfl⟩ := List.exists_cons_of_ne_nil plain.1
    have every := plain.2.2
    refine ⟨b, text, _, rfl, ?_, digits_of_all every, List.cons_ne_nil _ _, by simpa using read⟩
    rw [List.all_cons, Bool.and_eq_true] at every
    exact every.1

/-! ## Tokens in their text -/

/-- What follows a token in a text: the separator of the next one. -/
def Separated (rest : List UInt8) : Prop := ∃ t : Token, ∃ more, rest = separator t :: more

section Stand

variable {rest : List UInt8}

theorem Separated.head (separated : Separated rest) :
    rest.head? = some 10 ∨ rest.head? = some 32 := by
  obtain ⟨t, more, rfl⟩ := separated
  rw [separator]
  split
  · exact .inl rfl
  · exact .inr rfl

theorem Separated.ends (separated : Separated rest) : Ends rest := by
  intro b first
  rcases separated.head with newline | blank
  · obtain rfl := Option.some.inj (newline.symm.trans first)
    rfl
  · obtain rfl := Option.some.inj (blank.symm.trans first)
    rfl

theorem Separated.noFraction (separated : Separated rest) :
    Lexing.Lexer.isFraction rest = false := by
  rw [Lexing.Lexer.isFraction]
  rcases separated.head with newline | blank
  · rw [newline]
    rfl
  · rw [blank]
    rfl

theorem word_stands {text : CString} (word : isWord text = true) (separated : Separated rest) :
    Stands rest (Lexing.Lexer.wordKind text) text := by
  cases text with
  | nil => cases word
  | cons b text =>
      rw [isWord, Bool.and_eq_true] at word
      exact .word word.1 (List.all_eq_true.mp word.2) separated.ends

theorem pair_stands {c d : UInt8} {kind : Lexing.Kind}
    (two : Lexing.Lexer.matchOp c (some d) = some kind) : Stands rest kind [c, d] :=
  .pair two

theorem symbol_stands {c : UInt8} {kind : Lexing.Kind} (one : Lexing.Lexer.oneKind c = some kind)
    (separated : Separated rest) : Stands rest kind [c] := by
  have alone (b : UInt8) (blank : b = 10 ∨ b = 32) :
      Lexing.Lexer.matchOp c (some b) = none := by
    rcases blank with rfl | rfl <;> simp [Lexing.Lexer.matchOp]
  rcases separated.head with newline | blank
  · exact .single one (newline ▸ alone 10 (.inl rfl)) fun _ => by rw [newline]; decide
  · exact .single one (blank ▸ alone 32 (.inr rfl)) fun _ => by rw [blank]; decide

theorem literal_stands {literal : Lit} (written : LitWritten literal) (separated : Separated rest) :
    Stands rest (lexKind (.lit literal)) (litText literal) := by
  cases literal with
  | int value =>
      obtain ⟨b, text, digits, shape, digit, spelled, -, same⟩ := decimalText_digits value
      rw [litText, shape]
      exact .decimal digit spelled (same ▸ written) separated.ends separated.noFraction
  | float text => exact .float written separated.ends
  | str text =>
      obtain ⟨value, rfl⟩ := written
      exact .str (body_spells value)
  | char scalar =>
      obtain ⟨c, rfl⟩ := Lexing.exists_char written
      exact .char (canonical_piece c (.inr rfl) (by decide))
  | bool value =>
      cases value
      · exact word_stands (show isWord (ascii "false") = true by decide) separated
      · exact word_stands (show isWord (ascii "true") = true by decide) separated

/-- The text of a kind stands where a separator follows. -/
theorem kind_stands {k : Kind} (symbol : k ≠ .ident ∧ k ≠ .eof)
    (written : ∀ literal, k = .lit literal → LitWritten literal) (separated : Separated rest) :
    Stands rest (lexKind k) (kindText k) := by
  cases k with
  | ident => exact absurd rfl symbol.1
  | eof => exact absurd rfl symbol.2
  | lit literal => exact literal_stands (written literal rfl) separated
  | kw w =>
      obtain ⟨entry, inside, rfl⟩ := keywordTable_total w
      obtain ⟨word, kind, -, same⟩ := keywordTable_words entry inside
      have stands := word_stands word separated
      rw [kind] at stands
      rw [same]
      exact stands
  | underscore => exact word_stands (show isWord (ascii "_") = true from rfl) separated
  | arrow => exact pair_stands (c := 45) (d := 62) rfl
  | eqEq => exact pair_stands (c := 61) (d := 61) rfl
  | ne => exact pair_stands (c := 33) (d := 61) rfl
  | le => exact pair_stands (c := 60) (d := 61) rfl
  | ge => exact pair_stands (c := 62) (d := 61) rfl
  | andAnd => exact pair_stands (c := 38) (d := 38) rfl
  | orOr => exact pair_stands (c := 124) (d := 124) rfl
  | assign => exact symbol_stands (c := 61) rfl separated
  | plus => exact symbol_stands (c := 43) rfl separated
  | minus => exact symbol_stands (c := 45) rfl separated
  | star => exact symbol_stands (c := 42) rfl separated
  | slash => exact symbol_stands (c := 47) rfl separated
  | percent => exact symbol_stands (c := 37) rfl separated
  | lt => exact symbol_stands (c := 60) rfl separated
  | gt => exact symbol_stands (c := 62) rfl separated
  | bang => exact symbol_stands (c := 33) rfl separated
  | question => exact symbol_stands (c := 63) rfl separated
  | colon => exact symbol_stands (c := 58) rfl separated
  | comma => exact symbol_stands (c := 44) rfl separated
  | dot => exact symbol_stands (c := 46) rfl separated
  | lparen => exact symbol_stands (c := 40) rfl separated
  | rparen => exact symbol_stands (c := 41) rfl separated
  | lbrace => exact symbol_stands (c := 123) rfl separated
  | rbrace => exact symbol_stands (c := 125) rfl separated
  | lbracket => exact symbol_stands (c := 91) rfl separated
  | rbracket => exact symbol_stands (c := 93) rfl separated

theorem Faithful.shaped {t : Token} (same : t.kind = wordKind t.text) (written : Written t) :
    wordKind t.text = .ident → isWord t.text = true := by
  intro isIdent
  rw [Written, same, isIdent] at written
  exact written

/-- A faithful token that can be written stands where a separator follows. -/
theorem Faithful.stands {t : Token} (faithful : Faithful t) (written : Written t)
    (separated : Separated rest) : Stands rest (lexKind t.kind) t.text := by
  rcases faithful with same | ⟨symbol, text⟩
  · obtain ⟨word, kind⟩ := wordKind_lexed (Faithful.shaped same written)
    rw [same, ← kind]
    exact word_stands word separated
  · rw [text]
    refine kind_stands symbol (fun literal same => ?_) separated
    rw [Written, same] at written
    exact written

end Stand

/-- The text of tokens renders them. -/
theorem sourceText_rendered (toks : List Token) (faithful : AllFaithful toks)
    (written : ∀ t ∈ toks, Written t) :
    Rendered (sourceText (toks ++ [eofToken])) (toks.map lexeme ++ [⟨.eof, [], false⟩]) := by
  induction toks with
  | nil => exact .ended (.blank rfl .nil)
  | cons t toks ih =>
      rw [allFaithful_cons] at faithful
      rw [List.forall_mem_cons] at written
      have separated : Separated (sourceText (toks ++ [eofToken])) := by
        cases toks with
        | nil => exact ⟨eofToken, _, rfl⟩
        | cons next toks => exact ⟨next, _, rfl⟩
      have gap : Gap (t.text ++ sourceText (toks ++ [eofToken])) [separator t] := by
        refine .blank ?_ .nil
        rw [separator]
        split <;> rfl
      have flag : [separator t].contains 10 = t.nlBefore := by
        rw [separator]
        cases t.nlBefore <;> rfl
      have first := Rendered.token gap (faithful.1.stands written.1 separated)
        (ih faithful.2 written.2)
      rw [flag] at first
      exact first

/-! ## Back to the parser's tokens -/

section Back

variable {src : List UInt8} {tok : Lexing.Token}

theorem parserKind_literal {literal : Lit} (written : LitWritten literal)
    (kind : tok.kind = lexKind (.lit literal)) (text : tok.text src = litText literal) :
    parseLiteral src tok = some literal := by
  cases literal with
  | int value =>
      obtain ⟨b, tail, digits, shape, -, spelled, nonempty, same⟩ := decimalText_digits value
      have denotes : Lexing.Denotes .int (slice src tok.lo tok.hi) (.int value) := by
        rw [show slice src tok.lo tok.hi = b :: tail from text.trans shape, ← same]
        exact .decimal spelled nonempty
      simp only [parseLiteral, kind, lexKind, Lexing.intValue_eq denotes written]
  | float spelling =>
      simp only [parseLiteral, kind, lexKind, text, litText]
  | str inner =>
      obtain ⟨value, rfl⟩ := written
      have here : slice src tok.lo tok.hi = 34 :: (Lexing.body value ++ [34]) := text
      have split := Lexing.drop_of_slice tok.lo tok.hi (by rw [here]; exact List.cons_ne_nil _ _)
      rw [here] at split
      simp only [parseLiteral, kind, lexKind, Lexing.stringBody_eq (body_spells value) split rfl]
  | char scalar =>
      obtain ⟨c, rfl⟩ := Lexing.exists_char written
      have here : slice src tok.lo tok.hi = 39 :: (canonical c.toNat 39 ++ [39]) := text
      have split := Lexing.drop_of_slice tok.lo tok.hi (by rw [here]; exact List.cons_ne_nil _ _)
      have behind : src.drop (tok.lo + 1) = canonical c.toNat 39 ++ ([39] ++ src.drop tok.hi) := by
        rw [← List.drop_drop, split, here]
        simp
      simp only [parseLiteral, kind, lexKind,
        Lexing.charScalar_eq (canonical_piece c (.inr rfl) (by decide)) behind]
  | bool value =>
      simp only [parseLiteral, kind, lexKind, text]
      cases value <;> rfl

/-- A keyword or a symbol is recognised by its text and kind. -/
theorem parserKind_plain {k : Kind} (noLiteral : ∀ literal, k ≠ .lit literal)
    (kind : tok.kind = lexKind k)
    (keyword : ∀ w, k = .kw w → keywordOf (tok.text src) = some w) : parserKind src tok = k := by
  rw [parserKind, parseLiteral, kind]
  cases k with
  | lit literal => exact absurd rfl (noLiteral literal)
  | kw w => simp [lexKind, keyword w rfl]
  | _ => rfl

/-- A word is a truth value, or a keyword that its text tells. -/
theorem wordKind_known (text : CString) :
    (∃ value, wordKind text = .lit (.bool value) ∧ text = litText (.bool value)) ∨
      (∀ literal, wordKind text ≠ .lit literal) ∧
        ∀ w, wordKind text = .kw w → keywordOf text = some w := by
  rw [wordKind]
  split_ifs with blank yes no
  · exact .inr ⟨nofun, nofun⟩
  · exact .inl ⟨true, rfl, yes⟩
  · exact .inl ⟨false, rfl, no⟩
  · cases keywordOf text with
    | none => exact .inr ⟨nofun, nofun⟩
    | some w =>
        refine .inr ⟨nofun, fun w' same => ?_⟩
        rw [Kind.kw.inj same]

/-- A token of the lexer that reads as a written token is that token to the parser. -/
theorem parserToken_eq {t : Token} (faithful : Faithful t) (written : Written t)
    (same : tok.lexeme src = lexeme t) : parserToken src tok = t := by
  obtain ⟨kind, text, nl⟩ := Lexing.Lexeme.mk.inj same
  have literal {literal : Lit} (here : t.kind = .lit literal) (spelled : t.text = litText literal)
      (written : LitWritten literal) : parserKind src tok = t.kind := by
    rw [parserKind, parserKind_literal written (by rw [kind, here]) (text.trans spelled), here]
  have known : parserKind src tok = t.kind := by
    rcases faithful with word | ⟨symbol, spelled⟩
    · rcases wordKind_known t.text with ⟨value, here, spelled⟩ | ⟨noLiteral, keyword⟩
      · exact literal (word.trans here) spelled trivial
      · rw [← word] at noLiteral keyword
        exact parserKind_plain noLiteral kind (text ▸ keyword)
    · cases here : t.kind with
      | lit value =>
          rw [Written, here] at written
          rw [here] at spelled
          exact here ▸ literal here spelled written
      | _ =>
          rw [← here]
          refine parserKind_plain (fun _ same => by rw [here] at same; cases same) kind ?_
          intro w same
          obtain ⟨entry, inside, rfl⟩ := keywordTable_total w
          obtain ⟨-, -, found, written⟩ := keywordTable_words entry inside
          rw [text, spelled, same, written, found]
  obtain ⟨k, spelling, flag⟩ := t
  simp only [parserToken, known, text, nl]

theorem map_parserToken {toks : List Token} (faithful : AllFaithful toks)
    (written : ∀ t ∈ toks, Written t) : ∀ {lexed : List Lexing.Token},
      lexed.map (Lexing.Token.lexeme src) = toks.map lexeme → lexed.map (parserToken src) = toks := by
  induction toks with
  | nil =>
      intro lexed same
      rw [List.map_nil, List.map_eq_nil_iff] at same
      rw [same, List.map_nil]
  | cons t toks ih =>
      intro lexed same
      rw [allFaithful_cons] at faithful
      rw [List.forall_mem_cons] at written
      obtain ⟨tok, others, rfl, first, rest⟩ := List.map_eq_cons_iff.mp same
      rw [List.map_cons, parserToken_eq faithful.1 written.1 first, ih faithful.2 written.2 rest]

theorem parserToken_eof (same : tok.lexeme src = ⟨.eof, [], false⟩) :
    parserToken src tok = eofToken := by
  obtain ⟨kind, text, nl⟩ := Lexing.Lexeme.mk.inj same
  rw [parserToken, parserKind_plain (k := .eof) nofun kind nofun, text, nl]
  rfl

end Back

/-! ## Files -/

/-- The lexer reads the tokens of a text back. -/
theorem lex_sourceText (toks : List Token) (faithful : AllFaithful toks)
    (written : ∀ t ∈ toks, Written t) :
    (lex (sourceText (toks ++ [eofToken]))).errors = [] ∧
      parserTokens (sourceText (toks ++ [eofToken])) = toks ++ [eofToken] := by
  generalize same : sourceText (toks ++ [eofToken]) = src
  have along : Lexing.Along src (Lexing.lxNew src) := ⟨rfl, List.suffix_rfl⟩
  obtain ⟨quiet, read⟩ := Lexing.run_rendered (sourceText_rendered toks faithful written) _ along
    same.symm rfl
  refine ⟨quiet, ?_⟩
  change (lex src).tokens.map (Lexing.Token.lexeme src) = [] ++ _ at read
  rw [List.nil_append] at read
  obtain ⟨front, behind, split, fronts, lasts⟩ := List.map_eq_append_iff.mp read
  obtain ⟨ended, others, rfl, last, none⟩ := List.map_eq_cons_iff.mp lasts
  obtain rfl := List.map_eq_nil_iff.mp none
  rw [parserTokens, split, List.map_append, map_parserToken faithful written fronts, List.map_cons,
    parserToken_eof last, List.map_nil]

/-- A file comes back from its text, through the lexer and the parser, without a fault. -/
theorem parse_fileText {f : File} (spelled : FileSpelled f) (clear : FileClear f)
    (room : fileLevels f ≤ ceiling) (written : ∀ t ∈ fileToks f, Written t) :
    (lex (fileText f)).errors = [] ∧
      ∃ p, parse (parserTokens (fileText f)) = .ok (f, p) ∧ p.errors = [] := by
  have body : ∀ t ∈ fileBody f, Written t := fun t inside =>
    written t (List.mem_append_left _ inside)
  obtain ⟨quiet, tokens⟩ := lex_sourceText (fileBody f) (fileBody_faithful f) body
  rw [fileText, fileToks_eq]
  rw [tokens, ← fileToks_eq]
  exact ⟨quiet, parse_fileToks spelled clear room⟩

/-- A contract that counts, behind an import. -/
def counterFile : File :=
  { imports := [ascii "std.math"]
    decls :=
      [.contract true (ascii "Counter") []
        [.vow (ascii "total") (.named (ascii "Int") []) (some (.lit (.int 0))),
          .pledge
            { name := ascii "read"
              params := []
              ret := .named (ascii "Int") []
              attrs := []
              body := some [.ret (some (.ident (ascii "total")))] },
            .requirements ⟨some (.atom (ascii "read")), none, none⟩]] }

theorem parse_counterText :
    fileLevels counterFile ≤ ceiling ∧ (∀ t ∈ fileToks counterFile, Written t) ∧
      (lex (fileText counterFile)).errors = [] ∧
      ∃ p, parse (parserTokens (fileText counterFile)) = .ok (counterFile, p) ∧ p.errors = [] := by
  have spelled : FileSpelled counterFile := by
    simp +decide [FileSpelled, PathSpelled, counterFile, DeclSpelled, AttrsSpelled, MemberSpelled,
      FieldDeclSpelled, PledgeSpelled, SignatureSpelled, ParamsSpelled, ReqSpelled, IsIdent,
      TypeSpelled, TypesSpelled, ExprSpelled, StmtsSpelled, StmtSpelled, IsName]
  have clear : FileClear counterFile := by
    simp [FileClear, counterFile, DeclClear, MemberClear, Clear, PledgeClear, StmtsClear, StmtClear]
  have room : fileLevels counterFile ≤ ceiling := by decide
  have each : ∀ t ∈ fileToks counterFile, t.kind = .ident ∧ isWord t.text = true ∨
      t.kind = .lit (.int 0) ∨ Lexing.Kind.isLiteral (lexKind t.kind) = false ∧ t.kind ≠ .ident := by
    decide
  have written : ∀ t ∈ fileToks counterFile, Written t := by
    intro t inside
    rw [Written]
    rcases each t inside with ⟨name, word⟩ | zero | ⟨noLiteral, noName⟩
    · rw [name]
      exact word
    · rw [zero]
      exact Nat.zero_le _
    · cases kind : t.kind with
      | ident => exact absurd kind noName
      | lit literal =>
          rw [kind] at noLiteral
          cases literal with
          | bool value => exact trivial
          | _ => cases noLiteral
      | _ => trivial
  exact ⟨room, written, parse_fileText spelled clear room written⟩

end Geas.Compiler.Parse
