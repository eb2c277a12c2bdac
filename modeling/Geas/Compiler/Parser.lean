import Geas.Lib.Descent
import Geas.Compiler.Syntax

/-!
# The parser's state

Tokens, the parser's state and the operations the grammar is written in: token
navigation, faults, the newline discipline, the grouping depth that lets a newline
inside parentheses mean nothing, and the nesting ceiling.

A token carries the text its span covers, and a literal also the payload that is decoded
from that text.  The state keeps the tokens from the current one on.  A fault is placed
at the index of its token.  Two counters that nothing reads say how many calls of parse
functions are open: all of them, and those of `parse_subcontract`.
-/

namespace Geas.Compiler.Parse

open Geas.Lib Geas.Lib.Descent
open Geas.Runtime (CString ascii)

/-! ## Tokens -/

/-- The hard keywords. -/
inductive Keyword where
  | contract | vow | pledge | clause | provisional | subcontract | transactional | schema
  | requirements | incorporate | internal | record | import_ | let_ | mut | return_ | if_
  | else_ | match_ | while_ | for_ | in_ | break_ | continue_ | is | either | or
  deriving DecidableEq, Repr

/-- The kind of a token. -/
inductive Kind where
  | ident
  | lit (literal : Lit)
  | kw (word : Keyword)
  | arrow | eqEq | ne | le | ge | andAnd | orOr | assign | plus | minus | star | slash
  | percent | lt | gt | bang | question | colon | comma | dot | underscore | lparen | rparen
  | lbrace | rbrace | lbracket | rbracket | eof
  deriving DecidableEq, Repr

/-- A token, with whether a newline precedes it. -/
structure Token where
  kind : Kind
  text : CString
  nlBefore : Bool
  deriving DecidableEq, Repr

/-- The token that stands in when the stream has ended. -/
def eofToken : Token := ⟨.eof, [], false⟩

/-- The stream ends in the end token. -/
def EndsInEof (toks : List Token) : Prop :=
  ∃ before last, toks = before ++ [last] ∧ last.kind = .eof

/-! ## State -/

/-- A fault at a token. -/
structure Located where
  tok : Nat
  msg : CString
  deriving DecidableEq, Repr

/-- The calls of parse functions that are open, and the most there were at once. -/
structure Calls where
  live : Nat
  deepest : Nat
  liveSubs : Nat
  deepestSubs : Nat
  deriving DecidableEq, Repr

/-- The parser. -/
structure Parser where
  toks : List Token
  pos : Nat
  errors : List Located
  groupDepth : Nat
  depth : Nat
  hitDepthLimit : Bool
  noRecord : Bool
  calls : Calls

/-- `parser_new`. -/
def parserNew (toks : List Token) : Parser :=
  ⟨toks, 0, [], 0, 0, false, false, ⟨0, 0, 0, 0⟩⟩

/-- Why a parse would not come to its end: its recursion is deeper than it was given
room for, or a turn of a loop used up no token. -/
inductive Stop where
  | overflow | stalled
  deriving DecidableEq, Repr

/-- A parse. -/
abbrev P (α : Type) : Type := Run Parser Stop α

namespace Parser

/-- `p_tok`. -/
def tok (p : Parser) : Token := p.toks.headD eofToken

/-- `p_tok2`. -/
def tok2 (p : Parser) : Token := p.toks.tail.headD eofToken

/-- `p_kind`. -/
def kind (p : Parser) : Kind := p.tok.kind

/-- `p_at_end`: the end of the input, or the halt after the nesting ceiling. -/
def atEnd (p : Parser) : Bool := p.hitDepthLimit || decide (p.kind = .eof)

/-- `p_nl_term`: a newline ends an expression outside every group, and a halted parser
ends everything. -/
def nlTerm (p : Parser) : Bool :=
  p.hitDepthLimit || (decide (p.groupDepth = 0) && p.tok.nlBefore)

/-- One token further. -/
def advance (p : Parser) : Parser := { p with toks := p.toks.tail, pos := p.pos + 1 }

/-- `p_bump`, which never passes the end. -/
def bump (p : Parser) : Parser := if p.kind = .eof then p else p.advance

/-- `p_error`: silent once the ceiling was hit. -/
def fault (p : Parser) (msg : CString) : Parser :=
  if p.hitDepthLimit then p else { p with errors := p.errors ++ [⟨p.pos, msg⟩] }

/-- `token_found`. -/
def tokenFound (p : Parser) : CString :=
  if p.kind = .eof then ascii "end of input" else [39] ++ p.tok.text ++ [39]

/-- `expected_found`. -/
def expectedFound (p : Parser) (what : String) : CString :=
  ascii "expected " ++ ascii what ++ ascii ", found " ++ p.tokenFound

end Parser

/-! ## Operations -/

def pTok : P Token := ask Parser.tok

def pKind : P Kind := ask Parser.kind

def pKind2 : P Kind := ask fun p => p.tok2.kind

def pAt (k : Kind) : P Bool := ask fun p => decide (p.kind = k)

def pAtEof : P Bool := pAt .eof

def pAtEnd : P Bool := ask Parser.atEnd

def pNlHere : P Bool := ask fun p => p.tok.nlBefore

def pNlTerm : P Bool := ask Parser.nlTerm

def pBump : P Unit := update Parser.bump

def pError (msg : String) : P Unit := update (·.fault (ascii msg))

/-- A fault that names the token found. -/
def pErrorExpected (what : String) : P Unit := update fun p => p.fault (p.expectedFound what)

def pEat (k : Kind) : P Bool := do
  if ← pAt k then
    update Parser.advance
    return true
  else
    return false

def pExpect (k : Kind) (what : String) : P Unit := do
  if ← pEat k then return () else pErrorExpected what

def pKw (word : Keyword) : P Bool := pAt (.kw word)

def pKw2 (word : Keyword) : P Bool := ask fun p => decide (p.tok2.kind = .kw word)

def pEatKw (word : Keyword) : P Bool := do
  if ← pKw word then
    pBump
    return true
  else
    return false

def pExpectKw (word : Keyword) (what : String) : P Unit := do
  if ← pEatKw word then return () else pErrorExpected what

/-- Whether the current token is an ordinary identifier of this spelling. -/
def pIdentIs (text : String) : P Bool :=
  ask fun p => decide (p.kind = .ident ∧ p.tok.text = ascii text)

/-- An identifier, or the empty name and a fault. -/
def pIdent : P CString := do
  let t ← pTok
  if t.kind = .ident then
    pBump
    return t.text
  else
    pErrorExpected "an identifier"
    return []

/-- A member name after a dot, where every keyword is a name too. -/
def isMemberName : Kind → Bool
  | .ident | .kw _ | .lit (.bool _) => true
  | _ => false

def pMemberName : P CString := do
  let t ← pTok
  if isMemberName t.kind then
    pBump
    return t.text
  else
    pErrorExpected "a member name after '.'"
    return []

def pGroupEnter : P Unit := update fun p => { p with groupDepth := p.groupDepth + 1 }

def pGroupLeave : P Unit := update fun p => { p with groupDepth := p.groupDepth - 1 }

/-- A brace resets the grouping depth and hands back the depth it found. -/
def pBraceSave : P Nat := do
  let d ← ask Parser.groupDepth
  update fun p => { p with groupDepth := 0 }
  return d

def pBraceRestore (d : Nat) : P Unit := update fun p => { p with groupDepth := d }

def pNoRecord : P Bool := ask Parser.noRecord

def pSetNoRecord (b : Bool) : P Unit := update fun p => { p with noRecord := b }

/-- The nesting ceiling. -/
def ceiling : Nat := 500

/-- The state after one more level of nesting.  The first level above the ceiling is
reported and halts the parser. -/
def Parser.enter (p : Parser) : Parser :=
  let deeper := { p with depth := p.depth + 1 }
  if deeper.depth > ceiling ∧ p.hitDepthLimit = false then
    { deeper with
      hitDepthLimit := true
      errors := p.errors ++ [⟨p.pos, ascii "nesting is too deep; the parser stopped here"⟩] }
  else deeper

def pEnterNesting : P Bool := do
  update Parser.enter
  ask fun p => decide (p.depth ≤ ceiling)

def pLeaveNesting : P Unit := update fun p => { p with depth := p.depth - 1 }

/-- A production under the ceiling, or its placeholder above it. -/
def underCeiling {α : Type} (inner : P α) (placeholder : α) : P α := do
  if ← pEnterNesting then
    let a ← inner
    pLeaveNesting
    return a
  else
    pLeaveNesting
    return placeholder

/-- Step over a token an element left unread, so that its loop makes progress. -/
def pGuardProgress (before : Nat) (ctx : String) : P Unit := do
  let pos ← ask Parser.pos
  if pos = before then
    update fun p => p.fault (ascii ctx ++ ascii ": " ++ p.tokenFound)
    pBump
  else
    return ()

/-- After an element the next token opens a line, closes the body or ends the input. -/
def pSep (msg : String) : P Unit := do
  if ← pAtEof then return ()
  else if ← pAt .rbrace then return ()
  else if ← pNlTerm then return ()
  else pError msg

def pExpectClose (eofMsg : String) : P Unit := do
  if ← pEat .rbrace then return ()
  else if ← pAtEof then pError eofMsg
  else pErrorExpected "'\x7d'"

theorem Parser.kind_of_toks {p : Parser} {t : Token} {rest : List Token}
    (toks : p.toks = t :: rest) :
    p.kind = t.kind := by
  simp [Parser.kind, Parser.tok, toks]

theorem pBump_at {p : Parser} (awake : p.kind ≠ .eof) : pBump p = .ok ((), p.advance) := by
  change Except.ok ((), p.bump) = _
  rw [Parser.bump, if_neg awake]

theorem pIdent_at {p : Parser} (here : p.kind = .ident) :
    pIdent p = .ok (p.tok.text, p.advance) := by
  change (if p.kind = .ident then _ else _ : P CString) p = _
  rw [if_pos here]
  exact run_bind (pBump_at (by rw [here]; decide))

theorem pEat_at {k : Kind} {p : Parser} (here : p.kind = k) : pEat k p = .ok (true, p.advance) := by
  change (if decide (p.kind = k) = true then _ else _ : P Bool) p = _
  rw [if_pos (by simpa using here)]
  rfl

theorem pEat_not {k : Kind} {p : Parser} (no : p.kind ≠ k) : pEat k p = .ok (false, p) := by
  change (if decide (p.kind = k) = true then _ else _ : P Bool) p = _
  rw [if_neg (by simpa using no)]
  rfl

theorem pExpect_at {k : Kind} {what : String} {p : Parser} (here : p.kind = k) :
    pExpect k what p = .ok ((), p.advance) :=
  run_bind (pEat_at here)

theorem pExpect_not {k : Kind} {what : String} {p : Parser} (no : p.kind ≠ k) :
    pExpect k what p = .ok ((), p.fault (p.expectedFound what)) :=
  run_bind (pEat_not no)

theorem pEatKw_not {word : Keyword} {p : Parser} (no : p.kind ≠ .kw word) :
    pEatKw word p = .ok (false, p) := by
  change (if decide (p.kind = .kw word) = true then _ else _ : P Bool) p = _
  rw [if_neg (by simpa using no)]
  rfl

/-! ## Loops -/

/-- A loop of the grammar, whose turns use up tokens. -/
def pLoop {β : Type} (turn : β → P (Turn β)) (b : β) : P β :=
  loop (fun p => p.toks.length) .stalled turn b

/-- One element of a braced body, up to its brace or the end.  An element that reads
nothing is stepped over. -/
def bodyTurn {β : Type} (ctx : String) (element : β → P β) (b : β) : P (Turn β) := do
  if ← pAt .rbrace then return .stop b
  else if ← pAtEnd then return .stop b
  else
    let before ← ask Parser.pos
    let b ← element b
    pGuardProgress before ctx
    return .again b

/-- The elements of a braced body. -/
def bodyLoop {β : Type} (ctx : String) (element : β → P β) (b : β) : P β :=
  pLoop (bodyTurn ctx element) b

/-- One element of a list whose commas say whether another follows. -/
def commaTurn {α : Type} (element : P α) (seen : List α) : P (Turn (List α)) := do
  let a ← element
  if ← pEat .comma then return .again (seen ++ [a]) else return .stop (seen ++ [a])

/-- A comma list that stops at `stops`, as the list of an opened group does. -/
def commaLoop {α : Type} (stops : P Bool) (element : P α) : P (List α) :=
  pLoop (fun seen => do
    if ← stops then return .stop seen else commaTurn element seen) []

/-- A comma list that is empty when it meets its closing token at once. -/
def commaList {α : Type} (close : Kind) (stops : P Bool) (element : P α) : P (List α) := do
  if ← pAt close then return [] else commaLoop stops element

/-! ## Calls -/

/-- The state in a call. -/
def Parser.called (p : Parser) : Parser :=
  let live := p.calls.live + 1
  { p with calls := { p.calls with live := live, deepest := max p.calls.deepest live } }

/-- The state back from a call. -/
def Parser.returned (p : Parser) : Parser :=
  { p with calls := { p.calls with live := p.calls.live - 1 } }

/-- A call of a parse function, counted while it is open. -/
def framed {α : Type} (m : P α) : P α := do
  update Parser.called
  let a ← m
  update Parser.returned
  return a

/-- The state in the body of a subcontract. -/
def Parser.subOpened (p : Parser) : Parser :=
  let live := p.calls.liveSubs + 1
  { p with calls := { p.calls with liveSubs := live, deepestSubs := max p.calls.deepestSubs live } }

/-- The state behind the body of a subcontract. -/
def Parser.subClosed (p : Parser) : Parser :=
  { p with calls := { p.calls with liveSubs := p.calls.liveSubs - 1 } }

/-- The body of a subcontract, counted while it is open. -/
def framedSub {α : Type} (m : P α) : P α := do
  update Parser.subOpened
  let a ← m
  update Parser.subClosed
  return a

end Geas.Compiler.Parse
