import Geas.Lib.Loop
import Geas.Compiler.Escape
import Geas.Compiler.Types

/-!
# The lexer

The lexer walks a source by byte offset and collects tokens and faults.  Its offset is
kept as the bytes from it on, of which there are `n` in all.  A newline is no token of
its own; it sets a flag that the next token carries.

A recorded fault never ends the scan.
-/

namespace Geas.Compiler.Lexing

open Geas.Lib
open Geas.Runtime (CString ascii)

/-! ## Tokens -/

/-- The kind of a token. -/
inductive Kind where
  | ident | int | float | str | char | bool | kw
  | arrow | eqEq | ne | le | ge | andAnd | orOr | assign | plus | minus | star | slash | percent
  | lt | gt | bang | question | colon | comma | dot | underscore | lparen | rparen | lbrace
  | rbrace | lbracket | rbracket | eof
  deriving DecidableEq, Repr

/-- A token: its kind, its span, and whether a newline stands before it. -/
structure Token where
  kind : Kind
  lo : Nat
  hi : Nat
  nlBefore : Bool
  deriving DecidableEq, Repr

/-- A fault, with its span. -/
structure Located where
  lo : Nat
  hi : Nat
  msg : CString
  deriving DecidableEq, Repr

/-- The hard keywords. -/
def keywords : List CString :=
  ["contract", "vow", "pledge", "clause", "provisional", "subcontract", "transactional",
    "schema", "requirements", "incorporate", "internal", "record", "import", "let", "mut",
    "return", "if", "else", "match", "while", "for", "in", "break", "continue", "is", "either",
    "or"].map ascii

/-- The lexer. -/
structure Lexer where
  n : Nat
  rest : List UInt8
  pendingNl : Bool
  tokens : List Token
  errors : List Located

/-- `lx_new`. -/
def lxNew (src : List UInt8) : Lexer := ⟨src.length, src, false, [], []⟩

namespace Lexer

/-- `lx_pos`. -/
def pos (lx : Lexer) : Nat := lx.n - lx.rest.length

/-- `lx_peek`, `lx_peek2` and `lx_peek3`, `none` for their -1. -/
def peek (lx : Lexer) (ahead : Nat) : Option UInt8 := lx.rest[ahead]?

/-- `lx_seek`. -/
def seek (lx : Lexer) (rest : List UInt8) : Lexer := { lx with rest }

/-- `lx_advance`. -/
def advance (lx : Lexer) (m : Nat) : Lexer := lx.seek (lx.rest.drop m)

/-- `lx_push`. -/
def push (lx : Lexer) (kind : Kind) (start : Nat) : Lexer :=
  { lx with tokens := lx.tokens ++ [⟨kind, start, lx.pos, lx.pendingNl⟩], pendingNl := false }

/-- `lx_err`. -/
def err (lx : Lexer) (lo : Nat) (msg : CString) : Lexer :=
  { lx with errors := lx.errors ++ [⟨lo, lx.pos, msg⟩] }

/-- `lx_bump_scalar`. -/
def bumpScalar (lx : Lexer) : Lexer :=
  match lx.rest with
  | [] => lx
  | lead :: _ => lx.advance (utf8Len lead.toNat)

/-! ## Trivia -/

/-- What is left after a block comment, whether a newline was seen, and whether the
comment was closed. -/
structure Block where
  rest : List UInt8
  nl : Bool
  closed : Bool

/-- The loop of `lx_skip_block_comment`. -/
def blockComment (nl : Bool) : List UInt8 → Block
  | [] => ⟨[], nl, false⟩
  | c :: rest =>
      if c = 10 then blockComment true rest
      else if c = 42 ∧ rest.head? = some 47 then ⟨rest.tail, nl, true⟩
      else blockComment nl rest

/-- `lx_skip_block_comment`. -/
def skipBlockComment (lx : Lexer) : Lexer :=
  let block := blockComment lx.pendingNl (lx.rest.drop 2)
  let after : Lexer := { lx with rest := block.rest, pendingNl := block.nl }
  if block.closed then after else after.err lx.pos (ascii "unterminated block comment")

/-- `lx_skip_line_comment`. -/
def skipLineComment (lx : Lexer) : Lexer := lx.seek (lx.rest.dropWhile fun c => c != 10)

/-- A turn of `lx_skip_trivia`. -/
def triviaTurn (lx : Lexer) : Round Lexer Lexer :=
  match lx.rest with
  | [] => .stop lx
  | c :: rest =>
      if c = 10 then .again { lx with rest, pendingNl := true }
      else if c = 32 ∨ c = 9 ∨ c = 13 then .again (lx.seek rest)
      else if c = 47 ∧ rest.head? = some 47 then .again lx.skipLineComment
      else if c = 47 ∧ rest.head? = some 42 then .again lx.skipBlockComment
      else .stop lx

/-! ## Words -/

/-- The bytes read from one offset to a later one. -/
def consumed (bytes rest : List UInt8) : CString := bytes.take (bytes.length - rest.length)

/-- The kind of a word. -/
def wordKind (word : CString) : Kind :=
  if word = ascii "_" then .underscore
  else if word = ascii "true" ∨ word = ascii "false" then .bool
  else if word ∈ keywords then .kw
  else .ident

/-- `lx_ident`. -/
def lxIdent (lx : Lexer) (start : Nat) : Lexer :=
  let rest := lx.rest.dropWhile isIdentContinue
  (lx.seek rest).push (wordKind (consumed lx.rest rest)) start

/-! ## Numbers -/

end Lexer

/-- `is_digit`. -/
def isDigit (c : UInt8) : Bool := 48 ≤ c && c ≤ 57

/-- Whether a byte is a digit to `lx_digit_run`. -/
def isDigitOf (base : Nat) (c : UInt8) : Bool :=
  if base = 16 then (hexVal c).isSome else if base = 2 then c == 48 || c == 49 else isDigit c

/-- `lx_digit_run`: what follows the run. -/
def digitRun (base : Nat) (bytes : List UInt8) : List UInt8 :=
  bytes.dropWhile fun c => c == 95 || isDigitOf base c

/-- The count of digits `lx_digit_run` answers. -/
def digitCount (base : Nat) (bytes : List UInt8) : Nat :=
  ((bytes.takeWhile fun c => c == 95 || isDigitOf base c).filter fun c => c != 95).length

/-- The largest `Int`. -/
def intMax : Nat := 9223372036854775807

/-- The loop of `int_overflows`; it is only asked about digits and underscores. -/
def overflowsFrom (base acc : Nat) : List UInt8 → Bool
  | [] => false
  | b :: rest =>
      if b = 95 then overflowsFrom base acc rest
      else
        let dv := (hexVal b).getD 0
        if acc > (intMax - dv) / base then true else overflowsFrom base (acc * base + dv) rest

/-- `int_overflows`. -/
def intOverflows (text : CString) (base : Nat) : Bool := overflowsFrom base 0 text

/-- `lx_exponent`, from its marker. -/
def exponent (bytes : List UInt8) : List UInt8 :=
  if (bytes[1]?).any isDigit then digitRun 10 (bytes.drop 2)
  else if bytes[1]? = some 43 ∨ bytes[1]? = some 45 then
    if (bytes[2]?).any isDigit then digitRun 10 (bytes.drop 2) else bytes
  else bytes

namespace Lexer

/-- `lx_number_junk`. -/
def numberJunk (lx : Lexer) (start : Nat) : Lexer :=
  if (lx.peek 0).any isIdentContinue then
    (lx.seek (lx.rest.dropWhile isIdentContinue)).err start
      (ascii "invalid character in numeric literal")
  else lx

/-- The fault of an integer that does not fit. -/
def overflow (lx : Lexer) (start : Nat) : Lexer :=
  lx.err start (ascii "integer literal overflows 64 bits")

/-- `lx_radix_int`. -/
def radixInt (lx : Lexer) (start base : Nat) (emptyMsg : CString) : Lexer :=
  let dend := digitRun base lx.rest
  let after := (lx.seek dend).numberJunk start
  let checked :=
    if digitCount base lx.rest = 0 then after.err start emptyMsg
    else if intOverflows (consumed lx.rest dend) base then after.overflow start
    else after
  checked.push .int start

/-- Whether a fraction follows the digits of a number. -/
def isFraction (intEnd : List UInt8) : Bool :=
  intEnd.head? == some 46 && (intEnd[1]?).any isDigit

/-- What follows the fraction and the exponent of a float. -/
def floatEnd (intEnd : List UInt8) : List UInt8 :=
  let rest := digitRun 10 (intEnd.drop 1)
  if rest.head? = some 101 ∨ rest.head? = some 69 then exponent rest else rest

/-- The decimal part of `lx_number`. -/
def decimal (lx : Lexer) (start : Nat) : Lexer :=
  let intEnd := digitRun 10 lx.rest
  if isFraction intEnd then ((lx.seek (floatEnd intEnd)).numberJunk start).push .float start
  else
    let after := (lx.seek intEnd).numberJunk start
    let checked :=
      if intOverflows (consumed lx.rest intEnd) 10 then after.overflow start else after
    checked.push .int start

/-- `lx_number`. -/
def lxNumber (lx : Lexer) (start : Nat) : Lexer :=
  if lx.peek 0 = some 48 ∧ lx.peek 1 = some 120 then
    (lx.advance 2).radixInt start 16 (ascii "hex literal needs at least one digit")
  else if lx.peek 0 = some 48 ∧ lx.peek 1 = some 98 then
    (lx.advance 2).radixInt start 2 (ascii "binary literal needs at least one digit")
  else lx.decimal start

/-! ## Strings and chars -/

/-- `scan_one_escape`. -/
def scanOneEscape (lx : Lexer) : Lexer :=
  let res := scanEscape (lx.rest.drop 1)
  match res.outcome with
  | .ok _ => lx.seek res.next
  | .error code => (lx.seek res.next).err lx.pos code.msg

/-- A turn of the loop of `lx_string`. -/
def stringTurn (start : Nat) (lx : Lexer) : Round Lexer Lexer :=
  match lx.rest with
  | [] => .stop (lx.err start (ascii "unterminated string literal"))
  | c :: rest =>
      if c = 10 then .stop (lx.err start (ascii "unterminated string literal"))
      else if c = 34 then .stop (lx.seek rest)
      else if c = 92 then .again lx.scanOneEscape
      else .again (lx.seek rest)

/-- `close_quote`. -/
def closeQuote (lx : Lexer) (start : Nat) (msg : CString) : Lexer :=
  if lx.peek 0 = some 39 then lx.advance 1
  else
    let found := lx.seek (lx.rest.dropWhile fun c => c != 39 && c != 10)
    (if found.peek 0 = some 39 then found.advance 1 else found).err start msg

/-- The character of `lx_char`, after its opening quote. -/
def charBody (lx : Lexer) (start : Nat) : Lexer :=
  match lx.rest with
  | [] => lx.err start (ascii "unterminated char literal")
  | c :: _ =>
      if c = 39 then lx.err start (ascii "empty char literal")
      else if c = 92 then lx.scanOneEscape
      else if c < 128 then lx.advance 1
      else lx.bumpScalar

/-- `lx_char`. -/
def lxChar (lx : Lexer) (start : Nat) : Lexer :=
  (((lx.advance 1).charBody start).closeQuote start
    (ascii "char literal must contain exactly one character")).push .char start

/-! ## Symbols -/

/-- `match_op`: every operator of two bytes. -/
def matchOp (c : UInt8) (n2 : Option UInt8) : Option Kind :=
  if c = 45 ∧ n2 = some 62 then some .arrow
  else if c = 61 ∧ n2 = some 61 then some .eqEq
  else if c = 33 ∧ n2 = some 61 then some .ne
  else if c = 60 ∧ n2 = some 61 then some .le
  else if c = 62 ∧ n2 = some 61 then some .ge
  else if c = 38 ∧ n2 = some 38 then some .andAnd
  else if c = 124 ∧ n2 = some 124 then some .orOr
  else none

/-- `one_kind`. -/
def oneKind (c : UInt8) : Option Kind :=
  [(61, Kind.assign), (43, .plus), (45, .minus), (42, .star), (47, .slash), (37, .percent),
    (60, .lt), (62, .gt), (33, .bang), (63, .question), (58, .colon), (44, .comma), (46, .dot),
    (40, .lparen), (41, .rparen), (123, .lbrace), (125, .rbrace), (91, .lbracket),
    (93, .rbracket)].lookup c

/-- `lx_symbol`. -/
def lxSymbol (lx : Lexer) (start : Nat) (c : UInt8) : Lexer :=
  if 128 ≤ c then lx.bumpScalar.err start (ascii "unexpected character")
  else
    match matchOp c (lx.peek 1) with
    | some kind => (lx.advance 2).push kind start
    | none =>
        match oneKind c with
        | none => (lx.advance 1).err start (ascii "unexpected character")
        | some kind => (lx.advance 1).push kind start

/-! ## What a scanner leaves alone -/

/-- A lexer that has read on: it added faults and took bytes. -/
structure Reads (before after : Lexer) : Prop where
  n : after.n = before.n
  tokens : after.tokens = before.tokens
  suffix : after.rest <:+ before.rest
  errors : before.errors <+: after.errors

/-- A lexer that has read on inside a token: the newline flag stays too. -/
structure Scans (before after : Lexer) : Prop extends Reads before after where
  pendingNl : after.pendingNl = before.pendingNl

namespace Reads

variable {first second third : Lexer}

theorem refl (lx : Lexer) : Reads lx lx := ⟨rfl, rfl, List.suffix_rfl, List.prefix_rfl⟩

theorem trans (front : Reads first second) (back : Reads second third) : Reads first third :=
  ⟨back.n.trans front.n, back.tokens.trans front.tokens, back.suffix.trans front.suffix,
    front.errors.trans back.errors⟩

theorem length_le (reads : Reads first second) : second.rest.length ≤ first.rest.length :=
  reads.suffix.length_le

end Reads

namespace Scans

variable {first second third : Lexer}

theorem refl (lx : Lexer) : Scans lx lx := ⟨Reads.refl lx, rfl⟩

theorem trans (front : Scans first second) (back : Scans second third) : Scans first third :=
  ⟨front.toReads.trans back.toReads, back.pendingNl.trans front.pendingNl⟩

theorem seek {rest : List UInt8} (scans : Scans first second) (suffix : rest <:+ second.rest) :
    Scans first (second.seek rest) :=
  ⟨⟨scans.n, scans.tokens, suffix.trans scans.suffix, scans.errors⟩, scans.pendingNl⟩

theorem advance (scans : Scans first second) (m : Nat) : Scans first (second.advance m) :=
  scans.seek (List.drop_suffix m _)

theorem err (scans : Scans first second) (lo : Nat) (msg : CString) :
    Scans first (second.err lo msg) :=
  ⟨⟨scans.n, scans.tokens, scans.suffix, scans.errors.trans (List.prefix_append _ _)⟩,
    scans.pendingNl⟩

theorem bumpScalar (scans : Scans first second) : Scans first second.bumpScalar := by
  rw [Lexer.bumpScalar]
  split
  · exact scans
  · exact scans.advance _

theorem numberJunk (scans : Scans first second) (start : Nat) :
    Scans first (second.numberJunk start) := by
  rw [Lexer.numberJunk]
  split
  · exact (scans.seek (List.dropWhile_suffix _)).err _ _
  · exact scans

theorem scanOneEscape (scans : Scans first second) : Scans first second.scanOneEscape := by
  have suffix := (scanEscape_suffix (second.rest.drop 1)).trans (List.drop_suffix 1 second.rest)
  rw [Lexer.scanOneEscape]
  split
  · exact scans.seek suffix
  · exact (scans.seek suffix).err _ _

theorem charBody (scans : Scans first second) (start : Nat) :
    Scans first (second.charBody start) := by
  rw [Lexer.charBody]
  split
  · exact scans.err _ _
  · split_ifs
    · exact scans.err _ _
    · exact scans.scanOneEscape
    · exact scans.advance 1
    · exact scans.bumpScalar

theorem closeQuote (scans : Scans first second) (start : Nat) (msg : CString) :
    Scans first (second.closeQuote start msg) := by
  have found := scans.seek
    (List.dropWhile_suffix (l := second.rest) fun c => c != 39 && c != 10)
  rw [Lexer.closeQuote]
  split
  · exact scans.advance 1
  · dsimp only
    split
    · exact (found.advance 1).err _ _
    · exact found.err _ _

end Scans

theorem blockComment_suffix (bytes : List UInt8) (nl : Bool) :
    (blockComment nl bytes).rest <:+ bytes := by
  induction bytes generalizing nl with
  | nil => exact List.suffix_rfl
  | cons c bytes ih =>
      rw [blockComment]
      split_ifs
      · exact (ih true).trans (List.suffix_cons c bytes)
      · exact (List.tail_suffix bytes).trans (List.suffix_cons c bytes)
      · exact (ih nl).trans (List.suffix_cons c bytes)

/-- A turn over trivia takes a byte at least. -/
theorem triviaTurn_again {lx next : Lexer} (turned : lx.triviaTurn = .again next) :
    Reads lx next ∧ next.rest.length < lx.rest.length := by
  rw [triviaTurn] at turned
  cases shape : lx.rest with
  | nil =>
      rw [shape] at turned
      cases turned
  | cons c rest =>
      have tail : rest <:+ lx.rest := shape ▸ List.suffix_cons c rest
      simp only [shape] at turned
      split_ifs at turned with newline blank line block
      · cases turned
        exact ⟨⟨rfl, rfl, tail, List.prefix_rfl⟩, Nat.lt_succ_self _⟩
      · cases turned
        exact ⟨((Scans.refl lx).seek tail).toReads, Nat.lt_succ_self _⟩
      · cases turned
        have drops : (lx.rest.dropWhile fun c => c != 10) = rest.dropWhile fun c => c != 10 := by
          rw [shape, List.dropWhile_cons_of_pos (by rw [line.1]; decide)]
        have inside := List.dropWhile_suffix (l := rest) fun c => c != 10
        refine ⟨((Scans.refl lx).seek (List.dropWhile_suffix _)).toReads, ?_⟩
        rw [skipLineComment, drops]
        exact Nat.lt_succ_of_le inside.length_le
      · cases turned
        have inside := blockComment_suffix (lx.rest.drop 2) lx.pendingNl
        have reads : Reads lx { lx with
            rest := (blockComment lx.pendingNl (lx.rest.drop 2)).rest
            pendingNl := (blockComment lx.pendingNl (lx.rest.drop 2)).nl } :=
          ⟨rfl, rfl, inside.trans (List.drop_suffix 2 _), List.prefix_rfl⟩
        have shorter := inside.length_le
        simp only [shape, List.drop_succ_cons, List.length_drop] at shorter
        rw [skipBlockComment]
        split_ifs
        · exact ⟨reads, by simp only [shape, List.drop_succ_cons, List.length_cons]; omega⟩
        · refine ⟨⟨rfl, rfl, reads.suffix, List.prefix_append _ _⟩, ?_⟩
          simp only [err, shape, List.drop_succ_cons, List.length_cons]
          omega

/-- The loop of `lx_skip_trivia`. -/
def triviaLoop : Loop Lexer Lexer where
  turn := triviaTurn
  size lx := lx.rest.length
  shrinks _ _ turned := (triviaTurn_again turned).2

/-- `lx_skip_trivia`. -/
def skipTrivia (lx : Lexer) : Lexer := triviaLoop.run lx

theorem skipTrivia_reads (lx : Lexer) : Reads lx lx.skipTrivia := by
  refine triviaLoop.run_rec Reads ?_ ?_ lx
  · intro state result turned
    change state.triviaTurn = .stop result at turned
    rw [triviaTurn] at turned
    split at turned
    · cases turned
      exact Reads.refl state
    · split_ifs at turned
      cases turned
      exact Reads.refl state
  · intro state next result turned reads
    exact (triviaTurn_again turned).1.trans reads

/-- A turn inside a string takes a byte at least. -/
theorem stringTurn_again {start : Nat} {lx next : Lexer}
    (turned : lx.stringTurn start = .again next) :
    Scans lx next ∧ next.rest.length < lx.rest.length := by
  rw [stringTurn] at turned
  cases shape : lx.rest with
  | nil =>
      rw [shape] at turned
      cases turned
  | cons c rest =>
      have tail : rest <:+ lx.rest := shape ▸ List.suffix_cons c rest
      simp only [shape] at turned
      split_ifs at turned with newline quote slash
      · cases turned
        refine ⟨(Scans.refl lx).scanOneEscape, ?_⟩
        have shorter := (scanEscape_suffix rest).length_le
        simp only [scanOneEscape, shape, List.drop_succ_cons, List.drop_zero]
        split
        · exact Nat.lt_succ_of_le shorter
        · exact Nat.lt_succ_of_le shorter
      · cases turned
        exact ⟨(Scans.refl lx).seek tail, Nat.lt_succ_self _⟩

/-- The loop of `lx_string`. -/
def stringLoop (start : Nat) : Loop Lexer Lexer where
  turn := stringTurn start
  size lx := lx.rest.length
  shrinks _ _ turned := (stringTurn_again turned).2

/-- `lx_string`. -/
def lxString (lx : Lexer) (start : Nat) : Lexer :=
  ((stringLoop start).run (lx.advance 1)).push .str start

theorem stringLoop_scans (start : Nat) (lx : Lexer) : Scans lx ((stringLoop start).run lx) := by
  refine (stringLoop start).run_rec Scans ?_ ?_ lx
  · intro state result turned
    change state.stringTurn start = .stop result at turned
    rw [stringTurn] at turned
    split at turned
    · cases turned
      exact (Scans.refl state).err _ _
    · rename_i c rest shape
      have tail : rest <:+ state.rest := shape ▸ List.suffix_cons c rest
      split_ifs at turned
      · cases turned
        exact (Scans.refl state).err _ _
      · cases turned
        exact (Scans.refl state).seek tail
  · intro state next result turned scans
    exact (stringTurn_again turned).1.trans scans

/-! ## The scan -/

/-- The token at a byte: the dispatch of `lex_run`. -/
def scanToken (lx : Lexer) (c : UInt8) : Lexer :=
  if isIdentStart c then lx.lxIdent lx.pos
  else if isDigit c then lx.lxNumber lx.pos
  else if c = 34 then lx.lxString lx.pos
  else if c = 39 then lx.lxChar lx.pos
  else lx.lxSymbol lx.pos c

/-- A turn of `lex_run`. -/
def lexTurn (lx : Lexer) : Round Lexer Lexer :=
  match lx.skipTrivia.rest with
  | [] => .stop (lx.skipTrivia.push .eof lx.skipTrivia.pos)
  | c :: _ => .again (lx.skipTrivia.scanToken c)

/-- What the dispatch does at a byte: it pushes the token it has scanned, or faults. -/
inductive Scanned (lx : Lexer) : Lexer → Prop where
  | token {mid : Lexer} (kind : Kind) (scans : Scans lx mid)
      (less : mid.rest.length < lx.rest.length) : Scanned lx (mid.push kind lx.pos)
  | fault {mid : Lexer} (msg : CString) (scans : Scans lx mid)
      (less : mid.rest.length < lx.rest.length) : Scanned lx (mid.err lx.pos msg)

section Dispatch

variable {lx : Lexer} {c : UInt8} {more : List UInt8}

/-- Reading on from behind the first byte takes a byte at least. -/
theorem shorter_of_tail {mid : Lexer} (shape : lx.rest = c :: more)
    (behind : mid.rest <:+ more) : mid.rest.length < lx.rest.length := by
  rw [shape]
  exact Nat.lt_succ_of_le behind.length_le

theorem dropWhile_behind {p : UInt8 → Bool} (shape : lx.rest = c :: more) (first : p c = true) :
    lx.rest.dropWhile p <:+ more := by
  rw [shape, List.dropWhile_cons_of_pos first]
  exact List.dropWhile_suffix p

theorem lxIdent_scanned (shape : lx.rest = c :: more) (start : isIdentStart c = true) :
    Scanned lx (lx.lxIdent lx.pos) :=
  .token _ ((Scans.refl lx).seek (List.dropWhile_suffix _))
    (shorter_of_tail shape (dropWhile_behind shape (by simp [isIdentContinue, start])))

theorem advance_behind (shape : lx.rest = c :: more) (m : Nat) :
    (lx.advance (m + 1)).rest <:+ more := by
  rw [advance, seek, shape, List.drop_succ_cons]
  exact List.drop_suffix m more

theorem bumpScalar_behind (shape : lx.rest = c :: more) : lx.bumpScalar.rest <:+ more := by
  have positive : ∃ m, utf8Len c.toNat = m + 1 := by
    rw [utf8Len]
    split_ifs
    exacts [⟨3, rfl⟩, ⟨2, rfl⟩, ⟨1, rfl⟩, ⟨0, rfl⟩]
  obtain ⟨m, len⟩ := positive
  simp only [bumpScalar, shape, len]
  exact advance_behind shape m

theorem lxSymbol_scanned (shape : lx.rest = c :: more) : Scanned lx (lx.lxSymbol lx.pos c) := by
  have ahead (m : Nat) : Scans lx (lx.advance (m + 1)) ∧
      (lx.advance (m + 1)).rest.length < lx.rest.length :=
    ⟨(Scans.refl lx).advance _, shorter_of_tail shape (advance_behind shape m)⟩
  rw [lxSymbol]
  split
  · exact .fault _ (Scans.refl lx).bumpScalar (shorter_of_tail shape (bumpScalar_behind shape))
  · split
    · exact .token _ (ahead 1).1 (ahead 1).2
    · split
      · exact .fault _ (ahead 0).1 (ahead 0).2
      · exact .token _ (ahead 0).1 (ahead 0).2

theorem lxChar_scanned (shape : lx.rest = c :: more) : Scanned lx (lx.lxChar lx.pos) := by
  have inside := (((Scans.refl (lx.advance 1)).charBody lx.pos).closeQuote lx.pos
    (ascii "char literal must contain exactly one character"))
  exact .token _ (((Scans.refl lx).advance 1).trans inside)
    (shorter_of_tail shape (inside.suffix.trans (advance_behind shape 0)))

theorem lxString_scanned (shape : lx.rest = c :: more) : Scanned lx (lx.lxString lx.pos) := by
  have inside := stringLoop_scans lx.pos (lx.advance 1)
  exact .token _ (((Scans.refl lx).advance 1).trans inside)
    (shorter_of_tail shape (inside.suffix.trans (advance_behind shape 0)))

/-! ### Numbers -/

theorem digitRun_cons (digit : isDigit c = true) :
    digitRun 10 (c :: more) = digitRun 10 more := by
  rw [digitRun, List.dropWhile_cons_of_pos (by simp [isDigitOf, digit])]
  rfl

theorem digitRun_suffix (base : Nat) (bytes : List UInt8) : digitRun base bytes <:+ bytes :=
  List.dropWhile_suffix _

theorem exponent_suffix (bytes : List UInt8) : exponent bytes <:+ bytes := by
  have inside := (digitRun_suffix 10 (bytes.drop 2)).trans (List.drop_suffix 2 bytes)
  rw [exponent]
  split_ifs
  · exact inside
  · exact inside
  · exact List.suffix_rfl
  · exact List.suffix_rfl

theorem floatEnd_suffix (intEnd : List UInt8) : floatEnd intEnd <:+ intEnd := by
  have inside := (digitRun_suffix 10 (intEnd.drop 1)).trans (List.drop_suffix 1 intEnd)
  rw [floatEnd]
  split
  · exact (exponent_suffix _).trans inside
  · exact inside

/-- A scan that faults adds to the faults. -/
theorem Scans.err_ne {first second : Lexer} (scans : Scans first second) (lo : Nat)
    (msg : CString) : (second.err lo msg).errors ≠ first.errors := by
  intro same
  have grown := scans.errors.length_le
  have length := congrArg List.length same
  simp only [Lexer.err, List.length_append, List.length_singleton] at length
  omega

/-- A number that nothing trails. -/
theorem Scans.numberJunk_quiet {first second : Lexer} {start : Nat} (scans : Scans first second)
    (quiet : (second.numberJunk start).errors = first.errors) :
    second.numberJunk start = second ∧ (second.peek 0).any isIdentContinue = false := by
  rw [Lexer.numberJunk] at quiet ⊢
  split at quiet
  · exact absurd quiet ((scans.seek (List.dropWhile_suffix _)).err_ne _ _)
  · rename_i clear
    exact ⟨by rw [if_neg clear], by simpa using clear⟩

/-- An integer in a base, with what it tells of its text when it is not faulted. -/
theorem radixInt_spec (lx : Lexer) (start base : Nat) (emptyMsg : CString) :
    ∃ mid, lx.radixInt start base emptyMsg = mid.push .int start ∧ Scans lx mid ∧
      (mid.errors = lx.errors → mid.rest = digitRun base lx.rest ∧
        digitCount base lx.rest ≠ 0 ∧
        intOverflows (consumed lx.rest (digitRun base lx.rest)) base = false) := by
  have scans := ((Scans.refl lx).seek (digitRun_suffix base lx.rest)).numberJunk start
  refine ⟨_, rfl, ?_, ?_⟩
  · split_ifs
    · exact scans.err _ _
    · exact scans.err _ _
    · exact scans
  · intro quiet
    split_ifs at quiet with empty past
    · exact absurd quiet (scans.err_ne _ _)
    · exact absurd quiet (scans.err_ne _ _)
    · rw [if_neg empty, if_neg past]
      obtain ⟨same, -⟩ := ((Scans.refl lx).seek (digitRun_suffix base lx.rest)).numberJunk_quiet quiet
      exact ⟨by rw [same]; rfl, empty, by simpa using past⟩

/-- A decimal number, with what it tells of its text when it is not faulted. -/
theorem decimal_spec (lx : Lexer) (start : Nat) :
    ∃ mid, Scans lx mid ∧ mid.rest <:+ digitRun 10 lx.rest ∧
      ((isFraction (digitRun 10 lx.rest) = true ∧ lx.decimal start = mid.push .float start ∧
          (mid.errors = lx.errors → mid.rest = floatEnd (digitRun 10 lx.rest))) ∨
        (isFraction (digitRun 10 lx.rest) = false ∧ lx.decimal start = mid.push .int start ∧
          (mid.errors = lx.errors → mid.rest = digitRun 10 lx.rest ∧
            intOverflows (consumed lx.rest (digitRun 10 lx.rest)) 10 = false))) := by
  have run := digitRun_suffix 10 lx.rest
  cases fraction : isFraction (digitRun 10 lx.rest) with
  | true =>
      have inside := floatEnd_suffix (digitRun 10 lx.rest)
      have scans := (Scans.refl lx).seek (inside.trans run)
      refine ⟨_, scans.numberJunk start, ?_, .inl ⟨rfl, ?_, ?_⟩⟩
      · exact ((Scans.refl (lx.seek _)).numberJunk start).suffix.trans inside
      · rw [decimal, if_pos fraction]
      · intro quiet
        rw [(scans.numberJunk_quiet quiet).1]
        rfl
  | false =>
      have scans := (Scans.refl lx).seek run
      have after := scans.numberJunk start
      have behind := ((Scans.refl (lx.seek (digitRun 10 lx.rest))).numberJunk start).suffix
      refine ⟨if intOverflows (consumed lx.rest (digitRun 10 lx.rest)) 10 then
        ((lx.seek (digitRun 10 lx.rest)).numberJunk start).overflow start
        else (lx.seek (digitRun 10 lx.rest)).numberJunk start, ?_, ?_, .inr ⟨rfl, ?_, ?_⟩⟩
      · split
        · exact after.err _ _
        · exact after
      · split
        · exact behind
        · exact behind
      · simp only [decimal, fraction, Bool.false_eq_true, if_false]
      · intro quiet
        split_ifs at quiet ⊢ with past
        · exact absurd quiet (after.err_ne _ _)
        · rw [(scans.numberJunk_quiet quiet).1]
          exact ⟨rfl, by simpa using past⟩

theorem lxNumber_scanned (shape : lx.rest = c :: more) (digit : isDigit c = true) :
    Scanned lx (lx.lxNumber lx.pos) := by
  have radix (base : Nat) (emptyMsg : CString) :
      Scanned lx ((lx.advance 2).radixInt lx.pos base emptyMsg) := by
    obtain ⟨mid, same, scans, -⟩ := (lx.advance 2).radixInt_spec lx.pos base emptyMsg
    rw [same]
    exact .token _ (((Scans.refl lx).advance 2).trans scans)
      (shorter_of_tail shape (scans.suffix.trans (advance_behind shape 1)))
  rw [lxNumber]
  split_ifs
  · exact radix _ _
  · exact radix _ _
  · obtain ⟨mid, scans, behind, float | int⟩ := lx.decimal_spec lx.pos
    all_goals
      rw [shape, digitRun_cons digit] at behind
      have less := shorter_of_tail shape (behind.trans (digitRun_suffix 10 more))
    · rw [float.2.1]
      exact .token _ scans less
    · rw [int.2.1]
      exact .token _ scans less

/-- Every byte starts a scan that goes forward. -/
theorem scanToken_scanned (shape : lx.rest = c :: more) : Scanned lx (lx.scanToken c) := by
  rw [scanToken]
  split_ifs with ident digit quote tick
  · exact lxIdent_scanned shape ident
  · exact lxNumber_scanned shape digit
  · exact lxString_scanned shape
  · exact lxChar_scanned shape
  · exact lxSymbol_scanned shape

end Dispatch

/-- A turn of the scan takes a byte at least. -/
theorem lexTurn_again {lx next : Lexer} (turned : lx.lexTurn = .again next) :
    next.rest.length < lx.rest.length := by
  rw [lexTurn] at turned
  split at turned
  · cases turned
  · rename_i c more shape
    cases turned
    have skipped := lx.skipTrivia_reads.length_le
    have scanned := scanToken_scanned shape
    generalize lx.skipTrivia.scanToken c = next at scanned
    cases scanned with
    | token kind scans less => exact less.trans_le skipped
    | fault msg scans less => exact less.trans_le skipped

/-- The loop of `lex_run`. -/
def lexLoop : Loop Lexer Lexer where
  turn := lexTurn
  size lx := lx.rest.length
  shrinks _ _ turned := lexTurn_again turned

/-- `lex_run`. -/
def lexRun (lx : Lexer) : Lexer := lexLoop.run lx

end Lexer

/-- `lex`. -/
def lex (src : List UInt8) : Lexer := (lxNew src).lexRun

end Geas.Compiler.Lexing
