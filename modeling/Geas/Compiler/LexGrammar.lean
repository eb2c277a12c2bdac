import Geas.Compiler.Partition

/-!
# The language of the lexer

The sources that are scanned without a fault, with the lexemes they are scanned to: those
the grammar below renders, token by token, with whitespace and comments between them.  A
token stands in front of what follows it, where nothing goes on the token.
-/

namespace Geas.Compiler.Lexing

open Geas.Lib
open Geas.Runtime (CString ascii)
open Lexer (consumed wordKind matchOp oneKind isFraction)

/-! ## The grammar -/

/-- What the parser reads of a token. -/
structure Lexeme where
  kind : Kind
  text : CString
  nlBefore : Bool
  deriving DecidableEq, Repr

def Token.lexeme (src : List UInt8) (t : Token) : Lexeme := ⟨t.kind, t.text src, t.nlBefore⟩

/-- Whitespace and comments in front of a rest. -/
inductive Gap (rest : List UInt8) : List UInt8 → Prop where
  | nil : Gap rest []
  | blank {b : UInt8} {text : List UInt8} (blank : isBlank b = true) (others : Gap rest text) :
      Gap rest (b :: text)
  | comment {used text : List UInt8} (comment : Comment used (text ++ rest))
      (others : Gap rest text) : Gap rest (used ++ text)

/-- A rest where no word and no number goes on. -/
def Ends (rest : List UInt8) : Prop := ∀ b, rest.head? = some b → isIdentContinue b = false

/-- The exponent of a float, if it has one.  Its first digit is no separator. -/
inductive Scaled : List UInt8 → Prop where
  | absent : Scaled []
  | bare {marker b : UInt8} {text : List UInt8} {digits : List Nat}
      (mark : marker = 101 ∨ marker = 69) (digit : isDigit b = true)
      (spelled : Digits 10 (b :: text) digits) : Scaled (marker :: b :: text)
  | signed {marker sign b : UInt8} {text : List UInt8} {digits : List Nat}
      (mark : marker = 101 ∨ marker = 69) (signed : sign = 43 ∨ sign = 45)
      (digit : isDigit b = true) (spelled : Digits 10 (b :: text) digits) :
      Scaled (marker :: sign :: b :: text)

/-- A float as it is written. -/
inductive FloatText : CString → Prop where
  | intro {b b' : UInt8} {whole frac exponent : List UInt8} {digits digits' : List Nat}
      (digit : isDigit b = true) (before : Digits 10 (b :: whole) digits)
      (digit' : isDigit b' = true) (after : Digits 10 (b' :: frac) digits')
      (scaled : Scaled exponent) : FloatText (b :: whole ++ 46 :: (b' :: frac ++ exponent))

/-- The tokens, each in front of what follows it. -/
inductive Stands (rest : List UInt8) : Kind → CString → Prop where
  | word {b : UInt8} {text : List UInt8} (start : isIdentStart b = true)
      (others : ∀ c ∈ text, isIdentContinue c = true) (ends : Ends rest) :
      Stands rest (wordKind (b :: text)) (b :: text)
  | decimal {b : UInt8} {text : List UInt8} {digits : List Nat} (digit : isDigit b = true)
      (spelled : Digits 10 (b :: text) digits) (fits : number 10 digits ≤ intMax)
      (ends : Ends rest) (whole : isFraction rest = false) : Stands rest .int (b :: text)
  | marked {base : Nat} {marker : UInt8} {text : List UInt8} {digits : List Nat}
      (known : base = 2 ∧ marker = 98 ∨ base = 16 ∧ marker = 120)
      (spelled : Digits base text digits) (nonempty : digits ≠ [])
      (fits : number base digits ≤ intMax) (ends : Ends rest) :
      Stands rest .int (48 :: marker :: text)
  | float {text : List UInt8} (spelled : FloatText text) (ends : Ends rest) :
      Stands rest .float text
  | str {text : List UInt8} {value : List Char} (spelled : Spells text value) :
      Stands rest .str (34 :: (text ++ [34]))
  | char {text : List UInt8} {c : Char} (spelled : Piece [39, 92] text c) :
      Stands rest .char (39 :: (text ++ [39]))
  | pair {kind : Kind} {first second : UInt8} (two : matchOp first (some second) = some kind) :
      Stands rest kind [first, second]
  | single {kind : Kind} {c : UInt8} (one : oneKind c = some kind)
      (alone : matchOp c rest.head? = none)
      (plain : c = 47 → rest.head? ≠ some 47 ∧ rest.head? ≠ some 42) : Stands rest kind [c]

/-- A source, with the lexemes it renders. -/
inductive Rendered : List UInt8 → List Lexeme → Prop where
  | ended {front : List UInt8} (gap : Gap [] front) :
      Rendered front [⟨.eof, [], front.contains 10⟩]
  | token {front text rest : List UInt8} {kind : Kind} {lexemes : List Lexeme}
      (gap : Gap (text ++ rest) front) (stands : Stands rest kind text)
      (others : Rendered rest lexemes) :
      Rendered (front ++ (text ++ rest)) (⟨kind, text, front.contains 10⟩ :: lexemes)

/-! ## Runs of bytes -/

section Runs

variable {p : UInt8 → Bool} {text rest : List UInt8}

theorem dropWhile_run (every : ∀ c ∈ text, p c = true)
    (stops : ∀ b, rest.head? = some b → p b = false) : (text ++ rest).dropWhile p = rest := by
  rw [List.dropWhile_append_of_pos every]
  cases rest with
  | nil => rfl
  | cons b rest => exact List.dropWhile_cons_of_neg (by simp [stops b rfl])

/-- Every text is a run and where it stops. -/
theorem exists_run (p : UInt8 → Bool) (bytes : List UInt8) :
    ∃ text, bytes = text ++ bytes.dropWhile p ∧ (∀ c ∈ text, p c = true) ∧
      ∀ b, (bytes.dropWhile p).head? = some b → p b = false := by
  refine ⟨bytes.takeWhile p, List.takeWhile_append_dropWhile.symm,
    List.all_eq_true.mp List.all_takeWhile, fun b first => ?_⟩
  have stops := List.head?_dropWhile_not p bytes
  rw [first] at stops
  exact stops

theorem isDigit_continues {b : UInt8} (digit : isDigit b = true) : isIdentContinue b = true := by
  rw [isIdentContinue, Bool.or_eq_true]
  exact .inr digit

theorem isDigit_start {b : UInt8} (digit : isDigit b = true) : isIdentStart b = false := by
  simp only [isDigit, isIdentStart, Bool.and_eq_true, decide_eq_true_eq, UInt8.le_iff_toNat_le,
    Bool.or_eq_false_iff, Bool.and_eq_false_iff, decide_eq_false_iff_not, beq_eq_false_iff_ne,
    ne_eq, ← UInt8.toNat_inj] at digit ⊢
  have low : (48 : UInt8).toNat = 48 := rfl
  have high : (57 : UInt8).toNat = 57 := rfl
  refine ⟨⟨.inl ?_, .inl ?_⟩, ?_⟩
  · change ¬ 97 ≤ b.toNat
    omega
  · change ¬ 65 ≤ b.toNat
    omega
  · change ¬ b.toNat = 95
    omega

/-- A digit of any base goes on a word. -/
theorem digit_continues {base : Nat} (known : base = 2 ∨ base = 10 ∨ base = 16) {b : UInt8}
    (passes : (b == 95 || isDigitOf base b) = true) : isIdentContinue b = true := by
  rcases Bool.or_eq_true_iff.mp passes with same | digit
  · rw [beq_iff_eq.mp same]
    rfl
  · obtain ⟨digit, value, -⟩ := (isDigitOf_iff base known b).mp digit
    rw [hexVal] at value
    simp only [isIdentContinue, isIdentStart, Bool.or_eq_true, Bool.and_eq_true,
      decide_eq_true_eq, beq_iff_eq, UInt8.le_iff_toNat_le]
    change ((97 ≤ b.toNat ∧ b.toNat ≤ 122 ∨ 65 ≤ b.toNat ∧ b.toNat ≤ 90) ∨ b = 95) ∨
      48 ≤ b.toNat ∧ b.toNat ≤ 57
    split_ifs at value <;> omega

theorem Ends.digits {base : Nat} (ends : Ends rest) (known : base = 2 ∨ base = 10 ∨ base = 16)
    (b : UInt8) (first : rest.head? = some b) : (b == 95 || isDigitOf base b) = false := by
  by_contra passes
  rw [Bool.not_eq_false] at passes
  have stopped := ends b first
  rw [digit_continues known passes] at stopped
  cases stopped

theorem digitRun_append {base : Nat} {digits : List Nat}
    (known : base = 2 ∨ base = 10 ∨ base = 16) (spelled : Digits base text digits)
    (stops : ∀ b, rest.head? = some b → (b == 95 || isDigitOf base b) = false) :
    digitRun base (text ++ rest) = rest := by
  apply dropWhile_run _ stops
  intro c inside
  rcases spelled.mem inside with rfl | digit
  · rfl
  · rw [(isDigitOf_iff base known c).mpr digit, Bool.or_true]

theorem digitCount_append {base : Nat} {digits : List Nat}
    (known : base = 2 ∨ base = 10 ∨ base = 16) (spelled : Digits base text digits)
    (nonempty : digits ≠ [])
    (stops : ∀ b, rest.head? = some b → (b == 95 || isDigitOf base b) = false) :
    digitCount base (text ++ rest) ≠ 0 := by
  refine digitCount_pos known ?_ nonempty
  rw [digitRun_append known spelled stops, consumed_append]
  exact spelled

end Runs

/-! ## Tokens that stand are scanned -/

section Scans

variable {lx : Lexer} {start : Nat} {text rest : List UInt8}

theorem seek_rest (lx : Lexer) : lx.seek lx.rest = lx := rfl

theorem numberJunk_ends (ends : Ends rest) :
    (lx.seek rest).numberJunk start = lx.seek rest := by
  rw [Lexer.numberJunk]
  apply if_neg
  intro junk
  obtain ⟨b, first, continues⟩ := (Option.any_eq_true _ _).mp junk
  have stopped := ends b (List.head?_eq_getElem? ▸ first)
  rw [continues] at stopped
  cases stopped

theorem lxIdent_word {b : UInt8} (shape : lx.rest = b :: text ++ rest)
    (start : isIdentStart b = true) (others : ∀ c ∈ text, isIdentContinue c = true)
    (ends : Ends rest) :
    lx.lxIdent lx.pos = (lx.seek rest).push (wordKind (b :: text)) lx.pos := by
  have run : lx.rest.dropWhile isIdentContinue = rest := by
    rw [shape]
    apply dropWhile_run _ ends
    intro c inside
    rcases List.mem_cons.mp inside with rfl | inside
    · rw [isIdentContinue, start, Bool.true_or]
    · exact others c inside
  simp only [Lexer.lxIdent, run]
  rw [shape, consumed_append]

/-- Digits that stand, behind what tells their base. -/
theorem radixInt_digits {base : Nat} {msg : CString} {digits : List Nat}
    (known : base = 2 ∨ base = 10 ∨ base = 16) (shape : lx.rest = text ++ rest)
    (spelled : Digits base text digits) (nonempty : digits ≠ [])
    (fits : number base digits ≤ intMax) (ends : Ends rest) :
    lx.radixInt start base msg = (lx.seek rest).push .int start := by
  have stops := ends.digits known
  have within : ¬ intOverflows text base = true := by
    rw [intOverflows_iff spelled (by omega)]
    exact Nat.not_lt_of_le fits
  rw [Lexer.radixInt, shape]
  simp only [digitRun_append known spelled stops, consumed_append, numberJunk_ends ends,
    if_neg (digitCount_append known spelled nonempty stops), if_neg within]

/-- The mark of a base does not follow the first digit of a decimal number. -/
theorem no_mark {b marker : UInt8} {digits : List Nat} (spelled : Digits 10 (b :: text) digits)
    (ends : Ends rest) (word : isIdentContinue marker = true)
    (apart : (marker == 95 || isDigitOf 10 marker) = false) :
    (b :: text ++ rest)[1]? ≠ some marker := by
  intro same
  cases text with
  | nil =>
      have stopped := ends marker (by simpa [List.head?_eq_getElem?] using same)
      rw [word] at stopped
      cases stopped
  | cons c text =>
      obtain rfl : c = marker := by simpa using same
      rcases spelled.mem (List.mem_cons_of_mem b List.mem_cons_self) with rfl | digit
      · cases apart
      · rw [(isDigitOf_iff 10 (.inr (.inl rfl)) c).mpr digit, Bool.or_true] at apart
        cases apart

theorem lxNumber_decimal {b : UInt8} {digits : List Nat} (shape : lx.rest = b :: text ++ rest)
    (spelled : Digits 10 (b :: text) digits) (ends : Ends rest) :
    lx.lxNumber start = lx.decimal start := by
  have unmarked {marker : UInt8} (word : isIdentContinue marker = true)
      (apart : (marker == 95 || isDigitOf 10 marker) = false) : lx.peek 1 ≠ some marker := by
    rw [Lexer.peek, shape]
    exact no_mark spelled ends word apart
  rw [Lexer.lxNumber, if_neg (fun hex => unmarked rfl rfl hex.2),
    if_neg (fun binary => unmarked rfl rfl binary.2)]

theorem decimal_whole {digits : List Nat} (shape : lx.rest = text ++ rest)
    (spelled : Digits 10 text digits) (fits : number 10 digits ≤ intMax) (ends : Ends rest)
    (whole : isFraction rest = false) :
    lx.decimal start = (lx.seek rest).push .int start := by
  have known : 10 = 2 ∨ 10 = 10 ∨ 10 = 16 := .inr (.inl rfl)
  have within : ¬ intOverflows text 10 = true := by
    rw [intOverflows_iff spelled (by decide)]
    exact Nat.not_lt_of_le fits
  rw [Lexer.decimal, shape]
  simp only [digitRun_append known spelled (ends.digits known), consumed_append, whole,
    numberJunk_ends ends, if_neg within, Bool.false_eq_true, if_false]

/-- Nothing of a decimal run is left before what is no digit. -/
theorem digitRun_ten {b : UInt8} {digits : List Nat} (spelled : Digits 10 (b :: text) digits)
    (stops : ∀ b, rest.head? = some b → (b == 95 || isDigitOf 10 b) = false) :
    digitRun 10 (b :: (text ++ rest)) = rest :=
  digitRun_append (.inr (.inl rfl)) spelled stops

theorem Scaled.stops {exponent : List UInt8} (scaled : Scaled exponent) (ends : Ends rest) (b : UInt8)
    (first : (exponent ++ rest).head? = some b) : (b == 95 || isDigitOf 10 b) = false := by
  cases scaled with
  | absent => exact ends.digits (.inr (.inl rfl)) b first
  | bare mark =>
      obtain rfl := Option.some.inj first
      rcases mark with rfl | rfl <;> rfl
  | signed mark =>
      obtain rfl := Option.some.inj first
      rcases mark with rfl | rfl <;> rfl

/-- A fraction and its exponent are read to their end. -/
theorem floatEnd_scaled {b : UInt8} {frac exponent : List UInt8} {digits : List Nat}
    (spelled : Digits 10 (b :: frac) digits) (scaled : Scaled exponent) (ends : Ends rest) :
    Lexer.floatEnd (46 :: b :: (frac ++ (exponent ++ rest))) = rest := by
  have stops := ends.digits (.inr (.inl rfl))
  rw [Lexer.floatEnd, List.drop_succ_cons, List.drop_zero,
    digitRun_ten spelled fun c => scaled.stops ends c]
  cases scaled with
  | absent =>
      apply if_neg
      rintro (marker | marker)
      · cases ends _ marker
      · cases ends _ marker
  | @bare marker c text digits' mark digit spelled' =>
      have here : (marker :: c :: text ++ rest).head? = some marker := rfl
      rw [here, if_pos (by rcases mark with rfl | rfl <;> simp), Lexing.exponent,
        if_pos (by simpa using digit)]
      rw [List.cons_append, List.cons_append, List.drop_succ_cons, List.drop_succ_cons,
        List.drop_zero, ← Lexer.digitRun_cons digit]
      exact digitRun_ten spelled' stops
  | @signed marker sign c text digits' mark signed digit spelled' =>
      have here : (marker :: sign :: c :: text ++ rest).head? = some marker := rfl
      have next : (marker :: sign :: c :: text ++ rest)[1]? = some sign := rfl
      have no : ¬ (some sign).any isDigit = true := by rcases signed with rfl | rfl <;> decide
      rw [here, if_pos (by rcases mark with rfl | rfl <;> simp), Lexing.exponent, next, if_neg no,
        if_pos (by rcases signed with rfl | rfl <;> simp), if_pos (by simpa using digit)]
      exact digitRun_ten spelled' stops

theorem decimal_float {b b' : UInt8} {whole frac exponent : List UInt8} {digits digits' : List Nat}
    (shape : lx.rest = b :: whole ++ 46 :: (b' :: frac ++ exponent) ++ rest)
    (before : Digits 10 (b :: whole) digits) (digit' : isDigit b' = true)
    (after : Digits 10 (b' :: frac) digits') (scaled : Scaled exponent) (ends : Ends rest) :
    lx.decimal start = (lx.seek rest).push .float start := by
  have split : lx.rest = b :: (whole ++ 46 :: b' :: (frac ++ (exponent ++ rest))) := by
    simpa using shape
  have run : digitRun 10 lx.rest = 46 :: b' :: (frac ++ (exponent ++ rest)) := by
    rw [split]
    apply digitRun_ten before
    intro c first
    obtain rfl := Option.some.inj first
    rfl
  have fraction : isFraction (46 :: b' :: (frac ++ (exponent ++ rest))) = true :=
    (isFraction_iff _).mpr ⟨b', _, rfl, digit'⟩
  simp only [Lexer.decimal, run, fraction, if_true, floatEnd_scaled after scaled ends,
    numberJunk_ends ends]

theorem scanOneEscape_escaped {c : Char} (escaped : Escaped text c)
    (shape : lx.rest = 92 :: (text ++ rest)) : lx.scanOneEscape = lx.seek rest := by
  have scanned : scanEscape (text ++ rest) = ⟨rest, .ok c.toNat⟩ :=
    scanEscape_ok.mpr ⟨text, c, rfl, escaped, rfl⟩
  rw [Lexer.scanOneEscape, shape, List.drop_succ_cons, List.drop_zero, scanned]

/-- A small character is none of the bytes it is barred from. -/
theorem plain_apart {barred : List Nat} {c : Char} (small : c.toNat < 128)
    (free : c.toNat ∉ barred) {n : Nat} (low : n < 256) (inside : n ∈ barred) :
    UInt8.ofNat c.toNat ≠ UInt8.ofNat n := by
  intro same
  have value := congrArg UInt8.toNat same
  rw [toNat_byte (by omega), toNat_byte low] at value
  exact free (value ▸ inside)

/-- A body that is spelled is read up to its quote. -/
theorem stringLoop_spelled {value : List Char} (spelled : Spells text value) :
    ∀ lx : Lexer, lx.rest = text ++ 34 :: rest →
      (Lexer.stringLoop start).run lx = lx.seek rest := by
  induction spelled with
  | nil =>
      intro lx shape
      apply (Lexer.stringLoop start).run_stop
      change lx.stringTurn start = _
      rw [Lexer.stringTurn, shape]
      rfl
  | @cons piece text c value first others ih =>
      intro lx shape
      rw [List.append_assoc] at shape
      cases first with
      | escape escaped =>
          have turned : lx.stringTurn start = .again (lx.seek (text ++ 34 :: rest)) := by
            rw [← scanOneEscape_escaped escaped shape, Lexer.stringTurn, shape]
            rfl
          rw [stringLoop_again turned]
          exact ih _ rfl
      | plain free =>
          by_cases small : c.toNat < 128
          · rw [encode_ascii small, List.singleton_append] at shape
            have apart (n : Nat) (low : n < 256) := plain_apart small free low
            have turned : lx.stringTurn start = .again (lx.seek (text ++ 34 :: rest)) := by
              rw [Lexer.stringTurn, shape]
              exact (if_neg (apart 10 (by decide) (by decide))).trans
                ((if_neg (apart 34 (by decide) (by decide))).trans
                  (if_neg (apart 92 (by decide) (by decide))))
            rw [stringLoop_again turned]
            exact ih _ rfl
          · obtain ⟨lead, more, wide⟩ := wide_of_large (by omega : ¬ c.toNat ≤ 127)
            rw [stringLoop_high _ (wide.bytes ▸ wide.high) shape]
            exact ih _ rfl

theorem charBody_spelled {c : Char} (spelled : Piece [39, 92] text c)
    (shape : lx.rest = text ++ rest) : lx.charBody start = lx.seek rest := by
  cases spelled with
  | escape escaped =>
      rw [← scanOneEscape_escaped escaped shape, Lexer.charBody, shape]
      rfl
  | plain free =>
      by_cases small : c.toNat < 128
      · rw [encode_ascii small, List.singleton_append] at shape
        have apart (n : Nat) (low : n < 256) := plain_apart small free low
        have low : UInt8.ofNat c.toNat < 128 := by
          rw [UInt8.lt_iff_toNat_lt, toNat_byte (by omega)]
          exact small
        have read : lx.advance 1 = lx.seek rest := by
          rw [Lexer.advance, shape]
          rfl
        rw [Lexer.charBody, shape, ← read]
        exact (if_neg (apart 39 (by decide) (by decide))).trans
          ((if_neg (apart 92 (by decide) (by decide))).trans (if_pos low))
      · obtain ⟨lead, more, wide⟩ := wide_of_large (by omega : ¬ c.toNat ≤ 127)
        have size := wide.high lead List.mem_cons_self
        have apart (n : Nat) (low : n < 128) : lead ≠ UInt8.ofNat n := by
          rintro rfl
          rw [toNat_byte (by omega)] at size
          omega
        have high : ¬ lead < 128 := by
          rw [UInt8.lt_iff_toNat_lt]
          exact Nat.not_lt_of_le size
        rw [wide.bytes, List.cons_append] at shape
        have read : lx.bumpScalar = lx.seek rest := by
          simp only [Lexer.bumpScalar, shape, Lexer.advance, wide.len, List.drop_succ_cons,
            List.drop_left]
        rw [Lexer.charBody, shape, ← read]
        exact (if_neg (apart 39 (by decide))).trans
          ((if_neg (apart 92 (by decide))).trans (if_neg high))

theorem lxString_spelled {value : List Char} (spelled : Spells text value)
    (shape : lx.rest = 34 :: (text ++ [34]) ++ rest) :
    lx.lxString start = (lx.seek rest).push .str start := by
  have behind : (lx.advance 1).rest = text ++ 34 :: rest := by
    rw [Lexer.advance, Lexer.seek, shape]
    simp
  rw [Lexer.lxString, stringLoop_spelled spelled _ behind]
  rfl

theorem lxChar_spelled {c : Char} (spelled : Piece [39, 92] text c)
    (shape : lx.rest = 39 :: (text ++ [39]) ++ rest) :
    lx.lxChar start = (lx.seek rest).push .char start := by
  have behind : (lx.advance 1).rest = text ++ 39 :: rest := by
    rw [Lexer.advance, Lexer.seek, shape]
    simp
  rw [Lexer.lxChar, charBody_spelled spelled behind, Lexer.closeQuote]
  rfl

end Scans

/-- A byte that starts a symbol, and nothing else. -/
structure IsSymbol (c : UInt8) : Prop where
  small : ¬ 128 ≤ c
  noWord : isIdentStart c = false
  noDigit : isDigit c = false
  noQuote : c ≠ 34 ∧ c ≠ 39
  noBlank : isBlank c = false

theorem IsSymbol.scanToken {c : UInt8} (symbol : IsSymbol c) (lx : Lexer) :
    lx.scanToken c = lx.lxSymbol lx.pos c := by
  rw [Lexer.scanToken, if_neg (by simp [symbol.noWord]), if_neg (by simp [symbol.noDigit]),
    if_neg symbol.noQuote.1, if_neg symbol.noQuote.2]

/-- The bytes symbols start with. -/
def symbolBytes : List UInt8 :=
  [61, 43, 45, 42, 47, 37, 60, 62, 33, 63, 58, 44, 46, 40, 41, 123, 125, 91, 93, 38, 124]

theorem isSymbol_of_mem {c : UInt8} (inside : c ∈ symbolBytes) : IsSymbol c := by
  have every : symbolBytes.all (fun c => decide (c.toNat < 128) && !isIdentStart c &&
      !isDigit c && (c != 34 && c != 39) && !isBlank c) = true := by decide
  have each := List.all_eq_true.mp every c inside
  simp only [Bool.and_eq_true, decide_eq_true_eq, Bool.not_eq_true', bne_iff_ne] at each
  obtain ⟨⟨⟨⟨small, noWord⟩, noDigit⟩, noQuote⟩, noBlank⟩ := each
  refine ⟨?_, noWord, noDigit, noQuote, noBlank⟩
  rw [UInt8.le_iff_toNat_le]
  exact Nat.not_le_of_lt small

theorem matchOp_symbol {c : UInt8} {n2 : Option UInt8} {kind : Kind}
    (found : matchOp c n2 = some kind) : IsSymbol c := by
  apply isSymbol_of_mem
  rw [matchOp] at found
  split_ifs at found with arrow eqEq ne le ge andAnd orOr
  · exact arrow.1 ▸ by decide
  · exact eqEq.1 ▸ by decide
  · exact ne.1 ▸ by decide
  · exact le.1 ▸ by decide
  · exact ge.1 ▸ by decide
  · exact andAnd.1 ▸ by decide
  · exact orOr.1 ▸ by decide

theorem oneKind_symbol {c : UInt8} {kind : Kind} (found : oneKind c = some kind) : IsSymbol c := by
  apply isSymbol_of_mem
  rw [oneKind] at found
  obtain ⟨before, after, shape, -⟩ := List.lookup_eq_some_iff.mp found
  have every : ∀ pair ∈ [((61 : UInt8), Kind.assign), (43, .plus), (45, .minus), (42, .star),
      (47, .slash), (37, .percent), (60, .lt), (62, .gt), (33, .bang), (63, .question),
      (58, .colon), (44, .comma), (46, .dot), (40, .lparen), (41, .rparen), (123, .lbrace),
      (125, .rbrace), (91, .lbracket), (93, .rbracket)], pair.1 ∈ symbolBytes := by decide
  exact every (c, kind) (by rw [shape]; exact List.mem_append_right before List.mem_cons_self)

/-- A token that stands is scanned to its end. -/
theorem Stands.scan {lx : Lexer} {kind : Kind} {text rest : List UInt8} (stands : Stands rest kind text)
    (shape : lx.rest = text ++ rest) :
    ∃ c more, text = c :: more ∧ lx.scanToken c = (lx.seek rest).push kind lx.pos := by
  cases stands with
  | @word b text start others ends =>
      refine ⟨b, text, rfl, ?_⟩
      rw [Lexer.scanToken, if_pos start]
      exact lxIdent_word shape start others ends
  | @decimal b text digits digit spelled fits ends whole =>
      refine ⟨b, text, rfl, ?_⟩
      rw [Lexer.scanToken, if_neg (by simp [isDigit_start digit]), if_pos digit,
        lxNumber_decimal shape spelled ends]
      exact decimal_whole shape spelled fits ends whole
  | @marked base marker text digits known spelled nonempty fits ends =>
      refine ⟨48, marker :: text, rfl, ?_⟩
      have behind : (lx.advance 2).rest = text ++ rest := by
        rw [Lexer.advance, Lexer.seek, shape]
        rfl
      have head : lx.peek 0 = some 48 := by rw [Lexer.peek, shape]; rfl
      have next : lx.peek 1 = some marker := by rw [Lexer.peek, shape]; rfl
      rw [Lexer.scanToken, if_neg (by decide), if_pos (by decide), Lexer.lxNumber]
      rcases known with ⟨rfl, rfl⟩ | ⟨rfl, rfl⟩
      · have binary : ¬ (lx.peek 0 = some 48 ∧ lx.peek 1 = some 120) := by simp [next]
        rw [if_neg binary, if_pos ⟨head, next⟩]
        exact radixInt_digits (.inl rfl) behind spelled nonempty fits ends
      · rw [if_pos ⟨head, next⟩]
        exact radixInt_digits (.inr (.inr rfl)) behind spelled nonempty fits ends
  | float spelled ends =>
      obtain @⟨b, b', whole, frac, exponent, digits, digits', digit, before, digit', after, scaled⟩ :=
        spelled
      refine ⟨b, whole ++ 46 :: (b' :: frac ++ exponent), rfl, ?_⟩
      have point : Ends (46 :: (b' :: frac ++ exponent) ++ rest) := by
        intro c first
        obtain rfl := Option.some.inj first
        rfl
      rw [Lexer.scanToken, if_neg (by simp [isDigit_start digit]), if_pos digit,
        lxNumber_decimal (by rw [shape, List.append_assoc]) before point]
      exact decimal_float shape before digit' after scaled ends
  | str spelled =>
      exact ⟨34, _, rfl, lxString_spelled spelled shape⟩
  | char spelled =>
      exact ⟨39, _, rfl, lxChar_spelled spelled shape⟩
  | @pair _ first second two =>
      refine ⟨first, [second], rfl, ?_⟩
      have symbol := matchOp_symbol two
      have next : lx.peek 1 = some second := by rw [Lexer.peek, shape]; rfl
      have read : lx.advance 2 = lx.seek rest := by
        rw [Lexer.advance, shape]
        rfl
      rw [symbol.scanToken, Lexer.lxSymbol, if_neg symbol.small, next, two, ← read]
  | @single _ c one alone plain =>
      refine ⟨c, [], rfl, ?_⟩
      have symbol := oneKind_symbol one
      have next : lx.peek 1 = rest.head? := by
        rw [Lexer.peek, shape, List.head?_eq_getElem?]
        rfl
      have read : lx.advance 1 = lx.seek rest := by
        rw [Lexer.advance, shape]
        rfl
      rw [symbol.scanToken, Lexer.lxSymbol, if_neg symbol.small, next, alone, one, ← read]

/-! ## Trivia -/

section Trivia

variable {rest front : List UInt8}

/-- Bytes where no trivia is. -/
def AtToken (bytes : List UInt8) : Prop :=
  ∀ lx : Lexer, lx.rest = bytes → lx.triviaTurn = .stop lx

theorem AtToken.nil : AtToken [] := by
  intro lx shape
  rw [Lexer.triviaTurn, shape]

theorem atToken_cons {c : UInt8} {more : List UInt8} (noBlank : isBlank c = false)
    (plain : c = 47 → more.head? ≠ some 47 ∧ more.head? ≠ some 42) : AtToken (c :: more) := by
  intro lx shape
  simp only [isBlank, Bool.or_eq_false_iff, beq_eq_false_iff_ne] at noBlank
  obtain ⟨⟨⟨newline, blank⟩, tab⟩, back⟩ := noBlank
  rw [Lexer.triviaTurn, shape]
  exact (if_neg newline).trans ((if_neg (by simp [blank, tab, back])).trans
    ((if_neg fun line => (plain line.1).1 line.2).trans
      (if_neg fun block => (plain block.1).2 block.2)))

theorem isBlank_word {b : UInt8} (blank : isBlank b = true) : isIdentContinue b = false := by
  simp only [isBlank, Bool.or_eq_true, beq_iff_eq] at blank
  rcases blank with ((rfl | rfl) | rfl) | rfl <;> rfl

theorem atToken_word {b : UInt8} {more : List UInt8} (word : isIdentContinue b = true) :
    AtToken (b :: more) := by
  apply atToken_cons
  · by_contra blank
    rw [Bool.not_eq_false] at blank
    rw [isBlank_word blank] at word
    cases word
  · rintro rfl
    cases word

theorem Stands.atToken {kind : Kind} {text : List UInt8} (stands : Stands rest kind text) :
    AtToken (text ++ rest) := by
  cases stands with
  | word start others ends => exact atToken_word (by rw [isIdentContinue, start, Bool.true_or])
  | decimal digit => exact atToken_word (isDigit_continues digit)
  | marked => exact atToken_word rfl
  | float spelled =>
      cases spelled with
      | intro digit => exact atToken_word (isDigit_continues digit)
  | str => exact atToken_cons rfl fun same => absurd same (by decide)
  | char => exact atToken_cons rfl fun same => absurd same (by decide)
  | pair two =>
      apply atToken_cons (matchOp_symbol two).noBlank
      rintro rfl
      cases two
  | single one alone plain => exact atToken_cons (oneKind_symbol one).noBlank plain

/-- A block comment that is closed where its body ends. -/
theorem blockComment_body (body after : List UInt8) (first : ¬ [42, 47] <:+: body) (nl : Bool) :
    Lexer.blockComment nl (body ++ 42 :: 47 :: after) = ⟨after, nl || body.contains 10, true⟩ := by
  induction body generalizing nl with
  | nil => simp [Lexer.blockComment]
  | cons c body ih =>
      rw [List.infix_cons_iff, not_or] at first
      rw [List.cons_append, Lexer.blockComment]
      split_ifs with newline close
      · rw [ih first.2, newline]
        simp
      · obtain ⟨rfl, next⟩ := close
        cases body with
        | nil => cases next
        | cons b body =>
            obtain rfl := Option.some.inj next
            exact absurd ⟨body, rfl⟩ first.1
      · rw [ih first.2]
        simp [show ¬ 10 = c from Ne.symm newline]

/-- What the trivia leaves of a lexer. -/
def Lexer.pastTrivia (lx : Lexer) (front rest : List UInt8) : Lexer :=
  { lx with rest, pendingNl := lx.pendingNl || front.contains 10 }

theorem triviaTurn_blank {b : UInt8} {lx : Lexer} (blank : isBlank b = true)
    (shape : lx.rest = b :: rest) :
    lx.triviaTurn = .again (lx.pastTrivia [b] rest) := by
  simp only [isBlank, Bool.or_eq_true, beq_iff_eq] at blank
  rw [Lexer.triviaTurn, shape, Lexer.pastTrivia]
  rcases blank with ((rfl | rfl) | rfl) | rfl
  · simp
  · simp [Lexer.seek]
  · simp [Lexer.seek]
  · simp [Lexer.seek]

theorem triviaTurn_comment {used : List UInt8} {lx : Lexer} (comment : Comment used rest)
    (shape : lx.rest = used ++ rest) : lx.triviaTurn = .again (lx.pastTrivia used rest) := by
  rw [Lexer.triviaTurn, shape, Lexer.pastTrivia]
  cases comment with
  | @line body _ within stops =>
      have run : (body ++ rest).dropWhile (fun c => c != 10) = rest := by
        apply dropWhile_run
        · intro c inside
          exact bne_iff_ne.mpr fun newline => within (newline ▸ inside)
        · intro b head
          rcases stops with rfl | newline
          · cases head
          · obtain rfl := Option.some.inj (newline.symm.trans head)
            rfl
      simp [Lexer.skipLineComment, Lexer.seek, shape, run, within]
  | @block body _ first =>
      have closed := blockComment_body body rest first lx.pendingNl
      simp [Lexer.skipBlockComment, shape, closed]

/-- A gap is skipped. -/
theorem skipTrivia_gap (gap : Gap rest front) (stops : AtToken rest) :
    ∀ lx : Lexer, lx.rest = front ++ rest → lx.skipTrivia = lx.pastTrivia front rest := by
  induction gap with
  | nil =>
      intro lx shape
      rw [Lexer.skipTrivia, Lexer.triviaLoop.run_stop (stops lx shape), Lexer.pastTrivia]
      cases lx
      simp_all
  | @blank b text blank others ih =>
      intro lx shape
      rw [Lexer.skipTrivia, Lexer.triviaLoop.run_again (triviaTurn_blank blank shape)]
      refine (ih _ rfl).trans ?_
      simp [Lexer.pastTrivia, Bool.or_assoc]
  | @comment used text comment others ih =>
      intro lx shape
      rw [List.append_assoc] at shape
      rw [Lexer.skipTrivia, Lexer.triviaLoop.run_again (triviaTurn_comment comment shape)]
      refine (ih _ rfl).trans ?_
      simp [Lexer.pastTrivia, Bool.or_assoc]

end Trivia

/-! ## What is rendered is scanned -/

theorem slice_self (src : List UInt8) (a : Nat) : slice src a a = [] :=
  List.drop_eq_nil_of_le (by rw [List.length_take]; omega)

section Complete

variable {src : List UInt8} {lx : Lexer} {front text rest : List UInt8}

theorem Along.pastTrivia (along : Along src lx) (shape : lx.rest = front ++ rest) :
    Along src (lx.pastTrivia front rest) :=
  ⟨along.n, (shape ▸ List.suffix_append front rest : rest <:+ lx.rest).trans along.suffix⟩

/-- A turn of the scan over a gap and a token. -/
theorem lexTurn_token {kind : Kind} (gap : Gap (text ++ rest) front) (stands : Stands rest kind text)
    (shape : lx.rest = front ++ (text ++ rest)) :
    lx.lexTurn = .again (((lx.pastTrivia front (text ++ rest)).seek rest).push kind
      (lx.pastTrivia front (text ++ rest)).pos) := by
  have skipped := skipTrivia_gap gap stands.atToken lx shape
  have placed : (lx.pastTrivia front (text ++ rest)).rest = text ++ rest := rfl
  obtain ⟨c, more, rfl, scanned⟩ := stands.scan placed
  rw [← scanned, Lexer.lexTurn, skipped]
  rfl

/-- The token a turn pushes, read from the source. -/
theorem push_lexeme {kind : Kind} (along : Along src lx) (shape : lx.rest = text ++ rest) :
    ((lx.seek rest).push kind lx.pos).tokens.map (Token.lexeme src) =
      lx.tokens.map (Token.lexeme src) ++ [⟨kind, text, lx.pendingNl⟩] := by
  have reads : lx.Reads (lx.seek rest) :=
    ((Lexer.Scans.refl lx).seek (shape ▸ List.suffix_append text rest)).toReads
  have spanned : slice src lx.pos (lx.seek rest).pos = text := by
    rw [along.slice_pos reads]
    exact consumed_eq shape
  simp only [Lexer.push, List.map_append, List.map_cons, List.map_nil, Token.lexeme, Token.text,
    spanned]
  rfl

theorem run_rendered {bytes : List UInt8} {lexemes : List Lexeme}
    (rendered : Rendered bytes lexemes) :
    ∀ lx : Lexer, Along src lx → lx.rest = bytes → lx.pendingNl = false →
      (Lexer.lexLoop.run lx).errors = lx.errors ∧
        (Lexer.lexLoop.run lx).tokens.map (Token.lexeme src) =
          lx.tokens.map (Token.lexeme src) ++ lexemes := by
  induction rendered with
  | @ended front gap =>
      intro lx along shape flag
      have skipped := skipTrivia_gap gap .nil lx (by rw [shape, List.append_nil])
      have turned : lx.lexTurn = .stop ((lx.pastTrivia front []).push .eof
          (lx.pastTrivia front []).pos) := by
        rw [Lexer.lexTurn, skipped]
        rfl
      rw [Lexer.lexLoop.run_stop turned]
      simp [Lexer.push, Lexer.pastTrivia, Token.lexeme, Token.text, slice_self, flag]
  | @token front text rest kind lexemes gap stands others ih =>
      intro lx along shape flag
      have past := along.pastTrivia shape
      have behind : Along src (((lx.pastTrivia front (text ++ rest)).seek rest).push kind
          (lx.pastTrivia front (text ++ rest)).pos) :=
        ⟨past.n, (List.suffix_append text rest).trans past.suffix⟩
      obtain ⟨errors, tokens⟩ := ih _ behind rfl rfl
      rw [Lexer.lexLoop.run_again (lexTurn_token gap stands shape)]
      refine ⟨errors, tokens.trans ?_⟩
      rw [push_lexeme past rfl]
      simp [Lexer.pastTrivia, flag]

end Complete

/-! ## What is scanned is rendered -/

section Sound

variable {src : List UInt8} {lx : Lexer} {start : Nat} {rest : List UInt8}

theorem Gap.append {front text : List UInt8} (first : Gap (text ++ rest) front)
    (last : Gap rest text) : Gap rest (front ++ text) := by
  induction first with
  | nil => exact last
  | blank blank others ih => exact .blank blank ih
  | comment comment others ih =>
      rw [List.append_assoc]
      exact .comment (by rwa [List.append_assoc]) ih

theorem slice_append_drop {a b : Nat} (le : a ≤ b) : slice src a b ++ src.drop b = src.drop a := by
  rw [slice, List.drop_take, ← Nat.add_sub_cancel' le, ← List.drop_drop, Nat.add_sub_cancel_left]
  exact List.take_append_drop _ _

theorem Filler.gap {a b : Nat} (filler : Filler src [] a b) : Gap (src.drop b) (slice src a b) := by
  induction filler with
  | nil =>
      rw [slice_self]
      exact .nil
  | @blank b byte before here blank ih =>
      have one : slice src b (b + 1) = [byte] := by
        rw [slice, List.drop_take, Nat.add_sub_cancel_left, List.take_one, List.head?_drop, here]
        rfl
      have le : b ≤ b + 1 := b.le_succ
      rw [slice_append before.le le]
      refine Gap.append ?_ (one ▸ .blank blank .nil)
      rwa [slice_append_drop le]
  | @comment b c before inside comment ih =>
      rw [slice_append before.le inside.le]
      refine Gap.append ?_ ?_
      · rwa [slice_append_drop inside.le]
      · have one : Gap (src.drop c) (slice src b c ++ []) :=
          .comment (by simpa using comment) .nil
        rwa [List.append_nil] at one
  | fault before inside reported => cases reported

/-- Trivia that is skipped without a fault is a gap. -/
theorem skipTrivia_isGap (along : Along src lx) (quiet : lx.skipTrivia.errors = []) :
    Gap lx.skipTrivia.rest (consumed lx.rest lx.skipTrivia.rest) := by
  have skips := skipTrivia_skips along
  have filler := skips.fills
  rw [quiet] at filler
  have gap := filler.gap
  rwa [along.slice_pos skips.toReads, (along.reads skips.toReads).drop_pos] at gap

theorem triviaTurn_stop {result : Lexer} (turned : lx.triviaTurn = .stop result) :
    AtToken result.rest := by
  intro other shape
  rw [Lexer.triviaTurn] at turned
  cases bytes : lx.rest with
  | nil =>
      rw [bytes] at turned
      cases turned
      exact AtToken.nil other (shape.trans bytes)
  | cons c more =>
      simp only [bytes] at turned
      split_ifs at turned with newline blank line block
      cases turned
      rw [Lexer.triviaTurn, shape.trans bytes]
      exact (if_neg newline).trans ((if_neg blank).trans ((if_neg line).trans (if_neg block)))

theorem skipTrivia_atToken (lx : Lexer) : AtToken lx.skipTrivia.rest :=
  Lexer.triviaLoop.run_rec (fun _ after => AtToken after.rest)
    (fun _ _ turned => triviaTurn_stop turned) (fun _ _ _ _ stops => stops) lx

theorem consumed_append_rest {after : Lexer} (reads : lx.Reads after) :
    consumed lx.rest after.rest ++ after.rest = lx.rest := by
  obtain ⟨used, split⟩ := reads.suffix
  rw [consumed_eq split.symm, split]

/-! ### Numbers -/

theorem ends_of_clear {bytes : List UInt8}
    (clear : ((lx.seek bytes).peek 0).any isIdentContinue = false) : Ends bytes := by
  intro b first
  have here : (lx.seek bytes).peek 0 = some b := by
    rw [Lexer.peek, ← List.head?_eq_getElem?]
    exact first
  rw [here] at clear
  simpa using clear

/-- A digit and the run behind it. -/
theorem run_from {c : UInt8} (digit : isDigit c = true) (more : List UInt8) :
    ∃ text digits, more = text ++ digitRun 10 more ∧ Digits 10 (c :: text) digits := by
  obtain ⟨text, digits, shape, spelled, -⟩ := digitRun_spells 10 (.inr (.inl rfl)) more
  obtain ⟨value, known, small⟩ := (isDigitOf_iff 10 (.inr (.inl rfl)) c).mp digit
  exact ⟨text, value :: digits, shape, .digit known small spelled⟩

/-- An integer in a base that is scanned without a fault. -/
theorem radixInt_quiet {base : Nat} {msg : CString}
    (quiet : (lx.radixInt start base msg).errors = lx.errors) :
    digitCount base lx.rest ≠ 0 ∧
      intOverflows (consumed lx.rest (digitRun base lx.rest)) base = false ∧
      Ends (digitRun base lx.rest) := by
  have scans := (Lexer.Scans.refl lx).seek (Lexer.digitRun_suffix base lx.rest)
  have after := scans.numberJunk start
  simp only [Lexer.radixInt, Lexer.push] at quiet
  split_ifs at quiet with empty past
  · exact absurd quiet (after.err_ne _ _)
  · exact absurd quiet (after.err_ne _ _)
  · exact ⟨empty, by simpa using past, ends_of_clear (scans.numberJunk_quiet quiet).2⟩

theorem radixInt_stands {base : Nat} {marker : UInt8} {msg : CString}
    (known : base = 2 ∧ marker = 98 ∨ base = 16 ∧ marker = 120)
    (head : lx.peek 0 = some 48) (next : lx.peek 1 = some marker)
    (quiet : ((lx.advance 2).radixInt start base msg).errors = lx.errors) :
    ∃ kind text rest, lx.rest = text ++ rest ∧ Stands rest kind text := by
  obtain ⟨counted, fits, ends⟩ := @radixInt_quiet (lx.advance 2) start base msg quiet
  obtain ⟨text, digits, shape, spelled, nonempty, small⟩ :=
    run_fits (known.elim (fun two => .inl two.1) fun hex => .inr (.inr hex.1)) counted fits
  refine ⟨.int, 48 :: marker :: text, digitRun base (lx.advance 2).rest, ?_,
    .marked known spelled nonempty small ends⟩
  rw [List.cons_append, List.cons_append, ← shape]
  exact two_bytes head next

/-- An exponent behind a fraction, where no word goes on behind it. -/
theorem exponent_scaled {marker : UInt8} {more : List UInt8}
    (mark : marker = 101 ∨ marker = 69) (ends : Ends (exponent (marker :: more))) :
    ∃ text, marker :: more = text ++ exponent (marker :: more) ∧ Scaled text := by
  rw [Lexing.exponent] at ends ⊢
  split_ifs at ends ⊢ with bare sign digit
  · obtain ⟨b, next, digit⟩ := (Option.any_eq_true _ _).mp bare
    cases more with
    | nil => cases next
    | cons b' more =>
        cases next
        obtain ⟨text, digits, shape, spelled⟩ := run_from digit more
        refine ⟨marker :: b :: text, ?_, .bare mark digit spelled⟩
        rw [List.drop_succ_cons, List.drop_succ_cons, List.drop_zero]
        exact congrArg (fun rest => marker :: b :: rest) shape
  · obtain ⟨b, next, digit⟩ := (Option.any_eq_true _ _).mp digit
    rcases more with _ | ⟨sign', _ | ⟨b', more⟩⟩
    · cases next
    · cases next
    · cases next
      obtain ⟨text, digits, shape, spelled⟩ := run_from digit more
      simp only [List.getElem?_cons_succ, List.getElem?_cons_zero, Option.some.injEq] at sign
      refine ⟨marker :: sign' :: b :: text, ?_, .signed mark sign digit spelled⟩
      rw [List.drop_succ_cons, List.drop_succ_cons, List.drop_zero, Lexer.digitRun_cons digit]
      exact congrArg (fun rest => marker :: sign' :: b :: rest) shape
  · have stopped := ends marker rfl
    rcases mark with rfl | rfl <;> cases stopped
  · have stopped := ends marker rfl
    rcases mark with rfl | rfl <;> cases stopped

theorem floatEnd_stands {b : UInt8} {more : List UInt8} (digit : isDigit b = true)
    (ends : Ends (Lexer.floatEnd (46 :: b :: more))) :
    ∃ frac digits exponent, more = frac ++ (exponent ++ Lexer.floatEnd (46 :: b :: more)) ∧
      Digits 10 (b :: frac) digits ∧ Scaled exponent := by
  obtain ⟨frac, digits, shape, spelled⟩ := run_from digit more
  rw [Lexer.floatEnd, List.drop_succ_cons, List.drop_zero, Lexer.digitRun_cons digit] at ends ⊢
  split at ends
  · rename_i marked
    rw [if_pos marked]
    obtain ⟨marker, rest, split, mark⟩ : ∃ marker rest,
        digitRun 10 more = marker :: rest ∧ (marker = 101 ∨ marker = 69) := by
      rcases marked with marker | marker
      · obtain ⟨rest, split⟩ := List.head?_eq_some_iff.mp marker
        exact ⟨_, rest, split, .inl rfl⟩
      · obtain ⟨rest, split⟩ := List.head?_eq_some_iff.mp marker
        exact ⟨_, rest, split, .inr rfl⟩
    rw [split] at ends shape ⊢
    obtain ⟨text, shape', scaled⟩ := exponent_scaled mark ends
    exact ⟨frac, digits, text, shape.trans (congrArg _ shape'), spelled, scaled⟩
  · rename_i unmarked
    rw [if_neg unmarked]
    exact ⟨frac, digits, [], shape, spelled, .absent⟩

theorem decimal_stands {c : UInt8} {more : List UInt8} (shape : lx.rest = c :: more)
    (digit : isDigit c = true) (quiet : (lx.decimal start).errors = lx.errors) :
    ∃ kind text rest, lx.rest = text ++ rest ∧ Stands rest kind text := by
  obtain ⟨whole, digits, split, spelled⟩ := run_from digit more
  have run := Lexer.digitRun_suffix 10 lx.rest
  have same : digitRun 10 lx.rest = digitRun 10 more := by rw [shape, Lexer.digitRun_cons digit]
  cases fraction : isFraction (digitRun 10 lx.rest) with
  | true =>
      rw [Lexer.decimal, if_pos fraction] at quiet
      have scans := (Lexer.Scans.refl lx).seek ((Lexer.floatEnd_suffix _).trans run)
      have ends := ends_of_clear (scans.numberJunk_quiet quiet).2
      obtain ⟨b, behind, point, digit'⟩ := (isFraction_iff _).mp fraction
      rw [point] at ends
      obtain ⟨frac, digits', exponent, split', spelled', scaled⟩ := floatEnd_stands digit' ends
      refine ⟨.float, c :: whole ++ 46 :: (b :: frac ++ exponent), _, ?_,
        .float (.intro digit spelled digit' spelled' scaled) ends⟩
      conv => lhs; rw [shape, split, ← same, point, split']
      simp
  | false =>
      simp only [Lexer.decimal, fraction, Bool.false_eq_true, if_false, Lexer.push] at quiet
      have scans := (Lexer.Scans.refl lx).seek run
      have after := scans.numberJunk start
      split_ifs at quiet with past
      · exact absurd quiet (after.err_ne _ _)
      · have ends := ends_of_clear (scans.numberJunk_quiet quiet).2
        have taken : lx.rest = (c :: whole) ++ digitRun 10 lx.rest := by
          rw [same, List.cons_append, ← split]
          exact shape
        rw [consumed_eq taken, intOverflows_iff spelled (by decide)] at past
        exact ⟨.int, c :: whole, _, taken,
          .decimal digit spelled (Nat.le_of_not_lt past) ends fraction⟩

theorem lxNumber_stands {c : UInt8} {more : List UInt8} (shape : lx.rest = c :: more)
    (digit : isDigit c = true) (quiet : (lx.lxNumber start).errors = lx.errors) :
    ∃ kind text rest, lx.rest = text ++ rest ∧ Stands rest kind text := by
  rw [Lexer.lxNumber] at quiet
  split_ifs at quiet with hex binary
  · exact radixInt_stands (.inr ⟨rfl, rfl⟩) hex.1 hex.2 quiet
  · exact radixInt_stands (.inl ⟨rfl, rfl⟩) binary.1 binary.2 quiet
  · exact decimal_stands shape digit quiet

/-! ### Tokens -/

theorem lxSymbol_stands {c : UInt8} {more : List UInt8} (shape : lx.rest = c :: more)
    (stops : AtToken lx.rest) (quiet : (lx.lxSymbol lx.pos c).errors = lx.errors) :
    ∃ kind text rest, lx.rest = text ++ rest ∧ Stands rest kind text := by
  have scans := Lexer.Scans.refl lx
  have next : lx.peek 1 = more.head? := by
    rw [Lexer.peek, shape, List.head?_eq_getElem?]
    rfl
  rw [Lexer.lxSymbol, next] at quiet
  split at quiet
  · exact absurd quiet (scans.bumpScalar.err_ne _ _)
  · split at quiet
    · rename_i kind two
      cases more with
      | nil => simp [matchOp] at two
      | cons second more => exact ⟨kind, [c, second], more, shape, .pair two⟩
    · rename_i alone
      split at quiet
      · exact absurd quiet ((scans.advance 1).err_ne _ _)
      · rename_i kind one
        refine ⟨kind, [c], more, shape, .single one alone ?_⟩
        rintro rfl
        have stopped := stops lx rfl
        rw [Lexer.triviaTurn, shape] at stopped
        constructor
        · intro line
          simp [line] at stopped
        · intro block
          simp [block] at stopped

/-- A token that is scanned without a fault stands where it is. -/
theorem scanToken_stands {c : UInt8} {more : List UInt8} (whole : Boundary lx.rest)
    (shape : lx.rest = c :: more) (stops : AtToken lx.rest)
    (quiet : (lx.scanToken c).errors = lx.errors) :
    ∃ kind text rest, lx.rest = text ++ rest ∧ Stands rest kind text := by
  rw [Lexer.scanToken] at quiet
  split_ifs at quiet with ident digit quote tick
  · obtain ⟨text, split, others, ends⟩ := exists_run isIdentContinue more
    exact ⟨_, c :: text, _, by rw [shape, List.cons_append, ← split], .word ident others ends⟩
  · exact lxNumber_stands shape digit quiet
  · obtain ⟨mid, pushed, scans, literal⟩ := lxString_literal lx.pos whole (quote ▸ shape)
    rw [pushed] at quiet
    obtain ⟨value, denotes, -⟩ := literal quiet rfl
    have split := (consumed_append_rest scans.toReads).symm
    generalize consumed lx.rest mid.rest = text at denotes split
    cases denotes with
    | str spelled => exact ⟨_, _, _, split, .str spelled⟩
  · obtain ⟨mid, pushed, scans, literal⟩ := lxChar_literal lx.pos whole (tick ▸ shape)
    rw [pushed] at quiet
    obtain ⟨value, denotes, -⟩ := literal quiet rfl
    have split := (consumed_append_rest scans.toReads).symm
    generalize consumed lx.rest mid.rest = text at denotes split
    cases denotes with
    | char spelled => exact ⟨_, _, _, split, .char spelled⟩
  · exact lxSymbol_stands shape stops quiet

/-! ### Runs -/

theorem scanToken_errors {c : UInt8} {more : List UInt8} (shape : lx.rest = c :: more) :
    lx.errors <+: (lx.scanToken c).errors := by
  have scanned := Lexer.scanToken_scanned shape
  generalize lx.scanToken c = next at scanned
  cases scanned with
  | token kind scans => exact scans.errors
  | fault msg scans => exact scans.errors.trans (List.prefix_append _ _)

/-- A run without a fault is over a source that is rendered. -/
theorem rendered_of_run (lx : Lexer) : lx.errors <+: (Lexer.lexLoop.run lx).errors ∧
    (Along src lx → Boundary lx.rest → (Lexer.lexLoop.run lx).errors = [] →
      ∃ lexemes, Rendered lx.rest lexemes) := by
  refine Lexer.lexLoop.run_rec (fun lx after => lx.errors <+: after.errors ∧
    (Along src lx → Boundary lx.rest → after.errors = [] → ∃ lexemes, Rendered lx.rest lexemes))
    ?_ ?_ lx
  · intro state result turned
    change state.lexTurn = .stop result at turned
    rw [Lexer.lexTurn] at turned
    split at turned
    · rename_i ended
      cases turned
      refine ⟨state.skipTrivia_reads.errors, fun along _ quiet => ?_⟩
      have gap := skipTrivia_isGap along quiet
      have whole := consumed_append_rest state.skipTrivia_reads
      rw [ended, List.append_nil] at whole
      rw [ended, whole] at gap
      exact ⟨_, .ended gap⟩
    · cases turned
  · rintro state next result turned ⟨grown, ih⟩
    change state.lexTurn = .again next at turned
    rw [Lexer.lexTurn] at turned
    split at turned
    · cases turned
    · rename_i c more shape
      cases turned
      have reads := state.skipTrivia_reads
      have scanned := scanToken_errors shape
      refine ⟨reads.errors.trans (scanned.trans grown), fun along whole quiet => ?_⟩
      have past := along.reads reads
      have clean : (state.skipTrivia.scanToken c).errors = [] :=
        List.prefix_nil.mp (quiet ▸ grown)
      have skipped : state.skipTrivia.errors = [] := List.prefix_nil.mp (clean ▸ scanned)
      obtain ⟨kind, text, rest, split, stands⟩ := scanToken_stands whole.skipTrivia shape
        (skipTrivia_atToken state) (clean.trans skipped.symm)
      obtain ⟨c', more', rfl, token⟩ := stands.scan split
      obtain ⟨rfl, -⟩ := List.cons.inj (shape.symm.trans split)
      rw [token] at ih
      have behind : Along src ((state.skipTrivia.seek rest).push kind state.skipTrivia.pos) :=
        ⟨past.n, (split ▸ List.suffix_append (c :: more') rest :
          rest <:+ state.skipTrivia.rest).trans past.suffix⟩
      have boundary : Boundary rest := by
        have kept := whole.skipTrivia.scanToken shape
        rwa [token] at kept
      obtain ⟨lexemes, rendered⟩ := ih behind boundary quiet
      have gap := skipTrivia_isGap along skipped
      rw [split] at gap
      have rendered' := Rendered.token gap stands rendered
      rw [← split, consumed_append_rest reads] at rendered'
      exact ⟨_, rendered'⟩

end Sound

/-! ## The lexer follows the grammar -/

/-- A source is scanned without a fault, to these lexemes, where the grammar renders them. -/
theorem lex_iff (chars : List Char) (lexemes : List Lexeme) :
    ((lex (encode chars)).errors = [] ∧
        (lex (encode chars)).tokens.map (Token.lexeme (encode chars)) = lexemes) ↔
      Rendered (encode chars) lexemes := by
  have along : Along (encode chars) (lxNew (encode chars)) := ⟨rfl, List.suffix_rfl⟩
  constructor
  · rintro ⟨quiet, rfl⟩
    obtain ⟨lexemes, rendered⟩ := (rendered_of_run (lxNew (encode chars))).2 along ⟨chars, rfl⟩ quiet
    obtain ⟨-, tokens⟩ := run_rendered rendered _ along rfl rfl
    rw [show (lex (encode chars)).tokens.map (Token.lexeme (encode chars)) = lexemes from tokens]
    exact rendered
  · intro rendered
    exact run_rendered rendered _ along rfl rfl

end Geas.Compiler.Lexing
