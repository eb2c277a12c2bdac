import Geas.Compiler.Boundaries
import Mathlib.Data.Rat.Defs

/-!
# The spelling of literals

The grammar of literals with the value each spelling denotes: integers in three bases
and floats, with underscores as separators, and strings and chars over the escapes.  A
literal the lexer scans without a fault is spelled by this grammar.
-/

namespace Geas.Compiler.Lexing

open Geas.Lib
open Geas.Runtime (CString ascii)
open Lexer (consumed)

/-! ## The grammar -/

/-- One character of a literal's body; `barred` cannot stand for themselves. -/
inductive Piece (barred : List Nat) : List UInt8 → Char → Prop where
  | plain {c : Char} (free : c.toNat ∉ barred) : Piece barred (String.utf8EncodeChar c) c
  | escape {text : List UInt8} {c : Char} (escaped : Escaped text c) : Piece barred (92 :: text) c

/-- The body of a string, which holds no raw newline, quote or backslash. -/
inductive Spells : List UInt8 → List Char → Prop where
  | nil : Spells [] []
  | cons {piece text : List UInt8} {c : Char} {value : List Char}
      (first : Piece [10, 34, 92] piece c) (others : Spells text value) :
      Spells (piece ++ text) (c :: value)

/-- Digits of a base, with separators. -/
inductive Digits (base : Nat) : List UInt8 → List Nat → Prop where
  | nil : Digits base [] []
  | separator {text : List UInt8} {digits : List Nat} (others : Digits base text digits) :
      Digits base (95 :: text) digits
  | digit {b : UInt8} {text : List UInt8} {digit : Nat} {digits : List Nat}
      (known : hexVal b = some digit) (small : digit < base) (others : Digits base text digits) :
      Digits base (b :: text) (digit :: digits)

/-- The exponent of a float. -/
inductive Exponent : List UInt8 → Int → Prop where
  | absent : Exponent [] 0
  | bare {marker : UInt8} {text : List UInt8} {digits : List Nat}
      (mark : marker = 101 ∨ marker = 69) (spelled : Digits 10 text digits)
      (nonempty : digits ≠ []) : Exponent (marker :: text) (number 10 digits)
  | plus {marker : UInt8} {text : List UInt8} {digits : List Nat}
      (mark : marker = 101 ∨ marker = 69) (spelled : Digits 10 text digits)
      (nonempty : digits ≠ []) : Exponent (marker :: 43 :: text) (number 10 digits)
  | minus {marker : UInt8} {text : List UInt8} {digits : List Nat}
      (mark : marker = 101 ∨ marker = 69) (spelled : Digits 10 text digits)
      (nonempty : digits ≠ []) : Exponent (marker :: 45 :: text) (-(number 10 digits : Int))

/-- The number with these decimal digits before and after the point. -/
def decimalValue (whole frac : List Nat) (exponent : Int) : Rat :=
  (number 10 (whole ++ frac) : Rat) * (10 : Rat) ^ (exponent - frac.length)

/-- The value of a literal.  A float is the number that is written, before it is rounded. -/
inductive Value where
  | int (value : Nat)
  | float (value : Rat)
  | str (value : List Char)
  | char (value : Char)

/-- What a literal of a kind denotes. -/
inductive Denotes : Kind → CString → Value → Prop where
  | decimal {text : List UInt8} {digits : List Nat} (spelled : Digits 10 text digits)
      (nonempty : digits ≠ []) : Denotes .int text (.int (number 10 digits))
  | hex {text : List UInt8} {digits : List Nat} (spelled : Digits 16 text digits)
      (nonempty : digits ≠ []) : Denotes .int (48 :: 120 :: text) (.int (number 16 digits))
  | binary {text : List UInt8} {digits : List Nat} (spelled : Digits 2 text digits)
      (nonempty : digits ≠ []) : Denotes .int (48 :: 98 :: text) (.int (number 2 digits))
  | float {whole frac exponent : List UInt8} {wholeDigits fracDigits : List Nat} {power : Int}
      (before : Digits 10 whole wholeDigits) (nonempty : wholeDigits ≠ [])
      (after : Digits 10 frac fracDigits) (nonempty' : fracDigits ≠ [])
      (scaled : Exponent exponent power) :
      Denotes .float (whole ++ 46 :: (frac ++ exponent))
        (.float (decimalValue wholeDigits fracDigits power))
  | str {text : List UInt8} {value : List Char} (spelled : Spells text value) :
      Denotes .str (34 :: (text ++ [34])) (.str value)
  | char {text : List UInt8} {c : Char} (spelled : Piece [39, 92] text c) :
      Denotes .char (39 :: (text ++ [39])) (.char c)

/-- The integers that are literals: those of an `Int`. -/
def Value.Fits : Value → Prop
  | .int value => value ≤ intMax
  | _ => True

/-- The kinds that carry a value of their own. -/
def Kind.isLiteral : Kind → Bool
  | .int | .float | .str | .char => true
  | _ => false

/-- A text that a token of a kind may have. -/
def Literal (kind : Kind) (text : CString) : Prop :=
  kind.isLiteral = true → ∃ value, Denotes kind text value ∧ value.Fits

/-! ## Numbers -/

section Numbers

variable {base : Nat} {text bytes : List UInt8} {digits : List Nat} {lx : Lexer}

/-- A run of digits, with as many digits as are counted. -/
theorem digitRun_spells (base : Nat) (known : base = 2 ∨ base = 10 ∨ base = 16) (bytes : List UInt8) :
    ∃ text digits, bytes = text ++ digitRun base bytes ∧ Digits base text digits ∧
      digits.length = digitCount base bytes := by
  induction bytes with
  | nil => exact ⟨[], [], rfl, .nil, rfl⟩
  | cons b bytes ih =>
      obtain ⟨text, digits, shape, spelled, count⟩ := ih
      by_cases separator : b = 95
      · refine ⟨b :: text, digits, ?_, separator ▸ spelled.separator, ?_⟩
        · rw [digitRun, List.dropWhile_cons_of_pos (by simp [separator])]
          exact congrArg (List.cons b) shape
        · rw [count, digitCount, digitCount, List.takeWhile_cons_of_pos (by simp [separator])]
          simp [separator]
      · by_cases inside : isDigitOf base b = true
        · obtain ⟨digit, value, small⟩ := (isDigitOf_iff base known b).mp inside
          refine ⟨b :: text, digit :: digits, ?_, .digit value small spelled, ?_⟩
          · rw [digitRun, List.dropWhile_cons_of_pos (by simp [inside])]
            exact congrArg (List.cons b) shape
          · rw [List.length_cons, count, digitCount, digitCount,
              List.takeWhile_cons_of_pos (by simp [inside])]
            simp [separator]
        · refine ⟨[], [], ?_, .nil, ?_⟩
          · rw [digitRun, List.dropWhile_cons_of_neg (by simp [separator, inside])]
            rfl
          · rw [digitCount, List.takeWhile_cons_of_neg (by simp [separator, inside])]
            rfl

theorem number_le (digits : List Nat) (acc : Nat) (positive : 0 < base) :
    acc ≤ digits.foldl (fun sofar digit => sofar * base + digit) acc := by
  induction digits generalizing acc with
  | nil => exact Nat.le_refl acc
  | cons digit digits ih =>
      have grown := Nat.le_mul_of_pos_right acc positive
      exact (Nat.le_trans grown (Nat.le_add_right _ digit)).trans (ih _)

/-- The guard of an accumulation: one digit more still fits. -/
theorem guard_iff (acc : Nat) {digit : Nat} (positive : 0 < base) (small : digit ≤ intMax) :
    acc > (intMax - digit) / base ↔ intMax < acc * base + digit := by
  rw [gt_iff_lt, Nat.div_lt_iff_lt_mul positive]
  omega

/-- The overflow test is exact. -/
theorem overflowsFrom_iff (spelled : Digits base text digits) (positive : 0 < base) (acc : Nat)
    (fits : acc ≤ intMax) :
    overflowsFrom base acc text = true ↔
      intMax < digits.foldl (fun sofar digit => sofar * base + digit) acc := by
  induction spelled generalizing acc with
  | nil => simpa [overflowsFrom] using fits
  | separator others ih =>
      rw [overflowsFrom, if_pos rfl]
      exact ih acc fits
  | @digit b text digit digits known small others ih =>
      obtain ⟨-, value, apart⟩ := hexVal_small known
      have guard := guard_iff acc positive
        (show digit ≤ intMax from (Nat.le_of_lt value).trans (by decide))
      rw [overflowsFrom, if_neg apart, known, Option.getD_some, List.foldl_cons]
      by_cases past : intMax < acc * base + digit
      · rw [if_pos (guard.mpr past)]
        simpa using past.trans_le (number_le digits _ positive)
      · rw [if_neg (mt guard.mp past)]
        exact ih _ (Nat.le_of_not_lt past)

theorem intOverflows_iff (spelled : Digits base text digits) (positive : 0 < base) :
    intOverflows text base = true ↔ intMax < number base digits :=
  overflowsFrom_iff spelled positive 0 (Nat.zero_le _)

theorem consumed_append (used rest : List UInt8) : consumed (used ++ rest) rest = used := by
  rw [consumed, List.length_append, Nat.add_sub_cancel, List.take_left]

/-- The text of digits that fit, and at least one of them. -/
theorem run_fits (known : base = 2 ∨ base = 10 ∨ base = 16)
    (nonempty : digitCount base bytes ≠ 0)
    (fits : intOverflows (consumed bytes (digitRun base bytes)) base = false) :
    ∃ text digits, bytes = text ++ digitRun base bytes ∧ Digits base text digits ∧
      digits ≠ [] ∧ number base digits ≤ intMax := by
  obtain ⟨text, digits, shape, spelled, count⟩ := digitRun_spells base known bytes
  have taken : consumed bytes (digitRun base bytes) = text := by
    have taken := consumed_append text (digitRun base bytes)
    rwa [← shape] at taken
  rw [taken] at fits
  refine ⟨text, digits, shape, spelled, ?_, ?_⟩
  · rintro rfl
    exact nonempty count.symm
  · have exact' := intOverflows_iff spelled (show 0 < base by omega)
    rw [fits] at exact'
    simpa using exact'

theorem two_bytes {first second : UInt8} (head : bytes[0]? = some first)
    (next : bytes[1]? = some second) : bytes = first :: second :: bytes.drop 2 := by
  match bytes, head, next with
  | _ :: _ :: _, rfl, rfl => rfl

/-- An unfaulted integer in hex or binary. -/
theorem radixInt_literal (base : Nat) {start : Nat} {msg : CString} {marker : UInt8}
    (known : base = 2 ∧ marker = 98 ∨ base = 16 ∧ marker = 120)
    (head : lx.peek 0 = some 48) (next : lx.peek 1 = some marker) :
    ∃ mid, (lx.advance 2).radixInt start base msg = mid.push .int start ∧ lx.Scans mid ∧
      (mid.errors = lx.errors → Literal .int (consumed lx.rest mid.rest)) := by
  obtain ⟨mid, same, scans, quietly⟩ := (lx.advance 2).radixInt_spec start base msg
  refine ⟨mid, same, ((Lexer.Scans.refl lx).advance 2).trans scans, fun quiet _ => ?_⟩
  obtain ⟨ends, counted, fits⟩ := quietly quiet
  obtain ⟨text, digits, shape, spelled, nonempty, small⟩ :=
    run_fits (known.elim (fun two => .inl two.1) fun hex => .inr (.inr hex.1)) counted fits
  have whole : lx.rest = (48 :: marker :: text) ++ mid.rest := by
    rw [ends, List.cons_append, List.cons_append, ← shape]
    exact two_bytes head next
  rw [whole, consumed_append]
  rcases known with ⟨rfl, rfl⟩ | ⟨rfl, rfl⟩
  · exact ⟨_, .binary spelled nonempty, small⟩
  · exact ⟨_, .hex spelled nonempty, small⟩

theorem digitCount_ne {c : UInt8} (digit : isDigit c = true) (more : List UInt8) :
    digitCount 10 (c :: more) ≠ 0 := by
  have apart : c ≠ 95 := by
    rintro rfl
    cases digit
  rw [digitCount, List.takeWhile_cons_of_pos (by simp [isDigitOf, digit])]
  simp [apart]

/-- A run that starts with a digit spells a number. -/
theorem run_some (more : List UInt8) {c : UInt8} (digit : isDigit c = true) :
    ∃ text digits, c :: more = text ++ digitRun 10 (c :: more) ∧ Digits 10 text digits ∧
      digits ≠ [] := by
  obtain ⟨text, digits, shape, spelled, count⟩ :=
    digitRun_spells 10 (.inr (.inl rfl)) (c :: more)
  refine ⟨text, digits, shape, spelled, ?_⟩
  rintro rfl
  exact digitCount_ne digit more count.symm

/-- The exponent, where there is one. -/
theorem exponent_spells (more : List UInt8) {marker : UInt8} (mark : marker = 101 ∨ marker = 69) :
    ∃ text power, marker :: more = text ++ exponent (marker :: more) ∧ Exponent text power := by
  rw [exponent]
  split_ifs with bare sign digits
  · obtain ⟨b, next, digit⟩ := (Option.any_eq_true _ _).mp bare
    cases more with
    | nil => cases next
    | cons b' more =>
        cases next
        obtain ⟨text, digits, shape, spelled, nonempty⟩ := run_some more digit
        refine ⟨marker :: text, _, ?_, .bare mark spelled nonempty⟩
        rw [List.drop_succ_cons, List.drop_succ_cons, List.drop_zero, ← Lexer.digitRun_cons digit]
        exact congrArg (List.cons marker) shape
  · obtain ⟨b, next, digit⟩ := (Option.any_eq_true _ _).mp digits
    rcases more with _ | ⟨sign', _ | ⟨b', more⟩⟩
    · cases next
    · cases next
    · cases next
      obtain ⟨text, digits, shape, spelled, nonempty⟩ := run_some more digit
      simp only [List.getElem?_cons_succ, List.getElem?_cons_zero, Option.some.injEq] at sign
      rcases sign with rfl | rfl
      · exact ⟨marker :: 43 :: text, _,
          congrArg (fun rest => marker :: 43 :: rest) shape, .plus mark spelled nonempty⟩
      · exact ⟨marker :: 45 :: text, _,
          congrArg (fun rest => marker :: 45 :: rest) shape, .minus mark spelled nonempty⟩
  · exact ⟨[], 0, rfl, .absent⟩
  · exact ⟨[], 0, rfl, .absent⟩

/-- The fraction and the exponent of a float. -/
theorem floatEnd_spells {intEnd : List UInt8} (fraction : Lexer.isFraction intEnd = true) :
    ∃ frac digits exponent power, intEnd = 46 :: (frac ++ exponent) ++ Lexer.floatEnd intEnd ∧
      Digits 10 frac digits ∧ digits ≠ [] ∧ Exponent exponent power := by
  obtain ⟨b, more, rfl, digit⟩ := (isFraction_iff intEnd).mp fraction
  obtain ⟨frac, digits, shape, spelled, nonempty⟩ := run_some more digit
  rw [Lexer.floatEnd, List.drop_succ_cons, List.drop_zero]
  split
  · rename_i marked
    obtain ⟨marker, rest, split, mark⟩ : ∃ marker rest,
        digitRun 10 (b :: more) = marker :: rest ∧ (marker = 101 ∨ marker = 69) := by
      rcases marked with marker | marker
      · obtain ⟨rest, split⟩ := List.head?_eq_some_iff.mp marker
        exact ⟨_, rest, split, .inl rfl⟩
      · obtain ⟨rest, split⟩ := List.head?_eq_some_iff.mp marker
        exact ⟨_, rest, split, .inr rfl⟩
    obtain ⟨text, power, scaled, spelled'⟩ := exponent_spells rest mark
    refine ⟨frac, digits, text, power, ?_, spelled, nonempty, spelled'⟩
    rw [split, List.cons_append, List.append_assoc, ← scaled, ← split, ← shape]
  · refine ⟨frac, digits, [], 0, ?_, spelled, nonempty, .absent⟩
    rw [List.append_nil, List.cons_append, ← shape]

/-- An unfaulted number. -/
theorem lxNumber_literal {c : UInt8} {more : List UInt8} (shape : lx.rest = c :: more)
    (digit : isDigit c = true) :
    ∃ mid kind, lx.lxNumber lx.pos = mid.push kind lx.pos ∧ lx.Scans mid ∧
      (mid.errors = lx.errors → Literal kind (consumed lx.rest mid.rest)) := by
  rw [Lexer.lxNumber]
  split_ifs with hex binary
  · obtain ⟨mid, spec⟩ := radixInt_literal 16 (.inr ⟨rfl, rfl⟩) hex.1 hex.2
    exact ⟨mid, .int, spec⟩
  · obtain ⟨mid, spec⟩ := radixInt_literal 2 (.inl ⟨rfl, rfl⟩) binary.1 binary.2
    exact ⟨mid, .int, spec⟩
  · obtain ⟨mid, scans, -, ⟨fraction, same, ends⟩ | ⟨-, same, ends⟩⟩ := lx.decimal_spec lx.pos
    · refine ⟨mid, .float, same, scans, fun quiet _ => ?_⟩
      obtain ⟨whole, wholeDigits, split, spelled, nonempty⟩ := run_some more digit
      obtain ⟨frac, fracDigits, exponent, power, split', spelled', nonempty', scaled⟩ :=
        floatEnd_spells fraction
      have text : lx.rest = (whole ++ 46 :: (frac ++ exponent)) ++ mid.rest := by
        rw [ends quiet, List.append_assoc, ← split', shape, ← split]
      rw [text, consumed_append]
      exact ⟨_, .float spelled nonempty spelled' nonempty' scaled, trivial⟩
    · refine ⟨mid, .int, same, scans, fun quiet _ => ?_⟩
      obtain ⟨ends, fits⟩ := ends quiet
      obtain ⟨text, digits, split, spelled, nonempty, small⟩ := run_fits (.inr (.inl rfl))
        (shape ▸ digitCount_ne digit more) fits
      rw [ends]
      conv =>
        enter [1, value, 1, 2, 1]
        rw [split]
      rw [consumed_append]
      exact ⟨_, .decimal spelled nonempty, small⟩

end Numbers

/-! ## Strings and chars -/

section Strings

variable {lx : Lexer} {start : Nat}

/-- An escape ends in a small byte. -/
theorem Escaped.edge {text : List UInt8} {c : Char} (escaped : Escaped text c)
    (front rest : List UInt8) : Edge (front ++ text) rest := by
  cases escaped with
  | @letter b _ known =>
      have every : ∀ pair ∈ letters, pair.1.toNat < 128 := by decide
      exact .after _ (every _ known)
  | @scalar text digits _ hex nonempty few value =>
      have last : front ++ 117 :: 123 :: (text ++ [125]) =
          (front ++ 117 :: 123 :: text) ++ [125] := by simp
      rw [last]
      exact .after _ (by decide)

/-- An escape that is scanned without a fault. -/
theorem scanOneEscape_quiet {more : List UInt8} (shape : lx.rest = 92 :: more)
    (quiet : lx.scanOneEscape.errors = lx.errors) :
    ∃ text c, more = text ++ lx.scanOneEscape.rest ∧ Escaped text c := by
  have scans : lx.Scans (lx.seek (scanEscape more).next) := (Lexer.Scans.refl lx).seek
    ((scanEscape_suffix more).trans (shape ▸ List.suffix_cons 92 more))
  rw [Lexer.scanOneEscape, shape, List.drop_succ_cons, List.drop_zero] at quiet ⊢
  cases scanned : scanEscape more with
  | mk next outcome =>
      rw [scanned] at quiet scans
      cases outcome with
      | ok scalar =>
          obtain ⟨text, c, split, escaped, -⟩ := scanEscape_ok.mp scanned
          exact ⟨text, c, split, escaped⟩
      | error code => exact absurd quiet (scans.err_ne _ _)

theorem stringLoop_again {next : Lexer} (turned : lx.stringTurn start = .again next) :
    (Lexer.stringLoop start).run lx = (Lexer.stringLoop start).run next :=
  (Lexer.stringLoop start).run_again turned

/-- Bytes past ASCII are stepped over one at a time. -/
theorem stringLoop_high (high : List UInt8) {rest : List UInt8} (large : ∀ b ∈ high, 128 ≤ b.toNat)
    (shape : lx.rest = high ++ rest) :
    (Lexer.stringLoop start).run lx = (Lexer.stringLoop start).run (lx.seek rest) := by
  induction high generalizing lx with
  | nil => rw [← show lx.rest = rest from shape]; rfl
  | cons b high ih =>
      have size := large b List.mem_cons_self
      have apart (n : Nat) (small : n < 128) : b ≠ UInt8.ofNat n := by
        rintro rfl
        rw [toNat_byte (by omega)] at size
        omega
      have turned : lx.stringTurn start = .again (lx.seek (high ++ rest)) := by
        rw [Lexer.stringTurn, shape]
        exact (if_neg (apart 10 (by decide))).trans
          ((if_neg (apart 34 (by decide))).trans (if_neg (apart 92 (by decide))))
      rw [stringLoop_again turned]
      exact ih (fun b inside => large b (List.mem_cons_of_mem _ inside)) rfl

/-- A string that is scanned without a fault is spelled up to its quote. -/
theorem stringLoop_spells (whole : Boundary lx.rest)
    (quiet : ((Lexer.stringLoop start).run lx).errors = lx.errors) :
    ∃ text value, lx.rest = text ++ 34 :: ((Lexer.stringLoop start).run lx).rest ∧
      Spells text value := by
  induction measured : lx.rest.length using Nat.strongRecOn generalizing lx with
  | ind size ih =>
      cases shape : lx.rest with
      | nil =>
          rw [(Lexer.stringLoop start).run_stop
            (show lx.stringTurn start = .stop _ by rw [Lexer.stringTurn, shape])] at quiet
          exact absurd quiet ((Lexer.Scans.refl lx).err_ne _ _)
      | cons b more =>
          have turn : lx.stringTurn start =
              if b = 10 then .stop (lx.err start (ascii "unterminated string literal"))
              else if b = 34 then .stop (lx.seek more)
              else if b = 92 then .again lx.scanOneEscape
              else .again (lx.seek more) := by
            rw [Lexer.stringTurn, shape]
          by_cases newline : b = 10
          · rw [if_pos newline] at turn
            rw [(Lexer.stringLoop start).run_stop turn] at quiet
            exact absurd quiet ((Lexer.Scans.refl lx).err_ne _ _)
          rw [if_neg newline] at turn
          by_cases quote : b = 34
          · rw [if_pos quote] at turn
            rw [(Lexer.stringLoop start).run_stop turn]
            exact ⟨[], [], by rw [quote]; rfl, .nil⟩
          rw [if_neg quote] at turn
          by_cases slash : b = 92
          · rw [if_pos slash] at turn
            rw [stringLoop_again turn] at quiet ⊢
            have after := Lexer.stringLoop_scans start lx.scanOneEscape
            have first := (Lexer.Scans.refl lx).scanOneEscape
            have same : lx.scanOneEscape.errors = lx.errors :=
              (after.errors.eq_of_length_le (by
                rw [quiet]
                exact first.errors.length_le)).trans quiet
            obtain ⟨text, c, split, escaped⟩ := scanOneEscape_quiet (slash ▸ shape) same
            have next : Boundary lx.scanOneEscape.rest := by
              refine Boundary.of_edge ([b] ++ text) ?_ (escaped.edge [b] _)
              rw [List.append_assoc, ← split]
              rw [shape] at whole
              exact whole
            obtain ⟨others, value, split', spelled⟩ := ih _ ((Lexer.stringTurn_again turn).2.trans_eq
              measured) next (quiet.trans same.symm) rfl
            refine ⟨(92 :: text) ++ others, c :: value, ?_, .cons (.escape escaped) spelled⟩
            rw [slash, split, split', List.append_assoc]
            rfl
          rw [if_neg slash] at turn
          rw [shape] at whole
          rcases whole.cons_cases with ⟨c, small, value, one, next⟩ | ⟨c, high, rest, wide, rfl, next⟩
          · rw [stringLoop_again turn] at quiet ⊢
            obtain ⟨others, decoded, split, spelled⟩ := @ih more.length
              (by rw [← measured, shape]; exact Nat.lt_succ_self _) (lx.seek more) next quiet rfl
            refine ⟨[b] ++ others, c :: decoded, congrArg (List.cons b) split,
              one ▸ .cons (.plain ?_) spelled⟩
            have apart (n : Nat) (differs : b ≠ UInt8.ofNat n) (low : n < 256) : c.toNat ≠ n := by
              rintro rfl
              exact differs (by rw [value, UInt8.ofNat_toNat])
            simp [apart 10 newline, apart 34 quote, apart 92 slash]
          · have large := wide.high
            have stepped : (Lexer.stringLoop start).run lx =
                (Lexer.stringLoop start).run (lx.seek rest) :=
              stringLoop_high (b :: high) large shape
            rw [stepped] at quiet ⊢
            obtain ⟨others, decoded, split, spelled⟩ := @ih rest.length
              (by rw [← measured, shape, List.length_cons, List.length_append]; omega)
              (lx.seek rest) next quiet rfl
            refine ⟨(b :: high) ++ others, c :: decoded, ?_,
              wide.bytes ▸ .cons (.plain ?_) spelled⟩
            · rw [List.append_assoc]
              exact congrArg ((b :: high) ++ ·) split
            · have size := wide.large
              simp only [List.mem_cons, List.not_mem_nil, or_false]
              omega

/-- An unfaulted string. -/
theorem lxString_literal (start : Nat) {more : List UInt8} (whole : Boundary lx.rest)
    (shape : lx.rest = 34 :: more) :
    ∃ mid, lx.lxString start = mid.push .str start ∧ lx.Scans mid ∧
      (mid.errors = lx.errors → Literal .str (consumed lx.rest mid.rest)) := by
  have scans := ((Lexer.Scans.refl lx).advance 1).trans
    (Lexer.stringLoop_scans start (lx.advance 1))
  refine ⟨_, rfl, scans, fun quiet _ => ?_⟩
  have behind : (lx.advance 1).rest = more := by rw [Lexer.advance, Lexer.seek, shape]; rfl
  have next : Boundary (lx.advance 1).rest := by
    rw [behind]
    exact (shape ▸ whole : Boundary (34 :: more)).tail (by decide)
  obtain ⟨text, value, split, spelled⟩ := stringLoop_spells next quiet
  have all : lx.rest = (34 :: (text ++ [34])) ++
      ((Lexer.stringLoop start).run (lx.advance 1)).rest := by
    rw [shape, ← behind, split]
    simp
  rw [all, consumed_append]
  exact ⟨_, .str spelled, trivial⟩

/-- A closing quote that is found where it has to be. -/
theorem closeQuote_quiet {msg : CString} (quiet : (lx.closeQuote start msg).errors = lx.errors) :
    lx.rest = 39 :: (lx.closeQuote start msg).rest := by
  rw [Lexer.closeQuote] at quiet ⊢
  have scans := Lexer.Scans.refl lx
  have found := scans.seek (List.dropWhile_suffix (l := lx.rest) fun c => c != 39 && c != 10)
  split at quiet
  · rename_i quote
    rw [if_pos quote]
    obtain ⟨rest, shape⟩ := List.head?_eq_some_iff.mp
      (show lx.rest.head? = some 39 from List.head?_eq_getElem? ▸ quote)
    rw [Lexer.advance, Lexer.seek, shape]
    rfl
  · dsimp only at quiet
    split at quiet
    · exact absurd quiet ((found.advance 1).err_ne _ _)
    · exact absurd quiet (found.err_ne _ _)

/-- The character of a char literal that is scanned without a fault. -/
theorem charBody_quiet (whole : Boundary lx.rest)
    (quiet : (lx.charBody start).errors = lx.errors) :
    ∃ text c, lx.rest = text ++ (lx.charBody start).rest ∧ Piece [39, 92] text c := by
  have scans := Lexer.Scans.refl lx
  rw [Lexer.charBody] at quiet ⊢
  cases shape : lx.rest with
  | nil =>
      simp only [shape] at quiet
      exact absurd quiet (scans.err_ne _ _)
  | cons b more =>
      simp only [shape] at quiet
      split_ifs at quiet with tick slash small
      · exact absurd quiet (scans.err_ne _ _)
      · obtain ⟨text, c, split, escaped⟩ := scanOneEscape_quiet (slash ▸ shape) quiet
        refine ⟨92 :: text, c, ?_, .escape escaped⟩
        simp only [if_neg tick, if_pos slash]
        rw [slash, List.cons_append, ← split]
      all_goals
        simp only [if_neg tick, if_neg slash]
        rw [shape] at whole
        rcases whole.cons_cases with ⟨c, low, value, one, -⟩ | ⟨c, high, rest, wide, rfl, -⟩
      · refine ⟨[b], c, ?_, one ▸ .plain ?_⟩
        · rw [if_pos small, Lexer.advance, Lexer.seek, shape]
          rfl
        · have apart (n : Nat) (differs : b ≠ UInt8.ofNat n) : c.toNat ≠ n := by
            rintro rfl
            exact differs (by rw [value, UInt8.ofNat_toNat])
          simp [apart 39 tick, apart 92 slash]
      · have size := wide.high b List.mem_cons_self
        rw [UInt8.lt_iff_toNat_lt] at small
        exact absurd small (Nat.not_lt_of_le size)
      · rw [UInt8.lt_iff_toNat_lt] at small
        exact absurd low small
      · refine ⟨b :: high, c, ?_, wide.bytes ▸ .plain ?_⟩
        · simp only [if_neg small, Lexer.bumpScalar, shape, Lexer.advance, Lexer.seek, wide.len,
            List.drop_succ_cons, List.drop_left, List.cons_append]
        · have size := wide.large
          simp only [List.mem_cons, List.not_mem_nil, or_false]
          omega

/-- An unfaulted char. -/
theorem lxChar_literal (start : Nat) {more : List UInt8} (whole : Boundary lx.rest)
    (shape : lx.rest = 39 :: more) :
    ∃ mid, lx.lxChar start = mid.push .char start ∧ lx.Scans mid ∧
      (mid.errors = lx.errors → Literal .char (consumed lx.rest mid.rest)) := by
  have first := (Lexer.Scans.refl (lx.advance 1)).charBody start
  have last := (Lexer.Scans.refl ((lx.advance 1).charBody start)).closeQuote start
    (ascii "char literal must contain exactly one character")
  refine ⟨_, rfl, ((Lexer.Scans.refl lx).advance 1).trans (first.trans last), fun quiet _ => ?_⟩
  have behind : (lx.advance 1).rest = more := by rw [Lexer.advance, Lexer.seek, shape]; rfl
  have next : Boundary (lx.advance 1).rest := by
    rw [behind]
    exact (shape ▸ whole : Boundary (39 :: more)).tail (by decide)
  have same : ((lx.advance 1).charBody start).errors = (lx.advance 1).errors :=
    (last.errors.eq_of_length_le (by
      rw [quiet]
      exact first.errors.length_le)).trans quiet
  obtain ⟨text, c, split, piece⟩ := charBody_quiet next same
  have closed := closeQuote_quiet (quiet.trans same.symm)
  rw [behind] at split
  rw [shape, split, closed]
  have all (rest : List UInt8) : 39 :: (text ++ 39 :: rest) = (39 :: (text ++ [39])) ++ rest := by
    simp
  rw [all, consumed_append]
  exact ⟨_, .char piece, trivial⟩

end Strings

/-! ## Tokens -/

theorem wordKind_plain (word : CString) : (Lexer.wordKind word).isLiteral = false := by
  rw [Lexer.wordKind]
  split_ifs <;> rfl

theorem matchOp_plain {c : UInt8} {n2 : Option UInt8} {kind : Kind}
    (found : Lexer.matchOp c n2 = some kind) : kind.isLiteral = false := by
  rw [Lexer.matchOp] at found
  split_ifs at found <;> (cases found; rfl)

theorem oneKind_plain {c : UInt8} {kind : Kind} (found : Lexer.oneKind c = some kind) :
    kind.isLiteral = false := by
  rw [Lexer.oneKind] at found
  obtain ⟨before, after, shape, -⟩ := List.lookup_eq_some_iff.mp found
  have every : ∀ pair ∈ [((61 : UInt8), Kind.assign), (43, .plus), (45, .minus), (42, .star),
      (47, .slash), (37, .percent), (60, .lt), (62, .gt), (33, .bang), (63, .question),
      (58, .colon), (44, .comma), (46, .dot), (40, .lparen), (41, .rparen), (123, .lbrace),
      (125, .rbrace), (91, .lbracket), (93, .rbracket)], pair.2.isLiteral = false := by decide
  exact every (c, kind) (by rw [shape]; exact List.mem_append_right before List.mem_cons_self)

theorem Literal.of_plain {kind : Kind} {text : CString} (plain : kind.isLiteral = false) :
    Literal kind text := by
  intro literal
  rw [plain] at literal
  cases literal

/-- What the dispatch does at a byte, with the text of a token that is not faulted. -/
theorem scanToken_literal {lx : Lexer} {c : UInt8} {more : List UInt8} (whole : Boundary lx.rest)
    (shape : lx.rest = c :: more) :
    (∃ mid kind, lx.scanToken c = mid.push kind lx.pos ∧ lx.Scans mid ∧
      (mid.errors = lx.errors → Literal kind (consumed lx.rest mid.rest))) ∨
    (∃ mid msg, lx.scanToken c = mid.err lx.pos msg ∧ lx.Scans mid) := by
  have scans := Lexer.Scans.refl lx
  rw [Lexer.scanToken]
  split_ifs with ident digit quote tick
  · exact .inl ⟨_, _, rfl, scans.seek (List.dropWhile_suffix _), fun _ =>
      .of_plain (wordKind_plain _)⟩
  · exact .inl (lxNumber_literal shape digit)
  · obtain ⟨mid, spec⟩ := lxString_literal lx.pos whole (quote ▸ shape)
    exact .inl ⟨mid, .str, spec⟩
  · obtain ⟨mid, spec⟩ := lxChar_literal lx.pos whole (tick ▸ shape)
    exact .inl ⟨mid, .char, spec⟩
  · rw [Lexer.lxSymbol]
    split
    · exact .inr ⟨_, _, rfl, scans.bumpScalar⟩
    · split
      · rename_i kind found
        exact .inl ⟨_, kind, rfl, scans.advance 2, fun _ => .of_plain (matchOp_plain found)⟩
      · split
        · exact .inr ⟨_, _, rfl, scans.advance 1⟩
        · rename_i kind found
          exact .inl ⟨_, kind, rfl, scans.advance 1, fun _ => .of_plain (oneKind_plain found)⟩

/-- The bytes of a span. -/
def slice (src : List UInt8) (lo hi : Nat) : CString := (src.take hi).drop lo

/-- The text of a token. -/
def Token.text (t : Token) (src : List UInt8) : CString := slice src t.lo t.hi

/-- The span between two offsets holds what was read between them. -/
theorem slice_consumed {src before after : List UInt8} (whole : before <:+ src)
    (suffix : after <:+ before) :
    slice src (src.length - before.length) (src.length - after.length) = consumed before after := by
  obtain ⟨front, rfl⟩ := whole
  obtain ⟨used, rfl⟩ := suffix
  have lo : (front ++ (used ++ after)).length - (used ++ after).length = front.length := by simp
  have hi : (front ++ (used ++ after)).length - after.length = (front ++ used).length := by
    simp only [List.length_append]
    omega
  rw [consumed_append, slice, lo, hi, ← List.append_assoc, List.take_left, List.drop_left]

/-- A lexer on its way through a source. -/
structure Lexed (src : List UInt8) (lx : Lexer) : Prop where
  n : lx.n = src.length
  suffix : lx.rest <:+ src
  boundary : Boundary lx.rest
  literals : lx.errors = [] → ∀ t ∈ lx.tokens, t.hi ≤ src.length ∧ Literal t.kind (t.text src)

namespace Lexed

variable {src : List UInt8} {lx mid : Lexer}

theorem start (whole : Boundary src) : Lexed src (lxNew src) :=
  ⟨rfl, List.suffix_rfl, whole, fun _ _ inside => nomatch inside⟩

theorem skipTrivia (lexed : Lexed src lx) : Lexed src lx.skipTrivia := by
  have reads := lx.skipTrivia_reads
  refine ⟨reads.n.trans lexed.n, reads.suffix.trans lexed.suffix, lexed.boundary.skipTrivia, ?_⟩
  intro quiet t inside
  refine lexed.literals ?_ t (reads.tokens ▸ inside)
  exact List.prefix_nil.mp (quiet ▸ reads.errors)

theorem push {kind : Kind} (lexed : Lexed src lx) (scans : lx.Scans mid)
    (boundary : Boundary mid.rest)
    (literal : mid.errors = lx.errors → Literal kind (consumed lx.rest mid.rest)) :
    Lexed src (mid.push kind lx.pos) := by
  refine ⟨scans.n.trans lexed.n, scans.suffix.trans lexed.suffix, boundary, ?_⟩
  intro quiet t inside
  have before : lx.errors = [] := List.prefix_nil.mp ((show mid.errors = [] from quiet) ▸ scans.errors)
  rcases List.mem_append.mp inside with old | new
  · exact lexed.literals before t (scans.tokens ▸ old)
  · obtain rfl := List.mem_singleton.mp new
    have spans : mid.n = src.length := scans.n.trans lexed.n
    refine ⟨by simp only [Lexer.pos, spans]; omega, ?_⟩
    simp only [Token.text, Lexer.pos, spans, lexed.n, slice_consumed lexed.suffix scans.suffix]
    exact literal ((show mid.errors = [] from quiet).trans before.symm)

theorem err {msg : CString} (lexed : Lexed src lx) (scans : lx.Scans mid)
    (boundary : Boundary mid.rest) : Lexed src (mid.err lx.pos msg) :=
  ⟨scans.n.trans lexed.n, scans.suffix.trans lexed.suffix, boundary, fun quiet =>
    absurd quiet (List.append_ne_nil_of_right_ne_nil _ (List.cons_ne_nil _ _))⟩

theorem turn {next : Lexer} (lexed : Lexed src lx) (turned : lx.lexTurn = .again next) :
    Lexed src next := by
  rw [Lexer.lexTurn] at turned
  split at turned
  · cases turned
  · rename_i c more shape
    cases turned
    have skipped := lexed.skipTrivia
    have boundary := skipped.boundary.scanToken shape
    rcases scanToken_literal skipped.boundary shape with ⟨mid, kind, same, scans, literal⟩ |
      ⟨mid, msg, same, scans⟩
    · rw [same] at boundary ⊢
      exact skipped.push scans boundary literal
    · rw [same] at boundary ⊢
      exact skipped.err scans boundary

end Lexed

/-- The literals of a source without a fault are spelled by the grammar. -/
theorem lex_literals {src : List UInt8} (whole : Boundary src) (accepted : (lex src).errors = []) :
    ∀ t ∈ (lex src).tokens, t.hi ≤ src.length ∧ Literal t.kind (t.text src) := by
  have run : Lexed src (lex src) := by
    refine Lexer.lexLoop.run_invariant (Lexed src) (Lexed src) ?_ ?_ (Lexed.start whole)
    · intro state next lexed turned
      exact lexed.turn turned
    · intro state result lexed turned
      change state.lexTurn = .stop result at turned
      rw [Lexer.lexTurn] at turned
      split at turned
      · cases turned
        exact lexed.skipTrivia.push (Lexer.Scans.refl _) lexed.skipTrivia.boundary
          fun _ => .of_plain rfl
      · cases turned
  exact run.literals accepted

end Geas.Compiler.Lexing
