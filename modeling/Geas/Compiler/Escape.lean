import Geas.Compiler.Bytes

/-!
# Escapes

The backslash escapes of a string or a char literal.  One scanner serves the lexer,
which walks past an escape, and the decoder, which wants its scalar.  Next to it stands
the grammar of escapes, and the scanner succeeds on exactly what the grammar derives.
-/

namespace Geas.Compiler.Lexing

open Geas.Runtime (CString ascii)

/-! ## The scanner -/

/-- The escape error codes. -/
inductive EscErr where
  | unknown | uNoBrace | uUnterm | uDigits | uSurrogate | uRange
  deriving DecidableEq, Repr

/-- `esc_err_msg`. -/
def EscErr.msg : EscErr → CString
  | unknown => ascii "unknown escape"
  | uNoBrace => ascii "expected '\x7b' after \\u"
  | uUnterm => ascii "unterminated \\u escape; expected '\x7d'"
  | uDigits => ascii "\\u escape needs 1 to 6 hex digits"
  | uSurrogate => ascii "\\u escape is a surrogate code point, not a scalar value"
  | uRange => ascii "\\u escape is above 0x10FFFF, the Unicode maximum"

/-- The outcome of scanning one escape: where the caller goes on, and the scalar or the
error. -/
structure Escape where
  next : List UInt8
  outcome : Except EscErr Nat

/-- What `unicode_escape` makes of the digits once their brace is closed. -/
def closeUnicode (value digits : Nat) : Except EscErr Nat :=
  if digits = 0 then .error .uDigits
  else if 6 < digits then .error .uDigits
  else if 55296 ≤ value ∧ value ≤ 57343 then .error .uSurrogate
  else if 1114111 < value then .error .uRange
  else .ok value

/-- The loop of `unicode_escape`: digits past the sixth are read but not accumulated. -/
def unicodeDigits (value digits : Nat) : List UInt8 → Escape
  | [] => ⟨[], .error .uUnterm⟩
  | b :: rest =>
      if b = 125 then ⟨rest, closeUnicode value digits⟩
      else match hexVal b with
        | some digit =>
            unicodeDigits (if digits < 6 then value * 16 + digit else value) (digits + 1) rest
        | none => ⟨b :: rest, .error .uUnterm⟩

/-- `unicode_escape`, from past the `u`. -/
def unicodeEscape : List UInt8 → Escape
  | [] => ⟨[], .error .uNoBrace⟩
  | b :: rest => if b = 123 then unicodeDigits 0 0 rest else ⟨b :: rest, .error .uNoBrace⟩

/-- `scan_escape`, from past the backslash. -/
def scanEscape : List UInt8 → Escape
  | [] => ⟨[], .error .unknown⟩
  | c :: a =>
      if c = 110 then ⟨a, .ok 10⟩
      else if c = 116 then ⟨a, .ok 9⟩
      else if c = 114 then ⟨a, .ok 13⟩
      else if c = 48 then ⟨a, .ok 0⟩
      else if c = 92 then ⟨a, .ok 92⟩
      else if c = 34 then ⟨a, .ok 34⟩
      else if c = 39 then ⟨a, .ok 39⟩
      else if c = 117 then unicodeEscape a
      else ⟨a, .error .unknown⟩

/-! ## The grammar -/

/-- The number the digits spell in a base. -/
def number (base : Nat) (digits : List Nat) : Nat :=
  digits.foldl (fun sofar digit => sofar * base + digit) 0

/-- The one letter escapes, with the scalars they stand for. -/
def letters : List (UInt8 × Nat) :=
  [(110, 10), (116, 9), (114, 13), (48, 0), (92, 92), (34, 34), (39, 39)]

/-- The escapes of the grammar, without their backslash, and what they stand for. -/
inductive Escaped : List UInt8 → Char → Prop where
  | letter {b : UInt8} {c : Char} (known : (b, c.toNat) ∈ letters) : Escaped [b] c
  | scalar {text : List UInt8} {digits : List Nat} {c : Char}
      (hex : List.Forall₂ (fun b digit => hexVal b = some digit) text digits)
      (nonempty : 0 < digits.length) (few : digits.length ≤ 6)
      (value : number 16 digits = c.toNat) :
      Escaped (117 :: 123 :: (text ++ [125])) c

/-! ## The scanner follows the grammar -/

theorem closeUnicode_ok {value digits scalar : Nat} :
    closeUnicode value digits = .ok scalar ↔
      (0 < digits ∧ digits ≤ 6) ∧ value = scalar ∧ value.isValidChar := by
  rw [closeUnicode, Nat.isValidChar]
  by_cases none : digits = 0
  · simp [none]
  by_cases many : 6 < digits
  · simp [none, many]
  by_cases surrogate : 55296 ≤ value ∧ value ≤ 57343
  · rw [if_neg none, if_neg many, if_pos surrogate]
    simp only [reduceCtorEq, false_iff]
    omega
  by_cases large : 1114111 < value
  · rw [if_neg none, if_neg many, if_neg surrogate, if_pos large]
    simp only [reduceCtorEq, false_iff]
    omega
  rw [if_neg none, if_neg many, if_neg surrogate, if_neg large, Except.ok.injEq]
  omega

theorem hexVal_brace : hexVal 125 = none := by decide

/-- A run of hex digits up to its brace. -/
theorem unicodeDigits_ok {rest : List UInt8} {scalar : Nat} (bytes : List UInt8)
    (value count : Nat) :
    unicodeDigits value count bytes = ⟨rest, .ok scalar⟩ ↔
      ∃ text digits, bytes = text ++ 125 :: rest ∧
        List.Forall₂ (fun b digit => hexVal b = some digit) text digits ∧
        (0 < count + digits.length ∧ count + digits.length ≤ 6) ∧
        digits.foldl (fun sofar digit => sofar * 16 + digit) value = scalar ∧
        scalar.isValidChar := by
  induction bytes generalizing value count with
  | nil => simp [unicodeDigits]
  | cons b bytes ih =>
      rw [unicodeDigits]
      by_cases brace : b = 125
      · rw [if_pos brace, Escape.mk.injEq, closeUnicode_ok]
        constructor
        · rintro ⟨rfl, room, rfl, valid⟩
          exact ⟨[], [], by rw [brace]; rfl, .nil, room, rfl, valid⟩
        · rintro ⟨text, digits, shape, hex, room, sum, valid⟩
          cases hex with
          | nil =>
              obtain ⟨-, rfl⟩ := List.cons.inj shape
              obtain rfl : value = scalar := sum
              exact ⟨rfl, room, rfl, valid⟩
          | cons known more =>
              rw [← (List.cons.inj shape).1, brace, hexVal_brace] at known
              cases known
      rw [if_neg brace]
      cases known : hexVal b with
      | none =>
          simp only [Escape.mk.injEq, reduceCtorEq, and_false, false_iff]
          rintro ⟨text, digits, shape, hex, -⟩
          cases hex with
          | nil => exact brace (List.cons.inj shape).1
          | cons this more =>
              rw [← (List.cons.inj shape).1, known] at this
              cases this
      | some digit =>
          simp only [ih]
          constructor
          · rintro ⟨text, digits, rfl, hex, room, sum, valid⟩
            rw [if_pos (show count < 6 by omega)] at sum
            refine ⟨b :: text, digit :: digits, rfl, .cons known hex, ?_, sum, valid⟩
            simp only [List.length_cons]
            omega
          · rintro ⟨text, digits, shape, hex, room, sum, valid⟩
            cases hex with
            | nil => exact absurd (List.cons.inj shape).1 brace
            | @cons b' digit' text digits this more =>
                obtain ⟨rfl, rfl⟩ := List.cons.inj shape
                rw [known, Option.some.injEq] at this
                subst this
                simp only [List.length_cons] at room
                refine ⟨text, digits, rfl, more, by omega, ?_, valid⟩
                rw [if_pos (show count < 6 by omega)]
                exact sum

/-- The character of a scalar value. -/
theorem exists_char {scalar : Nat} (valid : scalar.isValidChar) : ∃ c : Char, c.toNat = scalar :=
  ⟨Char.ofNatAux scalar valid, rfl⟩

theorem char_valid (c : Char) : c.toNat.isValidChar := c.valid

theorem mem_letters {b : UInt8} {scalar : Nat} :
    (b, scalar) ∈ letters ↔ letters.lookup b = some scalar := by
  constructor
  · simp only [letters, List.mem_cons, Prod.mk.injEq, List.not_mem_nil, or_false]
    rintro (⟨rfl, rfl⟩ | ⟨rfl, rfl⟩ | ⟨rfl, rfl⟩ | ⟨rfl, rfl⟩ | ⟨rfl, rfl⟩ | ⟨rfl, rfl⟩ |
      ⟨rfl, rfl⟩) <;> decide
  · intro found
    obtain ⟨before, after, shape, -⟩ := List.lookup_eq_some_iff.mp found
    rw [shape]
    exact List.mem_append_right before List.mem_cons_self

/-- The scanner by its table. -/
theorem scanEscape_cons (c : UInt8) (a : List UInt8) :
    scanEscape (c :: a) =
      match letters.lookup c with
      | some scalar => ⟨a, .ok scalar⟩
      | none => if c = 117 then unicodeEscape a else ⟨a, .error .unknown⟩ := by
  by_cases inside : c ∈ letters.map Prod.fst
  · simp only [letters, List.map_cons, List.map_nil, List.mem_cons, List.not_mem_nil,
      or_false] at inside
    rcases inside with rfl | rfl | rfl | rfl | rfl | rfl | rfl <;> rfl
  · have absent : letters.lookup c = none :=
      List.lookup_eq_none_iff.mpr fun pair member => bne_iff_ne.mpr fun same =>
        inside (List.mem_map.mpr ⟨pair, member, same.symm⟩)
    rw [absent]
    simp only [letters, List.map_cons, List.map_nil, List.mem_cons, List.not_mem_nil, or_false,
      not_or] at inside
    simp only [scanEscape, inside, if_false]

theorem unicodeEscape_ok {bytes rest : List UInt8} {scalar : Nat} :
    unicodeEscape bytes = ⟨rest, .ok scalar⟩ ↔
      ∃ more, bytes = 123 :: more ∧ unicodeDigits 0 0 more = ⟨rest, .ok scalar⟩ := by
  cases bytes with
  | nil => simp [unicodeEscape]
  | cons b bytes =>
      by_cases brace : b = 123
      · simp [unicodeEscape, brace]
      · simp [unicodeEscape, brace]

/-- The scanner succeeds on the escapes of the grammar, and on nothing else. -/
theorem scanEscape_ok {bytes rest : List UInt8} {scalar : Nat} :
    scanEscape bytes = ⟨rest, .ok scalar⟩ ↔
      ∃ text c, bytes = text ++ rest ∧ Escaped text c ∧ c.toNat = scalar := by
  constructor
  · intro scanned
    cases bytes with
    | nil => cases scanned
    | cons b a =>
        rw [scanEscape_cons] at scanned
        cases found : letters.lookup b with
        | some known =>
            rw [found] at scanned
            obtain ⟨rfl, same⟩ := Escape.mk.inj scanned
            obtain rfl := Except.ok.inj same
            have valid : known.isValidChar := by
              have every : ∀ pair ∈ letters, pair.2 < 128 := by decide
              have small := every _ (mem_letters.mpr found)
              exact Or.inl (by simp only at small; omega)
            obtain ⟨c, rfl⟩ := exists_char valid
            exact ⟨[b], c, rfl, .letter (mem_letters.mpr found), rfl⟩
        | none =>
            rw [found] at scanned
            by_cases unicode : b = 117
            · simp only [if_pos unicode] at scanned
              obtain ⟨more, rfl, digits⟩ := unicodeEscape_ok.mp scanned
              obtain ⟨text, digits, rfl, hex, room, sum, valid⟩ :=
                (unicodeDigits_ok _ _ _).mp digits
              obtain ⟨c, rfl⟩ := exists_char valid
              refine ⟨117 :: 123 :: (text ++ [125]), c, by simp [unicode], ?_, rfl⟩
              exact .scalar hex (by omega) (by omega) sum
            · simp only [if_neg unicode, Escape.mk.injEq, reduceCtorEq, and_false] at scanned
  · rintro ⟨text, c, rfl, escaped, rfl⟩
    cases escaped with
    | letter known =>
        rw [List.singleton_append, scanEscape_cons, mem_letters.mp known]
    | @scalar text digits _ hex nonempty few value =>
        have none : letters.lookup 117 = none := by decide
        rw [List.cons_append, scanEscape_cons, none]
        simp only [if_pos]
        refine unicodeEscape_ok.mpr ⟨text ++ 125 :: rest, by simp, ?_⟩
        refine (unicodeDigits_ok _ _ _).mpr ⟨text, digits, rfl, hex, by omega, value, char_valid c⟩

/-! ## It only reads on -/

theorem unicodeDigits_suffix (bytes : List UInt8) (value count : Nat) :
    (unicodeDigits value count bytes).next <:+ bytes := by
  induction bytes generalizing value count with
  | nil => exact List.suffix_rfl
  | cons b bytes ih =>
      rw [unicodeDigits]
      by_cases brace : b = 125
      · rw [if_pos brace]
        exact List.suffix_cons b bytes
      rw [if_neg brace]
      cases hexVal b with
      | none => exact List.suffix_rfl
      | some digit => exact (ih _ _).trans (List.suffix_cons b bytes)

theorem scanEscape_suffix (bytes : List UInt8) : (scanEscape bytes).next <:+ bytes := by
  cases bytes with
  | nil => exact List.suffix_rfl
  | cons c a =>
      rw [scanEscape_cons]
      have past := List.suffix_cons c a
      cases letters.lookup c with
      | some scalar => exact past
      | none =>
          by_cases unicode : c = 117
          · simp only [if_pos unicode]
            cases a with
            | nil => exact past
            | cons b more =>
                rw [unicodeEscape]
                split
                · exact ((unicodeDigits_suffix more 0 0).trans (List.suffix_cons b more)).trans past
                · exact past
          · simp only [if_neg unicode]
            exact past

end Geas.Compiler.Lexing
