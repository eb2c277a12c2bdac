import Geas.Compiler.Bodies
import Geas.Compiler.Names
import Geas.Compiler.Syntax
import Geas.Lib.Interner

/-!
# Literals

What the parser makes of a literal token, what the emitter writes for it in C, and what
that text denotes there.  Integers, strings and chars keep their values.  A float is
copied as it is spelled, and so are its underscores, which C does not read.
-/

namespace Geas.Compiler.Lexing

open Geas.Lib
open Geas.Compiler.Sigs (decimalText)
open Geas.Runtime (CString ascii)

/-! ## The payload of a literal -/

/-- The base of an integer, and where its digits start. -/
def intPrefix (src : List UInt8) (lo : Nat) : Nat × Nat :=
  if src[lo]? = some 48 ∧ src[lo + 1]? = some 120 then (16, lo + 2)
  else if src[lo]? = some 48 ∧ src[lo + 1]? = some 98 then (2, lo + 2)
  else (10, lo)

/-- The loop of `int_value`. -/
def intFrom (base acc : Nat) : List UInt8 → Nat
  | [] => acc
  | b :: rest =>
      if b = 95 then intFrom base acc rest
      else
        match hexVal b with
        | none => acc
        | some dv =>
            if base ≤ dv then acc
            else if acc > (intMax - dv) / base then 0
            else intFrom base (acc * base + dv) rest

/-- `int_value`. -/
def intValue (src : List UInt8) (lo hi : Nat) : Nat :=
  let prefixed := intPrefix src lo
  intFrom prefixed.1 0 (slice src prefixed.2 hi)

/-- `p_char_scalar`. -/
def charScalar (src : List UInt8) (bstart : Nat) : Nat :=
  match src.drop bstart with
  | [] => 0
  | b :: rest =>
      if b = 39 then 0
      else if b = 92 then
        match (scanEscape rest).outcome with
        | .ok scalar => scalar
        | .error _ => 0
      else if b < 128 then b.toNat
      else (decodeUtf8 b rest).scalar

/-- `parse_literal_expr`. -/
def parseLiteral (src : List UInt8) (t : Token) : Option Lit :=
  match t.kind with
  | .int => some (.int (intValue src t.lo t.hi))
  | .float => some (.float (t.text src))
  | .str => some (.str (stringBody src t.lo t.hi))
  | .char => some (.char (charScalar src (t.lo + 1)))
  | .bool => some (.bool (t.text src == ascii "true"))
  | _ => none

/-- Whether `infer_int` accepts an integer where a type is expected; the other literals are
accepted as what they are. -/
def checksAt : Option Ty → Lit → Prop
  | some .byte, .int value => value ≤ 255
  | _, _ => True

/-! ## The C text -/

/-- An assignment to a member of a fresh value: the member, a cast, and the literal. -/
structure Assign where
  member : CString
  cast : CString
  literal : CString

/-- The emitted line. -/
def Assign.line (a : Assign) (v : CString) : CString :=
  v ++ ascii ".as." ++ a.member ++ ascii " = " ++ a.cast ++ a.literal ++ ascii ";"

/-- The member of an integer: `cg_field_of` of the type `gen_int` gives it. -/
def intMember : Option Ty → CString
  | some .uint => ascii "u"
  | some .byte => ascii "b"
  | _ => ascii "i"

/-- `gen_expr` on a literal. -/
def genLiteral (want : Option Ty) : Lit → List Assign
  | .int value => [⟨intMember want, [], decimalText value⟩]
  | .float text => [⟨ascii "f", [], text⟩]
  | .str text =>
      let cs := cgCString text
      [⟨ascii "s.ptr", ascii "(uint8_t*)", cs.lit⟩, ⟨ascii "s.len", [], decimalText cs.len⟩]
  | .char scalar => [⟨ascii "ch", [], decimalText scalar⟩]
  | .bool value => [⟨ascii "b", [], decimalText value.toNat⟩]

/-! ## C's reading -/

/-- The number of a digit. -/
def digitVal (b : UInt8) : Nat := b.toNat - 48

/-- A decimal constant of C, or the octal constant 0. -/
def cInteger (text : CString) : Option Nat :=
  if text = [48] then some 0
  else if text ≠ [] ∧ text.head? ≠ some 48 ∧ text.all isDigit = true then
    some (number 10 (text.map digitVal))
  else none

/-- A digit sequence of C, which has one digit at least. -/
def cDigits (text : CString) : Option Nat :=
  if text ≠ [] ∧ text.all isDigit = true then some (number 10 (text.map digitVal)) else none

/-- The exponent part of a floating constant, which may be left out. -/
def cExponent : CString → Option Int
  | [] => some 0
  | marker :: rest =>
      if marker = 101 ∨ marker = 69 then
        match rest with
        | [] => none
        | sign :: digits =>
            if sign = 43 then (cDigits digits).map Int.ofNat
            else if sign = 45 then (cDigits digits).map fun power : Nat => -(power : Int)
            else (cDigits rest).map Int.ofNat
      else none

/-- A decimal floating constant of C without a suffix, by the number that is written. -/
def cFloat (text : CString) : Option Rat :=
  let whole := text.takeWhile isDigit
  match text.dropWhile isDigit with
  | [] => none
  | b :: rest =>
      if b = 46 then
        let frac := rest.takeWhile isDigit
        if whole = [] ∧ frac = [] then none
        else (cExponent (rest.dropWhile isDigit)).map fun power =>
          decimalValue (whole.map digitVal) (frac.map digitVal) power
      else if whole = [] then none
      else (cExponent (b :: rest)).map fun power => decimalValue (whole.map digitVal) [] power

/-- The largest value of an integer member. -/
def memberMax (member : CString) : Nat :=
  if member = ascii "b" then 255 else if member = ascii "u" then 18446744073709551615 else intMax

/-- The assignments store a value: each literal is one of C and denotes it. -/
def Stores : Value → List Assign → Prop
  | .int value, [a] => cInteger a.literal = some value ∧ value ≤ memberMax a.member
  | .float value, [a] => cFloat a.literal = some value
  | .str value, [ptr, len] =>
      cString ptr.literal = some (encode value) ∧
        cInteger len.literal = some (encode value).length
  | .char value, [a] => cInteger a.literal = some value.toNat
  | _, _ => False

/-- A literal token keeps its value: its text denotes one, and whatever it denotes is what
the emitted C stores. -/
def Kept (src : List UInt8) (want : Option Ty) (t : Token) (lit : Lit) : Prop :=
  (∃ value, Denotes t.kind (t.text src) value) ∧
    ∀ value, Denotes t.kind (t.text src) value → Stores value (genLiteral want lit)

/-! ## Integers -/

section Integers

variable {base : Nat} {text : List UInt8} {digits : List Nat}

theorem Digits.unique {digits' : List Nat} (first : Digits base text digits)
    (second : Digits base text digits') : digits = digits' := by
  induction first generalizing digits' with
  | nil =>
      cases second
      rfl
  | separator others ih =>
      cases second with
      | separator others' => exact ih others'
      | digit known small others' => exact absurd rfl (hexVal_small known).2.2
  | digit known small others ih =>
      cases second with
      | separator others' => exact absurd rfl (hexVal_small known).2.2
      | digit known' small' others' =>
          rw [known, Option.some.injEq] at known'
          rw [known', ih others']

/-- The accumulation of an integer that fits. -/
theorem intFrom_digits (spelled : Digits base text digits) (positive : 0 < base) (acc : Nat)
    (fits : digits.foldl (fun sofar digit => sofar * base + digit) acc ≤ intMax) :
    intFrom base acc text = digits.foldl (fun sofar digit => sofar * base + digit) acc := by
  induction spelled generalizing acc with
  | nil => rfl
  | separator others ih =>
      rw [intFrom, if_pos rfl]
      exact ih acc fits
  | @digit b text digit digits known small others ih =>
      obtain ⟨-, value, apart⟩ := hexVal_small known
      rw [List.foldl_cons] at fits ⊢
      have bound := (number_le digits (acc * base + digit) positive).trans fits
      have guard := guard_iff acc positive
        (show digit ≤ intMax from (Nat.le_of_lt value).trans (by decide))
      rw [intFrom, if_neg apart, known]
      simp only
      rw [if_neg (Nat.not_le_of_lt small), if_neg (mt guard.mp (Nat.not_lt_of_le bound))]
      exact ih _ fits

theorem Digits.mem {b : UInt8} (spelled : Digits base text digits) (inside : b ∈ text) :
    b = 95 ∨ ∃ digit, hexVal b = some digit ∧ digit < base := by
  induction spelled with
  | nil => cases inside
  | separator others ih =>
      rcases List.mem_cons.mp inside with rfl | inside
      · exact .inl rfl
      · exact ih inside
  | digit known small others ih =>
      rcases List.mem_cons.mp inside with rfl | inside
      · exact .inr ⟨_, known, small⟩
      · exact ih inside

variable {src : List UInt8} {lo hi : Nat}

theorem slice_getElem (src : List UInt8) (lo hi i : Nat) :
    (slice src lo hi)[i]? = if lo + i < hi then src[lo + i]? else none := by
  rw [slice, List.getElem?_drop, List.getElem?_take]

theorem slice_drop (src : List UInt8) (lo hi m : Nat) :
    slice src (lo + m) hi = (slice src lo hi).drop m := by
  rw [slice, slice, List.drop_drop]

/-- A byte of a span is a byte of the source. -/
theorem getElem_of_slice {b : UInt8} {i : Nat} (here : (slice src lo hi)[i]? = some b) :
    src[lo + i]? = some b := by
  rw [slice_getElem] at here
  split at here
  · exact here
  · cases here

/-- A decimal spelling has no prefix: where one seems to follow, the span is over. -/
theorem decimal_prefix {marker : UInt8} (spelled : Digits 10 (slice src lo hi) digits)
    (letter : marker = 120 ∨ marker = 98) (next : src[lo + 1]? = some marker) : hi ≤ lo + 1 := by
  by_contra inside
  have here : (slice src lo hi)[1]? = some marker := by
    rw [slice_getElem, if_pos (Nat.lt_of_not_le inside)]
    exact next
  rcases spelled.mem (List.mem_of_getElem? here) with rfl | ⟨digit, known, small⟩
  · rcases letter with letter | letter <;> cases letter
  · rcases letter with rfl | rfl
    · cases known
    · cases known
      exact absurd small (by decide)

/-- The value of a decimal span that is a zero. -/
theorem decimal_zero (spelled : Digits 10 (slice src lo hi) digits) (nonempty : digits ≠ [])
    (zero : src[lo]? = some 48) (short : hi ≤ lo + 1) : number 10 digits = 0 := by
  have start : (slice src lo hi)[1]? = none := by
    rw [slice_getElem, if_neg (Nat.not_lt_of_le short)]
  cases shape : slice src lo hi with
  | nil =>
      rw [shape] at spelled
      cases spelled
      exact absurd rfl nonempty
  | cons b rest =>
      have alone : rest = [] := by
        rw [shape, List.getElem?_cons_succ] at start
        exact List.head?_eq_none_iff.mp (List.head?_eq_getElem? ▸ start)
      have first : (slice src lo hi)[0]? = some b := by rw [shape]; rfl
      have same := getElem_of_slice first
      rw [Nat.add_zero, zero, Option.some.injEq] at same
      rw [shape, alone, ← same] at spelled
      rw [spelled.unique (.digit (show hexVal 48 = some 0 by decide) (by decide) .nil)]
      rfl

/-- The value of an integer token is the number it spells. -/
theorem intValue_eq {value : Nat} (denotes : Denotes .int (slice src lo hi) (.int value))
    (fits : value ≤ intMax) : intValue src lo hi = value := by
  generalize spelling : slice src lo hi = text at denotes
  have at' {i : Nat} {b : UInt8} (here : text[i]? = some b) : src[lo + i]? = some b :=
    getElem_of_slice (show (slice src lo hi)[i]? = some b by rw [spelling]; exact here)
  cases denotes with
  | @hex text digits spelled nonempty =>
      have head : src[lo]? = some 48 := at' (i := 0) rfl
      have next : src[lo + 1]? = some 120 := at' rfl
      rw [intValue, intPrefix, if_pos ⟨head, next⟩]
      simp only [slice_drop, spelling, List.drop_succ_cons, List.drop_zero]
      exact intFrom_digits spelled (by decide) 0 fits
  | @binary text digits spelled nonempty =>
      have head : src[lo]? = some 48 := at' (i := 0) rfl
      have next : src[lo + 1]? = some 98 := at' rfl
      rw [intValue, intPrefix, if_neg (by rw [next]; simp), if_pos ⟨head, next⟩]
      simp only [slice_drop, spelling, List.drop_succ_cons, List.drop_zero]
      exact intFrom_digits spelled (by decide) 0 fits
  | @decimal text digits spelled nonempty =>
      rw [← spelling] at spelled
      have past (marker : UInt8) (letter : marker = 120 ∨ marker = 98)
          (zero : src[lo]? = some 48 ∧ src[lo + 1]? = some marker) (base : Nat) :
          intFrom base 0 (slice src (lo + 2) hi) = number 10 digits := by
        have short := decimal_prefix spelled letter zero.2
        rw [decimal_zero spelled nonempty zero.1 short, slice_drop, List.drop_eq_nil_of_le]
        · rfl
        · rw [slice, List.length_drop, List.length_take]
          omega
      rw [intValue, intPrefix]
      split_ifs with hex binary
      · exact past 120 (.inl rfl) hex 16
      · exact past 98 (.inr rfl) binary 2
      · exact intFrom_digits spelled (by decide) 0 fits

/-! ### In C -/

theorem toDigits_head {n : Nat} (positive : 0 < n) : (Nat.toDigits 10 n).head? ≠ some '0' := by
  induction n using Nat.strongRecOn with
  | ind n ih =>
      by_cases small : n < 10
      · rw [Nat.toDigits_of_lt_base small]
        have every : ∀ n < 10, 0 < n → [n.digitChar].head? ≠ some '0' := by decide
        exact every n small positive
      · have front := Nat.toDigits_ne_nil (n := n / 10) (b := 10)
        rw [Nat.toDigits_of_base_le (by decide) (Nat.le_of_not_lt small),
          List.head?_append_of_ne_nil _ front]
        exact ih (n / 10) (by omega) (by omega)

/-- The emitted integers are decimal constants of C. -/
theorem cInteger_decimalText (n : Nat) : cInteger (decimalText n) = some n := by
  have digit {c : Char} (inside : c ∈ Nat.toDigits 10 n) :
      (UInt8.ofNat c.toNat).toNat = c.toNat ∧ 48 ≤ c.toNat ∧ c.toNat ≤ 57 := by
    have range := Sigs.digit_range (Nat.isDigit_of_mem_toDigits (by decide) (by decide) inside)
    exact ⟨toNat_byte (by omega), range⟩
  have every : (decimalText n).all isDigit = true := by
    rw [decimalText, List.all_map, List.all_eq_true]
    intro c inside
    obtain ⟨byte, low, high⟩ := digit inside
    simp only [Function.comp_apply, isDigit, Bool.and_eq_true, decide_eq_true_eq,
      UInt8.le_iff_toNat_le, byte]
    exact ⟨low, high⟩
  have value : number 10 ((decimalText n).map digitVal) = n := by
    rw [decimalText, List.map_map]
    refine Eq.trans ?_ (Nat.ofDigitChars_ten_toDigits (n := n))
    rw [Nat.ofDigitChars_eq_foldl, number, List.foldl_map]
    refine List.foldl_ext _ _ _ fun sofar c inside => ?_
    rw [Function.comp_apply, digitVal, (digit inside).1, Nat.mul_comm]
    rfl
  have nonempty : decimalText n ≠ [] := by simp [decimalText, Nat.toDigits_ne_nil]
  rw [cInteger]
  by_cases zero : n = 0
  · subst zero
    rfl
  · have head : (decimalText n).head? ≠ some 48 := by
      rw [decimalText, List.head?_map]
      intro same
      obtain ⟨c, first, byte⟩ := Option.map_eq_some_iff.mp same
      have code := (digit (List.mem_of_head? first)).1
      rw [byte] at code
      obtain rfl : c = '0' := Char.toNat_inj.mp code.symm
      exact toDigits_head (Nat.pos_of_ne_zero zero) first
    rw [if_neg, if_pos ⟨nonempty, head, every⟩, value]
    intro same
    rw [same] at head
    exact head rfl

end Integers

/-! ## Chars -/

/-- The scalar of a char literal. -/
theorem charScalar_eq {src text after : List UInt8} {bstart : Nat} {c : Char}
    (spelled : Piece [39, 92] text c) (here : src.drop bstart = text ++ after) :
    charScalar src bstart = c.toNat := by
  cases spelled with
  | plain free =>
      simp only [List.mem_cons, List.not_mem_nil, or_false, not_or] at free
      by_cases small : c.toNat ≤ 127
      · have value := toNat_byte (show c.toNat < 256 by omega)
        have tick : UInt8.ofNat c.toNat ≠ 39 :=
          ne_byte (n := 39) (by rw [value]; exact free.1) (by decide)
        have slash : UInt8.ofNat c.toNat ≠ 92 :=
          ne_byte (n := 92) (by rw [value]; exact free.2) (by decide)
        have low : UInt8.ofNat c.toNat < 128 := by
          rw [UInt8.lt_iff_toNat_lt, value]
          exact Nat.lt_succ_of_le small
        rw [charScalar, here, encode_ascii (Nat.lt_succ_of_le small)]
        simp only [List.singleton_append, tick, slash, low, if_false, if_true, value]
      · obtain ⟨b, more, wide⟩ := wide_of_large small
        have size := wide.high b List.mem_cons_self
        have tick : b ≠ 39 := ne_byte (n := 39) (by omega) (by decide)
        have slash : b ≠ 92 := ne_byte (n := 92) (by omega) (by decide)
        have high : ¬ b < 128 := by
          rw [UInt8.lt_iff_toNat_lt]
          exact Nat.not_lt_of_le size
        rw [charScalar, here, wide.bytes]
        simp only [List.cons_append, tick, slash, high, if_false, wide.decoded]
  | @escape text c escaped =>
      have scanned : scanEscape (text ++ after) = ⟨after, .ok c.toNat⟩ :=
        scanEscape_ok.mpr ⟨text, c, rfl, escaped, rfl⟩
      have tick : (92 : UInt8) ≠ 39 := by decide
      rw [charScalar, here]
      simp only [List.cons_append, tick, if_false, if_true, scanned]

/-! ## Floats -/

section Floats

variable {text : List UInt8} {digits : List Nat}

/-- Digits without separators are digits of C, with the same values. -/
theorem Digits.plain (spelled : Digits 10 text digits) (clean : 95 ∉ text) :
    text.all isDigit = true ∧ text.map digitVal = digits := by
  induction spelled with
  | nil => exact ⟨rfl, rfl⟩
  | separator others ih => exact absurd List.mem_cons_self clean
  | @digit b text digit digits known small others ih =>
      obtain ⟨every, values⟩ := ih fun inside => clean (List.mem_cons_of_mem _ inside)
      have decimal : isDigit b = true := by
        have inside := (isDigitOf_iff 10 (.inr (.inl rfl)) b).mpr ⟨digit, known, small⟩
        simpa [isDigitOf] using inside
      have value : digitVal b = digit := by
        rw [hexVal] at known
        split_ifs at known with low
        all_goals
          rw [Option.some.injEq] at known
          simp only [digitVal]
          omega
      exact ⟨by rw [List.all_cons, decimal, every]; rfl, by rw [List.map_cons, value, values]⟩

theorem cDigits_plain (spelled : Digits 10 text digits) (nonempty : digits ≠ [])
    (clean : 95 ∉ text) : cDigits text = some (number 10 digits) := by
  obtain ⟨every, values⟩ := spelled.plain clean
  have nonempty' : text ≠ [] := by
    rintro rfl
    cases spelled
    exact nonempty rfl
  rw [cDigits, if_pos ⟨nonempty', every⟩, values]

theorem cExponent_plain {power : Int} (scaled : Exponent text power) (clean : 95 ∉ text) :
    cExponent text = some power := by
  cases scaled with
  | absent => rfl
  | @bare marker text digits mark spelled nonempty =>
      have clean' : 95 ∉ text := fun inside => clean (List.mem_cons_of_mem _ inside)
      obtain ⟨every, -⟩ := spelled.plain clean'
      have read := cDigits_plain spelled nonempty clean'
      cases text with
      | nil => cases read
      | cons sign rest =>
          have digit : isDigit sign = true := by
            rw [List.all_cons, Bool.and_eq_true] at every
            exact every.1
          have plus : sign ≠ 43 := by
            rintro rfl
            cases digit
          have minus : sign ≠ 45 := by
            rintro rfl
            cases digit
          rw [cExponent, if_pos mark]
          simp only [plus, minus, if_false, read, Option.map_some]
          rfl
  | @plus marker text digits mark spelled nonempty =>
      have clean' : 95 ∉ text := fun inside =>
        clean (List.mem_cons_of_mem _ (List.mem_cons_of_mem _ inside))
      rw [cExponent, if_pos mark]
      simp only [if_true, cDigits_plain spelled nonempty clean', Option.map_some]
      rfl
  | @minus marker text digits mark spelled nonempty =>
      have clean' : 95 ∉ text := fun inside =>
        clean (List.mem_cons_of_mem _ (List.mem_cons_of_mem _ inside))
      have apart : (45 : UInt8) ≠ 43 := by decide
      rw [cExponent, if_pos mark]
      simp only [apart, if_false, if_true, cDigits_plain spelled nonempty clean', Option.map_some]

/-- A run of digits up to a byte that is none. -/
theorem span_digits {front : List UInt8} (rest : List UInt8) (every : front.all isDigit = true)
    (stops : rest.head?.all (fun b => !isDigit b) = true) :
    (front ++ rest).takeWhile isDigit = front ∧ (front ++ rest).dropWhile isDigit = rest := by
  rw [List.takeWhile_append_of_pos (List.all_eq_true.mp every),
    List.dropWhile_append_of_pos (List.all_eq_true.mp every)]
  cases rest with
  | nil => exact ⟨List.append_nil front, rfl⟩
  | cons b rest =>
      have no : ¬ isDigit b = true := by simpa using stops
      rw [List.takeWhile_cons_of_neg no, List.dropWhile_cons_of_neg no, List.append_nil]
      exact ⟨rfl, rfl⟩

/-- A float without separators is a floating constant of C, and of the same value. -/
theorem cFloat_plain {value : Rat} (denotes : Denotes .float text (.float value))
    (clean : 95 ∉ text) : cFloat text = some value := by
  cases denotes with
  | @float whole frac exponent wholeDigits fracDigits power before nonempty after nonempty' scaled =>
      simp only [List.mem_append, List.mem_cons, not_or] at clean
      obtain ⟨every, values⟩ := before.plain clean.1
      obtain ⟨every', values'⟩ := after.plain clean.2.2.1
      have stops : exponent.head?.all (fun b => !isDigit b) = true := by
        cases scaled with
        | absent => rfl
        | bare mark _ _ => rcases mark with rfl | rfl <;> rfl
        | plus mark _ _ => rcases mark with rfl | rfl <;> rfl
        | minus mark _ _ => rcases mark with rfl | rfl <;> rfl
      obtain ⟨take, drop⟩ := span_digits (46 :: (frac ++ exponent)) every rfl
      obtain ⟨take', drop'⟩ := span_digits exponent every' stops
      have some' : ¬ (whole = [] ∧ frac = []) := by
        rintro ⟨rfl, -⟩
        cases before
        exact nonempty rfl
      simp only [cFloat, drop, if_true, take, take', drop', if_neg some',
        cExponent_plain scaled clean.2.2.2, Option.map_some, values, values']

theorem cDigits_clean {text : CString} {n : Nat} (read : cDigits text = some n) : 95 ∉ text := by
  rw [cDigits] at read
  split_ifs at read with digits
  intro inside
  cases List.all_eq_true.mp digits.2 95 inside

theorem cExponent_clean {text : CString} {power : Int} (read : cExponent text = some power) :
    95 ∉ text := by
  cases text with
  | nil => exact List.not_mem_nil
  | cons marker rest =>
      cases rest with
      | nil =>
          rw [cExponent] at read
          split_ifs at read
      | cons sign digits =>
          rw [cExponent] at read
          split_ifs at read with mark plus minus
          all_goals have apart : (95 : UInt8) ≠ marker := by rcases mark with rfl | rfl <;> decide
          · obtain ⟨n, digits', -⟩ := Option.map_eq_some_iff.mp read
            simp only [List.mem_cons, apart, plus, cDigits_clean digits', or_false, false_or]
            decide
          · obtain ⟨n, digits', -⟩ := Option.map_eq_some_iff.mp read
            simp only [List.mem_cons, apart, minus, cDigits_clean digits', or_false, false_or]
            decide
          · obtain ⟨n, digits', -⟩ := Option.map_eq_some_iff.mp read
            have clean := cDigits_clean digits'
            simp only [List.mem_cons, apart, false_or] at clean ⊢
            exact clean

/-- No floating constant of C holds an underscore. -/
theorem cFloat_clean {text : CString} {value : Rat} (read : cFloat text = some value) :
    95 ∉ text := by
  have run (bytes : List UInt8) : 95 ∉ bytes.takeWhile isDigit := by
    intro inside
    cases List.all_eq_true.mp List.all_takeWhile 95 inside
  have whole := List.takeWhile_append_dropWhile (p := isDigit) (l := text)
  rw [cFloat] at read
  simp only at read
  split at read
  · cases read
  · rename_i b rest tail
    rw [← whole, tail]
    split_ifs at read with point empty empty
    · obtain ⟨power, exponent, -⟩ := Option.map_eq_some_iff.mp read
      have split := List.takeWhile_append_dropWhile (p := isDigit) (l := rest)
      rw [← split]
      have apart : (95 : UInt8) ≠ b := by rw [point]; decide
      simp only [List.mem_append, List.mem_cons, apart, run, cExponent_clean exponent, or_self,
        not_false_iff]
    · obtain ⟨power, exponent, -⟩ := Option.map_eq_some_iff.mp read
      simp only [List.mem_append, run, cExponent_clean exponent, or_self, not_false_iff]

end Floats

/-! ## Every literal -/

section Tokens

variable {src : List UInt8} {t : Token} {want : Option Ty} {lit : Lit}

/-- The source from a span on. -/
theorem drop_of_slice (lo hi : Nat) (nonempty : slice src lo hi ≠ []) :
    src.drop lo = slice src lo hi ++ src.drop hi := by
  have inside : lo ≤ (src.take hi).length := by
    by_contra past
    exact nonempty (List.drop_eq_nil_of_le (Nat.le_of_not_le past))
  rw [slice, ← List.drop_append_of_le_length inside, List.take_append_drop]

theorem Denotes.of_int {text : CString} {value : Value} (denotes : Denotes .int text value) :
    ∃ n, value = .int n := by
  cases denotes <;> exact ⟨_, rfl⟩

theorem Denotes.of_float {text : CString} {value : Value} (denotes : Denotes .float text value) :
    ∃ q, value = .float q := by
  cases denotes
  exact ⟨_, rfl⟩

theorem Denotes.of_str {text : CString} {value : Value} (denotes : Denotes .str text value) :
    ∃ chars, value = .str chars := by
  cases denotes
  exact ⟨_, rfl⟩

theorem Denotes.of_char {text : CString} {value : Value} (denotes : Denotes .char text value) :
    ∃ c, value = .char c := by
  cases denotes
  exact ⟨_, rfl⟩

/-- The mark of another base is no decimal digit. -/
theorem Digits.no_marker {marker : UInt8} {rest : List UInt8} {digits : List Nat}
    (spelled : Digits 10 (48 :: marker :: rest) digits) (mark : marker = 120 ∨ marker = 98) :
    False := by
  rcases spelled.mem (List.mem_cons_of_mem _ List.mem_cons_self) with same | ⟨digit, known, small⟩
  · rcases mark with rfl | rfl <;> cases same
  · rcases mark with rfl | rfl
    · cases known
    · cases known
      exact absurd small (by decide)

/-- The digits behind the mark of a base. -/
theorem Denotes.of_radix {base value : Nat} {marker : UInt8} {text : CString}
    (known : base = 2 ∧ marker = 98 ∨ base = 16 ∧ marker = 120)
    (denotes : Denotes .int (48 :: marker :: text) (.int value)) :
    ∃ digits, Digits base text digits ∧ digits ≠ [] ∧ value = number base digits := by
  cases denotes with
  | decimal spelled nonempty =>
      rcases known with ⟨-, mark⟩ | ⟨-, mark⟩
      · exact (spelled.no_marker (.inr mark)).elim
      · exact (spelled.no_marker (.inl mark)).elim
  | hex spelled nonempty =>
      rcases known with ⟨-, mark⟩ | ⟨rfl, -⟩
      · cases mark
      · exact ⟨_, spelled, nonempty, rfl⟩
  | binary spelled nonempty =>
      rcases known with ⟨rfl, -⟩ | ⟨-, mark⟩
      · exact ⟨_, spelled, nonempty, rfl⟩
      · cases mark

theorem Denotes.int_unique {text : CString} {value value' : Nat}
    (first : Denotes .int text (.int value)) (second : Denotes .int text (.int value')) :
    value = value' := by
  cases first with
  | decimal spelled nonempty =>
      cases second with
      | decimal spelled' nonempty' => rw [spelled.unique spelled']
      | hex spelled' nonempty' => exact (spelled.no_marker (.inl rfl)).elim
      | binary spelled' nonempty' => exact (spelled.no_marker (.inr rfl)).elim
  | hex spelled nonempty =>
      obtain ⟨digits, spelled', -, same⟩ := second.of_radix (.inr ⟨rfl, rfl⟩)
      rw [same, spelled.unique spelled']
  | binary spelled nonempty =>
      obtain ⟨digits, spelled', -, same⟩ := second.of_radix (.inl ⟨rfl, rfl⟩)
      rw [same, spelled.unique spelled']

/-- An integer keeps its value, whatever integer type is expected. -/
theorem int_kept {value : Nat} (kind : t.kind = .int)
    (denotes : Denotes t.kind (t.text src) (.int value)) (fits : value ≤ intMax)
    (parsed : parseLiteral src t = some lit) (checks : checksAt want lit) :
    Stores (.int value) (genLiteral want lit) := by
  rw [kind] at denotes
  simp only [parseLiteral, kind, Option.some.injEq] at parsed
  subst parsed
  rw [intValue_eq denotes fits] at checks ⊢
  refine ⟨cInteger_decimalText value, ?_⟩
  have large : intMax ≤ 18446744073709551615 := by decide
  have byte : memberMax (ascii "b") = 255 := by decide
  have uint : memberMax (ascii "u") = 18446744073709551615 := by decide
  have int : memberMax (ascii "i") = intMax := by decide
  unfold intMember
  split
  · rw [uint]
    exact fits.trans large
  · rw [byte]
    exact checks
  · rw [int]
    exact fits

/-- The interned body of a string token. -/
theorem str_body {value : List Char} {text : CString} (kind : t.kind = .str)
    (denotes : Denotes t.kind (t.text src) (.str value))
    (parsed : parseLiteral src t = some (.str text)) : text = body value := by
  rw [kind] at denotes
  simp only [parseLiteral, kind, Option.some.injEq, Lit.str.injEq] at parsed
  generalize spelling : t.text src = whole at denotes
  cases denotes with
  | @str inner _ spelled =>
      rw [← parsed]
      refine stringBody_eq spelled ?_ rfl
      rw [drop_of_slice t.lo t.hi (by
        rw [show slice src t.lo t.hi = _ from spelling]
        exact List.cons_ne_nil _ _)]
      rw [show slice src t.lo t.hi = _ from spelling]

theorem char_kept {c : Char} (kind : t.kind = .char)
    (denotes : Denotes t.kind (t.text src) (.char c)) (parsed : parseLiteral src t = some lit) :
    Stores (.char c) (genLiteral want lit) := by
  rw [kind] at denotes
  simp only [parseLiteral, kind, Option.some.injEq] at parsed
  subst parsed
  generalize spelling : t.text src = whole at denotes
  cases denotes with
  | @char inner _ spelled =>
      have here : src.drop (t.lo + 1) = inner ++ ([39] ++ src.drop t.hi) := by
        rw [← List.drop_drop, drop_of_slice t.lo t.hi (by
          rw [show slice src t.lo t.hi = _ from spelling]
          exact List.cons_ne_nil _ _), show slice src t.lo t.hi = _ from spelling]
        simp
      rw [charScalar_eq spelled here]
      exact cInteger_decimalText c.toNat

/-- A literal keeps its value exactly when it is no float with a separator. -/
theorem kept_iff (literal : Literal t.kind (t.text src)) (kind : t.kind.isLiteral = true)
    (parsed : parseLiteral src t = some lit) (checks : checksAt want lit) :
    Kept src want t lit ↔ (t.kind = .float → 95 ∉ t.text src) := by
  obtain ⟨value, denotes, fits⟩ := literal kind
  constructor
  · rintro ⟨-, stores⟩ float
    have stored := stores value denotes
    rw [float] at denotes
    simp only [parseLiteral, float, Option.some.injEq] at parsed
    subst parsed
    obtain ⟨q, rfl⟩ := denotes.of_float
    exact cFloat_clean stored
  · intro clean
    refine ⟨⟨value, denotes⟩, fun value' denotes' => ?_⟩
    cases kind' : t.kind with
    | int =>
        have first := denotes
        have second := denotes'
        rw [kind'] at first second
        obtain ⟨n, rfl⟩ := first.of_int
        obtain ⟨n', rfl⟩ := second.of_int
        obtain rfl := Denotes.int_unique first second
        exact int_kept kind' denotes' fits parsed checks
    | float =>
        rw [kind'] at denotes'
        obtain ⟨q, rfl⟩ := denotes'.of_float
        simp only [parseLiteral, kind', Option.some.injEq] at parsed
        subst parsed
        exact cFloat_plain denotes' (clean kind')
    | str =>
        have second := denotes'
        rw [kind'] at second
        obtain ⟨chars, rfl⟩ := second.of_str
        obtain ⟨inner, rfl⟩ : ∃ inner, lit = .str inner := by
          simp only [parseLiteral, kind', Option.some.injEq] at parsed
          exact ⟨_, parsed.symm⟩
        obtain rfl := str_body kind' denotes' parsed
        obtain ⟨bytes, len⟩ := cgCString_body chars
        exact ⟨bytes, by rw [← len]; exact cInteger_decimalText _⟩
    | char =>
        have second := denotes'
        rw [kind'] at second
        obtain ⟨c, rfl⟩ := second.of_char
        exact char_kept kind' denotes' parsed
    | _ =>
        rw [kind'] at kind
        cases kind

end Tokens

/-- In a source that is accepted, every literal token keeps its value but the floats whose
text holds an underscore; and two strings are interned under one id, whatever else is
interned, exactly when they are equal. -/
theorem literals_kept_iff (chars : List Char) (accepted : (lex (encode chars)).errors = []) :
    (∀ t ∈ (lex (encode chars)).tokens, t.kind.isLiteral = true →
      ∀ want lit, parseLiteral (encode chars) t = some lit → checksAt want lit →
        (Kept (encode chars) want t lit ↔
          (t.kind = .float → 95 ∉ t.text (encode chars)))) ∧
    (∀ t ∈ (lex (encode chars)).tokens, ∀ t' ∈ (lex (encode chars)).tokens,
      ∀ text text' value value',
        parseLiteral (encode chars) t = some (.str text) →
        parseLiteral (encode chars) t' = some (.str text') →
        Denotes .str (t.text (encode chars)) (.str value) →
        Denotes .str (t'.text (encode chars)) (.str value') →
        ∀ (names : List CString) (i j : Nat), names[i]? = some text → names[j]? = some text' →
          ((Interner.internAll [] names)[i]? = (Interner.internAll [] names)[j]? ↔
            value = value')) := by
  have literals := lex_literals ⟨chars, rfl⟩ accepted
  refine ⟨fun t inside kind want lit parsed checks => ?_, ?_⟩
  · exact kept_iff (literals t inside).2 kind parsed checks
  · intro t _ t' _ text text' value value' parsed parsed' denotes denotes' names i j here there
    have kind {t : Token} {text : CString}
        (parsed : parseLiteral (encode chars) t = some (.str text)) : t.kind = .str := by
      rw [parseLiteral] at parsed
      split at parsed <;> simp_all
    obtain rfl := str_body (kind parsed) (kind parsed ▸ denotes) parsed
    obtain rfl := str_body (kind parsed') (kind parsed' ▸ denotes') parsed'
    rw [Interner.internAll_inj here there]
    exact body_inj

/-- A source of one token. -/
theorem lex_one {src : List UInt8} {c : UInt8} {more : List UInt8} {mid : Lexer}
    (shape : src = c :: more) (first : (lxNew src).triviaTurn = .stop (lxNew src))
    (scanned : (lxNew src).scanToken c = mid) (ended : mid.rest = []) :
    lex src = mid.push .eof mid.pos := by
  have skip : (lxNew src).skipTrivia = lxNew src := Lexer.triviaLoop.run_stop first
  have stops : mid.triviaTurn = .stop mid := by rw [Lexer.triviaTurn, ended]
  have skip' : mid.skipTrivia = mid := Lexer.triviaLoop.run_stop stops
  have turn : (lxNew src).lexTurn = .again mid := by
    rw [Lexer.lexTurn, skip, show (lxNew src).rest = c :: more from shape]
    exact congrArg _ scanned
  have last : mid.lexTurn = .stop (mid.push .eof mid.pos) := by
    rw [Lexer.lexTurn, skip', ended]
  rw [lex, Lexer.lexRun, Lexer.lexLoop.run_again turn, Lexer.lexLoop.run_stop last]

/-- `2.5` as a source. -/
def half : List Char := ['2', '.', '5']

theorem lex_half : (lex (encode half)).errors = [] ∧
    (lex (encode half)).tokens = [⟨.float, 0, 3, false⟩, ⟨.eof, 3, 3, false⟩] := by
  have bytes : encode half = [50, 46, 53] := by decide
  have scanned : (lxNew (encode half)).scanToken 50 =
      ⟨3, [], false, [⟨.float, 0, 3, false⟩], []⟩ := by
    rw [bytes]
    rfl
  rw [lex_one bytes (by rw [bytes]; rfl) scanned rfl]
  exact ⟨rfl, rfl⟩

theorem half_kept : Kept (encode half) none ⟨.float, 0, 3, false⟩ (.float [50, 46, 53]) :=
  ((literals_kept_iff half lex_half.1).1 ⟨.float, 0, 3, false⟩
    (by rw [lex_half.2]; exact List.mem_cons_self) rfl none (.float [50, 46, 53]) (by decide)
    trivial).mpr fun _ => by decide

/-- `10_000.000_1` as a source. -/
def separated : List Char :=
  ['1', '0', '_', '0', '0', '0', '.', '0', '0', '0', '_', '1']

theorem lex_separated : (lex (encode separated)).errors = [] ∧
    (lex (encode separated)).tokens = [⟨.float, 0, 12, false⟩, ⟨.eof, 12, 12, false⟩] := by
  have bytes : encode separated = [49, 48, 95, 48, 48, 48, 46, 48, 48, 48, 95, 49] := by decide
  have scanned : (lxNew (encode separated)).scanToken 49 =
      ⟨12, [], false, [⟨.float, 0, 12, false⟩], []⟩ := by
    rw [bytes]
    rfl
  rw [lex_one bytes (by rw [bytes]; rfl) scanned rfl]
  exact ⟨rfl, rfl⟩

/-- The lexer and the checker accept `10_000.000_1`, and the C text for it is no constant. -/
theorem separated_float_lost :
    ¬ ∀ chars, (lex (encode chars)).errors = [] →
      ∀ t ∈ (lex (encode chars)).tokens, t.kind.isLiteral = true →
        ∀ want lit, parseLiteral (encode chars) t = some lit → checksAt want lit →
          Kept (encode chars) want t lit := by
  intro every
  have kept := every separated lex_separated.1 ⟨.float, 0, 12, false⟩
    (by rw [lex_separated.2]; exact List.mem_cons_self) rfl none
    (.float [49, 48, 95, 48, 48, 48, 46, 48, 48, 48, 95, 49]) (by decide) trivial
  obtain ⟨⟨value, denotes⟩, stores⟩ := kept
  have stored := stores value denotes
  obtain ⟨q, rfl⟩ := denotes.of_float
  have unread : cFloat [49, 48, 95, 48, 48, 48, 46, 48, 48, 48, 95, 49] = none := rfl
  rw [show cFloat [49, 48, 95, 48, 48, 48, 46, 48, 48, 48, 95, 49] = some q from stored] at unread
  cases unread

end Geas.Compiler.Lexing
