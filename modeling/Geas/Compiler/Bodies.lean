import Geas.Compiler.Spelling
import Mathlib.Tactic.Ring

/-!
# String bodies

A string goes through four codecs.  The parser decodes its spelling and writes it again
in a canonical form of printable ASCII, which is what is interned; the emitter decodes
that form to bytes and spells them as a C string literal.  A C compiler reads the bytes
of the string's characters back.
-/

namespace Geas.Compiler.Lexing

open Geas.Lib
open Geas.Runtime (CString ascii)

/-! ## The canonical form -/

/-- How many hex digits a number has: the first loop of `push_hex_min`. -/
def nibbles (v : Nat) : Nat := if 16 ≤ v then nibbles (v / 16) + 1 else 1

/-- The character of a hex digit. -/
def hexChar (d : Nat) : UInt8 := UInt8.ofNat (if 10 ≤ d then 87 + d else 48 + d)

/-- `push_hex_min`. -/
def hexMin (v : Nat) : CString :=
  if v = 0 then [48]
  else (List.range (nibbles v)).reverse.map fun i => hexChar ((v >>> (4 * i)) &&& 15)

/-- `push_canonical`. -/
def canonical (cp quote : Nat) : CString :=
  if cp = 92 then [92, 92]
  else if cp = quote then [92, UInt8.ofNat cp]
  else if 32 ≤ cp ∧ cp ≤ 126 then [UInt8.ofNat cp]
  else [92, 117, 123] ++ (hexMin cp ++ [125])

/-- A decoder on its way: what is left, and what it has put out. -/
structure Decoding where
  left : List UInt8
  out : CString

/-- A turn of `debug_string`; `beyond` bytes follow the literal. -/
def debugTurn (beyond : Nat) (d : Decoding) : Round Decoding CString :=
  if d.left.length ≤ beyond then .stop d.out
  else
    match d.left with
    | [] => .stop d.out
    | b :: rest =>
        if b = 34 then .stop d.out
        else if b = 92 then
          let res := scanEscape rest
          match res.outcome with
          | .ok scalar => .again ⟨res.next, d.out ++ canonical scalar 34⟩
          | .error _ => .again ⟨res.next, d.out⟩
        else if b < 128 then .again ⟨rest, d.out ++ canonical b.toNat 34⟩
        else
          let decoded := decodeUtf8 b rest
          .again ⟨(b :: rest).drop decoded.len, d.out ++ canonical decoded.scalar 34⟩

theorem decodeUtf8_len (b : UInt8) (rest : List UInt8) : 0 < (decodeUtf8 b rest).len := by
  rw [decodeUtf8]
  split_ifs
  all_goals simp

/-- The loop of `debug_string`. -/
def debugLoop (beyond : Nat) : Loop Decoding CString where
  turn := debugTurn beyond
  size d := d.left.length
  shrinks d next turned := by
    rw [debugTurn] at turned
    split at turned
    · cases turned
    · cases shape : d.left with
      | nil =>
          rw [shape] at turned
          cases turned
      | cons b rest =>
          have shorter := (scanEscape_suffix rest).length_le
          have forward := decodeUtf8_len b rest
          simp only [shape] at turned
          split_ifs at turned
          · split at turned
            · cases turned
              exact Nat.lt_succ_of_le shorter
            · cases turned
              exact Nat.lt_succ_of_le shorter
          · cases turned
            exact Nat.lt_succ_self _
          · cases turned
            simp only [List.length_drop, List.length_cons]
            omega

/-- `debug_string`. -/
def debugString (src : List UInt8) (lo hi : Nat) : CString :=
  [34] ++ (debugLoop (src.length - hi)).run ⟨src.drop (lo + 1), []⟩ ++ [34]

/-- `p_string_body_id`: the body that is interned. -/
def stringBody (src : List UInt8) (lo hi : Nat) : CString :=
  let q := debugString src lo hi
  slice q 1 (q.length - 1)

/-! ## The bytes -/

/-- The digits of an escape in `decode_body`, up to its brace. -/
def decodeHex (cp : Nat) : List UInt8 → Nat × List UInt8
  | [] => (cp, [])
  | d :: rest =>
      if d = 125 then (cp, rest)
      else decodeHex (cp * 16 + if 97 ≤ d.toNat then d.toNat - 87 else d.toNat - 48) rest

theorem decodeHex_length (bytes : List UInt8) (cp : Nat) :
    (decodeHex cp bytes).2.length ≤ bytes.length := by
  induction bytes generalizing cp with
  | nil => exact Nat.le_refl _
  | cons d rest ih =>
      rw [decodeHex]
      split
      · exact Nat.le_succ _
      · exact (ih _).trans (Nat.le_succ _)

/-- A turn of `decode_body`; the terminator stands behind the last byte. -/
def decodeTurn (d : Decoding) : Round Decoding CString :=
  match d.left with
  | [] => .stop d.out
  | [b] => .stop (d.out ++ [if b = 92 then 0 else b])
  | b :: e :: rest =>
      if b = 92 then
        if e = 117 then
          let hex := decodeHex 0 (rest.drop 1)
          .again ⟨hex.2, d.out ++ pushUtf8 hex.1⟩
        else if e = 110 then .again ⟨rest, d.out ++ [10]⟩
        else if e = 116 then .again ⟨rest, d.out ++ [9]⟩
        else if e = 114 then .again ⟨rest, d.out ++ [13]⟩
        else if e = 48 then .again ⟨rest, d.out ++ [0]⟩
        else .again ⟨rest, d.out ++ [e]⟩
      else .again ⟨e :: rest, d.out ++ [b]⟩

/-- The loop of `decode_body`. -/
def decodeLoop : Loop Decoding CString where
  turn := decodeTurn
  size d := d.left.length
  shrinks d next turned := by
    rw [decodeTurn] at turned
    split at turned
    · cases turned
    · cases turned
    · rename_i b e rest shape
      rw [shape]
      have shorter := decodeHex_length (rest.drop 1) 0
      simp only [List.length_drop] at shorter
      split_ifs at turned <;> cases turned <;> simp only [List.length_cons] <;> omega

/-- `decode_body`. -/
def decodeBody (body : CString) : List UInt8 := decodeLoop.run ⟨body, []⟩

/-! ## The C literal -/

/-- `push_c_byte`. -/
def pushCByte (v : UInt8) : CString :=
  if v = 34 then [92, 34]
  else if v = 92 then [92, 92]
  else if 32 ≤ v.toNat ∧ v.toNat ≤ 126 then [v]
  else
    [92, UInt8.ofNat (48 + ((v.toNat >>> 6) &&& 7)), UInt8.ofNat (48 + ((v.toNat >>> 3) &&& 7)),
      UInt8.ofNat (48 + (v.toNat &&& 7))]

/-- `CStr`. -/
structure CStr where
  lit : CString
  len : Nat

/-- `cg_c_string`. -/
def cgCString (body : CString) : CStr :=
  let raw := decodeBody body
  ⟨[34] ++ raw.flatMap pushCByte ++ [34], raw.length⟩

/-! ## C's reading of a string literal -/

/-- The simple escapes of C. -/
def cEscapes : List (UInt8 × UInt8) :=
  [(39, 39), (34, 34), (63, 63), (92, 92), (97, 7), (98, 8), (102, 12), (110, 10), (114, 13),
    (116, 9), (118, 11)]

/-- An octal digit. -/
def isOctal (b : UInt8) : Bool := 48 ≤ b && b ≤ 55

/-- What stands behind a backslash: a simple escape, or one to three octal digits whose
value a byte holds. -/
def cEscape : List UInt8 → Option (UInt8 × List UInt8)
  | [] => none
  | e :: rest =>
      match cEscapes.lookup e with
      | some byte => some (byte, rest)
      | none =>
          let digits := ((e :: rest).take 3).takeWhile isOctal
          let value := number 8 (digits.map fun d => d.toNat - 48)
          if digits ≠ [] ∧ value ≤ 255 then
            some (UInt8.ofNat value, (e :: rest).drop digits.length)
          else none

/-- One element of a string literal: a printable character or an escape. -/
def cElement (b : UInt8) (rest : List UInt8) : Option (UInt8 × List UInt8) :=
  if b = 92 then cEscape rest
  else if 32 ≤ b.toNat ∧ b.toNat ≤ 126 then some (b, rest)
  else none

theorem cElement_length {b byte : UInt8} {rest after : List UInt8}
    (read : cElement b rest = some (byte, after)) : after.length ≤ rest.length := by
  rw [cElement] at read
  split_ifs at read with slash printable
  · cases rest with
    | nil => cases read
    | cons e rest =>
        rw [cEscape] at read
        split at read
        · cases read
          exact Nat.le_succ _
        · dsimp only at read
          split_ifs at read
          cases read
          exact (List.drop_sublist _ _).length_le
  · cases read
    exact Nat.le_refl _

/-- A turn of the reading: the closing quote has to be the last byte. -/
def cStringTurn (d : Decoding) : Round Decoding (Option (List UInt8)) :=
  match d.left with
  | [] => .stop none
  | b :: rest =>
      if b = 34 then .stop (if rest = [] then some d.out else none)
      else
        match cElement b rest with
        | some (byte, after) => .again ⟨after, d.out ++ [byte]⟩
        | none => .stop none

def cStringLoop : Loop Decoding (Option (List UInt8)) where
  turn := cStringTurn
  size d := d.left.length
  shrinks d next turned := by
    rw [cStringTurn] at turned
    split at turned
    · cases turned
    · rename_i b rest shape
      rw [shape]
      split_ifs at turned
      split at turned
      · rename_i read
        cases turned
        exact Nat.lt_succ_of_le (cElement_length read)
      · cases turned

/-- The bytes a C string literal denotes, without its terminator. -/
def cString : CString → Option (List UInt8)
  | [] => none
  | b :: rest => if b = 34 then cStringLoop.run ⟨rest, []⟩ else none

/-! ## Into the canonical form -/

/-- The canonical body of a string. -/
def body (value : List Char) : CString := value.flatMap fun c => canonical c.toNat 34

@[simp] theorem body_nil : body [] = [] := rfl

@[simp] theorem body_cons (c : Char) (value : List Char) :
    body (c :: value) = canonical c.toNat 34 ++ body value := rfl

section Debug

variable {beyond : Nat} {rest text : List UInt8} {out : CString} {c : Char}

theorem ne_byte {b : UInt8} {n : Nat} (differs : b.toNat ≠ n) (small : n < 256) :
    b ≠ UInt8.ofNat n := by
  rintro rfl
  exact differs (toNat_byte small)

/-- A character that stands for itself. -/
theorem debugLoop_plain (free : c.toNat ∉ [10, 34, 92]) (inside : beyond ≤ rest.length) :
    (debugLoop beyond).run ⟨String.utf8EncodeChar c ++ rest, out⟩ =
      (debugLoop beyond).run ⟨rest, out ++ canonical c.toNat 34⟩ := by
  simp only [List.mem_cons, List.not_mem_nil, or_false, not_or] at free
  apply (debugLoop beyond).run_again
  by_cases small : c.toNat ≤ 127
  · have one := encode_ascii (Nat.lt_succ_of_le small)
    have value := toNat_byte (show c.toNat < 256 by omega)
    have low : UInt8.ofNat c.toNat < 128 := by
      rw [UInt8.lt_iff_toNat_lt, value]
      exact Nat.lt_succ_of_le small
    have long : ¬ ([UInt8.ofNat c.toNat] ++ rest).length ≤ beyond := by
      simp only [List.length_append, List.length_singleton]
      omega
    have quote : UInt8.ofNat c.toNat ≠ 34 :=
      ne_byte (n := 34) (by rw [value]; exact free.2.1) (by decide)
    have slash : UInt8.ofNat c.toNat ≠ 92 :=
      ne_byte (n := 92) (by rw [value]; exact free.2.2) (by decide)
    change debugTurn beyond _ = _
    rw [one, debugTurn, if_neg long]
    simp only [List.singleton_append]
    rw [if_neg quote, if_neg slash, if_pos low, value]
  · obtain ⟨b, more, wide⟩ := wide_of_large small
    have size := wide.high b List.mem_cons_self
    have high : ¬ b < 128 := by
      rw [UInt8.lt_iff_toNat_lt]
      exact Nat.not_lt_of_le size
    have long : ¬ (b :: more ++ rest).length ≤ beyond := by
      simp only [List.length_append, List.length_cons]
      omega
    have quote : b ≠ 34 := ne_byte (n := 34) (by omega) (by decide)
    have slash : b ≠ 92 := ne_byte (n := 92) (by omega) (by decide)
    change debugTurn beyond _ = _
    rw [wide.bytes, debugTurn, if_neg long]
    simp only [List.cons_append]
    rw [if_neg quote, if_neg slash, if_neg high, wide.decoded rest, List.drop_succ_cons,
      List.drop_left]

/-- A character that is escaped. -/
theorem debugLoop_escape (escaped : Escaped text c) (inside : beyond ≤ rest.length) :
    (debugLoop beyond).run ⟨92 :: text ++ rest, out⟩ =
      (debugLoop beyond).run ⟨rest, out ++ canonical c.toNat 34⟩ := by
  have scanned : scanEscape (text ++ rest) = ⟨rest, .ok c.toNat⟩ :=
    scanEscape_ok.mpr ⟨text, c, rfl, escaped, rfl⟩
  have long : ¬ (92 :: text ++ rest).length ≤ beyond := by
    simp only [List.length_append, List.length_cons]
    omega
  apply (debugLoop beyond).run_again
  change debugTurn beyond _ = _
  rw [debugTurn, if_neg long]
  simp only [List.cons_append]
  rw [if_neg (by decide), if_pos trivial, scanned]

/-- The body of a string is written again in its canonical form. -/
theorem debugLoop_spells {value : List Char} (spelled : Spells text value)
    (after : List UInt8) (out : CString) :
    (debugLoop after.length).run ⟨text ++ 34 :: after, out⟩ = out ++ body value := by
  induction spelled generalizing out with
  | nil =>
      have long : ¬ ([] ++ 34 :: after).length ≤ after.length := by simp
      have stops : debugTurn after.length ⟨[] ++ 34 :: after, out⟩ = .stop out := by
        rw [debugTurn, if_neg long]
        rfl
      rw [(debugLoop after.length).run_stop stops, body_nil, List.append_nil]
  | @cons piece text c value first others ih =>
      have inside : after.length ≤ (text ++ 34 :: after).length := by
        simp only [List.length_append, List.length_cons]
        omega
      have step : (debugLoop after.length).run ⟨piece ++ (text ++ 34 :: after), out⟩ =
          (debugLoop after.length).run ⟨text ++ 34 :: after, out ++ canonical c.toNat 34⟩ := by
        cases first with
        | plain free => exact debugLoop_plain free inside
        | escape escaped => exact debugLoop_escape escaped inside
      rw [List.append_assoc, step, ih, body_cons, List.append_assoc]

/-- The interned body of a string literal. -/
theorem stringBody_eq {value : List Char} {src after : List UInt8} {lo hi : Nat}
    (spelled : Spells text value) (here : src.drop lo = 34 :: (text ++ [34]) ++ after)
    (behind : src.drop hi = after) :
    stringBody src lo hi = body value := by
  have beyond : src.length - hi = after.length := by rw [← behind, List.length_drop]
  have start : src.drop (lo + 1) = text ++ 34 :: after := by
    rw [← List.drop_drop, here]
    simp
  rw [stringBody, debugString, start, beyond, debugLoop_spells spelled, slice]
  simp

end Debug

/-! ## Out of the canonical form -/

section Decode

variable {rest : List UInt8} {out : CString}

theorem lt_nibbles (v : Nat) : v < 16 ^ nibbles v := by
  induction v using Nat.strongRecOn with
  | ind v ih =>
      rw [nibbles]
      split
      · have smaller := ih (v / 16) (by omega)
        rw [Nat.pow_succ]
        omega
      · omega

/-- The base times over, and then the digits that follow. -/
theorem number_foldl (base acc : Nat) (digits : List Nat) :
    digits.foldl (fun sofar digit => sofar * base + digit) acc =
      acc * base ^ digits.length + number base digits := by
  induction digits generalizing acc with
  | nil => simp [number]
  | cons digit digits ih =>
      rw [number, List.foldl_cons, List.foldl_cons, ih, ih (0 * base + digit), List.length_cons,
        Nat.pow_succ]
      ring

/-- The low digits of a number, highest first. -/
theorem number_digits (base v : Nat) (count : Nat) :
    number base ((List.range count).reverse.map fun i => v / base ^ i % base) =
      v % base ^ count := by
  induction count with
  | zero => simp [number, Nat.mod_one]
  | succ count ih =>
      rw [List.range_succ, List.reverse_append, List.reverse_singleton, List.singleton_append,
        List.map_cons, number, List.foldl_cons, number_foldl, ih, List.length_map,
        List.length_reverse, List.length_range, Nat.pow_succ, Nat.mod_mul]
      ring

/-- The digits `push_hex_min` writes. -/
theorem hexMin_digits (v : Nat) :
    ∃ digits, hexMin v = digits.map hexChar ∧ (∀ d ∈ digits, d < 16) ∧ number 16 digits = v := by
  have mask (n : Nat) : n &&& 15 = n % 16 := low_bits 4 n
  have shift (i : Nat) : v >>> (4 * i) = v / 16 ^ i := by
    rw [Nat.shiftRight_eq_div_pow, Nat.pow_mul]
  rw [hexMin]
  split
  · rename_i zero
    exact ⟨[0], rfl, by simp, zero.symm⟩
  · refine ⟨(List.range (nibbles v)).reverse.map fun i => v / 16 ^ i % 16, ?_, ?_, ?_⟩
    · rw [List.map_map]
      simp only [mask, shift, Function.comp_def]
    · intro d inside
      obtain ⟨i, -, rfl⟩ := List.mem_map.mp inside
      exact Nat.mod_lt _ (by decide)
    · rw [number_digits, Nat.mod_eq_of_lt (lt_nibbles v)]

theorem hexChar_toNat {d : Nat} (small : d < 16) :
    (hexChar d).toNat = if 10 ≤ d then 87 + d else 48 + d :=
  toNat_byte (by split <;> omega)

/-- The digits of an escape are read back. -/
theorem decodeHex_digits {digits : List Nat} (small : ∀ d ∈ digits, d < 16) (cp : Nat) :
    decodeHex cp (digits.map hexChar ++ 125 :: rest) =
      (digits.foldl (fun sofar digit => sofar * 16 + digit) cp, rest) := by
  induction digits generalizing cp with
  | nil => simp [decodeHex]
  | cons d digits ih =>
      have value := hexChar_toNat (small d List.mem_cons_self)
      have size := small d List.mem_cons_self
      have apart : hexChar d ≠ 125 := ne_byte (n := 125) (by rw [value]; split <;> omega) (by decide)
      have digit : (if 97 ≤ (hexChar d).toNat then (hexChar d).toNat - 87
          else (hexChar d).toNat - 48) = d := by
        rw [value]
        split_ifs <;> omega
      rw [List.map_cons, List.cons_append, decodeHex, if_neg apart, digit,
        ih fun d inside => small d (List.mem_cons_of_mem _ inside)]
      rfl

theorem decodeLoop_turn (d : Decoding) : decodeLoop.turn d = decodeTurn d := rfl

/-- The canonical form of a character is decoded to its bytes. -/
theorem decodeLoop_canonical (c : Char) :
    decodeLoop.run ⟨canonical c.toNat 34 ++ rest, out⟩ =
      decodeLoop.run ⟨rest, out ++ String.utf8EncodeChar c⟩ := by
  rw [canonical]
  split_ifs with slash quote printable
  · apply decodeLoop.run_again
    rw [encode_ascii (by omega), slash]
    rfl
  · apply decodeLoop.run_again
    rw [encode_ascii (by omega), quote]
    rfl
  · have value := toNat_byte (show c.toNat < 256 by omega)
    have apart : UInt8.ofNat c.toNat ≠ 92 :=
      ne_byte (n := 92) (by rw [value]; exact slash) (by decide)
    rw [encode_ascii (by omega), List.singleton_append]
    cases rest with
    | nil =>
        have last : decodeLoop.turn ⟨[UInt8.ofNat c.toNat], out⟩ =
            .stop (out ++ [UInt8.ofNat c.toNat]) := by
          simp only [decodeLoop_turn, decodeTurn, apart, if_false]
        rw [decodeLoop.run_stop last]
        exact (decodeLoop.run_stop rfl).symm
    | cons e rest =>
        apply decodeLoop.run_again
        simp only [decodeLoop_turn, decodeTurn, apart, if_false]
  · obtain ⟨digits, written, small, value⟩ := hexMin_digits c.toNat
    apply decodeLoop.run_again
    rw [decodeLoop_turn, written, List.append_assoc, List.append_assoc]
    simp only [List.cons_append, List.nil_append, decodeTurn, if_true, List.drop_succ_cons,
      List.drop_zero, decodeHex_digits small]
    rw [show digits.foldl (fun sofar digit => sofar * 16 + digit) 0 = c.toNat from value,
      pushUtf8_eq]

theorem decodeLoop_body (value : List Char) (out : CString) :
    decodeLoop.run ⟨body value, out⟩ = out ++ encode value := by
  induction value generalizing out with
  | nil =>
      rw [encode_nil, List.append_nil]
      exact decodeLoop.run_stop rfl
  | cons c value ih =>
      rw [body_cons, decodeLoop_canonical, ih, encode_cons, List.append_assoc]

/-- The body of a string is decoded to the bytes of its characters. -/
theorem decodeBody_body (value : List Char) : decodeBody (body value) = encode value :=
  decodeLoop_body value []

end Decode

/-! ## Into C and back -/

section CSide

variable {rest : List UInt8} {out : CString}

theorem cStringLoop_turn (d : Decoding) : cStringLoop.turn d = cStringTurn d := rfl

/-- An octal digit as it is written. -/
theorem octal_digit : ∀ x < 8, cEscapes.lookup (UInt8.ofNat (48 + x)) = none ∧
    isOctal (UInt8.ofNat (48 + x)) = true ∧ (UInt8.ofNat (48 + x)).toNat - 48 = x := by
  decide

/-- Three octal digits are read as the byte they were written for. -/
theorem cEscape_octal (v : UInt8) :
    cEscape (UInt8.ofNat (48 + ((v.toNat >>> 6) &&& 7)) ::
      UInt8.ofNat (48 + ((v.toNat >>> 3) &&& 7)) :: UInt8.ofNat (48 + (v.toNat &&& 7)) :: rest) =
      some (v, rest) := by
  have mask (n : Nat) : n &&& 7 = n % 8 := low_bits 3 n
  have small := v.toNat_lt
  simp only [mask, Nat.shiftRight_eq_div_pow]
  obtain ⟨absent, high, two⟩ := octal_digit (v.toNat / 2 ^ 6 % 8) (Nat.mod_lt _ (by decide))
  obtain ⟨-, mid, one⟩ := octal_digit (v.toNat / 2 ^ 3 % 8) (Nat.mod_lt _ (by decide))
  obtain ⟨-, low, zero⟩ := octal_digit (v.toNat % 8) (Nat.mod_lt _ (by decide))
  have value : ((0 * 8 + v.toNat / 2 ^ 6 % 8) * 8 + v.toNat / 2 ^ 3 % 8) * 8 + v.toNat % 8 =
      v.toNat := by omega
  simp only [cEscape, absent, List.take_succ_cons, List.take_zero, List.takeWhile_cons, high, mid,
    low, if_true, List.takeWhile_nil, number, List.map_cons, List.map_nil, List.foldl_cons,
    List.foldl_nil, two, one, zero, value]
  rw [if_pos ⟨List.cons_ne_nil _ _, by omega⟩, UInt8.ofNat_toNat]
  rfl

/-- A byte is read as it was written, whatever follows. -/
theorem cStringLoop_byte (v : UInt8) :
    cStringLoop.run ⟨pushCByte v ++ rest, out⟩ = cStringLoop.run ⟨rest, out ++ [v]⟩ := by
  apply cStringLoop.run_again
  rw [pushCByte]
  split_ifs with quote slash printable
  · rw [quote]
    rfl
  · rw [slash]
    rfl
  · simp only [cStringLoop_turn, cStringTurn, List.singleton_append, quote, if_false, cElement,
      slash, printable, and_self, if_true]
  · have apart : (92 : UInt8) ≠ 34 := by decide
    simp only [cStringLoop_turn, cStringTurn, List.cons_append, List.nil_append, apart, if_false,
      cElement, if_true, cEscape_octal]

theorem cStringLoop_bytes (bytes : List UInt8) (out : CString) :
    cStringLoop.run ⟨bytes.flatMap pushCByte ++ [34], out⟩ = some (out ++ bytes) := by
  induction bytes generalizing out with
  | nil =>
      rw [List.append_nil]
      exact cStringLoop.run_stop rfl
  | cons v bytes ih =>
      rw [List.flatMap_cons, List.append_assoc, cStringLoop_byte, ih, List.append_assoc]
      rfl

/-- The C literal of a string denotes the bytes of its characters, and their number goes
with it. -/
theorem cgCString_body (value : List Char) :
    cString (cgCString (body value)).lit = some (encode value) ∧
      (cgCString (body value)).len = (encode value).length := by
  rw [cgCString, decodeBody_body]
  refine ⟨?_, rfl⟩
  change (if (34 : UInt8) = 34 then
    cStringLoop.run ⟨(encode value).flatMap pushCByte ++ [34], []⟩ else none) = _
  rw [if_pos rfl, cStringLoop_bytes]
  rfl

/-- Canonical bodies are equal exactly when the strings are. -/
theorem body_inj {first second : List Char} : body first = body second ↔ first = second := by
  constructor
  · intro same
    have bytes := congrArg decodeBody same
    rw [decodeBody_body, decodeBody_body] at bytes
    exact encode_inj bytes
  · rintro rfl
    rfl

end CSide

end Geas.Compiler.Lexing
