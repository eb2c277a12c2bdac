import Geas.Runtime.Registry
import Mathlib.Data.Nat.Bitwise

/-!
# Bytes of a source

The byte helpers under the lexer.  A source is read by byte offsets; an offset is kept
here as the bytes from it on, and a byte past the end is `none`.

A source is UTF-8, so its bytes are the encodings of a list of characters.  The decoder
undoes the encoding of one character, and `push_utf8` is that encoding.
-/

namespace Geas.Compiler.Lexing

open Geas.Runtime (CString ascii)

/-- The bytes of a text. -/
def encode (chars : List Char) : List UInt8 := chars.flatMap String.utf8EncodeChar

/-! ## Reading -/

/-- `utf8_len`. -/
def utf8Len (lead : Nat) : Nat :=
  if 240 ≤ lead ∧ lead ≤ 247 then 4
  else if 224 ≤ lead ∧ lead ≤ 239 then 3
  else if 192 ≤ lead ∧ lead ≤ 223 then 2
  else 1

/-- `hex_val`, `none` for its -1. -/
def hexVal (b : UInt8) : Option Nat :=
  if 48 ≤ b.toNat ∧ b.toNat ≤ 57 then some (b.toNat - 48)
  else if 97 ≤ b.toNat ∧ b.toNat ≤ 102 then some (b.toNat - 87)
  else if 65 ≤ b.toNat ∧ b.toNat ≤ 70 then some (b.toNat - 55)
  else none

/-- A scalar and the length of its encoding. -/
structure Decoded where
  scalar : Nat
  len : Nat
  deriving DecidableEq, Repr

/-- The low six bits of a byte that follows a lead byte; all are set in the -1 past the end. -/
def contBits (b : Option UInt8) : Nat := (b.getD 255).toNat &&& 63

/-- `decode_utf8` at a byte; a source that is UTF-8 has the bytes it reads. -/
def decodeUtf8 (b0 : UInt8) (rest : List UInt8) : Decoded :=
  if b0.toNat < 128 then ⟨b0.toNat, 1⟩
  else if utf8Len b0.toNat = 2 then ⟨(b0.toNat &&& 31) <<< 6 ||| contBits rest[0]?, 2⟩
  else if utf8Len b0.toNat = 3 then
    ⟨(b0.toNat &&& 15) <<< 12 ||| contBits rest[0]? <<< 6 ||| contBits rest[1]?, 3⟩
  else
    ⟨(b0.toNat &&& 7) <<< 18 ||| contBits rest[0]? <<< 12 ||| contBits rest[1]? <<< 6 |||
      contBits rest[2]?, 4⟩

/-- `push_utf8`. -/
def pushUtf8 (cp : Nat) : List UInt8 :=
  if cp < 128 then [UInt8.ofNat cp]
  else if cp < 2048 then [UInt8.ofNat (192 + (cp >>> 6)), UInt8.ofNat (128 + (cp &&& 63))]
  else if cp < 65536 then
    [UInt8.ofNat (224 + (cp >>> 12)), UInt8.ofNat (128 + ((cp >>> 6) &&& 63)),
      UInt8.ofNat (128 + (cp &&& 63))]
  else
    [UInt8.ofNat (240 + (cp >>> 18)), UInt8.ofNat (128 + ((cp >>> 12) &&& 63)),
      UInt8.ofNat (128 + ((cp >>> 6) &&& 63)), UInt8.ofNat (128 + (cp &&& 63))]

/-! ## Encodings -/

@[simp] theorem encode_nil : encode [] = [] := rfl

@[simp] theorem encode_cons (c : Char) (chars : List Char) :
    encode (c :: chars) = String.utf8EncodeChar c ++ encode chars := rfl

theorem char_lt (c : Char) : c.toNat < 0x110000 := by
  have valid := c.valid
  simp only [UInt32.isValidChar, Nat.isValidChar] at valid
  simp only [Char.toNat]
  omega

/-- The encoding by the scalar. -/
theorem encodeChar_eq (c : Char) :
    String.utf8EncodeChar c =
      if c.toNat ≤ 127 then [UInt8.ofNat c.toNat]
      else if c.toNat ≤ 2047 then
        [UInt8.ofNat (c.toNat / 64 % 32 + 192), UInt8.ofNat (c.toNat % 64 + 128)]
      else if c.toNat ≤ 65535 then
        [UInt8.ofNat (c.toNat / 4096 % 16 + 224), UInt8.ofNat (c.toNat / 64 % 64 + 128),
          UInt8.ofNat (c.toNat % 64 + 128)]
      else
        [UInt8.ofNat (c.toNat / 262144 % 8 + 240), UInt8.ofNat (c.toNat / 4096 % 64 + 128),
          UInt8.ofNat (c.toNat / 64 % 64 + 128), UInt8.ofNat (c.toNat % 64 + 128)] := rfl

/-- A character of one byte. -/
theorem encode_ascii {c : Char} (small : c.toNat < 128) :
    String.utf8EncodeChar c = [UInt8.ofNat c.toNat] := by
  rw [encodeChar_eq, if_pos (Nat.le_of_lt_succ small)]

/-- The encoding of a character is what `push_utf8` appends for its scalar. -/
theorem pushUtf8_eq (c : Char) : pushUtf8 c.toNat = String.utf8EncodeChar c := by
  have bound := char_lt c
  have mask (n : Nat) : n &&& 63 = n % 64 := Nat.and_two_pow_sub_one_eq_mod n 6
  simp only [pushUtf8, encodeChar_eq, mask, Nat.shiftRight_eq_div_pow]
  generalize c.toNat = v at bound ⊢
  by_cases one : v < 128
  · rw [if_pos one, if_pos (show v ≤ 127 by omega)]
  rw [if_neg one, if_neg (show ¬ v ≤ 127 by omega)]
  by_cases two : v < 2048
  · rw [if_pos two, if_pos (show v ≤ 2047 by omega)]
    have top : 192 + v / 2 ^ 6 = v / 64 % 32 + 192 := by omega
    rw [top, Nat.add_comm 128]
  rw [if_neg two, if_neg (show ¬ v ≤ 2047 by omega)]
  by_cases three : v < 65536
  · rw [if_pos three, if_pos (show v ≤ 65535 by omega)]
    have top : 224 + v / 2 ^ 12 = v / 4096 % 16 + 224 := by omega
    have mid : 128 + v / 2 ^ 6 % 64 = v / 64 % 64 + 128 := by omega
    rw [top, mid, Nat.add_comm 128]
  rw [if_neg three, if_neg (show ¬ v ≤ 65535 by omega)]
  have top : 240 + v / 2 ^ 18 = v / 262144 % 8 + 240 := by omega
  have high : 128 + v / 2 ^ 12 % 64 = v / 4096 % 64 + 128 := by omega
  have mid : 128 + v / 2 ^ 6 % 64 = v / 64 % 64 + 128 := by omega
  rw [top, high, mid, Nat.add_comm 128]

/-- What the lexer and the decoder make of the encoding of a character past ASCII. -/
structure Wide (c : Char) (b0 : UInt8) (more : List UInt8) : Prop where
  bytes : String.utf8EncodeChar c = b0 :: more
  high : ∀ b ∈ b0 :: more, 128 ≤ b.toNat
  len : utf8Len b0.toNat = more.length + 1
  decoded : ∀ rest, decodeUtf8 b0 (more ++ rest) = ⟨c.toNat, more.length + 1⟩

theorem toNat_byte {n : Nat} (small : n < 256) : (UInt8.ofNat n).toNat = n := by
  rw [UInt8.toNat_ofNat', Nat.mod_eq_of_lt small]

theorem low_bits (k n : Nat) : n &&& (2 ^ k - 1) = n % 2 ^ k := Nat.and_two_pow_sub_one_eq_mod n k

theorem or_low (a k : Nat) {b : Nat} (small : b < 2 ^ k) : a <<< k ||| b = a * 2 ^ k + b := by
  rw [← Nat.shiftLeft_add_eq_or_of_lt small, Nat.shiftLeft_eq]

/-- The six bits a following byte carries. -/
theorem contBits_byte {n : Nat} (small : n < 64) : contBits (some (UInt8.ofNat (n + 128))) = n := by
  have mask (m : Nat) : m &&& 63 = m % 64 := low_bits 6 m
  rw [contBits, Option.getD_some, toNat_byte (by omega), mask]
  omega

theorem high_byte (n : Nat) (small : n < 64) : 128 ≤ (UInt8.ofNat (n + 128)).toNat := by
  rw [toNat_byte (by omega)]
  omega

theorem wide_two {c : Char} (large : ¬ c.toNat ≤ 127) (two : c.toNat ≤ 2047) :
    Wide c (UInt8.ofNat (c.toNat / 64 % 32 + 192)) [UInt8.ofNat (c.toNat % 64 + 128)] := by
  have mask (n : Nat) : n &&& 31 = n % 32 := low_bits 5 n
  have bits (n : Nat) : n % 64 < 64 := Nat.mod_lt n (by decide)
  have lead := toNat_byte (n := c.toNat / 64 % 32 + 192) (by omega)
  have len : utf8Len (c.toNat / 64 % 32 + 192) = 2 := by
    rw [utf8Len, if_neg (by omega), if_neg (by omega), if_pos (by omega)]
  refine ⟨?_, ?_, by rw [lead, len]; rfl, fun rest => ?_⟩
  · rw [encodeChar_eq, if_neg large, if_pos two]
  · simp only [List.forall_mem_cons, lead]
    exact ⟨by omega, high_byte _ (bits _), by simp⟩
  · rw [decodeUtf8, lead, if_neg (by omega), if_pos len, mask]
    simp only [List.singleton_append, List.getElem?_cons_zero, contBits_byte (bits _),
      List.length_cons, List.length_nil]
    rw [or_low _ 6 (bits _)]
    congr 1
    omega

theorem wide_three {c : Char} (large : ¬ c.toNat ≤ 2047) (three : c.toNat ≤ 65535) :
    Wide c (UInt8.ofNat (c.toNat / 4096 % 16 + 224))
      [UInt8.ofNat (c.toNat / 64 % 64 + 128), UInt8.ofNat (c.toNat % 64 + 128)] := by
  have mask (n : Nat) : n &&& 15 = n % 16 := low_bits 4 n
  have bits (n : Nat) : n % 64 < 64 := Nat.mod_lt n (by decide)
  have lead := toNat_byte (n := c.toNat / 4096 % 16 + 224) (by omega)
  have len : utf8Len (c.toNat / 4096 % 16 + 224) = 3 := by
    rw [utf8Len, if_neg (by omega), if_pos (by omega)]
  refine ⟨?_, ?_, by rw [lead, len]; rfl, fun rest => ?_⟩
  · rw [encodeChar_eq, if_neg (by omega), if_neg large, if_pos three]
  · simp only [List.forall_mem_cons, lead]
    exact ⟨by omega, high_byte _ (bits _), high_byte _ (bits _), by simp⟩
  · rw [decodeUtf8, lead, if_neg (by omega), if_neg (by omega), if_pos len, mask]
    simp only [List.cons_append, List.nil_append, List.getElem?_cons_zero,
      List.getElem?_cons_succ, contBits_byte (bits _), List.length_cons, List.length_nil]
    have low := bits c.toNat
    have mid := bits (c.toNat / 64)
    rw [Nat.lor_assoc, or_low _ 6 low, or_low _ 12 (by omega)]
    congr 1
    omega

theorem wide_four {c : Char} (large : ¬ c.toNat ≤ 65535) :
    Wide c (UInt8.ofNat (c.toNat / 262144 % 8 + 240))
      [UInt8.ofNat (c.toNat / 4096 % 64 + 128), UInt8.ofNat (c.toNat / 64 % 64 + 128),
        UInt8.ofNat (c.toNat % 64 + 128)] := by
  have bound := char_lt c
  have mask (n : Nat) : n &&& 7 = n % 8 := low_bits 3 n
  have bits (n : Nat) : n % 64 < 64 := Nat.mod_lt n (by decide)
  have lead := toNat_byte (n := c.toNat / 262144 % 8 + 240) (by omega)
  have len : utf8Len (c.toNat / 262144 % 8 + 240) = 4 := by
    rw [utf8Len, if_pos (by omega)]
  refine ⟨?_, ?_, by rw [lead, len]; rfl, fun rest => ?_⟩
  · rw [encodeChar_eq, if_neg (by omega), if_neg (by omega), if_neg large]
  · simp only [List.forall_mem_cons, lead]
    exact ⟨by omega, high_byte _ (bits _), high_byte _ (bits _), high_byte _ (bits _), by simp⟩
  · rw [decodeUtf8, lead, if_neg (by omega), if_neg (by omega), if_neg (by omega), mask]
    simp only [List.cons_append, List.nil_append, List.getElem?_cons_zero,
      List.getElem?_cons_succ, contBits_byte (bits _), List.length_cons, List.length_nil]
    have low := bits c.toNat
    have mid := bits (c.toNat / 64)
    have high := bits (c.toNat / 4096)
    rw [Nat.lor_assoc, Nat.lor_assoc, or_low _ 6 low, or_low _ 12 (by omega),
      or_low _ 18 (by omega)]
    congr 1
    omega

/-- A character past ASCII starts with a lead byte that tells its length. -/
theorem wide_of_large {c : Char} (large : ¬ c.toNat ≤ 127) : ∃ b0 more, Wide c b0 more := by
  by_cases two : c.toNat ≤ 2047
  · exact ⟨_, _, wide_two large two⟩
  by_cases three : c.toNat ≤ 65535
  · exact ⟨_, _, wide_three two three⟩
  · exact ⟨_, _, wide_four three⟩

theorem Wide.large {c : Char} {b0 : UInt8} {more : List UInt8} (wide : Wide c b0 more) :
    128 ≤ c.toNat := by
  by_contra small
  have one := encode_ascii (Nat.lt_of_not_le small)
  rw [wide.bytes] at one
  have high := wide.high b0 List.mem_cons_self
  rw [(List.cons.inj one).1, toNat_byte (by omega)] at high
  omega

/-- The decoder undoes the encoding of a character. -/
theorem decodeUtf8_encode (c : Char) : ∃ b0 more, String.utf8EncodeChar c = b0 :: more ∧
    ∀ rest, decodeUtf8 b0 (more ++ rest) = ⟨c.toNat, more.length + 1⟩ := by
  by_cases small : c.toNat ≤ 127
  · refine ⟨_, [], encode_ascii (Nat.lt_succ_of_le small), fun rest => ?_⟩
    rw [decodeUtf8, toNat_byte (by omega), if_pos (Nat.lt_succ_of_le small)]
    rfl
  · obtain ⟨b0, more, wide⟩ := wide_of_large small
    exact ⟨b0, more, wide.bytes, wide.decoded⟩

/-- A text is told by its bytes. -/
theorem encode_inj {first second : List Char} (same : encode first = encode second) :
    first = second := by
  induction first generalizing second with
  | nil =>
      cases second with
      | nil => rfl
      | cons c' second =>
          obtain ⟨b, more, bytes, -⟩ := decodeUtf8_encode c'
          rw [encode_cons, bytes] at same
          cases same
  | cons c first ih =>
      obtain ⟨b, more, bytes, decoded⟩ := decodeUtf8_encode c
      cases second with
      | nil =>
          rw [encode_cons, bytes] at same
          cases same
      | cons c' second =>
          obtain ⟨b', more', bytes', decoded'⟩ := decodeUtf8_encode c'
          have cancel := same
          rw [encode_cons, encode_cons, bytes, bytes', List.cons_append, List.cons_append] at same
          obtain ⟨rfl, behind⟩ := List.cons.inj same
          have scalar := decoded (encode first)
          rw [behind, decoded'] at scalar
          obtain rfl : c' = c := Char.toNat_inj.mp (Decoded.mk.inj scalar).1
          rw [ih (List.append_cancel_left cancel)]

end Geas.Compiler.Lexing
