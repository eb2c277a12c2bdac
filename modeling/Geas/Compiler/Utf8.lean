import Geas.Compiler.Escape

/-!
# UTF-8

A source is looked through once before anything reads it.  The validator, the decoder, the
table of lengths and the encoder are separate pieces of code; here they are held to one
format, the encodings of a list of characters.

The validator goes over one character at a time, so all that matters is one turn of it:
it goes on exactly over the encoding of a character.
-/

namespace Geas.Compiler.Lexing

/-- `is_cont`; the -1 past the end is none. -/
def isCont : Option UInt8 → Bool
  | some b => decide (128 ≤ b.toNat) && decide (b.toNat < 192)
  | none => false

/-- The body of the loop of `valid_utf8` at a byte: the bytes behind it that it goes over, or
`none` for its return with false. -/
def validTurn (b0 : UInt8) (rest : List UInt8) : Option Nat :=
  if b0.toNat < 128 then some 0
  else if b0.toNat < 194 then none
  else if b0.toNat < 224 then
    if !isCont rest[0]? then none else some 1
  else if b0.toNat < 240 then
    if !isCont rest[0]? then none
    else if !isCont rest[1]? then none
    else
      let cp := (b0.toNat &&& 15) <<< 12 ||| contBits rest[0]? <<< 6 ||| contBits rest[1]?
      if cp < 2048 then none
      else if 55296 ≤ cp ∧ cp ≤ 57343 then none
      else some 2
  else if b0.toNat < 245 then
    if !isCont rest[0]? then none
    else if !isCont rest[1]? then none
    else if !isCont rest[2]? then none
    else
      let cp := (b0.toNat &&& 7) <<< 18 ||| contBits rest[0]? <<< 12 ||| contBits rest[1]? <<< 6 |||
        contBits rest[2]?
      if cp < 65536 then none
      else if cp > 1114111 then none
      else some 3
  else none

/-- `valid_utf8`, from an offset on. -/
def validUtf8 : List UInt8 → Bool
  | [] => true
  | b0 :: rest =>
      match validTurn b0 rest with
      | none => false
      | some more => validUtf8 (rest.drop more)
termination_by bytes => bytes.length
decreasing_by simp only [List.length_drop, List.length_cons]; omega

/-! ### Characters and their bytes -/

theorem encodes_one {b0 : UInt8} :
    (∃ c, String.utf8EncodeChar c = [b0]) ↔ b0.toNat < 128 := by
  constructor
  · rintro ⟨c, bytes⟩
    rw [encodeChar_eq] at bytes
    repeat' split at bytes
    all_goals simp only [List.cons.injEq, List.cons_ne_nil, and_false] at bytes
    rename_i small
    rw [← bytes.1, toNat_byte (by omega)]
    omega
  · intro small
    obtain ⟨c, number⟩ := @exists_char b0.toNat (.inl (by omega))
    refine ⟨c, ?_⟩
    rw [encodeChar_eq, number, if_pos (by omega), UInt8.ofNat_toNat]

theorem byte_eq {n : Nat} {b : UInt8} (same : n = b.toNat) : UInt8.ofNat n = b := by
  rw [same, UInt8.ofNat_toNat]

theorem encodes_two {b0 b1 : UInt8} :
    (∃ c, String.utf8EncodeChar c = [b0, b1]) ↔
      (194 ≤ b0.toNat ∧ b0.toNat < 224) ∧ 128 ≤ b1.toNat ∧ b1.toNat < 192 := by
  constructor
  · rintro ⟨c, bytes⟩
    rw [encodeChar_eq] at bytes
    repeat' split at bytes
    all_goals simp only [List.cons.injEq, List.cons_ne_nil, reduceCtorEq, and_false,
      and_true] at bytes
    rw [← bytes.1, ← bytes.2, toNat_byte (by omega), toNat_byte (by omega)]
    omega
  · intro shape
    obtain ⟨c, number⟩ :=
      @exists_char ((b0.toNat - 192) * 64 + (b1.toNat - 128)) (.inl (by omega))
    refine ⟨c, ?_⟩
    rw [encodeChar_eq, number, if_neg (by omega), if_pos (by omega)]
    rw [byte_eq (show _ = b0.toNat by omega), byte_eq (show _ = b1.toNat by omega)]

theorem encodes_three {b0 b1 b2 : UInt8} :
    (∃ c, String.utf8EncodeChar c = [b0, b1, b2]) ↔
      (224 ≤ b0.toNat ∧ b0.toNat < 240) ∧ (128 ≤ b1.toNat ∧ b1.toNat < 192) ∧
      (128 ≤ b2.toNat ∧ b2.toNat < 192) ∧
      ∃ v, v = (b0.toNat - 224) * 4096 + (b1.toNat - 128) * 64 + (b2.toNat - 128) ∧
        2048 ≤ v ∧ ¬ (55296 ≤ v ∧ v ≤ 57343) := by
  constructor
  · rintro ⟨c, bytes⟩
    have valid := char_valid c
    unfold Nat.isValidChar at valid
    rw [encodeChar_eq] at bytes
    repeat' split at bytes
    all_goals simp only [List.cons.injEq, List.cons_ne_nil, reduceCtorEq, and_false,
      and_true] at bytes
    rw [← bytes.1, ← bytes.2.1, ← bytes.2.2, toNat_byte (by omega), toNat_byte (by omega),
      toNat_byte (by omega)]
    refine ⟨by omega, by omega, by omega, c.toNat, by omega, by omega, by omega⟩
  · rintro ⟨lead, mid, low, v, value, large, noSurrogate⟩
    obtain ⟨c, number⟩ := @exists_char v (by unfold Nat.isValidChar; omega)
    refine ⟨c, ?_⟩
    rw [encodeChar_eq, number, if_neg (by omega), if_neg (by omega), if_pos (by omega)]
    rw [byte_eq (show _ = b0.toNat by omega), byte_eq (show _ = b1.toNat by omega),
      byte_eq (show _ = b2.toNat by omega)]

theorem encodes_four {b0 b1 b2 b3 : UInt8} :
    (∃ c, String.utf8EncodeChar c = [b0, b1, b2, b3]) ↔
      (240 ≤ b0.toNat ∧ b0.toNat < 245) ∧ (128 ≤ b1.toNat ∧ b1.toNat < 192) ∧
      (128 ≤ b2.toNat ∧ b2.toNat < 192) ∧ (128 ≤ b3.toNat ∧ b3.toNat < 192) ∧
      ∃ v, v = (b0.toNat - 240) * 262144 + (b1.toNat - 128) * 4096 + (b2.toNat - 128) * 64 +
          (b3.toNat - 128) ∧ 65536 ≤ v ∧ v ≤ 1114111 := by
  constructor
  · rintro ⟨c, bytes⟩
    have bound := char_lt c
    rw [encodeChar_eq] at bytes
    repeat' split at bytes
    all_goals simp only [List.cons.injEq, reduceCtorEq, and_false, and_true] at bytes
    rw [← bytes.1, ← bytes.2.1, ← bytes.2.2.1, ← bytes.2.2.2, toNat_byte (by omega),
      toNat_byte (by omega), toNat_byte (by omega), toNat_byte (by omega)]
    refine ⟨by omega, by omega, by omega, by omega, c.toNat, by omega, by omega, by omega⟩
  · rintro ⟨lead, high, mid, low, v, value, large, inside⟩
    obtain ⟨c, number⟩ := @exists_char v (by unfold Nat.isValidChar; omega)
    refine ⟨c, ?_⟩
    rw [encodeChar_eq, number, if_neg (by omega), if_neg (by omega), if_neg (by omega)]
    rw [byte_eq (show _ = b0.toNat by omega), byte_eq (show _ = b1.toNat by omega),
      byte_eq (show _ = b2.toNat by omega), byte_eq (show _ = b3.toNat by omega)]

theorem length_encodeChar (c : Char) : (String.utf8EncodeChar c).length ≤ 4 := by
  rw [encodeChar_eq]
  repeat' split
  all_goals simp

/-! ### One turn of the validator -/

theorem isCont_some {b : UInt8} : isCont (some b) = true ↔ 128 ≤ b.toNat ∧ b.toNat < 192 := by
  simp [isCont]

theorem contBits_cont {b : UInt8} (low : 128 ≤ b.toNat) (high : b.toNat < 192) :
    contBits (some b) = b.toNat - 128 := by
  have mask : b.toNat &&& 63 = b.toNat % 64 := low_bits 6 b.toNat
  rw [contBits, Option.getD_some, mask]
  omega

/-- The scalar of three bytes as a number. -/
theorem scalar_three {b0 b1 b2 : UInt8} (lead : 224 ≤ b0.toNat ∧ b0.toNat < 240)
    (mid : 128 ≤ b1.toNat ∧ b1.toNat < 192) (low : 128 ≤ b2.toNat ∧ b2.toNat < 192) :
    (b0.toNat &&& 15) <<< 12 ||| contBits (some b1) <<< 6 ||| contBits (some b2) =
      (b0.toNat - 224) * 4096 + (b1.toNat - 128) * 64 + (b2.toNat - 128) := by
  have mask : b0.toNat &&& 15 = b0.toNat % 16 := low_bits 4 b0.toNat
  rw [contBits_cont mid.1 mid.2, contBits_cont low.1 low.2, mask, Nat.lor_assoc,
    or_low _ 6 (by omega), or_low _ 12 (by omega)]
  omega

/-- The scalar of four bytes as a number. -/
theorem scalar_four {b0 b1 b2 b3 : UInt8} (lead : 240 ≤ b0.toNat ∧ b0.toNat < 248)
    (high : 128 ≤ b1.toNat ∧ b1.toNat < 192) (mid : 128 ≤ b2.toNat ∧ b2.toNat < 192)
    (low : 128 ≤ b3.toNat ∧ b3.toNat < 192) :
    (b0.toNat &&& 7) <<< 18 ||| contBits (some b1) <<< 12 ||| contBits (some b2) <<< 6 |||
        contBits (some b3) =
      (b0.toNat - 240) * 262144 + (b1.toNat - 128) * 4096 + (b2.toNat - 128) * 64 +
        (b3.toNat - 128) := by
  have mask : b0.toNat &&& 7 = b0.toNat % 8 := low_bits 3 b0.toNat
  rw [contBits_cont high.1 high.2, contBits_cont mid.1 mid.2, contBits_cont low.1 low.2,
    mask, Nat.lor_assoc, Nat.lor_assoc, or_low _ 6 (by omega), or_low _ 12 (by omega),
    or_low _ 18 (by omega)]
  omega

/-- A turn goes over nothing but the encoding of a character. -/
theorem char_of_validTurn {b0 : UInt8} {rest : List UInt8} {k : Nat}
    (goes : validTurn b0 rest = some k) :
    ∃ c more, String.utf8EncodeChar c = b0 :: more ∧ more.length = k ∧ more <+: rest := by
  unfold validTurn at goes
  by_cases one : b0.toNat < 128
  · rw [if_pos one] at goes
    cases goes
    obtain ⟨c, bytes⟩ := encodes_one.mpr one
    exact ⟨c, [], bytes, rfl, List.nil_prefix⟩
  by_cases stray : b0.toNat < 194
  · simp [one, stray] at goes
  rw [if_neg one, if_neg stray] at goes
  by_cases two : b0.toNat < 224
  · match rest with
    | [] => simp [two, isCont] at goes
    | b1 :: tail =>
        simp only [two, if_true, List.getElem?_cons_zero, Bool.not_eq_true',
          Option.ite_none_left_eq_some, Bool.not_eq_false, isCont_some, Option.some.injEq] at goes
        obtain ⟨cont, rfl⟩ := goes
        obtain ⟨c, bytes⟩ := encodes_two.mpr ⟨⟨Nat.le_of_not_lt stray, two⟩, cont⟩
        exact ⟨c, [b1], bytes, rfl, tail, rfl⟩
  rw [if_neg two] at goes
  by_cases three : b0.toNat < 240
  · match rest with
    | [] => simp [three, isCont] at goes
    | [b1] => simp [three, isCont] at goes
    | b1 :: b2 :: tail =>
        simp only [three, if_true, List.getElem?_cons_zero, List.getElem?_cons_succ,
          Bool.not_eq_true', Option.ite_none_left_eq_some, Bool.not_eq_false, isCont_some,
          Option.some.injEq] at goes
        obtain ⟨mid, low, large, noSurrogate, rfl⟩ := goes
        rw [scalar_three ⟨Nat.le_of_not_lt two, three⟩ mid low] at large noSurrogate
        obtain ⟨c, bytes⟩ := encodes_three.mpr ⟨⟨Nat.le_of_not_lt two, three⟩, mid, low, _, rfl,
          Nat.le_of_not_lt large, noSurrogate⟩
        exact ⟨c, [b1, b2], bytes, rfl, tail, rfl⟩
  rw [if_neg three] at goes
  by_cases four : b0.toNat < 245
  · match rest with
    | [] => simp [four, isCont] at goes
    | [b1] => simp [four, isCont] at goes
    | [b1, b2] => simp [four, isCont] at goes
    | b1 :: b2 :: b3 :: tail =>
        simp only [four, if_true, List.getElem?_cons_zero, List.getElem?_cons_succ,
          Bool.not_eq_true', Option.ite_none_left_eq_some, Bool.not_eq_false, isCont_some,
          Option.some.injEq] at goes
        obtain ⟨high, mid, low, large, inside, rfl⟩ := goes
        rw [scalar_four ⟨Nat.le_of_not_lt three, by omega⟩ high mid low] at large inside
        obtain ⟨c, bytes⟩ := encodes_four.mpr ⟨⟨Nat.le_of_not_lt three, four⟩, high, mid, low, _,
          rfl, Nat.le_of_not_lt large, Nat.le_of_not_lt inside⟩
        exact ⟨c, [b1, b2, b3], bytes, rfl, tail, rfl⟩
  · simp [four] at goes

/-- A turn goes over the encoding of a character, whatever follows it. -/
theorem validTurn_char {c : Char} {b0 : UInt8} {more : List UInt8}
    (bytes : String.utf8EncodeChar c = b0 :: more) (rest : List UInt8) :
    validTurn b0 (more ++ rest) = some more.length := by
  have short := length_encodeChar c
  rw [bytes, List.length_cons] at short
  match more with
  | [] =>
      have one := encodes_one.mp ⟨c, bytes⟩
      rw [validTurn, if_pos one]
      rfl
  | [b1] =>
      have ⟨lead, cont⟩ := encodes_two.mp ⟨c, bytes⟩
      rw [validTurn, if_neg (by omega), if_neg (by omega), if_pos lead.2]
      simp [isCont_some.mpr cont]
  | [b1, b2] =>
      have ⟨lead, mid, low, v, value, large, noSurrogate⟩ := encodes_three.mp ⟨c, bytes⟩
      rw [validTurn, if_neg (by omega), if_neg (by omega), if_neg (by omega), if_pos lead.2]
      simp only [List.cons_append, List.nil_append, List.getElem?_cons_zero,
        List.getElem?_cons_succ, isCont_some.mpr mid, isCont_some.mpr low,
        scalar_three lead mid low, ← value]
      simp [Nat.not_lt.mpr large, noSurrogate]
  | [b1, b2, b3] =>
      have ⟨lead, high, mid, low, v, value, large, inside⟩ := encodes_four.mp ⟨c, bytes⟩
      rw [validTurn, if_neg (by omega), if_neg (by omega), if_neg (by omega), if_neg (by omega),
        if_pos lead.2]
      simp only [List.cons_append, List.nil_append, List.getElem?_cons_zero,
        List.getElem?_cons_succ, isCont_some.mpr high, isCont_some.mpr mid, isCont_some.mpr low,
        scalar_four ⟨lead.1, by omega⟩ high mid low, ← value]
      simp [Nat.not_lt.mpr large, Nat.not_lt.mpr inside]
  | b1 :: b2 :: b3 :: b4 :: tail =>
      simp only [List.length_cons] at short
      omega

/-! ### Whole buffers -/

theorem encodeChar_cons (c : Char) : ∃ b0 more, String.utf8EncodeChar c = b0 :: more := by
  obtain ⟨b0, more, bytes, -⟩ := decodeUtf8_encode c
  exact ⟨b0, more, bytes⟩

theorem validUtf8_encode (chars : List Char) : validUtf8 (encode chars) = true := by
  induction chars with
  | nil => rw [encode_nil, validUtf8]
  | cons c chars ih =>
      obtain ⟨b0, more, bytes⟩ := encodeChar_cons c
      rw [encode_cons, bytes, List.cons_append, validUtf8, validTurn_char bytes]
      simp only [List.drop_left, ih]

/-- The validator accepts the encodings of lists of characters, and nothing else. -/
theorem validUtf8_iff (bytes : List UInt8) :
    validUtf8 bytes = true ↔ ∃ chars, bytes = encode chars := by
  refine ⟨fun valid => ?_, fun ⟨chars, spelled⟩ => spelled ▸ validUtf8_encode chars⟩
  induction bytes using validUtf8.induct with
  | case1 => exact ⟨[], rfl⟩
  | case2 b0 rest stops =>
      rw [validUtf8, stops] at valid
      cases valid
  | case3 b0 rest more goes ih =>
      rw [validUtf8, goes] at valid
      obtain ⟨chars, spelled⟩ := ih valid
      obtain ⟨c, ahead, bytes, length, tail, rfl⟩ := char_of_validTurn goes
      subst length
      rw [List.drop_left] at spelled
      exact ⟨c :: chars, by rw [encode_cons, bytes, List.cons_append, spelled]⟩

/-- Step through a buffer by a length at every offset, which is never zero: the offsets with
the scalars decoded there, and the offset of the end. -/
def walk (len : UInt8 → List UInt8 → Nat) (pos : Nat) : List UInt8 → List (Nat × Nat) × Nat
  | [] => ([], pos)
  | b0 :: rest =>
      let behind := walk len (pos + len b0 rest) (rest.drop (len b0 rest - 1))
      ((pos, (decodeUtf8 b0 rest).scalar) :: behind.1, behind.2)
termination_by bytes => bytes.length
decreasing_by simp only [List.length_drop, List.length_cons]; omega

/-- The length the decoder tells. -/
def decodedLen (b0 : UInt8) (rest : List UInt8) : Nat := (decodeUtf8 b0 rest).len

/-- The length the table tells. -/
def leadLen (b0 : UInt8) (_ : List UInt8) : Nat := utf8Len b0.toNat

/-- The characters of a text with the offsets of their first bytes. -/
def boundaries (pos : Nat) : List Char → List (Nat × Nat)
  | [] => []
  | c :: chars => (pos, c.toNat) :: boundaries (pos + (String.utf8EncodeChar c).length) chars

theorem utf8Len_lead {c : Char} {b0 : UInt8} {more : List UInt8}
    (bytes : String.utf8EncodeChar c = b0 :: more) : utf8Len b0.toNat = more.length + 1 := by
  by_cases small : c.toNat ≤ 127
  · rw [encode_ascii (by omega)] at bytes
    cases bytes
    rw [toNat_byte (by omega), utf8Len, if_neg (by omega), if_neg (by omega), if_neg (by omega)]
    rfl
  · obtain ⟨b0', more', wide⟩ := wide_of_large small
    rw [wide.bytes] at bytes
    cases bytes
    exact wide.len

theorem decodeUtf8_bytes {c : Char} {b0 : UInt8} {more : List UInt8}
    (bytes : String.utf8EncodeChar c = b0 :: more) (rest : List UInt8) :
    decodeUtf8 b0 (more ++ rest) = ⟨c.toNat, more.length + 1⟩ := by
  obtain ⟨b0', more', bytes', decoded⟩ := decodeUtf8_encode c
  rw [bytes] at bytes'
  cases bytes'
  exact decoded rest

/-- Stepping by a length that is right at every character visits the characters. -/
theorem walk_encode {len : UInt8 → List UInt8 → Nat}
    (right : ∀ c b0 more, String.utf8EncodeChar c = b0 :: more →
      ∀ rest, len b0 (more ++ rest) = more.length + 1) (chars : List Char) (pos : Nat) :
    walk len pos (encode chars) = (boundaries pos chars, pos + (encode chars).length) := by
  induction chars generalizing pos with
  | nil => rw [encode_nil, walk, boundaries, List.length_nil, Nat.add_zero]
  | cons c chars ih =>
      obtain ⟨b0, more, bytes⟩ := encodeChar_cons c
      rw [encode_cons, bytes, List.cons_append, walk, right c b0 more bytes,
        decodeUtf8_bytes bytes, Nat.add_sub_cancel, List.drop_left, ih, boundaries, bytes]
      simp only [List.length_cons, List.length_append]
      congr 1
      omega

/-- Validator, decoder, lengths and encoder agree on one format: the validator accepts the
encodings of characters; stepping through one by either length visits every character
where it starts and ends at the end; and the decoder undoes what the encoder writes. -/
theorem utf8_helpers_agree :
    (∀ bytes, validUtf8 bytes = true ↔ ∃ chars, bytes = encode chars) ∧
    (∀ chars,
      walk decodedLen 0 (encode chars) = (boundaries 0 chars, (encode chars).length) ∧
      walk leadLen 0 (encode chars) = (boundaries 0 chars, (encode chars).length)) ∧
    ∀ c : Char, ∃ b0 more, pushUtf8 c.toNat = b0 :: more ∧
      ∀ rest, decodeUtf8 b0 (more ++ rest) = ⟨c.toNat, (pushUtf8 c.toNat).length⟩ := by
  refine ⟨validUtf8_iff, fun chars => ⟨?_, ?_⟩, fun c => ?_⟩
  · have walked := @walk_encode decodedLen
      (fun c b0 more bytes rest => by rw [decodedLen, decodeUtf8_bytes bytes]) chars 0
    rwa [Nat.zero_add] at walked
  · have walked := @walk_encode leadLen (fun c b0 more bytes rest => utf8Len_lead bytes) chars 0
    rwa [Nat.zero_add] at walked
  · obtain ⟨b0, more, bytes, decoded⟩ := decodeUtf8_encode c
    rw [pushUtf8_eq, bytes]
    exact ⟨b0, more, rfl, decoded⟩

end Geas.Compiler.Lexing
