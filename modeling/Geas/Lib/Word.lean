import Mathlib.Data.Nat.Bitwise
import Mathlib.Data.List.Basic

/-!
# Little-endian words

Four- and eight-byte little-endian spellings of machine words, with the shift
and mask operations a C program uses for them.  Both directions are exact: every
word survives being written and read back, and every block of the right width is
the spelling of the word it reads as.
-/

namespace Geas.Lib.Word

/-- The four little-endian bytes of a 32-bit word. -/
def putU32 (value : UInt32) : List UInt8 :=
  [value.toUInt8, (value >>> 8).toUInt8, (value >>> 16).toUInt8, (value >>> 24).toUInt8]

/-- The eight little-endian bytes of a 64-bit word, low half first. -/
def putU64 (value : UInt64) : List UInt8 :=
  putU32 value.toUInt32 ++ putU32 (value >>> 32).toUInt32

/-- Read a 32-bit word from the first four bytes.  A shorter block reads as
zero; callers read only blocks they have measured. -/
def getU32 : List UInt8 → UInt32
  | b₀ :: b₁ :: b₂ :: b₃ :: _ =>
      b₀.toUInt32 ||| (b₁.toUInt32 <<< 8) ||| (b₂.toUInt32 <<< 16) ||| (b₃.toUInt32 <<< 24)
  | _ => 0

/-- Read a 64-bit word from the first eight bytes. -/
def getU64 (bytes : List UInt8) : UInt64 :=
  (getU32 bytes).toUInt64 ||| ((getU32 (bytes.drop 4)).toUInt64 <<< 32)

@[simp] theorem putU32_length (value : UInt32) : (putU32 value).length = 4 := rfl

@[simp] theorem putU64_length (value : UInt64) : (putU64 value).length = 8 := rfl

/-- Combining a low part with a shifted high part is addition when the low part
fits under the shift. -/
private theorem or_shiftLeft_eq_add {low : Nat} (high width : Nat) (fits : low < 2 ^ width) :
    low ||| high <<< width = low + high * 2 ^ width := by
  rw [Nat.lor_comm, ← Nat.shiftLeft_add_eq_or_of_lt fits, Nat.shiftLeft_eq, Nat.add_comm]

theorem getU32_toNat (b₀ b₁ b₂ b₃ : UInt8) (rest : List UInt8) :
    (getU32 (b₀ :: b₁ :: b₂ :: b₃ :: rest)).toNat =
      b₀.toNat + b₁.toNat * 2 ^ 8 + b₂.toNat * 2 ^ 16 + b₃.toNat * 2 ^ 24 := by
  have bound₀ := b₀.toNat_lt
  have bound₁ := b₁.toNat_lt
  have bound₂ := b₂.toNat_lt
  have bound₃ := b₃.toNat_lt
  have shift₁ : (b₁.toNat <<< 8) % 2 ^ 32 = b₁.toNat <<< 8 :=
    Nat.mod_eq_of_lt (by rw [Nat.shiftLeft_eq]; omega)
  have shift₂ : (b₂.toNat <<< 16) % 2 ^ 32 = b₂.toNat <<< 16 :=
    Nat.mod_eq_of_lt (by rw [Nat.shiftLeft_eq]; omega)
  have shift₃ : (b₃.toNat <<< 24) % 2 ^ 32 = b₃.toNat <<< 24 :=
    Nat.mod_eq_of_lt (by rw [Nat.shiftLeft_eq]; omega)
  simp only [getU32, UInt32.toNat_or, UInt32.toNat_shiftLeft, UInt8.toNat_toUInt32]
  simp only [show (8 : UInt32).toNat % 32 = 8 from rfl, show (16 : UInt32).toNat % 32 = 16 from rfl,
    show (24 : UInt32).toNat % 32 = 24 from rfl, shift₁, shift₂, shift₃]
  rw [or_shiftLeft_eq_add b₁.toNat 8 (by omega), or_shiftLeft_eq_add b₂.toNat 16 (by omega),
    or_shiftLeft_eq_add b₃.toNat 24 (by omega)]

theorem getU64_toNat (bytes : List UInt8) :
    (getU64 bytes).toNat =
      (getU32 bytes).toNat + (getU32 (bytes.drop 4)).toNat * 2 ^ 32 := by
  have low := (getU32 bytes).toNat_lt
  have high := (getU32 (bytes.drop 4)).toNat_lt
  have shift : ((getU32 (bytes.drop 4)).toNat <<< 32) % 2 ^ 64 =
      (getU32 (bytes.drop 4)).toNat <<< 32 :=
    Nat.mod_eq_of_lt (by rw [Nat.shiftLeft_eq]; omega)
  simp only [getU64, UInt64.toNat_or, UInt64.toNat_shiftLeft, UInt32.toNat_toUInt64]
  simp only [show (32 : UInt64).toNat % 64 = 32 from rfl, shift]
  exact or_shiftLeft_eq_add _ 32 (by omega)

/-- Writing a 32-bit word and reading it back is the identity. -/
@[simp] theorem getU32_putU32 (value : UInt32) (rest : List UInt8) :
    getU32 (putU32 value ++ rest) = value := by
  apply UInt32.toNat_inj.mp
  have bound := value.toNat_lt
  simp only [putU32, List.cons_append, List.nil_append, getU32_toNat, UInt32.toNat_toUInt8,
    UInt32.toNat_shiftRight, Nat.shiftRight_eq_div_pow]
  simp only [show (8 : UInt32).toNat % 32 = 8 from rfl, show (16 : UInt32).toNat % 32 = 16 from rfl,
    show (24 : UInt32).toNat % 32 = 24 from rfl]
  omega

/-- Writing a 64-bit word and reading it back is the identity. -/
@[simp] theorem getU64_putU64 (value : UInt64) (rest : List UInt8) :
    getU64 (putU64 value ++ rest) = value := by
  apply UInt64.toNat_inj.mp
  have bound := value.toNat_lt
  have tail : (putU64 value ++ rest).drop 4 = putU32 (value >>> 32).toUInt32 ++ rest := rfl
  rw [getU64_toNat, tail, putU64, List.append_assoc, getU32_putU32, getU32_putU32]
  simp only [UInt64.toNat_toUInt32, UInt64.toNat_shiftRight, Nat.shiftRight_eq_div_pow,
    show (32 : UInt64).toNat % 64 = 32 from rfl]
  omega

/-- A four-byte block is the spelling of the word it reads as. -/
theorem putU32_getU32 {bytes : List UInt8} (width : bytes.length = 4) :
    putU32 (getU32 bytes) = bytes := by
  match bytes, width with
  | [b₀, b₁, b₂, b₃], _ =>
      have bound₀ := b₀.toNat_lt
      have bound₁ := b₁.toNat_lt
      have bound₂ := b₂.toNat_lt
      have bound₃ := b₃.toNat_lt
      simp only [putU32, List.cons.injEq, ← UInt8.toNat_inj, UInt32.toNat_toUInt8,
        UInt32.toNat_shiftRight, getU32_toNat, Nat.shiftRight_eq_div_pow]
      simp only [show (8 : UInt32).toNat % 32 = 8 from rfl,
        show (16 : UInt32).toNat % 32 = 16 from rfl, show (24 : UInt32).toNat % 32 = 24 from rfl]
      refine ⟨?_, ?_, ?_, ?_, trivial⟩ <;> omega

/-- An eight-byte block is the spelling of the word it reads as. -/
theorem putU64_getU64 {bytes : List UInt8} (width : bytes.length = 8) :
    putU64 (getU64 bytes) = bytes := by
  have low := (getU32 bytes).toNat_lt
  have high := (getU32 (bytes.drop 4)).toNat_lt
  have lowHalf : (getU64 bytes).toUInt32 = getU32 bytes := by
    apply UInt32.toNat_inj.mp
    rw [UInt64.toNat_toUInt32, getU64_toNat]
    omega
  have highHalf : (getU64 bytes >>> 32).toUInt32 = getU32 (bytes.drop 4) := by
    apply UInt32.toNat_inj.mp
    simp only [UInt64.toNat_toUInt32, UInt64.toNat_shiftRight, getU64_toNat,
      Nat.shiftRight_eq_div_pow, show (32 : UInt64).toNat % 64 = 32 from rfl]
    omega
  have front : getU32 bytes = getU32 (bytes.take 4) := by
    match bytes, width with
    | [_, _, _, _, _, _, _, _], _ => rfl
  rw [putU64, lowHalf, highHalf, front, putU32_getU32 (by simp [width]),
    putU32_getU32 (by simp [width]), List.take_append_drop]

end Geas.Lib.Word
