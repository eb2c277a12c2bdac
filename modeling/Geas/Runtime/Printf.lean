import Geas.Runtime.Registry
import Mathlib.Algebra.Order.Ring.Nat
import Mathlib.Data.Nat.Log

/-!
# Conversions of the C library

The conversions that the debug renderer formats a number with, each with a bound on its
width.  `%g` writes six significant digits of the exact value of a double, rounded to nearest
and to even on a tie, with the zeros at the end left out.
-/

namespace Geas.Runtime

/-- The digits of a number in a base. -/
def digits (base n : Nat) : CString := (Nat.toDigits base n).map fun c => UInt8.ofNat c.toNat

/-- Zeros in front, up to a width. -/
def padded (width : Nat) (text : CString) : CString :=
  List.replicate (width - text.length) 48 ++ text

/-- Small letters as capitals. -/
def capitals (text : CString) : CString := text.map fun b => if 97 ≤ b then b - 32 else b

/-- `%lld`. -/
def fmtLld (i : Int64) : CString :=
  (if i.toInt < 0 then ascii "-" else []) ++ digits 10 i.toInt.natAbs

/-- `%llu`. -/
def fmtLlu (u : UInt64) : CString := digits 10 u.toNat

/-- `%02x` of a byte. -/
def fmt02x (b : UInt8) : CString := padded 2 (digits 16 b.toNat)

/-- `%04X`. -/
def fmt04X (word : UInt32) : CString := padded 4 (capitals (digits 16 word.toNat))

/-! ### `%g` -/

/-- A quotient to the nearest whole number, and to the even one of two. -/
def roundHalfEven (num den : Nat) : Nat :=
  let q := num / den
  let r := num % den
  if 2 * r > den ∨ (2 * r = den ∧ q % 2 = 1) then q + 1 else q

/-- The exponent of ten at the first digit of a positive quotient. -/
def decimalExponent (num den : Nat) : Int :=
  if den ≤ num then Nat.log 10 (num / den)
  else -(Nat.clog 10 ((den + num - 1) / num) : Int)

/-- The six digits of a number below a million. -/
def sixDigits (m : Nat) : List Nat :=
  [m / 100000 % 10, m / 10000 % 10, m / 1000 % 10, m / 100 % 10, m / 10 % 10, m % 10]

/-- Digits as characters. -/
def spellDigits (ds : List Nat) : CString := ds.map fun d => UInt8.ofNat (48 + d)

/-- Digits without the zeros at the end. -/
def trimmed (ds : List Nat) : List Nat := (ds.reverse.dropWhile (· == 0)).reverse

/-- A point and the digits behind it, or nothing when there are none. -/
def fraction (ds : List Nat) : CString :=
  if trimmed ds = [] then [] else ascii "." ++ spellDigits (trimmed ds)

/-- Six digits with the exponent of the first one, as `%g` lays them out. -/
def spellG (m : Nat) (x : Int) : CString :=
  let ds := sixDigits m
  if -4 ≤ x ∧ x < 0 then
    ascii "0." ++ List.replicate (-x - 1).toNat 48 ++ spellDigits (trimmed ds)
  else if 0 ≤ x ∧ x < 6 then
    spellDigits (ds.take (x + 1).toNat) ++ fraction (ds.drop (x + 1).toNat)
  else
    spellDigits (ds.take 1) ++ fraction (ds.drop 1) ++ ascii (if x < 0 then "e-" else "e+") ++
      padded 2 (digits 10 x.natAbs)

/-- `%g` of a positive quotient. -/
def fmtGPositive (num den : Nat) : CString :=
  let first := decimalExponent num den
  let m :=
    if first ≤ 5 then roundHalfEven (num * 10 ^ (5 - first).toNat) den
    else roundHalfEven num (den * 10 ^ (first - 5).toNat)
  -- Rounding may carry into a seventh digit.
  if m = 1000000 then spellG 100000 (first + 1) else spellG m first

/-- The value of a finite double by its exponent and mantissa bits.  Below the least normal
exponent the leading one is not hidden but absent. -/
def doubleQuotient (exponent mantissa : Nat) : Nat × Nat :=
  let significand := if exponent = 0 then mantissa else 2 ^ 52 + mantissa
  let scale := max exponent 1
  if 1075 ≤ scale then (significand * 2 ^ (scale - 1075), 1)
  else (significand, 2 ^ (1075 - scale))

/-- `%g` of a double by its bit pattern. -/
def fmtG (bits : UInt64) : CString :=
  let sign := if 2 ^ 63 ≤ bits.toNat then ascii "-" else []
  let exponent := bits.toNat / 2 ^ 52 % 2 ^ 11
  let mantissa := bits.toNat % 2 ^ 52
  if exponent = 2047 then sign ++ ascii (if mantissa = 0 then "inf" else "nan")
  else if exponent = 0 ∧ mantissa = 0 then sign ++ ascii "0"
  else
    let (num, den) := doubleQuotient exponent mantissa
    sign ++ fmtGPositive num den

/-! ### Widths -/

theorem digits_length {base n k : Nat} (two : 1 < base) (positive : 0 < k) (small : n < base ^ k) :
    (digits base n).length ≤ k := by
  rw [digits, List.length_map]
  exact (Nat.length_toDigits_le_iff two positive).mpr small

theorem padded_length {width k : Nat} {text : CString} (wide : width ≤ k)
    (short : text.length ≤ k) : (padded width text).length ≤ k := by
  rw [padded, List.length_append, List.length_replicate]
  omega

theorem fmtLld_length (i : Int64) : (fmtLld i).length ≤ 20 := by
  have low := i.le_toInt
  have high := i.toInt_lt
  have digitsShort : (digits 10 i.toInt.natAbs).length ≤ 19 :=
    digits_length (by decide) (by decide) (by omega)
  have signShort : (if i.toInt < 0 then ascii "-" else []).length ≤ 1 := by
    split <;> decide
  rw [fmtLld, List.length_append]
  omega

theorem fmtLlu_length (u : UInt64) : (fmtLlu u).length ≤ 20 :=
  digits_length (by decide) (by decide) (u.toNat_lt.trans (by decide))

theorem decimal_length (word : UInt32) : (decimal word).length ≤ 10 :=
  digits_length (by decide) (by decide) (word.toNat_lt.trans (by decide))

theorem fmt02x_length (b : UInt8) : (fmt02x b).length ≤ 2 :=
  padded_length (le_refl 2) (digits_length (by decide) (by decide) b.toNat_lt)

theorem fmt04X_length (word : UInt32) : (fmt04X word).length ≤ 8 := by
  refine padded_length (by decide) ?_
  rw [capitals, List.length_map]
  exact digits_length (by decide) (by decide) word.toNat_lt

theorem trimmed_length (ds : List Nat) : (trimmed ds).length ≤ ds.length := by
  have inside := (List.dropWhile_suffix (l := ds.reverse) (· == 0)).length_le
  rwa [List.length_reverse, ← List.length_reverse] at inside

theorem fraction_length (ds : List Nat) : (fraction ds).length ≤ ds.length + 1 := by
  have short := trimmed_length ds
  rw [fraction]
  split
  · exact Nat.zero_le _
  · rw [List.length_append, spellDigits, List.length_map]
    have point : (ascii ".").length = 1 := rfl
    omega

/-- The exponent of a quotient is bounded by the powers of ten that bound its parts. -/
theorem decimalExponent_bound {num den k : Nat} (positive : 0 < num)
    (numSmall : num < 10 ^ k) (denSmall : den ≤ 10 ^ k) :
    (decimalExponent num den).natAbs ≤ k := by
  rw [decimalExponent]
  split
  · have log : Nat.log 10 (num / den) ≤ k :=
      (Nat.log_mono_right (Nat.div_le_self num den)).trans
        (Nat.log_lt_of_lt_pow positive.ne' numSmall).le
    omega
  · have atMost : (den + num - 1) / num ≤ den := by
      rw [Nat.div_le_iff_le_mul_add_pred positive]
      have grows := Nat.le_mul_of_pos_right den positive
      rw [Nat.mul_comm] at grows
      omega
    have clog := Nat.clog_le_of_le_pow (atMost.trans denSmall)
    omega

theorem spellDigits_length (ds : List Nat) : (spellDigits ds).length = ds.length :=
  List.length_map _

theorem sixDigits_length (m : Nat) : (sixDigits m).length = 6 := rfl

/-- Six digits, a point, and four places of an exponent with its mark and sign at most. -/
theorem spellG_length {m : Nat} {x : Int} (bound : x.natAbs ≤ 1101) :
    (spellG m x).length ≤ 13 := by
  have digitsShort : (padded 2 (digits 10 x.natAbs)).length ≤ 4 :=
    padded_length (by decide)
      (digits_length (by decide) (by decide) (Nat.lt_of_le_of_lt bound (by decide)))
  have six := sixDigits_length m
  rw [spellG]
  split
  · have trim := trimmed_length (sixDigits m)
    simp only [List.length_append, List.length_replicate, spellDigits_length]
    have lead : (ascii "0.").length = 2 := rfl
    omega
  · split
    · have behind := fraction_length ((sixDigits m).drop (x + 1).toNat)
      rw [List.length_drop] at behind
      rw [List.length_append, spellDigits_length, List.length_take]
      omega
    · have behind := fraction_length ((sixDigits m).drop 1)
      have mark : (ascii (if x < 0 then "e-" else "e+")).length = 2 := by
        split <;> rfl
      rw [List.length_drop] at behind
      simp only [List.length_append, spellDigits_length, List.length_take]
      omega

theorem fmtGPositive_length {num den : Nat}
    (bound : (decimalExponent num den).natAbs ≤ 1100) : (fmtGPositive num den).length ≤ 13 := by
  have carried (m : Nat) :
      (if m = 1000000 then spellG 100000 (decimalExponent num den + 1)
        else spellG m (decimalExponent num den)).length ≤ 13 := by
    split
    · exact spellG_length (by omega)
    · exact spellG_length (by omega)
  exact carried _

theorem doubleQuotient_positive {exponent mantissa : Nat}
    (nonzero : ¬(exponent = 0 ∧ mantissa = 0)) : 0 < (doubleQuotient exponent mantissa).1 := by
  have significand : 0 < if exponent = 0 then mantissa else 2 ^ 52 + mantissa := by
    split <;> omega
  rw [doubleQuotient]
  split
  · exact Nat.mul_pos significand (Nat.two_pow_pos _)
  · exact significand

theorem two_pow_le_ten_pow {k n : Nat} (small : k ≤ n) : 2 ^ k ≤ 10 ^ n :=
  (Nat.pow_le_pow_right (by decide) small).trans (Nat.pow_le_pow_left (by decide) n)

/-- A double's value is a quotient of numbers of no more than 1100 digits. -/
theorem doubleQuotient_small (exponent mantissa : Nat) {n : Nat} (exponentSmall : exponent < 2047)
    (mantissaSmall : mantissa < 2 ^ 52) (many : 1100 ≤ n) :
    (doubleQuotient exponent mantissa).1 < 10 ^ n ∧
      (doubleQuotient exponent mantissa).2 ≤ 10 ^ n := by
  have significand : (if exponent = 0 then mantissa else 2 ^ 52 + mantissa) < 2 ^ 53 := by
    split <;> omega
  rw [doubleQuotient]
  split
  · refine ⟨?_, Nat.one_le_pow _ _ (by decide)⟩
    calc (if exponent = 0 then mantissa else 2 ^ 52 + mantissa) * 2 ^ (max exponent 1 - 1075)
        < 2 ^ 53 * 2 ^ (max exponent 1 - 1075) :=
          Nat.mul_lt_mul_of_pos_right significand (Nat.two_pow_pos _)
      _ = 2 ^ (53 + (max exponent 1 - 1075)) := (Nat.pow_add 2 53 _).symm
      _ ≤ 10 ^ n := two_pow_le_ten_pow (by omega)
  · exact ⟨significand.trans_le (two_pow_le_ten_pow (by omega)),
      two_pow_le_ten_pow (by omega)⟩

/-- `%g` fits the formatting buffer. -/
theorem fmtG_length (bits : UInt64) : (fmtG bits).length ≤ 14 := by
  have sign : (if 2 ^ 63 ≤ bits.toNat then ascii "-" else []).length ≤ 1 := by
    split <;> decide
  rw [fmtG]
  split
  · have name : (ascii (if bits.toNat % 2 ^ 52 = 0 then "inf" else "nan")).length = 3 := by
      split <;> rfl
    rw [List.length_append]
    omega
  · rename_i finite
    split
    · have zero : (ascii "0").length = 1 := rfl
      rw [List.length_append]
      omega
    · rename_i nonzero
      have small := doubleQuotient_small (bits.toNat / 2 ^ 52 % 2 ^ 11) (bits.toNat % 2 ^ 52) (by omega)
         (by omega) (le_refl 1100)
      have positive := doubleQuotient_positive nonzero
      have short := fmtGPositive_length (decimalExponent_bound positive small.1 small.2)
      rw [List.length_append]
      omega

end Geas.Runtime
