import Geas.Abi.Value
import Geas.Lib.Word

/-!
# Encoding a value

The encoder runs twice over a value.  The sizing pass validates and measures,
and the write pass assumes a value the sizing pass accepted.  This module embeds
both and connects them to `Canonical`, the format's own notion of an encodable
value: the sizing pass accepts exactly the canonical values whose spelling fits
a `size_t`, and the size it reports is the length of what is written.
-/

namespace Geas.Wire

open Geas.Abi
open Geas.Lib.Word

/-- The largest `size_t`. -/
def sizeMax : Nat := 2 ^ 64 - 1

/-- `GEAS_WIRE_MAX_DEPTH`. -/
def maxDepth : Nat := 64

/-- A type code that may cross: everything up to `SUM` but a pledge reference. -/
def tagCrosses (ty : UInt32) : Bool :=
  ty ≤ GeasTypeTag.sum.code && ty != GeasTypeTag.pledgeRef.code

/-- The scalars that may key a map. -/
def tagKeyable (ty : UInt32) : Bool :=
  match GeasTypeTag.ofCode ty with
  | some .int | some .uint | some .bool | some .byte | some .char | some .string => true
  | _ => false

/-- Not a Unicode scalar value. -/
def charMalformed (ch : UInt32) : Bool :=
  ch > 0x10FFFF || (ch ≥ 0xD800 && ch ≤ 0xDFFF)

/-- Add to the running size, refusing what a `size_t` cannot hold. -/
def sizeAdd (total n : Nat) : Except GeasStatus Nat :=
  if n > sizeMax - total then .error .errOom else .ok (total + n)

/-- Stop with `GEAS_ERR_TYPE` unless a condition holds. -/
def expect (condition : Bool) : Except GeasStatus Unit :=
  if condition then .ok () else .error .errType

/-- The element rule of a list: every element has the declared type. -/
def listSlot (elemTy : UInt32) : Nat → GeasValue → Bool :=
  fun _ element => element.ty == elemTy

/-- The slot rule of a map: a key, at an even position, has the declared type. -/
def mapSlot (keyTy : UInt32) : Nat → GeasValue → Bool :=
  fun i slot => i % 2 != 0 || slot.ty == keyTy

/-- A tuple, record or sum puts no rule on its fields. -/
def anySlot : Nat → GeasValue → Bool := fun _ _ => true

mutual
/-- The sizing pass at one nesting depth. -/
def encodeSize (depth : Nat) (value : GeasValue) (total : Nat) : Except GeasStatus Nat := do
  expect (depth ≤ maxDepth)
  let total ← sizeAdd total 8
  match value with
  | .unit tag => do
      expect (tag == 0)
      pure total
  | .int tag _ | .uint tag _ | .float tag _ => do
      expect (tag == 0)
      sizeAdd total 8
  | .bool tag b => do
      expect (tag == 0 && b ≤ 1)
      sizeAdd total 1
  | .byte tag _ => do
      expect (tag == 0)
      sizeAdd total 1
  | .char tag ch => do
      expect (tag == 0 && !charMalformed ch)
      sizeAdd total 4
  | .string tag none => do
      expect (tag == 0)
      .error .errType
  | .string tag (some bytes) => do
      expect (tag == 0)
      let total ← sizeAdd total 8
      sizeAdd total bytes.length
  | .list tag elemTy data => do
      expect (tag == 0)
      expect (tagCrosses elemTy)
      match data with
      | none => .error .errType
      | some elements => do
          let total ← sizeAdd total 12
          encodeSizeAll (listSlot elemTy) (depth + 1) 0 elements total
  | .map tag elemTy data => do
      expect (tag == 0)
      expect (tagKeyable elemTy)
      match data with
      | none => .error .errType
      | some slots => do
          expect (slots.length % 2 == 0)
          let total ← sizeAdd total 12
          encodeSizeAll (mapSlot elemTy) (depth + 1) 0 slots total
  | .tuple tag data | .record tag data => do
      expect (tag == 0)
      match data with
      | none => .error .errType
      | some fields => do
          let total ← sizeAdd total 8
          encodeSizeAll anySlot (depth + 1) 0 fields total
  | .sum _ none => .error .errType
  | .sum _ (some fields) => do
      let total ← sizeAdd total 8
      encodeSizeAll anySlot (depth + 1) 0 fields total
  | .option tag none => do
      expect (tag ≤ 1)
      expect (tag == 0)
      pure total
  | .option tag (some content) => do
      expect (tag ≤ 1)
      expect (tag != 0)
      encodeSize (depth + 1) content total
  | .result _ none => .error .errType
  | .result tag (some content) => do
      expect (tag ≤ 1)
      encodeSize (depth + 1) content total
  | .pledgeRef _ | .inst _ _ | .unknown _ _ _ => .error .errType

/-- The element loop of the sizing pass, the slot rule tested before the
element is sized. -/
def encodeSizeAll (slot : Nat → GeasValue → Bool) (depth i : Nat) (elements : List GeasValue)
    (total : Nat) : Except GeasStatus Nat :=
  match elements with
  | [] => .ok total
  | element :: rest => do
      expect (slot i element)
      let total ← encodeSize depth element total
      encodeSizeAll slot depth (i + 1) rest total
end

/-- The eight-byte header every encoded value starts with. -/
def header (ty tag : UInt32) : List UInt8 := putU32 ty ++ putU32 tag

/-- A 64-bit count field. -/
def count (n : Nat) : List UInt8 := putU64 (UInt64.ofNat n)

mutual
/-- The write pass: the bytes placed at the output pointer. -/
def encodeWrite : GeasValue → List UInt8
  | .unit tag => header GeasTypeTag.unit.code tag
  | .int tag i => header GeasTypeTag.int.code tag ++ putU64 i.toUInt64
  | .uint tag u => header GeasTypeTag.uint.code tag ++ putU64 u
  | .float tag bits => header GeasTypeTag.float.code tag ++ putU64 bits
  | .bool tag b => header GeasTypeTag.bool.code tag ++ [b]
  | .byte tag b => header GeasTypeTag.byte.code tag ++ [b]
  | .char tag ch => header GeasTypeTag.char.code tag ++ putU32 ch
  | .string tag none => header GeasTypeTag.string.code tag
  | .string tag (some bytes) =>
      header GeasTypeTag.string.code tag ++ (count bytes.length ++ bytes)
  | .list tag _ none => header GeasTypeTag.list.code tag
  | .list tag elemTy (some elements) => header GeasTypeTag.list.code tag ++
      (count elements.length ++ putU32 elemTy ++ encodeWriteAll elements)
  | .map tag _ none => header GeasTypeTag.map.code tag
  | .map tag elemTy (some slots) => header GeasTypeTag.map.code tag ++
      (count slots.length ++ putU32 elemTy ++ encodeWriteAll slots)
  | .tuple tag none => header GeasTypeTag.tuple.code tag
  | .tuple tag (some fields) => header GeasTypeTag.tuple.code tag ++
      (count fields.length ++ encodeWriteAll fields)
  | .record tag none => header GeasTypeTag.record.code tag
  | .record tag (some fields) => header GeasTypeTag.record.code tag ++
      (count fields.length ++ encodeWriteAll fields)
  | .sum tag none => header GeasTypeTag.sum.code tag
  | .sum tag (some fields) => header GeasTypeTag.sum.code tag ++
      (count fields.length ++ encodeWriteAll fields)
  | .option tag none => header GeasTypeTag.option.code tag
  | .option tag (some content) => header GeasTypeTag.option.code tag ++
      (if tag = 1 then encodeWrite content else [])
  | .result tag none => header GeasTypeTag.result.code tag
  | .result tag (some content) => header GeasTypeTag.result.code tag ++ encodeWrite content
  | .pledgeRef tag => header GeasTypeTag.pledgeRef.code tag
  | .inst tag _ => header GeasTypeTag.inst.code tag
  | .unknown ty tag _ => header ty tag

/-- The element loop of the write pass. -/
def encodeWriteAll : List GeasValue → List UInt8
  | [] => []
  | element :: rest => encodeWrite element ++ encodeWriteAll rest
end

/-- What a call of the encoder leaves behind: its status, `need` when it was
set, and the bytes written to the buffer. -/
structure EncodeResult where
  status : GeasStatus
  need : Option Nat
  written : List UInt8
  deriving DecidableEq, Repr

/-- Encode a value into a buffer of the given capacity, `none` for a NULL
buffer. -/
def geasWireEncodeValue (value : GeasValue) (capacity : Option Nat) : EncodeResult :=
  match encodeSize 1 value 0 with
  | .error status => ⟨status, none, []⟩
  | .ok total =>
      match capacity with
      | none => ⟨.errOom, some total, []⟩
      | some capacity =>
          if capacity < total then ⟨.errOom, some total, []⟩
          else ⟨.ok, some total, encodeWrite value⟩

/-! ## The format's own notion of an encodable value -/

/-- Every element fits the slot rule at its position, counted from `i`. -/
def slotsFit (slot : Nat → GeasValue → Bool) : Nat → List GeasValue → Bool
  | _, [] => true
  | i, element :: rest => slot i element && slotsFit slot (i + 1) rest

/-- A value the format can spell within the given number of nesting levels. -/
def Canonical : Nat → GeasValue → Prop
  | 0, _ => False
  | levels + 1, value =>
      match value with
      | .unit tag | .int tag _ | .uint tag _ | .float tag _ | .byte tag _ => tag = 0
      | .string tag bytes => tag = 0 ∧ bytes.isSome
      | .bool tag b => tag = 0 ∧ b ≤ 1
      | .char tag ch => tag = 0 ∧ charMalformed ch = false
      | .list tag elemTy (some elements) =>
          tag = 0 ∧ tagCrosses elemTy ∧ slotsFit (listSlot elemTy) 0 elements ∧
            ∀ element ∈ elements, Canonical levels element
      | .map tag elemTy (some slots) =>
          tag = 0 ∧ tagKeyable elemTy ∧ slots.length % 2 = 0 ∧
            slotsFit (mapSlot elemTy) 0 slots ∧ ∀ slot ∈ slots, Canonical levels slot
      | .tuple tag (some fields) | .record tag (some fields) =>
          tag = 0 ∧ ∀ field ∈ fields, Canonical levels field
      | .sum _ (some fields) => ∀ field ∈ fields, Canonical levels field
      | .option tag none => tag = 0
      | .option tag (some content) => tag = 1 ∧ Canonical levels content
      | .result tag (some content) => tag ≤ 1 ∧ Canonical levels content
      | _ => False

@[simp] theorem header_length (ty tag : UInt32) : (header ty tag).length = 8 := rfl

@[simp] theorem count_length (n : Nat) : (count n).length = 8 := rfl

/-- Every spelling starts with the type code and the tag. -/
theorem encodeWrite_header (value : GeasValue) :
    ∃ body, encodeWrite value = header value.ty value.tag ++ body := by
  cases value with
  | string _ data | list _ _ data | map _ _ data | tuple _ data | record _ data | sum _ data
  | option _ data | result _ data =>
      cases data <;> simp only [encodeWrite, GeasValue.ty, GeasValue.tag]
      · exact ⟨[], (List.append_nil _).symm⟩
      · exact ⟨_, rfl⟩
  | unit | pledgeRef | inst | unknown =>
      simp only [encodeWrite, GeasValue.ty, GeasValue.tag]
      exact ⟨[], (List.append_nil _).symm⟩
  | int | uint | float | bool | byte | char =>
      simp only [encodeWrite, GeasValue.ty, GeasValue.tag]
      exact ⟨_, rfl⟩

/-- No spelling is shorter than its header. -/
theorem encodeWrite_length_ge (value : GeasValue) : 8 ≤ (encodeWrite value).length := by
  obtain ⟨body, spelled⟩ := encodeWrite_header value
  rw [spelled, List.length_append, header_length]
  omega

theorem encodeWriteAll_length_ge (elements : List GeasValue) :
    8 * elements.length ≤ (encodeWriteAll elements).length := by
  induction elements with
  | nil => simp [encodeWriteAll]
  | cons element rest ih =>
      have head := encodeWrite_length_ge element
      simp only [encodeWriteAll, List.length_cons, List.length_append]
      omega

/-! ## What a part of the sizing pass measures -/

/-- A part of the sizing pass succeeds exactly when `accepted` holds and the
result fits, and then it has added `length`.  It never fails with `GEAS_OK`. -/
def Measures (pass : Nat → Except GeasStatus Nat) (accepted : Prop) (length : Nat) : Prop :=
  ∀ total size, total ≤ sizeMax →
    (pass total = .ok size ↔ accepted ∧ size = total + length ∧ size ≤ sizeMax) ∧
      pass total ≠ .error .ok

namespace Measures

variable {next : Nat → Except GeasStatus Nat} {accepted accepted' : Prop} {length length' : Nat}

/-- The length matters only for what is accepted. -/
theorem congr_of (measures : Measures next accepted length) (same : accepted ↔ accepted')
    (equal : accepted' → length = length') : Measures next accepted' length' := by
  intro total size fits
  refine ⟨?_, (measures total size fits).2⟩
  rw [(measures total size fits).1, same]
  exact and_congr_right fun accepts => by rw [equal accepts]

theorem congr (measures : Measures next accepted length) (same : accepted ↔ accepted')
    (equal : length = length') : Measures next accepted' length' :=
  measures.congr_of same fun _ => equal

theorem done : Measures (fun total => pure total) True 0 := by
  intro total size fits
  refine ⟨?_, nofun⟩
  simp only [pure, Except.pure, Except.ok.injEq, true_and]
  omega

theorem refuse (length : Nat) : Measures (fun _ => .error .errType) False length := by
  intro total size fits
  simp

theorem add (width : Nat) : Measures (fun total => sizeAdd total width) True width := by
  intro total size fits
  simp only [sizeAdd, true_and]
  split
  · simp only [reduceCtorEq, false_iff, ne_eq, Except.error.injEq, not_false_eq_true, and_true]
    omega
  · simp only [Except.ok.injEq, ne_eq, reduceCtorEq, not_false_eq_true, and_true]
    omega

theorem add_then (width : Nat) (measures : Measures next accepted length) :
    Measures (fun total => sizeAdd total width >>= next) accepted (width + length) := by
  intro total size fits
  simp only [sizeAdd]
  split
  · simp only [bind, Except.bind, reduceCtorEq, false_iff, ne_eq, Except.error.injEq,
      not_false_eq_true, and_true]
    omega
  · simp only [bind, Except.bind]
    have later := measures (total + width) size (by omega)
    rw [Nat.add_assoc] at later
    exact later

theorem expect_then (condition : Bool) (measures : Measures next accepted length) :
    Measures (fun total => expect condition >>= fun _ => next total)
      (condition = true ∧ accepted) length := by
  intro total size fits
  cases condition
  · simp [expect, bind, Except.bind]
  · simpa [expect, bind, Except.bind] using measures total size fits

/-- Two measured parts in a row. -/
theorem andThen {first : Nat → Except GeasStatus Nat} (head : Measures first accepted length)
    (tail : Measures next accepted' length') :
    Measures (fun total => first total >>= next) (accepted ∧ accepted') (length + length') := by
  intro total size fits
  simp only [bind, Except.bind]
  cases run : first total with
  | error status =>
      simp only [reduceCtorEq, false_iff]
      refine ⟨?_, run ▸ (head total size fits).2⟩
      rintro ⟨⟨accepts, _⟩, size_eq, bounded⟩
      have ok := (head total (total + length) fits).1.mpr ⟨accepts, rfl, by omega⟩
      rw [run] at ok
      cases ok
  | ok middle =>
      obtain ⟨accepts, middle_eq, bounded⟩ := (head total middle fits).1.mp run
      subst middle_eq
      have later := tail (total + length) size bounded
      rw [Nat.add_assoc] at later
      refine ⟨later.1.trans ?_, later.2⟩
      exact ⟨fun ⟨holds, rest⟩ => ⟨⟨accepts, holds⟩, rest⟩,
        fun ⟨⟨_, holds⟩, rest⟩ => ⟨holds, rest⟩⟩

end Measures

/-- A tuple, record or sum accepts any fields. -/
theorem slotsFit_any (i : Nat) (fields : List GeasValue) : slotsFit anySlot i fields = true := by
  induction fields generalizing i with
  | nil => rfl
  | cons field rest ih => simp [slotsFit, anySlot, ih]

/-- The only non-zero tag an `Option` may carry. -/
theorem tag_eq_one_iff {tag : UInt32} : tag ≤ 1 ∧ ¬tag = 0 ↔ tag = 1 := by
  constructor
  · rintro ⟨small, nonzero⟩
    apply UInt32.toNat_inj.mp
    have bound : tag.toNat ≤ 1 := UInt32.le_iff_toNat_le.mp small
    have positive : tag.toNat ≠ 0 := fun zero => nonzero (UInt32.toNat_inj.mp zero)
    change tag.toNat = 1
    omega
  · rintro rfl
    decide

mutual
/-- The sizing pass accepts exactly the canonical values whose spelling fits,
and adds the length of the spelling to the running size. -/
theorem encodeSize_measures (depth : Nat) (value : GeasValue) :
    Measures (encodeSize depth value) (Canonical (maxDepth + 1 - depth) value)
      (encodeWrite value).length := by
  intro total size fits
  unfold encodeSize
  by_cases shallow : depth ≤ maxDepth
  · obtain ⟨levels, here⟩ : ∃ levels, maxDepth + 1 - depth = levels + 1 :=
      ⟨maxDepth - depth, by omega⟩
    have below : maxDepth + 1 - (depth + 1) = levels := by omega
    rw [here]
    cases value with
    | unit tag =>
        exact ((Measures.done.expect_then _).add_then 8 |>.expect_then _).congr
          (by simp [shallow, Canonical]) (by simp [encodeWrite]) total size fits
    | int tag i | uint tag i | float tag i =>
        exact (((Measures.add 8).expect_then _).add_then 8 |>.expect_then _).congr
          (by simp [shallow, Canonical]) (by simp [encodeWrite]) total size fits
    | bool tag b | byte tag b =>
        exact (((Measures.add 1).expect_then _).add_then 8 |>.expect_then _).congr
          (by simp [shallow, Canonical]) (by simp [encodeWrite]) total size fits
    | char tag ch =>
        exact (((Measures.add 4).expect_then _).add_then 8 |>.expect_then _).congr
          (by simp [shallow, Canonical]) (by simp [encodeWrite]) total size fits
    | string tag data =>
        cases data with
        | none =>
            exact (((Measures.refuse 0).expect_then _).add_then 8 |>.expect_then _).congr
              (by simp [Canonical]) (by simp [encodeWrite]) total size fits
        | some bytes =>
            exact ((((Measures.add bytes.length).add_then 8).expect_then _).add_then 8
              |>.expect_then _).congr
              (by simp [shallow, Canonical]) (by simp [encodeWrite]) total size fits
    | list tag elemTy data =>
        cases data with
        | none =>
            exact ((((Measures.refuse 0).expect_then _).expect_then _).add_then 8
              |>.expect_then _).congr
              (by simp [Canonical]) (by simp [encodeWrite]) total size fits
        | some elements =>
            exact (((((encodeSizeAll_measures (listSlot elemTy) (depth + 1) 0 elements).add_then
              12).expect_then _).expect_then _).add_then 8 |>.expect_then _).congr
              (by simp [shallow, Canonical, below]) (by simp [encodeWrite]; omega) total size fits
    | map tag elemTy data =>
        cases data with
        | none =>
            exact ((((Measures.refuse 0).expect_then _).expect_then _).add_then 8
              |>.expect_then _).congr
              (by simp [Canonical]) (by simp [encodeWrite]) total size fits
        | some slots =>
            exact ((((((encodeSizeAll_measures (mapSlot elemTy) (depth + 1) 0 slots).add_then
              12).expect_then _).expect_then _).expect_then _).add_then 8 |>.expect_then _).congr
              (by simp [shallow, Canonical, below]) (by simp [encodeWrite]; omega) total size fits
    | tuple tag data | record tag data =>
        cases data with
        | none =>
            exact (((Measures.refuse 0).expect_then _).add_then 8 |>.expect_then _).congr
              (by simp [Canonical]) (by simp [encodeWrite]) total size fits
        | some fields =>
            exact ((((encodeSizeAll_measures anySlot (depth + 1) 0 fields).add_then
              8).expect_then _).add_then 8 |>.expect_then _).congr
              (by simp [shallow, Canonical, below, slotsFit_any]) (by simp [encodeWrite])
              total size fits
    | sum tag data =>
        cases data with
        | none =>
            exact ((Measures.refuse 0).add_then 8 |>.expect_then _).congr
              (by simp [Canonical]) (by simp [encodeWrite]) total size fits
        | some fields =>
            exact (((encodeSizeAll_measures anySlot (depth + 1) 0 fields).add_then 8).add_then 8
              |>.expect_then _).congr
              (by simp [shallow, Canonical, below, slotsFit_any]) (by simp [encodeWrite])
              total size fits
    | option tag box =>
        cases box with
        | none =>
            exact (((Measures.done.expect_then _).expect_then _).add_then 8 |>.expect_then _).congr
              (by simp +contextual [shallow, Canonical]) (by simp [encodeWrite]) total size fits
        | some content =>
            exact ((((encodeSize_measures (depth + 1) content).expect_then _).expect_then
              _).add_then 8 |>.expect_then _).congr_of
              (by simp [shallow, Canonical, below, ← and_assoc, tag_eq_one_iff])
              (fun canonical => by simp [encodeWrite, canonical.1]) total size fits
    | result tag box =>
        cases box with
        | none =>
            exact ((Measures.refuse 0).add_then 8 |>.expect_then _).congr
              (by simp [Canonical]) (by simp [encodeWrite]) total size fits
        | some content =>
            exact (((encodeSize_measures (depth + 1) content).expect_then _).add_then 8
              |>.expect_then _).congr
              (by simp [shallow, Canonical, below]) (by simp [encodeWrite]) total size fits
    | pledgeRef | inst | unknown =>
        exact ((Measures.refuse 0).add_then 8 |>.expect_then _).congr
          (by simp [Canonical]) (by simp [encodeWrite]) total size fits
  · have none : maxDepth + 1 - depth = 0 := by omega
    simp [shallow, none, Canonical, expect, bind, Except.bind]

theorem encodeSizeAll_measures (slot : Nat → GeasValue → Bool) (depth i : Nat)
    (elements : List GeasValue) :
    Measures (encodeSizeAll slot depth i elements)
      (slotsFit slot i elements = true ∧
        ∀ element ∈ elements, Canonical (maxDepth + 1 - depth) element)
      (encodeWriteAll elements).length := by
  intro total size fits
  unfold encodeSizeAll
  cases elements with
  | nil =>
      exact Measures.done.congr (by simp [slotsFit]) (by simp [encodeWriteAll]) total size fits
  | cons element rest =>
      exact (((encodeSize_measures depth element).andThen
        (encodeSizeAll_measures slot depth (i + 1) rest)).expect_then _).congr
          (by simp [slotsFit]; tauto) (by simp [encodeWriteAll]) total size fits
end

end Geas.Wire
