import Mathlib.Algebra.Group.Nat.Defs
import Geas.Runtime.Vows
import Geas.Wire.Encode

/-!
# Copies of values

The deep copy under an allocator that may refuse any request, and how copying,
comparing and encoding agree.  A copy differs from its source in one place: a string
inside it loses its tag.  Equality does not look there, and the encoder does.
-/

namespace Geas.Runtime

open Geas.Abi
open Geas.Wire

/-! ## Copying under an allocator -/

/-- The answers of `malloc` to the requests to come. -/
abbrev HeapAnswers := Nat → Bool

/-- A computation that allocates: it ends with a status or a result, or without any
defined outcome. -/
abbrev HeapCopy := ExceptT GeasStatus (StateT HeapAnswers Option)

/-- A read or a write outside every block. -/
def undefinedAccess {α : Type} : HeapCopy α := ExceptT.mk fun _ => none

/-- `PTRDIFF_MAX`: `malloc` refuses what is larger. -/
def ptrdiffMax : Nat := 2 ^ 63 - 1

/-- `sizeof(GeasValue)`. -/
def valueSize : Nat := 40

/-- `sizeof(GeasBlock)`, the header in front of an owned block. -/
def blockSize : Nat := 8

/-- `geas_bytes`: the bytes behind the header of a new block, or `none`.  The header is
added in a `size_t`. -/
def geasBytes (n : Nat) : HeapCopy (Option Nat) :=
  ExceptT.mk fun allocator =>
    let request := (blockSize + n) % 2 ^ 64
    let later : HeapAnswers := fun i => allocator (i + 1)
    if allocator 0 = false ∨ request > ptrdiffMax then some (.ok none, later)
    else if request < blockSize then none
    else some (.ok (some (request - blockSize)), later)

/-- Writing up to `size` bytes of a block. -/
def fill (size room : Nat) : HeapCopy Unit :=
  if size ≤ room then pure () else undefinedAccess

/-- A block for `n` values, by the product its callers compute in a `uint64_t`.  Nothing
is allocated for none. -/
def valueBlock (n : Nat) : HeapCopy Unit :=
  if n = 0 then pure ()
  else do
    match ← geasBytes (n * valueSize % 2 ^ 64) with
    | none => throw .errOom
    | some room => fill (n * valueSize) room

/-- `geas_string_copy` and the check of its caller: no bytes need no block. -/
def stringBlock (n : Nat) : HeapCopy Unit := do
  match ← geasBytes n with
  | none => if n ≠ 0 then throw .errOom else pure ()
  | some room => fill n room

mutual
/-- `geas_value_deep_copy`, with its allocations. -/
def heapDeepCopy : GeasValue → HeapCopy GeasValue
  | .string _ (some bytes) => do
      stringBlock bytes.length
      pure (.string 0 (some bytes))
  | .list tag elemTy (some elements) => do
      valueBlock elements.length
      let copies ← heapCopyAll elements
      pure (.list tag elemTy (some copies))
  | .map tag elemTy (some slots) => do
      valueBlock slots.length
      let copies ← heapCopyAll slots
      pure (.map tag elemTy (some copies))
  | .tuple tag (some fields) => do
      valueBlock fields.length
      let copies ← heapCopyAll fields
      pure (.tuple tag (some copies))
  | .record tag (some fields) => do
      valueBlock fields.length
      let copies ← heapCopyAll fields
      pure (.record tag (some copies))
  | .sum tag (some fields) => do
      valueBlock fields.length
      let copies ← heapCopyAll fields
      pure (.sum tag (some copies))
  | .string _ none | .list _ _ none | .map _ _ none | .tuple _ none | .record _ none
  | .sum _ none => undefinedAccess
  | .option tag (some content) => do
      valueBlock 1
      let copy ← heapDeepCopy content
      pure (.option tag (some copy))
  | .result tag (some content) => do
      valueBlock 1
      let copy ← heapDeepCopy content
      pure (.result tag (some copy))
  | .unknown _ _ _ => throw .errType
  | value => pure value

/-- The element loop of the copy. -/
def heapCopyAll : List GeasValue → HeapCopy (List GeasValue)
  | [] => pure []
  | element :: rest => do
      let copy ← heapDeepCopy element
      let copies ← heapCopyAll rest
      pure (copy :: copies)
end

/-! ## What a copy is -/

mutual
/-- A value with every string tag inside zeroed. -/
def copied : GeasValue → GeasValue
  | .string _ bytes => .string 0 bytes
  | .list tag elemTy (some elements) => .list tag elemTy (some (copiedAll elements))
  | .map tag elemTy (some slots) => .map tag elemTy (some (copiedAll slots))
  | .tuple tag (some fields) => .tuple tag (some (copiedAll fields))
  | .record tag (some fields) => .record tag (some (copiedAll fields))
  | .sum tag (some fields) => .sum tag (some (copiedAll fields))
  | .option tag (some content) => .option tag (some (copied content))
  | .result tag (some content) => .result tag (some (copied content))
  | value => value

/-- `copied` on every element. -/
def copiedAll : List GeasValue → List GeasValue
  | [] => []
  | element :: rest => copied element :: copiedAll rest
end

/-- What a successful sequence of two steps did. -/
theorem heapCopy_bind {α β : Type} {first : HeapCopy α} {next : α → HeapCopy β} {result : β}
    {heap heap' : HeapAnswers} (done : (first >>= next) heap = some (.ok result, heap')) :
    ∃ value middle, first heap = some (.ok value, middle) ∧
      next value middle = some (.ok result, heap') := by
  change (first heap >>= fun x => ExceptT.bindCont next x.1 x.2) = _ at done
  rcases ran : first heap with _ | ⟨status | value, middle⟩
  · rw [ran] at done
    cases done
  · rw [ran] at done
    cases done
  · rw [ran] at done
    exact ⟨value, middle, rfl, done⟩

/-! ## What a copy can fail with -/

/-- A computation that fails only with the statuses allowed. -/
def FailsOnly {α : Type} (allowed : GeasStatus → Prop) (action : HeapCopy α) : Prop :=
  ∀ heap status heap', action heap = some (.error status, heap') → allowed status

namespace FailsOnly

variable {α β : Type} {allowed : GeasStatus → Prop}

theorem pure (value : α) : FailsOnly allowed (Pure.pure value) := nofun

theorem undefined : FailsOnly allowed (undefinedAccess : HeapCopy α) := nofun

theorem throw {status : GeasStatus} (allows : allowed status) :
    FailsOnly allowed (MonadExcept.throw status : HeapCopy α) := by
  intro heap status heap' done
  cases done
  exact allows

theorem bind {first : HeapCopy α} {next : α → HeapCopy β} (head : FailsOnly allowed first)
    (tail : ∀ value, FailsOnly allowed (next value)) : FailsOnly allowed (first >>= next) := by
  intro heap status heap' done
  change (first heap >>= fun x => ExceptT.bindCont next x.1 x.2) = _ at done
  rcases ran : first heap with _ | ⟨failed | value, middle⟩
  · rw [ran] at done
    cases done
  · rw [ran] at done
    cases done
    exact head heap _ _ ran
  · rw [ran] at done
    exact tail value middle _ _ done

theorem fill (size room : Nat) : FailsOnly allowed (fill size room) := by
  unfold Runtime.fill
  split
  · exact .pure ()
  · exact .undefined

theorem geasBytes (n : Nat) : FailsOnly allowed (geasBytes n) := by
  intro heap status heap' done
  unfold Runtime.geasBytes ExceptT.mk at done
  dsimp only at done
  split at done
  · cases done
  · split at done <;> cases done

theorem valueBlock (memory : allowed .errOom) (n : Nat) : FailsOnly allowed (valueBlock n) := by
  unfold Runtime.valueBlock
  split
  · exact .pure ()
  · refine .bind (.geasBytes _) fun block => ?_
    cases block with
    | none => exact .throw memory
    | some room => exact .fill _ room

theorem stringBlock (memory : allowed .errOom) (n : Nat) : FailsOnly allowed (stringBlock n) := by
  refine .bind (.geasBytes _) fun block => ?_
  cases block with
  | none =>
      dsimp only
      split
      · exact .throw memory
      · exact .pure ()
  | some room => exact .fill _ room

mutual
/-- A copy fails for want of memory or on a type code outside the enumeration. -/
theorem heapDeepCopy (memory : allowed .errOom) (type : allowed .errType) (value : GeasValue) :
    FailsOnly allowed (heapDeepCopy value) := by
  cases value with
  | string _ bytes =>
      cases bytes with
      | none => exact .undefined
      | some bytes => exact .bind (.stringBlock memory _) fun _ => .pure _
  | list _ _ data | map _ _ data | tuple _ data | record _ data | sum _ data =>
      cases data with
      | none => exact .undefined
      | some elements =>
          exact .bind (.valueBlock memory _) fun _ =>
            .bind (heapCopyAll memory type elements) fun _ => .pure _
  | option _ box | result _ box =>
      cases box with
      | none => exact .pure _
      | some content =>
          exact .bind (.valueBlock memory _) fun _ =>
            .bind (heapDeepCopy memory type content) fun _ => .pure _
  | unknown => exact .throw type
  | unit | int | uint | float | bool | byte | char | pledgeRef | inst => exact .pure _

theorem heapCopyAll (memory : allowed .errOom) (type : allowed .errType)
    (values : List GeasValue) : FailsOnly allowed (heapCopyAll values) := by
  cases values with
  | nil => exact .pure _
  | cons value rest =>
      exact .bind (heapDeepCopy memory type value) fun _ =>
        .bind (heapCopyAll memory type rest) fun _ => .pure _
end

end FailsOnly

/-! ## Copies and sources -/

mutual
/-- An allocator only decides whether there is a copy. -/
theorem heapDeepCopy_ok {value copy : GeasValue} {heap heap' : HeapAnswers}
    (done : heapDeepCopy value heap = some (.ok copy, heap')) :
    geasValueDeepCopy value = some (.ok copy) := by
  cases value with
  | string tag bytes =>
      cases bytes with
      | none => cases done
      | some bytes =>
          obtain ⟨_, _, -, done⟩ := heapCopy_bind done
          cases done
          rfl
  | list tag elemTy data =>
      cases data with
      | none => cases done
      | some elements =>
          obtain ⟨_, _, -, done⟩ := heapCopy_bind done
          obtain ⟨copies, _, each, done⟩ := heapCopy_bind done
          cases done
          rw [geasValueDeepCopy, heapCopyAll_ok each]
          rfl
  | map tag elemTy data =>
      cases data with
      | none => cases done
      | some slots =>
          obtain ⟨_, _, -, done⟩ := heapCopy_bind done
          obtain ⟨copies, _, each, done⟩ := heapCopy_bind done
          cases done
          rw [geasValueDeepCopy, heapCopyAll_ok each]
          rfl
  | tuple tag data | record tag data | sum tag data =>
      cases data with
      | none => cases done
      | some fields =>
          obtain ⟨_, _, -, done⟩ := heapCopy_bind done
          obtain ⟨copies, _, each, done⟩ := heapCopy_bind done
          cases done
          rw [geasValueDeepCopy, heapCopyAll_ok each]
          rfl
  | option tag box | result tag box =>
      cases box with
      | none =>
          cases done
          rfl
      | some content =>
          obtain ⟨_, _, -, done⟩ := heapCopy_bind done
          obtain ⟨inner, _, boxed, done⟩ := heapCopy_bind done
          cases done
          rw [geasValueDeepCopy, heapDeepCopy_ok boxed]
          rfl
  | unknown => cases done
  | unit | int | uint | float | bool | byte | char | pledgeRef | inst =>
      cases done
      rfl

theorem heapCopyAll_ok {values copies : List GeasValue} {heap heap' : HeapAnswers}
    (done : heapCopyAll values heap = some (.ok copies, heap')) :
    deepCopyAll values = some (.ok copies) := by
  cases values with
  | nil =>
      cases done
      rfl
  | cons element rest =>
      obtain ⟨copy, _, first, done⟩ := heapCopy_bind done
      obtain ⟨later, _, each, done⟩ := heapCopy_bind done
      cases done
      rw [deepCopyAll, heapDeepCopy_ok first, heapCopyAll_ok each]
      rfl
end

@[simp] theorem copied_ty (value : GeasValue) : (copied value).ty = value.ty := by
  unfold copied
  split <;> rfl

mutual
theorem deepCopy_eq_copied {value copy : GeasValue}
    (done : geasValueDeepCopy value = some (.ok copy)) : copy = copied value := by
  cases value with
  | string tag bytes =>
      cases bytes with
      | none => cases done
      | some bytes =>
          cases done
          rfl
  | list tag elemTy data =>
      cases data with
      | none => cases done
      | some elements =>
          obtain ⟨copies, each, done⟩ := copy_bind done
          cases done
          rw [copied, deepCopyAll_eq_copied each]
  | map tag elemTy data =>
      cases data with
      | none => cases done
      | some slots =>
          obtain ⟨copies, each, done⟩ := copy_bind done
          cases done
          rw [copied, deepCopyAll_eq_copied each]
  | tuple tag data | record tag data | sum tag data =>
      cases data with
      | none => cases done
      | some fields =>
          obtain ⟨copies, each, done⟩ := copy_bind done
          cases done
          rw [copied, deepCopyAll_eq_copied each]
  | option tag box | result tag box =>
      cases box with
      | none =>
          cases done
          rfl
      | some content =>
          obtain ⟨inner, boxed, done⟩ := copy_bind done
          cases done
          rw [copied, deepCopy_eq_copied boxed]
  | unknown => cases done
  | unit | int | uint | float | bool | byte | char | pledgeRef | inst =>
      cases done
      rfl

theorem deepCopyAll_eq_copied {values copies : List GeasValue}
    (done : deepCopyAll values = some (.ok copies)) : copies = copiedAll values := by
  cases values with
  | nil =>
      cases done
      rfl
  | cons element rest =>
      obtain ⟨copy, first, done⟩ := copy_bind done
      obtain ⟨later, each, done⟩ := copy_bind done
      cases done
      rw [copiedAll, deepCopy_eq_copied first, deepCopyAll_eq_copied each]
end

mutual
theorem copied_copied (value : GeasValue) : copied (copied value) = copied value := by
  cases value with
  | list tag elemTy data | map tag elemTy data =>
      cases data with
      | none => rfl
      | some elements => rw [copied, copied, copiedAll_copiedAll]
  | tuple tag data | record tag data | sum tag data =>
      cases data with
      | none => rfl
      | some fields => rw [copied, copied, copiedAll_copiedAll]
  | option tag box | result tag box =>
      cases box with
      | none => rfl
      | some content => rw [copied, copied, copied_copied content]
  | _ => rfl

theorem copiedAll_copiedAll (values : List GeasValue) :
    copiedAll (copiedAll values) = copiedAll values := by
  cases values with
  | nil => rfl
  | cons element rest =>
      rw [copiedAll, copiedAll, copied_copied element, copiedAll_copiedAll rest]
end

mutual
/-- Every string inside carries tag zero. -/
def StringTagsZero : GeasValue → Prop
  | .string tag _ => tag = 0
  | .list _ _ (some elements) | .map _ _ (some elements) => AllStringTagsZero elements
  | .tuple _ (some fields) | .record _ (some fields) | .sum _ (some fields) =>
      AllStringTagsZero fields
  | .option _ (some content) | .result _ (some content) => StringTagsZero content
  | _ => True

/-- `StringTagsZero` of every element. -/
def AllStringTagsZero : List GeasValue → Prop
  | [] => True
  | value :: rest => StringTagsZero value ∧ AllStringTagsZero rest
end

mutual
/-- A copy of a value without string tags is that value. -/
theorem copied_of_tagsZero {value : GeasValue} (zero : StringTagsZero value) :
    copied value = value := by
  cases value with
  | string tag bytes =>
      cases zero
      rfl
  | list tag elemTy data | map tag elemTy data =>
      cases data with
      | none => rfl
      | some elements => rw [copied, copiedAll_of_tagsZero zero]
  | tuple tag data | record tag data | sum tag data =>
      cases data with
      | none => rfl
      | some fields => rw [copied, copiedAll_of_tagsZero zero]
  | option tag box | result tag box =>
      cases box with
      | none => rfl
      | some content => rw [copied, copied_of_tagsZero (show StringTagsZero content from zero)]
  | _ => rfl

theorem copiedAll_of_tagsZero {values : List GeasValue} (zero : AllStringTagsZero values) :
    copiedAll values = values := by
  cases values with
  | nil => rfl
  | cons element rest =>
      rw [copiedAll, copied_of_tagsZero zero.1, copiedAll_of_tagsZero zero.2]
end

/-! ## Equality -/

mutual
/-- Equality does not see what a copy loses. -/
theorem geasValueEq_copied (left right : GeasValue) :
    geasValueEq (copied left) right = geasValueEq left right := by
  cases left with
  | list tag elemTy data =>
      cases data with
      | none => rfl
      | some elements =>
          cases right with
          | list tag' elemTy' data' =>
              cases data' with
              | none => rfl
              | some elements' => simp only [copied, geasValueEq, geasValuesEq_copied]
          | _ => rfl
  | map tag elemTy data =>
      cases data with
      | none => rfl
      | some slots =>
          cases right with
          | map tag' elemTy' data' =>
              cases data' with
              | none => rfl
              | some slots' => simp only [copied, geasValueEq, geasValuesEq_copied]
          | _ => rfl
  | tuple tag data | record tag data | sum tag data =>
      cases data with
      | none => rfl
      | some fields =>
          cases right with
          | tuple tag' data' | record tag' data' | sum tag' data' =>
              cases data' with
              | none => rfl
              | some fields' => simp only [copied, geasValueEq, geasValuesEq_copied]
          | _ => rfl
  | option tag box | result tag box =>
      cases box with
      | none => rfl
      | some content =>
          cases right with
          | option tag' box' | result tag' box' =>
              cases box' with
              | none => rfl
              | some content' =>
                  simp only [copied, geasValueEq, geasBoxEq, geasValueEq_copied content]
          | _ => rfl
  | string tag bytes => cases right <;> rfl
  | _ => rfl

theorem geasValuesEq_copied (lefts rights : List GeasValue) :
    geasValuesEq (copiedAll lefts) rights = geasValuesEq lefts rights := by
  cases lefts with
  | nil => rfl
  | cons left rest =>
      cases rights with
      | nil => rfl
      | cons right later =>
          rw [copiedAll, geasValuesEq, geasValuesEq, geasValueEq_copied left,
            geasValuesEq_copied rest]
end

theorem floatEq_comm (left right : UInt64) : floatEq left right = floatEq right left := by
  have same : (left == right) = (right == left) := BEq.comm
  simp only [floatEq, same]
  ac_rfl

theorem geasStringEq_comm (left right : Option (List UInt8)) :
    geasStringEq left right = geasStringEq right left := by
  cases left <;> cases right <;> simp [geasStringEq, BEq.comm]

theorem geasValueEq_of_ty_ne {left right : GeasValue} (differ : left.ty ≠ right.ty) :
    geasValueEq left right = false := by
  unfold geasValueEq
  split <;> first | rfl | exact absurd rfl differ

mutual
theorem geasValueEq_symm {left right : GeasValue} (same : geasValueEq left right = true) :
    geasValueEq right left = true := by
  cases left with
  | unit => cases right <;> first | rfl | cases same
  | int _ i | uint _ i | bool _ i | byte _ i | char _ i | inst _ i =>
      cases right <;> first | cases same | exact BEq.symm same
  | float _ bits =>
      cases right with
      | float _ bits' => exact (floatEq_comm bits' bits).trans same
      | _ => cases same
  | string _ bytes =>
      cases right with
      | string _ bytes' => exact (geasStringEq_comm bytes' bytes).trans same
      | _ => cases same
  | pledgeRef | unknown => cases same
  | list _ _ data | map _ _ data | tuple _ data | record _ data | sum _ data =>
      cases data with
      | none => cases right <;> cases same
      | some elements =>
          cases right with
          | list _ _ data' | map _ _ data' | tuple _ data' | record _ data' | sum _ data' =>
              cases data' with
              | none => cases same
              | some elements' =>
                  first
                    | cases same
                    | exact Bool.and_eq_true_iff.mpr <|
                        (Bool.and_eq_true_iff.mp same).imp BEq.symm geasValuesEq_symm
          | _ => cases same
  | option _ box | result _ box =>
      cases right with
      | option _ box' | result _ box' =>
          first
            | cases same
            | exact Bool.and_eq_true_iff.mpr <|
                (Bool.and_eq_true_iff.mp same).imp BEq.symm geasBoxEq_symm
      | _ => cases same

theorem geasValuesEq_symm {lefts rights : List GeasValue} (same : geasValuesEq lefts rights = true) :
    geasValuesEq rights lefts = true := by
  cases lefts with
  | nil => cases rights <;> first | rfl | cases same
  | cons left rest =>
      cases rights with
      | nil => cases same
      | cons right later =>
          exact Bool.and_eq_true_iff.mpr <|
            (Bool.and_eq_true_iff.mp same).imp geasValueEq_symm geasValuesEq_symm

theorem geasBoxEq_symm {left right : Option GeasValue} (same : geasBoxEq left right = true) :
    geasBoxEq right left = true := by
  cases left with
  | none => cases right <;> first | rfl | cases same
  | some content =>
      cases right with
      | none => cases same
      | some content' => exact @geasValueEq_symm content content' same
end

theorem floatEq_trans {a b c : UInt64} (first : floatEq a b = true) (second : floatEq b c = true) :
    floatEq a c = true := by
  simp only [floatEq, Bool.and_eq_true, Bool.or_eq_true, beq_iff_eq] at first second ⊢
  grind

theorem geasStringEq_trans {a b c : Option (List UInt8)} (first : geasStringEq a b = true)
    (second : geasStringEq b c = true) : geasStringEq a c = true := by
  cases a <;> cases b <;> cases c <;> first
    | cases first
    | cases second
    | exact BEq.trans first second

mutual
theorem geasValueEq_trans {a b c : GeasValue} (first : geasValueEq a b = true)
    (second : geasValueEq b c = true) : geasValueEq a c = true := by
  cases a with
  | unit =>
      cases b with
      | unit => cases c <;> first | rfl | cases second
      | _ => cases first
  | int _ i | uint _ i | bool _ i | byte _ i | char _ i | inst _ i =>
      cases b with
      | int _ j | uint _ j | bool _ j | byte _ j | char _ j | inst _ j =>
          first
            | cases first
            | cases c <;> first | cases second | exact BEq.trans first second
      | _ => cases first
  | float _ bits =>
      cases b with
      | float _ bits' => cases c <;> first | cases second | exact floatEq_trans first second
      | _ => cases first
  | string _ bytes =>
      cases b with
      | string _ bytes' => cases c <;> first | cases second | exact geasStringEq_trans first second
      | _ => cases first
  | pledgeRef | unknown => cases first
  | list _ _ data | map _ _ data | tuple _ data | record _ data | sum _ data =>
      cases data with
      | none => cases b <;> cases first
      | some xs =>
          cases b with
          | list _ _ data' | map _ _ data' | tuple _ data' | record _ data' | sum _ data' =>
              cases data' with
              | none => cases first
              | some ys =>
                  first
                    | cases first
                    | obtain ⟨tags, each⟩ := Bool.and_eq_true_iff.mp first
                      cases c with
                      | list _ _ data | map _ _ data | tuple _ data | record _ data
                      | sum _ data =>
                          cases data with
                          | none => cases second
                          | some zs =>
                              first
                                | cases second
                                | exact Bool.and_eq_true_iff.mpr <|
                                    (Bool.and_eq_true_iff.mp second).imp (BEq.trans tags)
                                      (geasValuesEq_trans each)
                      | _ => cases second
          | _ => cases first
  | option _ box | result _ box =>
      cases b with
      | option _ box' | result _ box' =>
          first
            | cases first
            | obtain ⟨tags, boxed⟩ := Bool.and_eq_true_iff.mp first
              cases c with
              | option _ box | result _ box =>
                  first
                    | cases second
                    | exact Bool.and_eq_true_iff.mpr <|
                        (Bool.and_eq_true_iff.mp second).imp (BEq.trans tags)
                          (geasBoxEq_trans boxed)
              | _ => cases second
      | _ => cases first

theorem geasValuesEq_trans {a b c : List GeasValue} (first : geasValuesEq a b = true)
    (second : geasValuesEq b c = true) : geasValuesEq a c = true := by
  cases a with
  | nil =>
      cases b with
      | nil => exact second
      | cons y ys => cases first
  | cons x xs =>
      cases b with
      | nil => cases first
      | cons y ys =>
          cases c with
          | nil => cases second
          | cons z zs =>
              obtain ⟨head, tail⟩ := Bool.and_eq_true_iff.mp first
              exact Bool.and_eq_true_iff.mpr <|
                (Bool.and_eq_true_iff.mp second).imp (geasValueEq_trans head)
                  (geasValuesEq_trans tail)

theorem geasBoxEq_trans {a b c : Option GeasValue} (first : geasBoxEq a b = true)
    (second : geasBoxEq b c = true) : geasBoxEq a c = true := by
  cases a with
  | none =>
      cases b with
      | none => exact second
      | some y => cases first
  | some x =>
      cases b with
      | none => cases first
      | some y =>
          cases c with
          | none => cases second
          | some z => exact geasValueEq_trans (a := x) first second
end

mutual
/-- A value equality can compare: readable blocks, and inside no NaN, no pledge reference
and no type code outside the enumeration. -/
def Comparable : GeasValue → Prop
  | .float _ bits => floatEq bits bits = true
  | .string _ bytes => bytes.isSome
  | .list _ _ (some elements) | .map _ _ (some elements) => AllComparable elements
  | .tuple _ (some fields) | .record _ (some fields) | .sum _ (some fields) => AllComparable fields
  | .list _ _ none | .map _ _ none | .tuple _ none | .record _ none | .sum _ none => False
  | .option _ (some content) | .result _ (some content) => Comparable content
  | .pledgeRef _ | .unknown _ _ _ => False
  | _ => True

/-- `Comparable` of every element. -/
def AllComparable : List GeasValue → Prop
  | [] => True
  | value :: rest => Comparable value ∧ AllComparable rest
end

mutual
theorem geasValueEq_refl {value : GeasValue} (comparable : Comparable value) :
    geasValueEq value value = true := by
  cases value with
  | unit => rfl
  | int _ i | uint _ i | bool _ i | byte _ i | char _ i | inst _ i => exact BEq.refl i
  | float _ bits => exact comparable
  | string _ bytes =>
      cases bytes with
      | none => cases comparable
      | some bytes => exact BEq.refl bytes
  | pledgeRef | unknown => cases comparable
  | list tag _ data | map tag _ data | tuple tag data | record tag data | sum tag data =>
      cases data with
      | none => cases comparable
      | some elements =>
          exact Bool.and_eq_true_iff.mpr ⟨BEq.refl tag, geasValuesEq_refl comparable⟩
  | option tag box | result tag box =>
      cases box with
      | none => exact Bool.and_eq_true_iff.mpr ⟨BEq.refl tag, rfl⟩
      | some content =>
          exact Bool.and_eq_true_iff.mpr
            ⟨BEq.refl tag, geasValueEq_refl (show Comparable content from comparable)⟩

theorem geasValuesEq_refl {values : List GeasValue} (comparable : AllComparable values) :
    geasValuesEq values values = true := by
  cases values with
  | nil => rfl
  | cons value rest =>
      exact Bool.and_eq_true_iff.mpr
        ⟨geasValueEq_refl comparable.1, geasValuesEq_refl comparable.2⟩
end

theorem geasValueEq_copied_right (left right : GeasValue) :
    geasValueEq left (copied right) = geasValueEq left right := by
  have sound : ∀ {a b}, geasValueEq a b = true → geasValueEq b a = true := geasValueEq_symm
  rw [Bool.eq_iff_iff]
  constructor
  · intro same
    exact sound (by rw [← geasValueEq_copied]; exact sound same)
  · intro same
    exact sound (by rw [geasValueEq_copied]; exact sound same)

/-! ## Copying, comparing and encoding -/

/-- Equality is an equivalence on what it can compare, a copy equals its source, a copy of
a copy is that copy, and both encode alike when no string inside carries a tag. -/
theorem copies_agree :
    (Equivalence fun left right : { value : GeasValue // Comparable value } =>
      geasValueEq left right = true) ∧
    ∀ value copy heap heap', Comparable value →
      heapDeepCopy value heap = some (.ok copy, heap') →
      geasValueEq copy value = true ∧
        (StringTagsZero value →
          ∀ capacity, geasWireEncodeValue copy capacity = geasWireEncodeValue value capacity) ∧
        ∀ again heap heap', heapDeepCopy copy heap = some (.ok again, heap') →
          geasValueEq again copy = true ∧ again = copy := by
  refine ⟨⟨fun value => geasValueEq_refl value.2, geasValueEq_symm, geasValueEq_trans⟩, ?_⟩
  intro value copy heap heap' comparable done
  have copy_eq := deepCopy_eq_copied (heapDeepCopy_ok done)
  have same : geasValueEq copy value = true := by
    rw [copy_eq, geasValueEq_copied]
    exact geasValueEq_refl comparable
  refine ⟨same, fun zero capacity => ?_, fun again heap heap' repeated => ?_⟩
  · rw [copy_eq, copied_of_tagsZero zero]
  · have again_eq : again = copy := by
      rw [deepCopy_eq_copied (heapDeepCopy_ok repeated), copy_eq, copied_copied]
    refine ⟨?_, again_eq⟩
    rw [again_eq]
    exact geasValueEq_trans same (geasValueEq_symm same)

/-- A record of a number and an untagged string is copied, and agrees. -/
theorem copies_agree_record :
    let value : GeasValue := .record 0 (some [.int 0 7, .string 0 (some [104, 105])])
    ∃ copy heap, heapDeepCopy value (fun _ => true) = some (.ok copy, heap) ∧
      geasValueEq copy value = true ∧
      ∀ capacity, geasWireEncodeValue copy capacity = geasWireEncodeValue value capacity := by
  have comparable : Comparable (.record 0 (some [.int 0 7, .string 0 (some [104, 105])])) :=
    ⟨trivial, rfl, trivial⟩
  have agree := copies_agree.2 _ _ (fun _ => true) (fun _ => true) comparable rfl
  exact ⟨_, _, rfl, agree.1, agree.2.1 ⟨trivial, rfl, trivial⟩⟩

/-- A string with a tag is refused by the encoder and its copy is not. -/
theorem copy_loses_string_tag :
    ¬ ∀ value copy heap heap', Comparable value →
      heapDeepCopy value heap = some (.ok copy, heap') →
      ∀ capacity, (geasWireEncodeValue copy capacity).status =
        (geasWireEncodeValue value capacity).status := by
  intro alike
  have same := alike (.string 1 (some [])) (.string 0 (some [])) (fun _ => true) (fun _ => true)
    rfl rfl (some 100)
  exact absurd same (by decide)

end Geas.Runtime
