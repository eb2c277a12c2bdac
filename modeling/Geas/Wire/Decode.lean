import Geas.Lib.Reader
import Geas.Wire.Encode

/-!
# Decoding a value

The decoder walks an untrusted buffer through a bounds-checked cursor.  Its
nesting depth is modelled by the levels that remain, `maxDepth + 1 - depth`, so
that a call with no level left is the refused one.  Allocations go through an
allocator that may refuse any of them.

The safety half lives here: whatever the bytes are and however a run ends, every
read lies inside the buffer and no array is requested for more elements than the
unread bytes could spell.
-/

namespace Geas.Wire

open Geas.Abi
open Geas.Lib
open Geas.Lib.Word
open Geas.Lib.Reader

/-- A count field is credible when its elements, at eight bytes each, fit what
is left. -/
def countPlausible (claimed : Nat) (left : Nat) : Bool := claimed ≤ left / 8

/-- The acceptance test a list runs on each decoded element. -/
def listAccepts (elemTy : UInt32) : List GeasValue → GeasValue → Bool :=
  fun _ element => element.ty == elemTy

/-- The acceptance test a map runs on each decoded slot: a key has the declared
type and repeats no earlier key. -/
def mapAccepts (keyTy : UInt32) : List GeasValue → GeasValue → Bool :=
  fun earlier slot => earlier.length % 2 != 0 ||
    (slot.ty == keyTy && (mapKeys earlier).all fun key => !geasValueEq key slot)

/-- Fields are accepted as they come. -/
def fieldAccepts : List GeasValue → GeasValue → Bool := fun _ _ => true

section Decoder

variable (allocator : Allocator) (buffer : List UInt8)

/-- Request an array of `claimed` values, nothing at all for an empty one. -/
def allocateArray (claimed : Nat) : Reader GeasStatus Unit :=
  if claimed = 0 then pure () else allocate allocator .errOom (.array claimed)

/-- Request the bytes of a string.  An empty string needs no memory to stand. -/
def allocateString (length : Nat) : Reader GeasStatus Unit :=
  if length = 0 then pure () else allocate allocator .errOom (.block length)

/-- The element loop: decode, test, store. -/
def decodeElements (element : Reader GeasStatus GeasValue)
    (accepts : List GeasValue → GeasValue → Bool) (claimed : Nat) :
    Reader GeasStatus (List GeasValue) :=
  collect (fun earlier => do
    let value ← element
    require .errType (accepts earlier value)
    pure value) claimed []

/-- The body of a value of a known type tag, after its header. -/
def decodeBody (nested : Reader GeasStatus GeasValue) (type : Option GeasTypeTag) (tag : UInt32) :
    Reader GeasStatus GeasValue :=
  match type with
  | some .unit => do
      require .errType (tag == 0)
      pure (.unit tag)
  | some .int => do
      require .errType (tag == 0)
      let h ← take buffer .errType 8
      pure (.int tag (getU64 h).toInt64)
  | some .uint => do
      require .errType (tag == 0)
      let h ← take buffer .errType 8
      pure (.uint tag (getU64 h))
  | some .float => do
      require .errType (tag == 0)
      let h ← take buffer .errType 8
      pure (.float tag (getU64 h))
  | some .bool => do
      require .errType (tag == 0)
      let h ← take buffer .errType 1
      require .errType (h.headD 0 ≤ 1)
      pure (.bool tag (h.headD 0))
  | some .byte => do
      require .errType (tag == 0)
      let h ← take buffer .errType 1
      pure (.byte tag (h.headD 0))
  | some .char => do
      require .errType (tag == 0)
      let h ← take buffer .errType 4
      require .errType (!charMalformed (getU32 h))
      pure (.char tag (getU32 h))
  | some .string => do
      require .errType (tag == 0)
      let h ← take buffer .errType 8
      let length := (getU64 h).toNat
      requireLeft .errType fun left => length ≤ left
      let bytes ← take buffer .errType length
      allocateString allocator length
      pure (.string tag (some bytes))
  | some .list => do
      require .errType (tag == 0)
      let h ← take buffer .errType 12
      let claimed := (getU64 h).toNat
      let elemTy := getU32 (h.drop 8)
      require .errType (tagCrosses elemTy)
      requireLeft .errType (countPlausible claimed)
      allocateArray allocator claimed
      let elements ← decodeElements nested (listAccepts elemTy) claimed
      pure (.list tag elemTy (some elements))
  | some .tuple => do
      require .errType (tag == 0)
      let h ← take buffer .errType 8
      let arity := (getU64 h).toNat
      requireLeft .errType (countPlausible arity)
      allocateArray allocator arity
      let fields ← decodeElements nested fieldAccepts arity
      pure (.tuple tag (some fields))
  | some .record => do
      require .errType (tag == 0)
      let h ← take buffer .errType 8
      let claimed := (getU64 h).toNat
      requireLeft .errType (countPlausible claimed)
      allocateArray allocator claimed
      let fields ← decodeElements nested fieldAccepts claimed
      pure (.record tag (some fields))
  | some .sum => do
      let h ← take buffer .errType 8
      let claimed := (getU64 h).toNat
      requireLeft .errType (countPlausible claimed)
      allocateArray allocator claimed
      let fields ← decodeElements nested fieldAccepts claimed
      pure (.sum tag (some fields))
  | some .map => do
      require .errType (tag == 0)
      let h ← take buffer .errType 12
      let claimed := (getU64 h).toNat
      let keyTy := getU32 (h.drop 8)
      require .errType (claimed % 2 == 0)
      require .errType (tagKeyable keyTy)
      requireLeft .errType (countPlausible claimed)
      allocateArray allocator claimed
      let slots ← decodeElements nested (mapAccepts keyTy) claimed
      pure (.map tag keyTy (some slots))
  | some .option => do
      require .errType (tag ≤ 1)
      if tag = 0 then
        pure (.option tag none)
      else do
        allocate allocator .errOom fun _ => .cell
        let content ← nested
        pure (.option tag (some content))
  | some .result => do
      require .errType (tag ≤ 1)
      allocate allocator .errOom fun _ => .cell
      let content ← nested
      pure (.result tag (some content))
  | some .pledgeRef | some .inst | none => fail .errType

/-- Decode one value with the given nesting levels left. -/
def decodeRec : Nat → Reader GeasStatus GeasValue
  | 0 => fail .errType
  | levels + 1 => do
      let h ← take buffer .errType 8
      decodeBody allocator buffer (decodeRec levels) (GeasTypeTag.ofCode (getU32 h))
        (getU32 (h.drop 4))

end Decoder

/-- What a call of the decoder leaves behind: its status, the out value, the
consumed count, and the accesses it made. -/
structure DecodeResult where
  status : GeasStatus
  out : GeasValue
  consumed : Nat
  trace : List Access

/-- Decode one value from the front of a buffer.  Any fault zeroes the out value
and the count. -/
def geasWireDecodeValue (allocator : Allocator) (buffer : List UInt8) : DecodeResult :=
  match decodeRec allocator buffer maxDepth ⟨0, buffer.length, []⟩ with
  | (.ok value, cursor) => ⟨.ok, value, buffer.length - cursor.left, cursor.trace⟩
  | (.error status, cursor) => ⟨status, .zero, 0, cursor.trace⟩

/-! ## Safety on arbitrary bytes -/

/-- What an access may do to a buffer: read inside it, size an array by no more
elements than the unread bytes can spell, and size a block by no more than the
buffer holds. -/
def Access.Inside (buffer : List UInt8) : Access → Prop
  | .read offset length => offset + length ≤ buffer.length
  | .array claimed left => claimed ≤ left / 8
  | .block length _ => length ≤ buffer.length
  | .cell => True

section Safety

variable {allocator : Allocator} {buffer : List UInt8}

/-- The cursor invariant of the decoder. -/
abbrev InBounds (buffer : List UInt8) : Cursor → Prop :=
  Cursor.Safe buffer (Access.Inside buffer)

/-- A reader that keeps the cursor invariant and never fails with `GEAS_OK`. -/
abbrev Keeps {α : Type} (buffer : List UInt8) (reader : Reader GeasStatus α) : Prop :=
  Preserves (InBounds buffer) (· ≠ GeasStatus.ok) reader

theorem take_preserves (length : Nat) :
    Keeps buffer (take buffer GeasStatus.errType length) :=
  preserves_take (fun _ _ inside => inside) (by decide) _

theorem require_preserves (condition : Bool) :
    Keeps buffer (require GeasStatus.errType condition) :=
  preserves_require (by decide) condition

theorem allocateArray_keptAt {claimed : Nat} {cursor : Cursor} (holds : InBounds buffer cursor)
    (credible : countPlausible claimed cursor.left = true) :
    KeptAt (InBounds buffer) (· ≠ GeasStatus.ok) (allocateArray allocator claimed) cursor := by
  have few : claimed ≤ cursor.left / 8 := by simpa [countPlausible] using credible
  unfold allocateArray
  split
  · exact preserves_pure () cursor holds
  · exact holds.allocate (by decide) few

theorem allocateString_preserves {length : Nat} (fits : length ≤ buffer.length) :
    Keeps buffer (allocateString allocator length) := by
  unfold allocateString
  split
  · exact preserves_pure ()
  · exact preserves_allocate (by decide) fun _ => fits

theorem allocateCell_preserves :
    Keeps buffer (allocate allocator GeasStatus.errOom fun _ => Access.cell) :=
  preserves_allocate (by decide) fun _ => True.intro

theorem decodeElements_preserves {nested : Reader GeasStatus GeasValue}
    (keeps : Keeps buffer nested) (accepts : List GeasValue → GeasValue → Bool)
    (claimed : Nat) : Keeps buffer (decodeElements nested accepts claimed) :=
  preserves_collect (fun _ => preserves_bind keeps fun _ =>
    preserves_bind (require_preserves _) fun _ => preserves_pure _) _ _

/-- The array path of every container: a credible count, its array, its
elements. -/
theorem container_preserves {nested : Reader GeasStatus GeasValue}
    (keeps : Keeps buffer nested) (accepts : List GeasValue → GeasValue → Bool)
    (claimed : Nat) (build : List GeasValue → GeasValue) :
    Keeps buffer (do
      requireLeft .errType (countPlausible claimed)
      allocateArray allocator claimed
      let elements ← decodeElements nested accepts claimed
      pure (build elements)) := by
  apply preserves_requireLeft_bind (by decide)
  intro cursor credible holds
  exact (allocateArray_keptAt holds credible).bind fun _ =>
    preserves_bind (decodeElements_preserves keeps accepts claimed) fun _ => preserves_pure _

/-- The string path: the length checked against what is left, then read and
copied. -/
theorem string_preserves (length : Nat) (build : List UInt8 → GeasValue) :
    Keeps buffer (do
      requireLeft GeasStatus.errType fun left => length ≤ left
      let bytes ← take buffer .errType length
      allocateString allocator length
      pure (build bytes)) := by
  apply preserves_requireLeft_bind (by decide)
  intro cursor fits holds
  have within := holds.within
  unfold Cursor.Within at within
  have short : length ≤ cursor.left := of_decide_eq_true fits
  exact preserves_bind (take_preserves length) (fun _ =>
    preserves_bind (allocateString_preserves (by omega)) fun _ => preserves_pure _) cursor holds

theorem decodeBody_preserves {nested : Reader GeasStatus GeasValue}
    (keeps : Keeps buffer nested) (type : Option GeasTypeTag) (tag : UInt32) :
    Keeps buffer (decodeBody allocator buffer nested type tag) := by
  unfold decodeBody
  split
  · exact preserves_bind (require_preserves _) fun _ => preserves_pure _
  · exact preserves_bind (require_preserves _) fun _ =>
      preserves_bind (take_preserves 8) fun _ => preserves_pure _
  · exact preserves_bind (require_preserves _) fun _ =>
      preserves_bind (take_preserves 8) fun _ => preserves_pure _
  · exact preserves_bind (require_preserves _) fun _ =>
      preserves_bind (take_preserves 8) fun _ => preserves_pure _
  · exact preserves_bind (require_preserves _) fun _ =>
      preserves_bind (take_preserves 1) fun _ =>
        preserves_bind (require_preserves _) fun _ => preserves_pure _
  · exact preserves_bind (require_preserves _) fun _ =>
      preserves_bind (take_preserves 1) fun _ => preserves_pure _
  · exact preserves_bind (require_preserves _) fun _ =>
      preserves_bind (take_preserves 4) fun _ =>
        preserves_bind (require_preserves _) fun _ => preserves_pure _
  · exact preserves_bind (require_preserves _) fun _ =>
      preserves_bind (take_preserves 8) fun h => string_preserves _ _
  · exact preserves_bind (require_preserves _) fun _ =>
      preserves_bind (take_preserves 12) fun h =>
        preserves_bind (require_preserves _) fun _ => container_preserves keeps _ _ _
  · exact preserves_bind (require_preserves _) fun _ =>
      preserves_bind (take_preserves 8) fun h => container_preserves keeps _ _ _
  · exact preserves_bind (require_preserves _) fun _ =>
      preserves_bind (take_preserves 8) fun h => container_preserves keeps _ _ _
  · exact preserves_bind (take_preserves 8) fun h => container_preserves keeps _ _ _
  · exact preserves_bind (require_preserves _) fun _ =>
      preserves_bind (take_preserves 12) fun h =>
        preserves_bind (require_preserves _) fun _ =>
          preserves_bind (require_preserves _) fun _ => container_preserves keeps _ _ _
  · refine preserves_bind (require_preserves _) fun _ => ?_
    split
    · exact preserves_pure _
    · exact preserves_bind allocateCell_preserves fun _ =>
        preserves_bind keeps fun _ => preserves_pure _
  · exact preserves_bind (require_preserves _) fun _ =>
      preserves_bind allocateCell_preserves fun _ => preserves_bind keeps fun _ => preserves_pure _
  · exact preserves_fail (by decide)
  · exact preserves_fail (by decide)
  · exact preserves_fail (by decide)

/-- Whatever the bytes and the allocator do, a decoding run touches the buffer
only inside its bounds and sizes its requests by what is left. -/
theorem decodeRec_preserves (levels : Nat) :
    Keeps buffer (decodeRec allocator buffer levels) := by
  induction levels with
  | zero => exact preserves_fail (by decide)
  | succ levels ih =>
      exact preserves_bind (take_preserves 8) fun h => decodeBody_preserves ih _ _

end Safety

end Geas.Wire
