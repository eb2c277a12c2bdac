import Mathlib.Data.List.Basic

/-!
# Values of the ABI

The one value shape every party of the runtime exchanges.  In C a value is a
pair of type code and tag over a union; here the type code selects the
constructor, and the tag is kept on every one of them because several functions
check it.

A pointer and length pair becomes `Option (List α)`: `some elements` is a
readable block, NULL or not when it is empty, and `none` is a NULL pointer under
a non-zero length, a shape the encoder refuses and nothing else may read.  A
tuple, a record and a sum ride the list arm with `elem_ty` zero, so only lists
and maps carry an element type.  A `Float` is its 64-bit pattern.
-/

namespace Geas.Abi

/-- Status codes, numbered by position. -/
inductive GeasStatus where
  | ok | errState | errType | errVersion | errUnbound | errName
  | errDeadlock | errOom | errLoad | errNet | errStore
  deriving DecidableEq, Repr

/-- The defined type codes, in numbering order. -/
inductive GeasTypeTag where
  | unit | int | uint | float | bool | byte | char | string | list | map | tuple
  | option | result | record | pledgeRef | sum | inst
  deriving DecidableEq, Repr

namespace GeasTypeTag

/-- The number of a type tag. -/
def code : GeasTypeTag → UInt32
  | unit => 0 | int => 1 | uint => 2 | float => 3 | bool => 4 | byte => 5 | char => 6
  | string => 7 | list => 8 | map => 9 | tuple => 10 | option => 11 | result => 12
  | record => 13 | pledgeRef => 14 | sum => 15 | inst => 16

/-- The tag behind a type code, `none` past the enumeration. -/
def ofCode (ty : UInt32) : Option GeasTypeTag :=
  match ty.toNat with
  | 0 => some unit | 1 => some int | 2 => some uint | 3 => some float | 4 => some bool
  | 5 => some byte | 6 => some char | 7 => some string | 8 => some list | 9 => some map
  | 10 => some tuple | 11 => some option | 12 => some result | 13 => some record
  | 14 => some pledgeRef | 15 => some sum | 16 => some inst
  | _ => none

@[simp] theorem ofCode_code (tag : GeasTypeTag) : ofCode tag.code = some tag := by
  cases tag <;> rfl

theorem code_of_ofCode {ty : UInt32} {tag : GeasTypeTag} (defined : ofCode ty = some tag) :
    ty = tag.code := by
  apply UInt32.toNat_inj.mp
  unfold ofCode at defined
  split at defined <;> cases defined <;> assumption

end GeasTypeTag

/-- A value of the ABI.  `unknown` stands for a type code outside the
enumeration, which foreign memory may hold. -/
inductive GeasValue where
  | unit (tag : UInt32)
  | int (tag : UInt32) (i : Int64)
  | uint (tag : UInt32) (u : UInt64)
  | float (tag : UInt32) (bits : UInt64)
  | bool (tag : UInt32) (b : UInt8)
  | byte (tag : UInt32) (b : UInt8)
  | char (tag : UInt32) (ch : UInt32)
  | string (tag : UInt32) (bytes : Option (List UInt8))
  | list (tag elemTy : UInt32) (data : Option (List GeasValue))
  | map (tag elemTy : UInt32) (data : Option (List GeasValue))
  | tuple (tag : UInt32) (data : Option (List GeasValue))
  | option (tag : UInt32) (box : Option GeasValue)
  | result (tag : UInt32) (box : Option GeasValue)
  | record (tag : UInt32) (data : Option (List GeasValue))
  | pledgeRef (tag : UInt32)
  | sum (tag : UInt32) (data : Option (List GeasValue))
  | inst (tag : UInt32) (handle : Nat)
  | unknown (ty tag : UInt32) (undefined : 16 < ty)

namespace GeasValue

/-- The type code of a value. -/
def ty : GeasValue → UInt32
  | unit _ => GeasTypeTag.unit.code
  | int _ _ => GeasTypeTag.int.code
  | uint _ _ => GeasTypeTag.uint.code
  | float _ _ => GeasTypeTag.float.code
  | bool _ _ => GeasTypeTag.bool.code
  | byte _ _ => GeasTypeTag.byte.code
  | char _ _ => GeasTypeTag.char.code
  | string _ _ => GeasTypeTag.string.code
  | list _ _ _ => GeasTypeTag.list.code
  | map _ _ _ => GeasTypeTag.map.code
  | tuple _ _ => GeasTypeTag.tuple.code
  | option _ _ => GeasTypeTag.option.code
  | result _ _ => GeasTypeTag.result.code
  | record _ _ => GeasTypeTag.record.code
  | pledgeRef _ => GeasTypeTag.pledgeRef.code
  | sum _ _ => GeasTypeTag.sum.code
  | inst _ _ => GeasTypeTag.inst.code
  | unknown ty _ _ => ty

/-- The tag word of a value. -/
def tag : GeasValue → UInt32
  | unit tag | pledgeRef tag => tag
  | int tag _ | uint tag _ | float tag _ | bool tag _ | byte tag _ | char tag _ => tag
  | string tag _ | inst tag _ | unknown _ tag _ => tag
  | list tag _ _ | map tag _ _ => tag
  | tuple tag _ | record tag _ | sum tag _ => tag
  | option tag _ | result tag _ => tag

/-- The all-zero struct: a `Unit` with tag zero. -/
def zero : GeasValue := unit 0

end GeasValue

/-- IEEE equality of two doubles given by their bit patterns: no NaN equals
anything, and the two zeros are equal. -/
def floatEq (left right : UInt64) : Bool :=
  let magnitude (bits : UInt64) : UInt64 := bits &&& 0x7FFFFFFFFFFFFFFF
  let isNaN (bits : UInt64) : Bool := magnitude bits > 0x7FF0000000000000
  !isNaN left && !isNaN right &&
    (left == right || (magnitude left == 0 && magnitude right == 0))

/-- Equality of two string values' bytes. -/
def geasStringEq : Option (List UInt8) → Option (List UInt8) → Bool
  | some left, some right => left == right
  | _, _ => false

mutual
/-- Structural equality of values.  The tag word decides only for the types that
ride the list arm or a box; a pledge reference and an unknown type equal
nothing. -/
def geasValueEq : GeasValue → GeasValue → Bool
  | .unit _, .unit _ => true
  | .int _ left, .int _ right => left == right
  | .uint _ left, .uint _ right => left == right
  | .float _ left, .float _ right => floatEq left right
  | .bool _ left, .bool _ right => left == right
  | .byte _ left, .byte _ right => left == right
  | .char _ left, .char _ right => left == right
  | .string _ left, .string _ right => geasStringEq left right
  | .list tag _ (some left), .list tag' _ (some right) => tag == tag' && geasValuesEq left right
  | .map tag _ (some left), .map tag' _ (some right) => tag == tag' && geasValuesEq left right
  | .tuple tag (some left), .tuple tag' (some right) => tag == tag' && geasValuesEq left right
  | .record tag (some left), .record tag' (some right) => tag == tag' && geasValuesEq left right
  | .sum tag (some left), .sum tag' (some right) => tag == tag' && geasValuesEq left right
  | .option tag left, .option tag' right => tag == tag' && geasBoxEq left right
  | .result tag left, .result tag' right => tag == tag' && geasBoxEq left right
  | .inst _ left, .inst _ right => left == right
  | _, _ => false

/-- The element loop of `geasValueEq`, after the length test. -/
def geasValuesEq : List GeasValue → List GeasValue → Bool
  | [], [] => true
  | left :: lefts, right :: rights => geasValueEq left right && geasValuesEq lefts rights
  | _, _ => false

/-- The box arm of `geasValueEq`: two empty boxes are equal. -/
def geasBoxEq : Option GeasValue → Option GeasValue → Bool
  | none, none => true
  | some left, some right => geasValueEq left right
  | _, _ => false
end

/-- The keys of a map's interleaved slots: the elements at even positions. -/
def mapKeys : List GeasValue → List GeasValue
  | [] => []
  | [key] => [key]
  | key :: _ :: rest => key :: mapKeys rest

mutual
/-- Every map inside the value has pairwise distinct keys. -/
def KeysDistinct : GeasValue → Prop
  | .list _ _ (some elements) => AllKeysDistinct elements
  | .map _ _ (some slots) =>
      (mapKeys slots).Pairwise (fun left right => geasValueEq left right = false) ∧
        AllKeysDistinct slots
  | .tuple _ (some fields) | .record _ (some fields) | .sum _ (some fields) =>
      AllKeysDistinct fields
  | .option _ (some content) | .result _ (some content) => KeysDistinct content
  | _ => True

/-- `KeysDistinct` of every element. -/
def AllKeysDistinct : List GeasValue → Prop
  | [] => True
  | value :: rest => KeysDistinct value ∧ AllKeysDistinct rest
end

end Geas.Abi
