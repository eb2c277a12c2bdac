import Mathlib.Algebra.Group.Int.Defs
import Geas.Store.Query
import Mathlib.Algebra.Ring.Int.Defs
import Mathlib.Algebra.Group.Nat.Defs

/-!
# Cells of the store

How a value becomes a cell of the database and a cell a field again.  Every integer
type crosses as a signed 64-bit cell, a `UInt` by its bit pattern, and a string as a
blob whose length is narrowed to a C `int` on the way.

Of SQLite the development knows what the vendored `sqlite3VdbeMemSetStr` makes of a
blob with that length, and how its accessors read back a cell of the kind they ask for.
-/

namespace Geas.Store

open Geas.Abi

/-- A cell as the database keeps it. -/
inductive SqlCell where
  | null
  | integer (i : Int64)
  | real (bits : UInt64)
  | text (bytes : List UInt8)
  | blob (bytes : List UInt8)
  deriving DecidableEq, Repr

/-! ## Binding -/

/-- `SQLITE_MAX_LENGTH`. -/
def sqliteMaxLength : Nat := 1000000000

/-- A `uint64_t` length as the C `int` it is cast to. -/
def narrowed (len : Nat) : Int := Int.bmod len (2 ^ 32)

/-- The bytes before the first pair of zeros, two at a time, which is how a negative
length is resolved. -/
def pairsBeforeZero : List UInt8 → Nat
  | a :: b :: rest => if a = 0 ∧ b = 0 then 0 else pairsBeforeZero rest + 2
  | _ => 0

/-- The blob bound for a string: nothing when it is past the length limit.  A length that
narrows to a negative number is measured again, and bound as text. -/
def bindBlob (bytes : List UInt8) : Option SqlCell :=
  let n := narrowed bytes.length
  if n < 0 then
    let nByte := pairsBeforeZero bytes
    if nByte > sqliteMaxLength then none else some (.text (bytes.take nByte))
  else if n.toNat > sqliteMaxLength then none
  else some (.blob (bytes.take n.toNat))

theorem narrowed_eq (len : Nat) :
    narrowed len =
      if len % 2 ^ 32 < 2 ^ 31 then ((len % 2 ^ 32 : Nat) : Int)
      else ((len % 2 ^ 32 : Nat) : Int) - 2 ^ 32 := by
  unfold narrowed
  rw [Int.bmod_def]
  split <;> split <;> omega

theorem pairsBeforeZero_of_nonzero (bytes : List UInt8) (nonzero : ∀ b ∈ bytes, b ≠ 0) :
    bytes.length ≤ pairsBeforeZero bytes + 1 := by
  fun_induction pairsBeforeZero bytes with
  | case1 a b rest zeros => exact absurd zeros.1 (nonzero a (by simp))
  | case2 a b rest some ih =>
      have tail := ih fun c mem => nonzero c (by simp [mem])
      simp only [List.length_cons]
      omega
  | case3 bytes short =>
      cases bytes with
      | nil => simp
      | cons a rest =>
          cases rest with
          | nil => simp
          | cons b rest => exact absurd rfl (short a b rest)

/-- The status of a bind that SQLite refuses. -/
def boundOr : Option SqlCell → Except GeasStatus SqlCell
  | some cell => .ok cell
  | none => .error .errStore

/-- `bind_one`: the cell a value is bound as. -/
def bindCell : GeasValue → Except GeasStatus SqlCell
  | .int _ i => .ok (.integer i)
  | .uint _ u => .ok (.integer u.toInt64)
  | .float _ bits => .ok (.real bits)
  | .bool _ b | .byte _ b => .ok (.integer b.toUInt64.toInt64)
  | .char _ ch => .ok (.integer ch.toUInt64.toInt64)
  | .string _ none => .ok .null
  | .string _ (some bytes) => boundOr (bindBlob bytes)
  | _ => .error .errType

/-- The cells of a parameter frame, up to the first refusal. -/
def bindCells : List GeasValue → Except GeasStatus (List SqlCell)
  | [] => .ok []
  | value :: values => do
      let cell ← bindCell value
      let cells ← bindCells values
      .ok (cell :: cells)

/-! ## Reading -/

/-- The column accessors: an integer and a real cell read as what they hold, and the
bytes of a text or a blob as they are.  What an accessor makes of any other cell is
SQLite's own. -/
structure Accessors where
  read : SqlCell → Cell
  integer : ∀ i, (read (.integer i)).int64 = i
  real : ∀ bits, (read (.real bits)).double = bits
  text : ∀ bytes, (read (.text bytes)).blob = bytes
  blob : ∀ bytes, (read (.blob bytes)).blob = bytes

/-- A row of cells as a statement yields it.  A column past the last reads as NULL. -/
def Accessors.row (accessors : Accessors) (cells : List SqlCell) : Row :=
  fun i => accessors.read (cells.getD i .null)

end Geas.Store
