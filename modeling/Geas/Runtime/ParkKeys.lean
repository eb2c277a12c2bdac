import Geas.Runtime.Park
import Geas.Store.Cells

/-!
# The keys of the park table

The key of `instance.park` and of `Contract.resume` is a `String`.  The runtime makes a
C string of it, measures that with `strlen` and binds it as a blob, and the cell that
results is the key of the row.  So a key is cut at its first zero byte, and then its
length to 32 bits.
-/

namespace Geas.Runtime

open Geas.Abi
open Geas.Lib
open Geas.Store (SqlCell bindBlob narrowed_eq pairsBeforeZero pairsBeforeZero_of_nonzero
  sqliteMaxLength)

variable {d : GeasContractDesc}

/-- The rows of `geas_park` by the cell of their key. -/
abbrev ParkCells := SqlCell → Option ParkRow

/-- `park_cstr`, up to its terminator. -/
def parkCstr (bytes : List UInt8) : List UInt8 := bytes.takeWhile (· ≠ 0)

/-- The cell a call binds its key as. -/
def keyCell (key : List UInt8) : Option SqlCell := bindBlob (parkCstr key)

/-- `INSERT OR REPLACE` of what a park made, under the cell its key was bound as. -/
def parkUnder (parked : Except GeasStatus ParkRow) (table : ParkCells)
    (bound : Option SqlCell) : GeasStatus × ParkCells :=
  match parked, bound with
  | .error status, _ => (status, table)
  | .ok _, none => (.errStore, table)
  | .ok row, some cell => (.ok, Function.update table cell (some row))

/-- `geas_instance_park_v`.  `heap` says whether the C strings could be allocated. -/
def geasInstanceParkV (env : ParkEnv) (heap : Bool) (h : HeapSys d) (key : GeasValue)
    (table : ParkCells) : GeasStatus × ParkCells :=
  match key with
  | .string _ (some bytes) =>
      if !heap then (.errOom, table) else parkUnder (parkedRow env h) table (keyCell bytes)
  | _ => (.errType, table)

/-- `geas_instance_resume_v`: a resume that finds in the table what the cell of its key
addresses. -/
def geasInstanceResumeV (env : ResumeEnv) (heap : Bool) (rt : GeasRuntime) (table : ParkCells)
    (key : GeasValue) (expectedHash : UInt64) : ResumeResult :=
  match key with
  | .string _ (some bytes) =>
      if !heap then ⟨.errOom, none, rt, []⟩
      else
        match keyCell bytes with
        | none => ⟨if env.query = .ok then .errStore else env.query, none, rt, []⟩
        | some cell => geasInstanceResume env rt (fun _ => table cell) "" expectedHash
  | _ => ⟨.errType, none, rt, []⟩

/-- The row a key addresses. -/
def rowAt (table : ParkCells) (key : List UInt8) : Option ParkRow := (keyCell key).bind table

/-- Parking under the first key neither overwrites the row of the second nor is what a
resume under the second finds. -/
def KeptApart (first second : List UInt8) : Prop :=
  ∀ (d : GeasContractDesc) (env : ParkEnv) (heap : Bool) (h : HeapSys d) (table : ParkCells),
    let table' := (geasInstanceParkV env heap h (.string 0 (some first)) table).2
    rowAt table' second = rowAt table second ∧
      ∀ resumeEnv heap rt expectedHash,
        geasInstanceResumeV resumeEnv heap rt table' (.string 0 (some second)) expectedHash =
          geasInstanceResumeV resumeEnv heap rt table (.string 0 (some second)) expectedHash

/-! ## What is left of a key -/

/-- What is bound of a key: the bytes before its first zero, as many as the low 32 bits of
their number say.  A key is refused when that is past the length limit. -/
def boundKey (key : List UInt8) : Option (List UInt8) :=
  let bytes := parkCstr key
  let n := bytes.length % 2 ^ 32
  if n ≤ sqliteMaxLength then some (bytes.take n) else none

theorem mem_parkCstr {key : List UInt8} {b : UInt8} (mem : b ∈ parkCstr key) : b ≠ 0 := by
  have kept := List.all_takeWhile (p := (· ≠ (0 : UInt8))) (l := key)
  simpa using List.all_eq_true.mp kept b mem

theorem keyCell_eq (key : List UInt8) : keyCell key = (boundKey key).map .blob := by
  unfold keyCell bindBlob boundKey
  simp only [narrowed_eq]
  have pairs := pairsBeforeZero_of_nonzero (parkCstr key) fun _ => mem_parkCstr
  have wrapped := Nat.mod_lt (parkCstr key).length (show 0 < 2 ^ 32 by decide)
  have le := Nat.mod_le (parkCstr key).length (2 ^ 32)
  have limit : sqliteMaxLength + 1 < 2 ^ 31 := by decide
  generalize sqliteMaxLength = bound at limit ⊢
  by_cases low : (parkCstr key).length % 2 ^ 32 < 2 ^ 31
  · rw [if_pos low, if_neg (by omega), Int.toNat_natCast]
    by_cases fits : (parkCstr key).length % 2 ^ 32 ≤ bound
    · rw [if_neg (by omega), if_pos fits, Option.map_some]
    · rw [if_pos (by omega), if_neg fits, Option.map_none]
  · rw [if_neg low, if_pos (by omega), if_pos (by omega), if_neg (by omega)]
    rfl

/-! ## Keys apart -/

theorem parkUnder_other {parked : Except GeasStatus ParkRow} {table : ParkCells}
    {bound : Option SqlCell} {cell : SqlCell} (other : bound ≠ some cell) :
    (parkUnder parked table bound).2 cell = table cell := by
  cases parked with
  | error status => rfl
  | ok row =>
      cases bound with
      | none => rfl
      | some mine =>
          refine Function.update_of_ne ?_ _ _
          rintro rfl
          exact other rfl

/-- A park changes no row but that of its key. -/
theorem geasInstanceParkV_other {env : ParkEnv} {heap : Bool} {h : HeapSys d} {key : List UInt8}
    {table : ParkCells} {cell : SqlCell} (other : keyCell key ≠ some cell) :
    (geasInstanceParkV env heap h (.string 0 (some key)) table).2 cell = table cell := by
  rw [geasInstanceParkV]
  split
  · rfl
  · exact parkUnder_other other

theorem geasInstanceResumeV_congr {env : ResumeEnv} {heap : Bool} {rt : GeasRuntime}
    {table table' : ParkCells} {key : List UInt8} {expectedHash : UInt64}
    (same : rowAt table' key = rowAt table key) :
    geasInstanceResumeV env heap rt table' (.string 0 (some key)) expectedHash =
      geasInstanceResumeV env heap rt table (.string 0 (some key)) expectedHash := by
  rw [geasInstanceResumeV, geasInstanceResumeV]
  unfold rowAt at same
  split
  · rfl
  · split
    · rfl
    · next cell bound =>
      rw [bound, Option.bind_some, Option.bind_some] at same
      rw [same]

/-- A contract with nothing in it. -/
def idleDesc : GeasContractDesc where
  name := "Idle"
  shapeHash := 1
  version := 1
  pledges := []
  vows := []
  subs := []
  atoms := []
  hasReqs := false
  reqFulfill := []
  reqPartial := []
  reqBreak := []
  nschemas := 0
  subFlags := none

theorem parkUnder_self (row : ParkRow) (table : ParkCells) (cell : SqlCell) :
    (parkUnder (.ok row) table (some cell)).2 cell = some row :=
  Function.update_self ..

/-- An instance right after sign parks. -/
theorem idle_parks {key : List UInt8} {cell : SqlCell} (bound : keyCell key = some cell) :
    (geasInstanceParkV ⟨true, true, .ok⟩ true (signedHeap idleDesc [] 0) (.string 0 (some key))
      fun _ => none).2 cell ≠ none := by
  have parked : parkedRow ⟨true, true, .ok⟩ (signedHeap idleDesc [] 0) =
      .ok (parkRow (freshContract idleDesc [] 0) [] []) := rfl
  rw [geasInstanceParkV, if_neg (by decide), parked, bound, parkUnder_self]
  exact Option.some_ne_none _

/-- Two keys are kept apart exactly when what is bound of them differs or one of them is
refused. -/
theorem park_keys_apart_iff (first second : List UInt8) :
    KeptApart first second ↔
      ∀ bytes, ¬ (boundKey first = some bytes ∧ boundKey second = some bytes) := by
  constructor
  · rintro apart bytes ⟨bound, bound'⟩
    have cell : keyCell first = some (.blob bytes) := by rw [keyCell_eq, bound, Option.map_some]
    have cell' : keyCell second = some (.blob bytes) := by rw [keyCell_eq, bound', Option.map_some]
    have kept := (apart idleDesc ⟨true, true, .ok⟩ true (signedHeap idleDesc [] 0) fun _ => none).1
    rw [rowAt, rowAt, cell', Option.bind_some, Option.bind_some] at kept
    exact idle_parks cell kept
  · intro differ d env heap h table
    have kept : rowAt (geasInstanceParkV env heap h (.string 0 (some first)) table).2 second =
        rowAt table second := by
      rw [rowAt, rowAt]
      cases bound : boundKey second with
      | none => rw [keyCell_eq, bound, Option.map_none, Option.bind_none, Option.bind_none]
      | some bytes =>
          rw [keyCell_eq second, bound, Option.map_some, Option.bind_some, Option.bind_some]
          refine geasInstanceParkV_other fun same => ?_
          rw [keyCell_eq] at same
          obtain ⟨bytes', bound', cell⟩ := Option.map_eq_some_iff.mp same
          cases cell
          exact differ bytes ⟨bound', bound⟩
    exact ⟨kept, fun _ _ _ _ => geasInstanceResumeV_congr kept⟩

/-- A key with an embedded zero and its bytes before it address one row. -/
theorem zero_cuts_key : ¬ KeptApart [97, 0, 98] [97] := by
  intro apart
  have kept := (apart idleDesc ⟨true, true, .ok⟩ true (signedHeap idleDesc [] 0) fun _ => none).1
  have cell : keyCell [97] = some (.blob [97]) := by decide
  have cell' : keyCell [97, 0, 98] = some (.blob [97]) := by decide
  rw [rowAt, rowAt, cell, Option.bind_some, Option.bind_some] at kept
  exact idle_parks cell' kept

end Geas.Runtime
