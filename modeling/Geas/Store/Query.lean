import Geas.Abi.Value

/-!
# Two walks over one statement

A query counts its rows in a first walk of the statement, takes a zeroed
backbone of that size, and reads the rows into it in a second walk.  The two
walks are two read transactions: whatever other connections commit in between,
the second one sees.

SQLite itself is outside the development.  A statement is the rows it yields on
a database, every walk sees one database throughout, and a row is known through
what the column accessors return for its cells.  An allocation is numbered by its
position in the call, and `grants` says which ones the caller's allocator gives.
-/

namespace Geas.Store

open Geas.Abi

/-- One cell of a result row, as the integer, real and blob accessors convert it. -/
structure Cell where
  int64 : Int64
  double : UInt64
  blob : List UInt8

/-- A result row by column.  A column past the last reads as NULL. -/
abbrev Row := Nat → Cell

/-- A prepared statement: its columns and placeholders, which placeholders the
backend accepts a value for, and the rows it yields on a database. -/
structure Statement (Db : Type) where
  columnCount : Nat
  parameterCount : Nat
  binds : Nat → Bool
  rows : List GeasValue → Db → List Row

/-- One walk of a statement: the rows it steps through, and whether the step after
the last one reports that the walk is done. -/
structure Walk where
  rows : List Row
  done : Bool

/-- A walk over the given rows that a fault may cut short. -/
def walk (rows : List Row) : Option Nat → Walk
  | none => ⟨rows, true⟩
  | some fault => ⟨rows.take fault, false⟩

/-- What a query finds around it: the connection, the statement its text prepares
to, the database of the first walk, what other connections commit before the
second, and what the backend and the allocator refuse. -/
structure QueryEnv (Db : Type) where
  isOpen : Bool
  prepared : Option (Statement Db)
  database : Db
  commits : List (Db → Db)
  countFault : Option Nat
  resets : Bool
  readFault : Option Nat
  grants : Nat → Bool

variable {Db : Type}

/-- The database the second walk sees. -/
def QueryEnv.databaseAfter (env : QueryEnv Db) : Db :=
  env.commits.foldl (fun db commit => commit db) env.database

/-- The types a column or a parameter may carry. -/
def tagScalar (ty : UInt32) : Bool :=
  match GeasTypeTag.ofCode ty with
  | some .int | some .uint | some .float | some .bool | some .byte | some .char
  | some .string => true
  | _ => false

/-- Bind one value into the placeholder of the given position. -/
def bindOne (binds : Nat → Bool) (idx : Nat) (value : GeasValue) : GeasStatus :=
  if tagScalar value.ty then
    if binds idx then .ok else .errStore
  else .errType

/-- Bind the values from a position on, stopping at the first refusal. -/
def bindFrom (binds : Nat → Bool) : Nat → List GeasValue → GeasStatus
  | _, [] => .ok
  | i, value :: values =>
      match bindOne binds (i + 1) value with
      | .ok => bindFrom binds (i + 1) values
      | refused => refused

/-- Bind the whole parameter frame. -/
def bindParams (statement : Statement Db) (params : List GeasValue) : GeasStatus :=
  if statement.parameterCount ≠ params.length then .errStore
  else bindFrom statement.binds 0 params

section Reading

variable (grants : Nat → Bool)

/-- Read one field, typed by its column.  The second component counts the
allocations made so far: only a string with bytes takes one. -/
def readField (ty : UInt32) (cell : Cell) (used : Nat) : Except GeasStatus (GeasValue × Nat) :=
  match GeasTypeTag.ofCode ty with
  | some .int => .ok (.int 0 cell.int64, used)
  | some .uint => .ok (.uint 0 cell.int64.toUInt64, used)
  | some .float => .ok (.float 0 cell.double, used)
  | some .bool => .ok (.bool 0 (if cell.int64 = 0 then 0 else 1), used)
  | some .byte => .ok (.byte 0 cell.int64.toUInt64.toUInt8, used)
  | some .char => .ok (.char 0 cell.int64.toUInt64.toUInt32, used)
  | some .string =>
      if cell.blob.isEmpty then .ok (.string 0 (some []), used)
      else if grants used then .ok (.string 0 (some cell.blob), used + 1)
      else .error .errOom
  | _ => .error .errType

/-- Read the fields of a row from a column on. -/
def readFields (row : Row) : List UInt32 → Nat → Nat → Except GeasStatus (List GeasValue × Nat)
  | [], _, used => .ok ([], used)
  | ty :: tys, i, used => do
      let field ← readField grants ty (row i) used
      let fields ← readFields row tys (i + 1) field.2
      .ok (field.1 :: fields.1, fields.2)

/-- Allocate the field array of a row; a row without columns has none. -/
def takeFields (colTypes : List UInt32) (used : Nat) : Except GeasStatus Nat :=
  if colTypes.isEmpty then .ok used
  else if grants used then .ok (used + 1)
  else .error .errOom

/-- Build one record from the current row. -/
def readRow (colTypes : List UInt32) (row : Row) (used : Nat) :
    Except GeasStatus (GeasValue × Nat) := do
  let used ← takeFields grants colTypes used
  let fields ← readFields grants row colTypes 0 used
  .ok (.record 0 (some fields.1), fields.2)

/-- The second walk: read rows while the statement yields them and the backbone
has room. -/
def fillRows (colTypes : List UInt32) :
    Nat → List Row → Nat → Except GeasStatus (List GeasValue × Nat)
  | 0, _, used => .ok ([], used)
  | _ + 1, [], used => .ok ([], used)
  | room + 1, row :: rows, used => do
      let record ← readRow grants colTypes row used
      let rest ← fillRows colTypes room rows record.2
      .ok (record.1 :: rest.1, rest.2)

end Reading

/-- What a query that returns `ok` leaves: the list, the number of rows the second
walk read, which the code keeps in a local and drops, and the allocations made. -/
structure QueryAnswer where
  rowsOut : GeasValue
  read : Nat
  used : Nat

/-- The walks of a query, once its statement is prepared and bound. -/
def queryWalks (env : QueryEnv Db) (statement : Statement Db) (params : List GeasValue)
    (colTypes : List UInt32) : Except GeasStatus QueryAnswer := do
  let counted := walk (statement.rows params env.database) env.countFault
  if !counted.done then .error .errStore
  else if !env.resets then .error .errStore
  else
    let n := counted.rows.length
    if n ≠ 0 ∧ !env.grants 0 then .error .errOom
    else
      let second := walk (statement.rows params env.databaseAfter) env.readFault
      let filled ← fillRows env.grants colTypes n second.rows (if n = 0 then 0 else 1)
      -- A walk that stopped for want of room has a row in hand, which is no fault.
      if !second.done ∧ second.rows.length ≤ n then .error .errStore
      else
        let backbone := filled.1 ++ List.replicate (n - filled.1.length) GeasValue.zero
        .ok ⟨.list 0 GeasTypeTag.record.code (some backbone), filled.1.length, filled.2⟩

/-- Run a statement and materialise its rows as one list. -/
def geasStoreQuery (env : QueryEnv Db) (params : List GeasValue) (colTypes : List UInt32) :
    Except GeasStatus QueryAnswer :=
  if !env.isOpen then .error .errStore
  else if !colTypes.all tagScalar then .error .errType
  else
    match env.prepared with
    | none => .error .errStore
    | some statement =>
        if statement.columnCount ≠ colTypes.length then .error .errType
        else
          match bindParams statement params with
          | .ok => queryWalks env statement params colTypes
          | refused => .error refused

/-- The row of a key, as an `Option` inside a `Result`.  `scratch` says whether the
statement text and the column types could be allocated. -/
def geasStoreFind (env : QueryEnv Db) (scratch : Bool) (colTypes : List UInt32)
    (key : GeasValue) : Except GeasStatus GeasValue :=
  if !env.isOpen ∨ colTypes.isEmpty then .error .errStore
  else if !scratch then .error .errOom
  else do
    let answer ← geasStoreQuery env [key] colTypes
    match answer.rowsOut with
    | .list _ _ (some (first :: _)) =>
        if !env.grants answer.used then .error .errOom
        else if !env.grants (answer.used + 1) then .error .errOom
        else .ok (.result 0 (some (.option 1 (some first))))
    | _ =>
        if !env.grants answer.used then .error .errOom
        else .ok (.result 0 (some (.option 0 none)))

/-- A record with one field for each column, under the column's type. -/
def IsRowRecord (colTypes : List UInt32) (value : GeasValue) : Prop :=
  ∃ fields, value = .record 0 (some fields) ∧ fields.map GeasValue.ty = colTypes ∧
    ∀ field ∈ fields, field.tag = 0

/-- What the answer of a query promises: one element for each row read, and every
element a row record. -/
def Snapshot (colTypes : List UInt32) (answer : QueryAnswer) : Prop :=
  ∃ elements, answer.rowsOut = .list 0 GeasTypeTag.record.code (some elements) ∧
    elements.length = answer.read ∧ ∀ element ∈ elements, IsRowRecord colTypes element

/-- The rows a statement yields before and after the commits of other connections. -/
def QueryEnv.rowsBefore (env : QueryEnv Db) (statement : Statement Db)
    (params : List GeasValue) : List Row :=
  statement.rows params env.database

@[inherit_doc QueryEnv.rowsBefore]
def QueryEnv.rowsAfter (env : QueryEnv Db) (statement : Statement Db)
    (params : List GeasValue) : List Row :=
  statement.rows params env.databaseAfter

/-- A sequence of two fallible computations that succeeds is two successes. -/
theorem ok_of_bind_ok {ε α β : Type} {first : Except ε α} {next : α → Except ε β} {result : β}
    (succeeds : first >>= next = .ok result) :
    ∃ value, first = .ok value ∧ next value = .ok result := by
  cases first with
  | error refused => cases succeeds
  | ok value => exact ⟨value, rfl, succeeds⟩

section Reading

variable {grants : Nat → Bool}

/-- A field that was read carries its column's type and no tag. -/
theorem readField_typed {ty : UInt32} {cell : Cell} {used : Nat} {field : GeasValue × Nat}
    (read : readField grants ty cell used = .ok field) :
    field.1.ty = ty ∧ field.1.tag = 0 := by
  unfold readField at read
  split at read <;> rename_i known
  case h_7 =>
    have code := GeasTypeTag.code_of_ofCode known
    split at read
    · cases read
      exact ⟨code.symm, rfl⟩
    · split at read
      · cases read
        exact ⟨code.symm, rfl⟩
      · cases read
  case h_8 => cases read
  all_goals
    have code := GeasTypeTag.code_of_ofCode known
    cases read
    exact ⟨code.symm, rfl⟩

theorem readFields_typed {row : Row} {tys : List UInt32} {i used : Nat}
    {fields : List GeasValue × Nat} (read : readFields grants row tys i used = .ok fields) :
    fields.1.map GeasValue.ty = tys ∧ ∀ field ∈ fields.1, field.tag = 0 := by
  induction tys generalizing i used fields with
  | nil =>
      cases read
      simp
  | cons ty tys ih =>
      obtain ⟨field, head, read⟩ := ok_of_bind_ok read
      obtain ⟨rest, tail, read⟩ := ok_of_bind_ok read
      cases read
      have typed := readField_typed head
      have restTyped := ih tail
      constructor
      · simp [typed.1, restTyped.1]
      · intro member inside
        cases inside with
        | head => exact typed.2
        | tail _ inside => exact restTyped.2 member inside

/-- A row that was read is a row record. -/
theorem readRow_isRowRecord {colTypes : List UInt32} {row : Row} {used : Nat}
    {record : GeasValue × Nat} (read : readRow grants colTypes row used = .ok record) :
    IsRowRecord colTypes record.1 := by
  obtain ⟨used, -, read⟩ := ok_of_bind_ok read
  obtain ⟨fields, body, read⟩ := ok_of_bind_ok read
  cases read
  exact ⟨fields.1, rfl, readFields_typed body⟩

/-- The second walk reads as many rows as it has room for and the statement yields. -/
theorem fillRows_spec {colTypes : List UInt32} {room : Nat} {rows : List Row} {used : Nat}
    {filled : List GeasValue × Nat}
    (read : fillRows grants colTypes room rows used = .ok filled) :
    filled.1.length = min room rows.length ∧
      ∀ element ∈ filled.1, IsRowRecord colTypes element := by
  induction room generalizing rows used filled with
  | zero =>
      cases read
      simp
  | succ room ih =>
      cases rows with
      | nil =>
          cases read
          simp
      | cons row rows =>
          obtain ⟨record, head, read⟩ := ok_of_bind_ok read
          obtain ⟨rest, tail, read⟩ := ok_of_bind_ok read
          cases read
          have restSpec := ih tail
          constructor
          · simp [restSpec.1]
          · intro member inside
            cases inside with
            | head => exact readRow_isRowRecord head
            | tail _ inside => exact restSpec.2 member inside

end Reading

theorem not_isRowRecord_zero (colTypes : List UInt32) : ¬ IsRowRecord colTypes GeasValue.zero := by
  intro isRecord
  obtain ⟨fields, shape, -⟩ := isRecord
  exact absurd shape (by simp [GeasValue.zero])

/-- What a query that returns `ok` did: both walks, the second of them read as far
as the first had counted. -/
structure Queried (env : QueryEnv Db) (statement : Statement Db) (params : List GeasValue)
    (colTypes : List UInt32) (answer : QueryAnswer) (records : List GeasValue) : Prop where
  prepared : env.prepared = some statement
  rowsOut : answer.rowsOut = .list 0 GeasTypeTag.record.code (some (records ++
    List.replicate ((env.rowsBefore statement params).length - records.length) GeasValue.zero))
  read : answer.read = records.length
  length : records.length =
    min (env.rowsBefore statement params).length (env.rowsAfter statement params).length
  isRowRecord : ∀ record ∈ records, IsRowRecord colTypes record

theorem queryWalks_spec {env : QueryEnv Db} {statement : Statement Db} {params : List GeasValue}
    {colTypes : List UInt32} {answer : QueryAnswer} (prepared : env.prepared = some statement)
    (returned : queryWalks env statement params colTypes = .ok answer) :
    ∃ records, Queried env statement params colTypes answer records := by
  unfold queryWalks at returned
  cases counted : env.countFault with
  | some fault => simp [counted, walk] at returned
  | none =>
      have whole : walk (statement.rows params env.database) none =
        ⟨env.rowsBefore statement params, true⟩ := rfl
      rw [counted, whole] at returned
      simp only [Bool.not_true, Bool.false_eq_true, ↓reduceIte] at returned
      split at returned
      · cases returned
      · split at returned
        · cases returned
        · obtain ⟨filled, read, returned⟩ := ok_of_bind_ok returned
          have spec := fillRows_spec read
          split at returned
          · cases returned
          · rename_i enough
            cases returned
            refine ⟨filled.1, prepared, rfl, rfl, ?_, spec.2⟩
            rw [spec.1, QueryEnv.rowsAfter]
            cases reached : env.readFault with
            | none => rfl
            | some fault =>
                simp only [reached, walk, Bool.not_false, true_and, List.length_take] at enough ⊢
                omega

/-- Every query that returns `ok` ran both walks. -/
theorem geasStoreQuery_spec {env : QueryEnv Db} {params : List GeasValue}
    {colTypes : List UInt32} {answer : QueryAnswer}
    (returned : geasStoreQuery env params colTypes = .ok answer) :
    ∃ statement records, Queried env statement params colTypes answer records := by
  unfold geasStoreQuery at returned
  split at returned
  · cases returned
  · split at returned
    · cases returned
    · split at returned
      · cases returned
      · rename_i statement prepared
        split at returned
        · cases returned
        · split at returned
          · exact ⟨statement, queryWalks_spec prepared returned⟩
          · cases returned

namespace Queried

variable {env : QueryEnv Db} {statement : Statement Db} {params : List GeasValue}
  {colTypes : List UInt32} {answer : QueryAnswer} {records : List GeasValue}

/-- The answer keeps its promise exactly when no row went missing between the walks. -/
theorem snapshot_iff (queried : Queried env statement params colTypes answer records) :
    Snapshot colTypes answer ↔
      (env.rowsBefore statement params).length ≤ (env.rowsAfter statement params).length := by
  have length := queried.length
  constructor
  · rintro ⟨elements, shape, count, -⟩
    rw [queried.rowsOut] at shape
    cases shape
    rw [queried.read] at count
    simp only [List.length_append, List.length_replicate] at count
    omega
  · intro kept
    have none_missing :
        (env.rowsBefore statement params).length - records.length = 0 := by omega
    refine ⟨records, ?_, queried.read.symm, queried.isRowRecord⟩
    rw [queried.rowsOut, none_missing]
    simp

/-- The first element of the answer: the first row read, or the zeroed slot left by
a second walk that found nothing. -/
theorem first_isRowRecord_iff (queried : Queried env statement params colTypes answer records)
    {first : GeasValue} {rest : List GeasValue}
    (shape : answer.rowsOut = .list 0 GeasTypeTag.record.code (some (first :: rest))) :
    IsRowRecord colTypes first ↔ env.rowsAfter statement params ≠ [] := by
  have length := queried.length
  rw [queried.rowsOut] at shape
  cases records with
  | nil =>
      have counted : (env.rowsBefore statement params).length ≠ 0 := by
        intro none_counted
        simp [none_counted] at shape
      have empty : env.rowsAfter statement params = [] := by
        apply List.eq_nil_of_length_eq_zero
        simp only [List.length_nil] at length
        omega
      have zeroed : first = GeasValue.zero := by
        obtain ⟨n, counted⟩ := Nat.exists_eq_succ_of_ne_zero counted
        simp only [counted, List.length_nil, Nat.sub_zero, List.nil_append,
          List.replicate_succ] at shape
        cases shape
        rfl
      rw [zeroed, empty]
      simp [not_isRowRecord_zero]
  | cons record records =>
      cases shape
      constructor
      · intro _ empty
        simp [empty] at length
      · intro _
        exact queried.isRowRecord first (by simp)

end Queried

/-- A lookup that returns `ok` answers `Some` of the first element of its query, or
`None` when the first walk counted no row. -/
theorem geasStoreFind_spec {env : QueryEnv Db} {scratch : Bool} {colTypes : List UInt32}
    {key found : GeasValue} (returned : geasStoreFind env scratch colTypes key = .ok found) :
    ∃ statement answer records, Queried env statement [key] colTypes answer records ∧
      ((∃ first rest,
          answer.rowsOut = .list 0 GeasTypeTag.record.code (some (first :: rest)) ∧
          found = .result 0 (some (.option 1 (some first)))) ∨
        (env.rowsBefore statement [key] = [] ∧
          found = .result 0 (some (.option 0 none)))) := by
  unfold geasStoreFind at returned
  split at returned
  · cases returned
  · split at returned
    · cases returned
    · obtain ⟨answer, queried, returned⟩ := ok_of_bind_ok returned
      obtain ⟨statement, records, queried⟩ := geasStoreQuery_spec queried
      refine ⟨statement, answer, records, queried, ?_⟩
      have length := queried.length
      rw [queried.rowsOut] at returned ⊢
      cases elements : records ++ List.replicate
          ((env.rowsBefore statement [key]).length - records.length) GeasValue.zero with
      | nil =>
          rw [elements] at returned
          simp only at returned
          split at returned
          · cases returned
          · cases returned
            right
            simp only [List.append_eq_nil_iff, List.replicate_eq_nil_iff] at elements
            constructor
            · apply List.eq_nil_of_length_eq_zero
              have missing := elements.2
              rw [elements.1, List.length_nil] at missing
              omega
            · rfl
      | cons first rest =>
          rw [elements] at returned
          simp only at returned
          split at returned
          · cases returned
          · split at returned
            · cases returned
            · cases returned
              left
              exact ⟨first, rest, rfl, rfl⟩

/-- Whenever a query returns `ok`, its list has one row record for each row read
exactly when the second walk finds at least as many rows as the first; and
whenever a lookup returns `ok`, what it answers `Some` of is a row record exactly
when the second walk finds a row or the first found none. -/
theorem storeQuery_snapshot_iff (env : QueryEnv Db) (colTypes : List UInt32) :
    (∀ params answer, geasStoreQuery env params colTypes = .ok answer →
      ∃ statement, env.prepared = some statement ∧
        (Snapshot colTypes answer ↔
          (env.rowsBefore statement params).length ≤ (env.rowsAfter statement params).length)) ∧
    (∀ scratch key found, geasStoreFind env scratch colTypes key = .ok found →
      ∃ statement, env.prepared = some statement ∧
        ((∀ row, found = .result 0 (some (.option 1 (some row))) → IsRowRecord colTypes row) ↔
          (env.rowsBefore statement [key] = [] ∨ env.rowsAfter statement [key] ≠ []))) := by
  constructor
  · intro params answer returned
    obtain ⟨statement, records, queried⟩ := geasStoreQuery_spec returned
    exact ⟨statement, queried.prepared, queried.snapshot_iff⟩
  · intro scratch key found returned
    obtain ⟨statement, answer, records, queried, answered⟩ := geasStoreFind_spec returned
    refine ⟨statement, queried.prepared, ?_⟩
    cases answered with
    | inl some_row =>
        obtain ⟨first, rest, shape, rfl⟩ := some_row
        have counted : env.rowsBefore statement [key] ≠ [] := by
          intro none_counted
          have length := queried.length
          rw [queried.rowsOut, none_counted] at shape
          rw [none_counted, List.length_nil, Nat.zero_min] at length
          rw [List.eq_nil_of_length_eq_zero length] at shape
          cases shape
        simp only [GeasValue.result.injEq, true_and, Option.some.injEq, GeasValue.option.injEq,
          forall_eq', counted, false_or]
        exact queried.first_isRowRecord_iff shape
    | inr none_row =>
        obtain ⟨none_counted, rfl⟩ := none_row
        simp [none_counted]

/-- One integer column over a table that is its rows, with the given commits between
the walks. -/
def tableEnv (rows : List Row) (commits : List (List Row → List Row)) : QueryEnv (List Row) where
  isOpen := true
  prepared := some ⟨1, 1, fun _ => true, fun _ table => table⟩
  database := rows
  commits := commits
  countFault := none
  resets := true
  readFault := none
  grants := fun _ => true

/-- A row whose cells all read as the given integer. -/
def intRow (i : Int64) : Row := fun _ => ⟨i, 0, []⟩

/-- A row inserted between the walks does no harm. -/
theorem storeQuery_snapshot_insert :
    ∃ answer, geasStoreQuery (tableEnv [intRow 1] [fun table => table ++ [intRow 2]])
        [.int 0 1] [1] = .ok answer ∧ Snapshot [1] answer := by
  obtain ⟨answer, returned⟩ : ∃ answer, geasStoreQuery
      (tableEnv [intRow 1] [fun table => table ++ [intRow 2]]) [.int 0 1] [1] = .ok answer :=
    ⟨_, rfl⟩
  obtain ⟨statement, prepared, snapshot⟩ :=
    (storeQuery_snapshot_iff (tableEnv [intRow 1] [fun table => table ++ [intRow 2]]) [1]).1
      [.int 0 1] answer returned
  cases prepared
  exact ⟨answer, returned, snapshot.mpr (by decide)⟩

/-- One row deleted between the walks: the query returns `ok` with a list of one
`Unit`, and the lookup answers `Some` of it. -/
theorem storeQuery_deleted_row :
    ∃ answer, geasStoreQuery (tableEnv [intRow 1] [fun _ => []]) [.int 0 1] [1] = .ok answer ∧
      answer.read = 0 ∧ answer.rowsOut = .list 0 13 (some [.unit 0]) ∧ ¬ Snapshot [1] answer ∧
      geasStoreFind (tableEnv [intRow 1] [fun _ => []]) true [1] (.int 0 1) =
        .ok (.result 0 (some (.option 1 (some (.unit 0))))) ∧
      ¬ IsRowRecord [1] (.unit 0) := by
  refine ⟨_, rfl, rfl, rfl, ?_, rfl, not_isRowRecord_zero [1]⟩
  intro snapshot
  obtain ⟨elements, shape, count, -⟩ := snapshot
  cases shape
  cases count

end Geas.Store
