import Mathlib.Data.List.Forall2
import Geas.Store.Cells
import Mathlib.Algebra.Group.Nat.Defs

/-!
# Stored rows

A record inserted into a table and found again by its first field.  Every column but a
`String` comes back as it went in.  A `String` does when its length is a C `int`;
otherwise what the narrowed length says is stored in its place.

The database keeps the cells of a row and compares keys by their cells.  Nothing else
writes to it here, and memory does not run out.
-/

namespace Geas.Store

open Geas.Abi

/-- A table by rows of cells. -/
abbrev CellTable := List (List SqlCell)

/-! ## Insert and find -/

/-- `store_row_params`: the fields of a record of the schema's width. -/
def storeRowParams (cols : List UInt32) : GeasValue → Option (List GeasValue)
  | .record _ (some fields) => if fields.length ≠ cols.length then none else some fields
  | _ => none

/-- The statement of an insert: a row under a key that is there already is refused, and
`accepts` is the rest of the backend's answer. -/
def insertRow (accepts : Bool) (cells : List SqlCell) (table : CellTable) :
    GeasStatus × CellTable :=
  if accepts = false ∨ (table.any fun stored => stored.head? = cells.head?) then
    (.errStore, table)
  else (.ok, table ++ [cells])

/-- `geas_store_insert`: its status and the table after it. -/
def geasStoreInsert (accepts : Bool) (cols : List UInt32) (row : GeasValue) (table : CellTable) :
    GeasStatus × CellTable :=
  match storeRowParams cols row with
  | none => (.errType, table)
  | some params =>
      match bindCells params with
      | .error status => (status, table)
      | .ok cells => insertRow accepts cells table

/-- The rows whose first cell is the one the key was bound as. -/
def rowsOfKey (params : List GeasValue) (table : CellTable) : List (List SqlCell) :=
  match bindCells params with
  | .ok [key] => table.filter fun stored => stored.head? = some key
  | _ => []

/-- The lookup by key on a table that does not change: the backend accepts the key when
it can be bound. -/
def findEnv (accessors : Accessors) (cols : List UInt32) (key : GeasValue) (table : CellTable) :
    QueryEnv CellTable where
  isOpen := true
  prepared := some
    { columnCount := cols.length
      parameterCount := 1
      binds := fun _ => (bindCell key).toOption.isSome
      rows := fun params table => (rowsOfKey params table).map accessors.row }
  database := table
  commits := []
  countFault := none
  resets := true
  readFault := none
  grants := fun _ => true

/-- `geas_store_find` on that table. -/
def findRow (accessors : Accessors) (cols : List UInt32) (key : GeasValue) (table : CellTable) :
    Except GeasStatus GeasValue :=
  geasStoreFind (findEnv accessors cols key table) true cols key

/-- An insert still to come. -/
structure PendingInsert where
  accepts : Bool
  row : GeasValue

/-- The table after a run of inserts, whatever they answer. -/
def insertAll (cols : List UInt32) (inserts : List PendingInsert) (table : CellTable) : CellTable :=
  inserts.foldl (fun table insert => (geasStoreInsert insert.accepts cols insert.row table).2) table

/-! ## What a record may hold -/

/-- The types a column of the schema may have. -/
def columnStorable (ty : UInt32) : Bool :=
  match GeasTypeTag.ofCode ty with
  | some .int | some .uint | some .bool | some .byte | some .char | some .string => true
  | _ => false

/-- A field that a column may hold: a truth value is 0 or 1, and the bytes of a string
can be read. -/
def FieldSound : GeasValue → Prop
  | .bool _ b => b ≤ 1
  | .string _ bytes => bytes.isSome
  | _ => True

/-- A record of a schema. -/
structure RecordOf (cols : List UInt32) (fields : List GeasValue) : Prop where
  wide : cols ≠ []
  storable : ∀ ty ∈ cols, columnStorable ty = true
  typed : fields.map GeasValue.ty = cols
  sound : ∀ field ∈ fields, FieldSound field

/-- Whenever the insert of the record answers `GEAS_OK`, a find by its first field answers
a record equal to it field for field, also after any later inserts. -/
def RoundTrips (accessors : Accessors) (cols : List UInt32) (fields : List GeasValue) : Prop :=
  ∀ accepts tag table table' later key,
    geasStoreInsert accepts cols (.record tag (some fields)) table = (.ok, table') →
    fields.head? = some key →
    ∃ found, findRow accessors cols key (insertAll cols later table') =
        .ok (.result 0 (some (.option 1 (some (.record 0 (some found)))))) ∧
      found.Forall₂ (fun read field => geasValueEq read field = true) fields

/-! ## Reading back -/

/-- The field read from a cell under a type. -/
def readBack (ty : UInt32) (cell : Cell) : GeasValue :=
  match GeasTypeTag.ofCode ty with
  | some .int => .int 0 cell.int64
  | some .uint => .uint 0 cell.int64.toUInt64
  | some .float => .float 0 cell.double
  | some .bool => .bool 0 (if cell.int64 = 0 then 0 else 1)
  | some .byte => .byte 0 cell.int64.toUInt64.toUInt8
  | some .char => .char 0 cell.int64.toUInt64.toUInt32
  | _ => .string 0 (some cell.blob)

/-- The fields read from a row, from a column on. -/
def readBackFrom (row : Row) : Nat → List UInt32 → List GeasValue
  | _, [] => []
  | i, ty :: tys => readBack ty (row i) :: readBackFrom row (i + 1) tys

theorem columnStorable_scalar {ty : UInt32} (storable : columnStorable ty = true) :
    tagScalar ty = true := by
  unfold columnStorable at storable
  unfold tagScalar
  split at storable <;> simp_all

theorem columnStorable_defined {ty : UInt32} (storable : columnStorable ty = true) : ¬ 16 < ty := by
  unfold columnStorable at storable
  split at storable <;> rename_i known
  case h_7 => cases storable
  all_goals
    rw [GeasTypeTag.code_of_ofCode known]
    decide

theorem readField_eq {ty : UInt32} (scalar : tagScalar ty = true) (cell : Cell) (used : Nat) :
    ∃ used', readField (fun _ => true) ty cell used = .ok (readBack ty cell, used') := by
  unfold tagScalar at scalar
  unfold readField readBack
  split at scalar <;> rename_i known
  case h_7 =>
    rw [known]
    dsimp only
    split
    · next empty =>
      rw [List.isEmpty_iff.mp empty]
      exact ⟨used, rfl⟩
    · exact ⟨used + 1, rfl⟩
  case h_8 => cases scalar
  all_goals
    rw [known]
    exact ⟨used, rfl⟩

theorem readFields_eq {tys : List UInt32} (scalar : ∀ ty ∈ tys, tagScalar ty = true) (row : Row)
    (i used : Nat) :
    ∃ used', readFields (fun _ => true) row tys i used = .ok (readBackFrom row i tys, used') := by
  induction tys generalizing i used with
  | nil => exact ⟨used, rfl⟩
  | cons ty tys ih =>
      obtain ⟨later, head⟩ := readField_eq (scalar ty List.mem_cons_self) (row i) used
      obtain ⟨last, tail⟩ := ih (fun ty mem => scalar ty (List.mem_cons_of_mem _ mem)) (i + 1) later
      refine ⟨last, ?_⟩
      rw [readFields, head]
      change readFields _ row tys (i + 1) later >>= _ = _
      rw [tail]
      rfl

theorem readRow_eq {tys : List UInt32} (wide : tys ≠ [])
    (scalar : ∀ ty ∈ tys, tagScalar ty = true) (row : Row) (used : Nat) :
    ∃ used', readRow (fun _ => true) tys row used =
      .ok (.record 0 (some (readBackFrom row 0 tys)), used') := by
  have some_column : tys.isEmpty = false := by simpa using wide
  obtain ⟨used', fields⟩ := readFields_eq scalar row 0 (used + 1)
  refine ⟨used', ?_⟩
  rw [readRow, takeFields, some_column]
  change readFields _ row tys 0 (used + 1) >>= _ = _
  rw [fields]
  rfl

/-- One row under a key is what a find by that key answers. -/
theorem findRow_eq {accessors : Accessors} {cols : List UInt32} {key : GeasValue} {cell : SqlCell}
    {cells : List SqlCell} {table : CellTable} (wide : cols ≠ [])
    (scalar : ∀ ty ∈ cols, tagScalar ty = true) (keyScalar : tagScalar key.ty = true)
    (bound : bindCell key = .ok cell)
    (one : (table.filter fun stored => stored.head? = some cell) = [cells]) :
    findRow accessors cols key table =
      .ok (.result 0 (some (.option 1 (some (.record 0
        (some (readBackFrom (accessors.row cells) 0 cols))))))) := by
  have some_column : cols.isEmpty = false := by simpa using wide
  have all_scalar : cols.all tagScalar = true := List.all_eq_true.mpr scalar
  have params : bindCells [key] = .ok [cell] := by
    rw [bindCells, bound]
    rfl
  have rows : (rowsOfKey [key] table).map accessors.row = [accessors.row cells] := by
    rw [rowsOfKey, params]
    dsimp only
    rw [one]
    rfl
  obtain ⟨used, read⟩ := readRow_eq wide scalar (accessors.row cells) 1
  have filled : fillRows (fun _ => true) cols 1 [accessors.row cells] 1 =
      .ok ([.record 0 (some (readBackFrom (accessors.row cells) 0 cols))], used) := by
    rw [fillRows, read]
    rfl
  have walks : queryWalks (findEnv accessors cols key table)
      { columnCount := cols.length
        parameterCount := 1
        binds := fun _ => (bindCell key).toOption.isSome
        rows := fun params table => (rowsOfKey params table).map accessors.row } [key] cols =
      .ok ⟨.list 0 GeasTypeTag.record.code
        (some [.record 0 (some (readBackFrom (accessors.row cells) 0 cols))]), 1, used⟩ := by
    simp only [queryWalks, findEnv, QueryEnv.databaseAfter, List.foldl_nil, walk, rows]
    change fillRows (fun _ => true) cols 1 [accessors.row cells] 1 >>= _ = _
    rw [filled]
    rfl
  have asked : geasStoreQuery (findEnv accessors cols key table) [key] cols =
      .ok ⟨.list 0 GeasTypeTag.record.code
        (some [.record 0 (some (readBackFrom (accessors.row cells) 0 cols))]), 1, used⟩ := by
    rw [← walks]
    simp [geasStoreQuery, findEnv, all_scalar, bindParams, bindFrom, bindOne, keyScalar, bound,
      Except.toOption]
  rw [findRow, geasStoreFind, asked]
  simp only [findEnv, some_column]
  rfl

/-! ## What a field comes back as -/

/-- A string that is bound as all of its bytes. -/
def BoundWhole : GeasValue → Prop
  | .string _ (some bytes) => bytes.length < 2 ^ 31
  | _ => True

theorem bindBlob_whole {bytes : List UInt8} {cell : SqlCell} (short : bytes.length < 2 ^ 31)
    (bound : bindBlob bytes = some cell) : cell = .blob bytes := by
  unfold bindBlob at bound
  have all : bytes.length % 2 ^ 32 = bytes.length := Nat.mod_eq_of_lt (by omega)
  simp only [narrowed_eq, all] at bound
  generalize sqliteMaxLength = limit at bound
  rw [if_pos short, if_neg (by omega), Int.toNat_natCast] at bound
  split at bound
  · cases bound
  · cases bound
    rw [List.take_length]

theorem bindBlob_cut {bytes : List UInt8} {cell : SqlCell} (long : ¬ bytes.length < 2 ^ 31)
    (bound : bindBlob bytes = some cell) :
    ∃ kept, (cell = .blob kept ∨ cell = .text kept) ∧ kept.length < bytes.length := by
  unfold bindBlob at bound
  have wrapped := Nat.mod_lt bytes.length (show 0 < 2 ^ 32 by decide)
  have limit : sqliteMaxLength < 2 ^ 31 := by decide
  simp only [narrowed_eq] at bound
  generalize sqliteMaxLength = bound' at limit bound
  by_cases low : bytes.length % 2 ^ 32 < 2 ^ 31
  · rw [if_pos low, if_neg (by omega), Int.toNat_natCast] at bound
    split at bound
    · cases bound
    · cases bound
      refine ⟨_, .inl rfl, ?_⟩
      rw [List.length_take]
      omega
  · rw [if_neg low, if_pos (by omega)] at bound
    split at bound
    · cases bound
    · cases bound
      refine ⟨_, .inr rfl, ?_⟩
      rw [List.length_take]
      omega

theorem bindCell_string {tag : UInt32} {bytes : List UInt8} {cell : SqlCell}
    (bound : bindCell (.string tag (some bytes)) = .ok cell) : bindBlob bytes = some cell := by
  rw [bindCell] at bound
  generalize bindBlob bytes = stored at bound ⊢
  cases stored with
  | none => cases bound
  | some cell' =>
      cases bound
      rfl

/-- A field comes back equal exactly when it was bound whole. -/
theorem readBack_eq_iff (accessors : Accessors) {value : GeasValue} {cell : SqlCell}
    (storable : columnStorable value.ty = true) (sound : FieldSound value)
    (bound : bindCell value = .ok cell) :
    geasValueEq (readBack value.ty (accessors.read cell)) value = true ↔ BoundWhole value := by
  cases value with
  | int tag i =>
      cases bound
      simp [readBack, GeasValue.ty, accessors.integer, geasValueEq, BoundWhole]
  | uint tag u =>
      cases bound
      simp [readBack, GeasValue.ty, accessors.integer, geasValueEq, BoundWhole]
  | bool tag b =>
      cases bound
      have truth : b = 0 ∨ b = 1 := by
        have small : b.toNat ≤ 1 := UInt8.le_iff_toNat_le.mp sound
        rcases (by omega : b.toNat = 0 ∨ b.toNat = 1) with zero | one
        · exact .inl (UInt8.toNat_inj.mp zero)
        · exact .inr (UInt8.toNat_inj.mp one)
      rcases truth with rfl | rfl <;>
        simp [readBack, GeasValue.ty, accessors.integer, geasValueEq, BoundWhole]
  | byte tag b =>
      cases bound
      simp [readBack, GeasValue.ty, accessors.integer, geasValueEq, BoundWhole]
  | char tag ch =>
      cases bound
      simp [readBack, GeasValue.ty, accessors.integer, geasValueEq, BoundWhole]
  | string tag bytes =>
      cases bytes with
      | none => cases sound
      | some bytes =>
          have stored := bindCell_string bound
          simp only [readBack, GeasValue.ty, GeasTypeTag.ofCode_code, geasValueEq,
            geasStringEq, BoundWhole, beq_iff_eq]
          by_cases short : bytes.length < 2 ^ 31
          · rw [bindBlob_whole short stored, accessors.blob]
            exact ⟨fun _ => short, fun _ => rfl⟩
          · refine ⟨fun same => ?_, fun short' => absurd short' short⟩
            obtain ⟨kept, rfl | rfl, fewer⟩ := bindBlob_cut short stored
            · rw [accessors.blob] at same
              exact absurd (congrArg List.length same) (by omega)
            · rw [accessors.text] at same
              exact absurd (congrArg List.length same) (by omega)
  | unknown ty tag undefined =>
      cases bound
  | unit | float | list | map | tuple | option | result | record | pledgeRef | sum | inst =>
      cases storable

theorem bindCells_cons_ok {value : GeasValue} {values : List GeasValue} {cells : List SqlCell}
    (bound : bindCells (value :: values) = .ok cells) :
    ∃ cell rest, bindCell value = .ok cell ∧ bindCells values = .ok rest ∧
      cells = cell :: rest := by
  obtain ⟨cell, head, bound⟩ := ok_of_bind_ok bound
  obtain ⟨rest, tail, bound⟩ := ok_of_bind_ok bound
  cases bound
  exact ⟨cell, rest, head, tail, rfl⟩

/-- The fields read from where a frame was stored equal the frame exactly when all of it was
bound whole. -/
theorem readBackFrom_eq_iff (accessors : Accessors) {fields : List GeasValue}
    {cells : List SqlCell} (front : List SqlCell)
    (storable : ∀ field ∈ fields, columnStorable field.ty = true)
    (sound : ∀ field ∈ fields, FieldSound field) (bound : bindCells fields = .ok cells) :
    (readBackFrom (accessors.row (front ++ cells)) front.length
        (fields.map GeasValue.ty)).Forall₂ (fun read field => geasValueEq read field = true) fields ↔
      ∀ field ∈ fields, BoundWhole field := by
  induction fields generalizing cells front with
  | nil => simp [readBackFrom]
  | cons field rest ih =>
      obtain ⟨cell, later, head, tail, rfl⟩ := bindCells_cons_ok bound
      have here : accessors.row (front ++ cell :: later) front.length = accessors.read cell := by
        simp [Accessors.row]
      have shift : front ++ cell :: later = (front ++ [cell]) ++ later := by simp
      have next : front.length + 1 = (front ++ [cell]).length := by simp
      rw [List.map_cons, readBackFrom, List.forall₂_cons, here, shift, next,
        ih (front ++ [cell]) (fun f mem => storable f (List.mem_cons_of_mem _ mem))
          (fun f mem => sound f (List.mem_cons_of_mem _ mem)) tail,
        readBack_eq_iff accessors (storable field List.mem_cons_self)
          (sound field List.mem_cons_self) head, List.forall_mem_cons]

/-! ## Tables under inserts -/

theorem bindCell_ne_error_ok (value : GeasValue) : bindCell value ≠ .error .ok := by
  unfold bindCell
  split
  case h_8 =>
    next bytes =>
      generalize bindBlob bytes = stored
      cases stored <;> nofun
  all_goals nofun

theorem bindCells_ne_error_ok (values : List GeasValue) : bindCells values ≠ .error .ok := by
  induction values with
  | nil => nofun
  | cons value rest ih =>
      rw [bindCells]
      cases head : bindCell value with
      | error status =>
          intro failed
          cases failed
          exact bindCell_ne_error_ok value head
      | ok cell =>
          cases tail : bindCells rest with
          | error status =>
              intro failed
              cases failed
              exact ih tail
          | ok cells => nofun

theorem geasStoreInsert_ok {accepts : Bool} {cols : List UInt32} {row : GeasValue}
    {table table' : CellTable} (done : geasStoreInsert accepts cols row table = (.ok, table')) :
    ∃ params cells, storeRowParams cols row = some params ∧ bindCells params = .ok cells ∧
      (∀ stored ∈ table, stored.head? ≠ cells.head?) ∧ table' = table ++ [cells] := by
  unfold geasStoreInsert at done
  cases width : storeRowParams cols row with
  | none =>
      rw [width] at done
      cases done
  | some params =>
      rw [width] at done
      dsimp only at done
      cases bound : bindCells params with
      | error status =>
          rw [bound] at done
          cases done
          exact absurd bound (bindCells_ne_error_ok params)
      | ok cells =>
          rw [bound] at done
          dsimp only at done
          unfold insertRow at done
          split at done
          · cases done
          · next fresh =>
            cases done
            refine ⟨params, cells, rfl, bound, fun stored mem same => fresh (.inr ?_), rfl⟩
            exact List.any_eq_true.mpr ⟨stored, mem, decide_eq_true same⟩

/-- An insert changes the table only when it answers `GEAS_OK`. -/
theorem geasStoreInsert_cases (accepts : Bool) (cols : List UInt32) (row : GeasValue)
    (table : CellTable) :
    (geasStoreInsert accepts cols row table).2 = table ∨
      ∃ cells, (∀ stored ∈ table, stored.head? ≠ cells.head?) ∧
        (geasStoreInsert accepts cols row table).2 = table ++ [cells] := by
  cases done : geasStoreInsert accepts cols row table with
  | mk status table' =>
      by_cases ok : status = .ok
      · subst ok
        obtain ⟨_, cells, -, -, fresh, rfl⟩ := geasStoreInsert_ok done
        exact .inr ⟨cells, fresh, rfl⟩
      · refine .inl ?_
        unfold geasStoreInsert insertRow at done
        split at done
        · cases done
          rfl
        · split at done
          · cases done
            rfl
          · split at done
            · cases done
              rfl
            · cases done
              exact absurd rfl ok

/-- A key keeps its one row whatever is inserted later. -/
theorem insertAll_keeps {cols : List UInt32} {cell : SqlCell} {cells : List SqlCell}
    (later : List PendingInsert) {table : CellTable}
    (one : (table.filter fun stored => stored.head? = some cell) = [cells]) :
    ((insertAll cols later table).filter fun stored => stored.head? = some cell) = [cells] := by
  unfold insertAll
  induction later generalizing table with
  | nil => exact one
  | cons insert rest ih =>
      rw [List.foldl_cons]
      refine ih ?_
      rcases geasStoreInsert_cases insert.accepts cols insert.row table with same | ⟨new, fresh, grown⟩
      · rw [same]
        exact one
      · have mem : cells ∈ table.filter fun stored => stored.head? = some cell := by
          rw [one]
          exact List.mem_singleton_self cells
        obtain ⟨stored, here⟩ := List.mem_filter.mp mem
        have other : ¬ new.head? = some cell := fun same =>
          fresh cells stored ((of_decide_eq_true here).trans same.symm)
        rw [grown, List.filter_append, one]
        simp [other]

/-! ## Round trips -/

theorem storeRowParams_record {cols : List UInt32} {tag : UInt32} {fields : List GeasValue}
    (width : fields.length = cols.length) :
    storeRowParams cols (.record tag (some fields)) = some fields :=
  if_neg (not_not.mpr width)

/-- What a find answers after a successful insert and whatever came later: the fields as
they are read back. -/
theorem find_after_insert (accessors : Accessors) {cols : List UInt32} {fields : List GeasValue}
    (record : RecordOf cols fields) {accepts : Bool} {tag : UInt32} {table table' : CellTable}
    {key : GeasValue} (later : List PendingInsert)
    (done : geasStoreInsert accepts cols (.record tag (some fields)) table = (.ok, table'))
    (first : fields.head? = some key) :
    ∃ cells, bindCells fields = .ok cells ∧
      findRow accessors cols key (insertAll cols later table') =
        .ok (.result 0 (some (.option 1 (some (.record 0
          (some (readBackFrom (accessors.row cells) 0 cols))))))) := by
  have width : fields.length = cols.length := by rw [← record.typed, List.length_map]
  obtain ⟨params, cells, frame, bound, fresh, rfl⟩ := geasStoreInsert_ok done
  rw [storeRowParams_record width] at frame
  cases frame
  cases fields with
  | nil => cases first
  | cons field rest =>
      cases first
      obtain ⟨cell, others, keyBound, -, rfl⟩ := bindCells_cons_ok bound
      refine ⟨cell :: others, bound, ?_⟩
      have scalar : ∀ ty ∈ cols, tagScalar ty = true :=
        fun ty mem => columnStorable_scalar (record.storable ty mem)
      have keyScalar : tagScalar key.ty = true :=
        scalar key.ty (by rw [← record.typed]; exact List.mem_cons_self)
      refine findRow_eq record.wide scalar keyScalar keyBound (insertAll_keeps later ?_)
      rw [List.filter_append, List.filter_eq_nil_iff.mpr]
      · simp
      · intro stored mem same
        exact fresh stored mem (of_decide_eq_true same)

/-- A string SQLite refuses, the only field a bind can fail on. -/
def StringRefused (fields : List GeasValue) : Prop :=
  ∃ tag bytes, .string tag (some bytes) ∈ fields ∧ bindBlob bytes = none

/-- Every string of a record is shorter than `2 ^ 31` bytes, a length a C `int` holds. -/
def StringsShort (fields : List GeasValue) : Prop :=
  ∀ tag bytes, .string tag (some bytes) ∈ fields → bytes.length < 2 ^ 31

theorem boundWhole_iff {fields : List GeasValue} :
    (∀ field ∈ fields, BoundWhole field) ↔ StringsShort fields := by
  constructor
  · intro whole tag bytes mem
    exact whole _ mem
  · intro short field mem
    cases field with
    | string tag bytes =>
        cases bytes with
        | none => trivial
        | some bytes => exact short tag bytes mem
    | _ => trivial

/-- A frame is bound unless a string in it is refused. -/
theorem bindCells_of_not_refused {fields : List GeasValue}
    (storable : ∀ field ∈ fields, columnStorable field.ty = true)
    (accepted : ¬ StringRefused fields) : ∃ cells, bindCells fields = .ok cells := by
  induction fields with
  | nil => exact ⟨[], rfl⟩
  | cons field rest ih =>
      obtain ⟨cells, tail⟩ := ih (fun f mem => storable f (List.mem_cons_of_mem _ mem))
        fun ⟨tag, bytes, mem, refused⟩ =>
          accepted ⟨tag, bytes, List.mem_cons_of_mem _ mem, refused⟩
      have head : ∃ cell, bindCell field = .ok cell := by
        have scalar := storable field List.mem_cons_self
        cases field with
        | int | uint | float | bool | byte | char => exact ⟨_, rfl⟩
        | string tag bytes =>
            cases bytes with
            | none => exact ⟨_, rfl⟩
            | some bytes =>
                rw [bindCell]
                generalize stored : bindBlob bytes = bound
                cases bound with
                | none => exact absurd ⟨tag, bytes, List.mem_cons_self, stored⟩ accepted
                | some cell => exact ⟨cell, rfl⟩
        | unknown ty tag undefined => exact absurd undefined (columnStorable_defined scalar)
        | _ => cases scalar
      obtain ⟨cell, head⟩ := head
      exact ⟨cell :: cells, by rw [bindCells, head, tail]; rfl⟩

theorem bindCells_string {fields : List GeasValue} {cells : List SqlCell} {tag : UInt32}
    {bytes : List UInt8} (bound : bindCells fields = .ok cells)
    (mem : .string tag (some bytes) ∈ fields) : bindBlob bytes ≠ none := by
  induction fields generalizing cells with
  | nil => cases mem
  | cons field rest ih =>
      obtain ⟨cell, later, head, tail, rfl⟩ := bindCells_cons_ok bound
      rcases List.mem_cons.mp mem with rfl | mem
      · rw [bindCell_string head]
        exact Option.some_ne_none _
      · exact ih tail mem

/-- A record with a refused string is never inserted. -/
theorem roundTrips_of_refused {accessors : Accessors} {cols : List UInt32}
    {fields : List GeasValue} (refused : StringRefused fields) :
    RoundTrips accessors cols fields := by
  intro accepts tag table table' later key done first
  obtain ⟨kind, bytes, mem, refused⟩ := refused
  obtain ⟨params, cells, frame, bound, -⟩ := geasStoreInsert_ok done
  rw [storeRowParams] at frame
  split at frame
  · cases frame
  · cases frame
    exact absurd refused (bindCells_string bound mem)

/-- What is found again is the record exactly when its strings are short. -/
theorem found_iff (accessors : Accessors) {cols : List UInt32} {fields : List GeasValue}
    {cells : List SqlCell} (record : RecordOf cols fields) (bound : bindCells fields = .ok cells) :
    (readBackFrom (accessors.row cells) 0 cols).Forall₂
        (fun read field => geasValueEq read field = true) fields ↔ StringsShort fields := by
  have storable : ∀ field ∈ fields, columnStorable field.ty = true := fun field mem =>
    record.storable field.ty (by rw [← record.typed]; exact List.mem_map_of_mem mem)
  have read := readBackFrom_eq_iff accessors [] storable record.sound bound
  rw [record.typed] at read
  exact read.trans boundWhole_iff

theorem roundTrips_of_short {accessors : Accessors} {cols : List UInt32}
    {fields : List GeasValue} (record : RecordOf cols fields) (short : StringsShort fields) :
    RoundTrips accessors cols fields := by
  intro accepts tag table table' later key done first
  obtain ⟨cells, bound, found⟩ := find_after_insert accessors record later done first
  exact ⟨_, found, (found_iff accessors record bound).mpr short⟩

/-- A record that is bound and holds a longer string comes back cut. -/
theorem not_roundTrips_of_cut {accessors : Accessors} {cols : List UInt32}
    {fields : List GeasValue} (record : RecordOf cols fields) (accepted : ¬ StringRefused fields)
    (long : ¬ StringsShort fields) : ¬ RoundTrips accessors cols fields := by
  intro kept
  have storable : ∀ field ∈ fields, columnStorable field.ty = true := fun field mem =>
    record.storable field.ty (by rw [← record.typed]; exact List.mem_map_of_mem mem)
  obtain ⟨cells, bound⟩ := bindCells_of_not_refused storable accepted
  have width : fields.length = cols.length := by rw [← record.typed, List.length_map]
  have done : geasStoreInsert true cols (.record 0 (some fields)) [] = (.ok, [cells]) := by
    rw [geasStoreInsert, storeRowParams_record width]
    dsimp only
    rw [bound]
    rfl
  obtain ⟨key, first⟩ : ∃ key, fields.head? = some key := by
    cases fields with
    | nil => exact absurd (List.length_eq_zero_iff.mp width.symm) record.wide
    | cons key rest => exact ⟨key, rfl⟩
  obtain ⟨found, answer, equal⟩ := kept true 0 [] [cells] [] key done first
  obtain ⟨cells', bound', answer'⟩ := find_after_insert accessors record [] done first
  rw [bound] at bound'
  cases bound'
  rw [answer] at answer'
  cases answer'
  exact long ((found_iff accessors record bound).mp equal)

/-- Accessors that make nothing of a cell of another kind. -/
def plainAccessors : Accessors where
  read
    | .integer i => ⟨i, 0, []⟩
    | .real bits => ⟨0, bits, []⟩
    | .text bytes | .blob bytes => ⟨0, 0, bytes⟩
    | .null => ⟨0, 0, []⟩
  integer _ := rfl
  real _ := rfl
  text _ := rfl
  blob _ := rfl

/-- A length of `2 ^ 32` narrows to none at all. -/
theorem bindBlob_wrapped {bytes : List UInt8} (length : bytes.length = 2 ^ 32) :
    bindBlob bytes = some (.blob []) := by
  have none_left : bytes.length % 2 ^ 32 = 0 := by omega
  have zero : narrowed bytes.length = 0 := by
    rw [narrowed_eq, none_left]
    rfl
  unfold bindBlob
  simp only [zero]
  generalize sqliteMaxLength = limit
  simp

end Geas.Store
