import Geas.Store.Budgets
import Mathlib.Data.List.Forall2

/-!
# Reconciling a schema

At sign every schema of a contract is held against the live database: an absent table is
created, and a table that is there is compared column for column with what
`PRAGMA table_info` lists.  The pragma leaves out hidden and generated columns, and what
it says of a primary key is not read.

SQLite is a parameter.  What its documentation and its grammar say of the two statements
is `Documented`.
-/

namespace Geas.Store

open Geas.Abi
open Geas.Runtime (CString ascii)

/-! ## Live tables -/

/-- A column of a live table: its name, its declared type, its place in the primary key
from one on, and whether it is hidden or generated. -/
structure LiveColumn where
  name : CString
  declared : CString
  pk : Nat
  hidden : Bool
  deriving DecidableEq, Repr

/-- A live table. -/
structure LiveTable where
  name : CString
  columns : List LiveColumn
  deriving DecidableEq, Repr

/-- The tables of a connection, in the order a name is looked up. -/
abbrev Database := List LiveTable

/-- The lower case of an ASCII letter. -/
def foldByte (c : UInt8) : UInt8 := if 65 ≤ c ∧ c ≤ 90 then c + 32 else c

/-- `store_ieq`. -/
def storeIeq : CString → CString → Bool
  | [], [] => true
  | a :: as, b :: bs => foldByte a == foldByte b && storeIeq as bs
  | _, _ => false

/-- The table of a name.  Names are compared without regard to case. -/
def Database.lookup (db : Database) (name : CString) : Option LiveTable :=
  db.find? fun table => storeIeq table.name name

/-- The rows of `table_info`: every column that is not hidden or generated. -/
def LiveTable.listed (table : LiveTable) : List LiveColumn :=
  table.columns.filter fun column => !column.hidden

/-- The rows of `table_info` for a name, none when there is no such table. -/
def Database.tableInfo (db : Database) (name : CString) : List LiveColumn :=
  match db.lookup name with
  | some table => table.listed
  | none => []

/-- What the runtime asks of SQLite: which table a pragma's text names, if it can be
prepared, and the database after a statement, if it succeeds. -/
structure Sqlite where
  prepare : CString → Option CString
  exec : Database → CString → Option Database

/-! ## The code -/

/-- The pragma's whole text. -/
def pragmaText (name : CString) : CString :=
  ascii "PRAGMA table_info(" ++ name ++ ascii ")"

/-- `char pragma[128 + 64]`. -/
def pragmaSize : Nat := 128 + 64

/-- The pragma as `snprintf` leaves it in its buffer. -/
def pragma (name : CString) : CString := (pragmaText name).take (pragmaSize - 1)

/-- The loop of `store_validate_table` over the rows of the pragma. -/
def validateRows : List LiveColumn → List GeasColumnDesc → GeasStatus
  | [], [] => .ok
  | [], _ :: _ => .errType
  | _ :: _, [] => .errType
  | row :: rows, col :: cols =>
      match storeSqlType col.ty with
      | none => .errType
      | some want =>
          if row.name = col.name ∧ storeIeq row.declared want then validateRows rows cols
          else .errType

section Code

variable (sqlite : Sqlite)

/-- `store_validate_table`. -/
def storeValidateTable (db : Database) (s : GeasSchemaDesc) : GeasStatus :=
  match sqlite.prepare (pragma s.table) with
  | none => .errStore
  | some name => validateRows (db.tableInfo name) s.cols

/-- The end of `store_create_table`: `geas_store_exec` of what was printed.  `none` where
the block was overrun. -/
def execBuilt (db : Database) : Built → Option (GeasStatus × Database)
  | .refused status => some (status, db)
  | .null => some (.errOom, db)
  | .clipped => none
  | .sql text =>
      match sqlite.exec db text with
      | some db' => some (.ok, db')
      | none => some (.errStore, db)

/-- `geas_store_reconcile`: the status and the database after it. -/
def geasStoreReconcile (heap : Nat → Bool) (s : GeasSchemaDesc) (db : Database) :
    Option (GeasStatus × Database) :=
  if s.cols = [] then some (.errType, db)
  else if storeIdentOk s.table = false then some (.errStore, db)
  else
    match sqlite.prepare (pragma s.table) with
    | none => some (.errStore, db)
    | some name =>
        if db.tableInfo name ≠ [] then some (storeValidateTable sqlite db s, db)
        else execBuilt sqlite db (storeCreateTable heap s)

end Code

/-! ## The meaning -/

/-- The table a schema describes: its columns at their storage types, the first one the
primary key. -/
def tableOf (s : GeasSchemaDesc) : LiveTable where
  name := s.table
  columns := s.cols.mapIdx fun i col => ⟨col.name, col.storage, if i = 0 then 1 else 0, false⟩

/-- A column has the name and the storage type of a schema's column. -/
def Agrees (live : LiveColumn) (col : GeasColumnDesc) : Prop :=
  live.name = col.name ∧ ∃ want, storeSqlType col.ty = some want ∧ storeIeq live.declared want

/-- The columns `table_info` lists of a table are the schema's, in order. -/
def Lists (s : GeasSchemaDesc) (table : LiveTable) : Prop :=
  s.cols ≠ [] ∧ List.Forall₂ Agrees table.listed s.cols

/-- A table has the schema's columns and no other, and the first is its primary key. -/
def Carries (s : GeasSchemaDesc) (table : LiveTable) : Prop :=
  Lists s table ∧ (∀ column ∈ table.columns, column.hidden = false) ∧
    table.columns.map LiveColumn.pk = s.cols.mapIdx fun i _ => if i = 0 then 1 else 0

/-- A later column of this name is read by SQLite as the head of a table constraint, and
no column is made of it. -/
def constraintWord (name : CString) : Bool := storeIeq name (ascii "constraint")

/-- A table that was absent is there as its schema describes it, and no other changed. -/
structure Created (s : GeasSchemaDesc) (db db' : Database) : Prop where
  absent : db.lookup s.table = none
  there : db'.lookup s.table = some (tableOf s)
  others : ∀ name, storeIeq s.table name = false → db'.lookup name = db.lookup name

/-- What SQLite documents of the two statements for one schema.  A pragma names the table
it is spelled with, unless the name is a word that may not stand there; its text without
the end is refused.  Where nothing is listed, a `CREATE TABLE` that succeeds adds the table
it describes, under a name that was free. -/
structure Documented (sqlite : Sqlite) (s : GeasSchemaDesc) : Prop where
  asks : ∀ name, sqlite.prepare (pragmaText s.table) = some name → name = s.table
  incomplete : (pragma s.table).length < (pragmaText s.table).length →
    sqlite.prepare (pragma s.table) = none
  creates : createRefusal s.cols = none →
    (∀ col ∈ s.cols.tail, constraintWord col.name = false) →
    ∀ db db' : Database, db.tableInfo s.table = [] → sqlite.exec db (createText s) = some db' →
      Created s db db'

/-- The pragma for a name is not clipped, and the name may stand in it. -/
def Askable (sqlite : Sqlite) (name : CString) : Prop :=
  (pragmaText name).length < pragmaSize ∧ sqlite.prepare (pragmaText name) = some name

/-- A live table can be asked for.  Where nothing is listed, the statement of the new table
is printed whole, and every column in it is one. -/
structure Reconcilable (sqlite : Sqlite) (s : GeasSchemaDesc) (db : Database) : Prop where
  askable : db.lookup s.table ≠ none → Askable sqlite s.table
  fits : db.tableInfo s.table = [] → CreateFits s
  columns : db.tableInfo s.table = [] → ∀ col ∈ s.cols.tail, constraintWord col.name = false

/-! ## Comparing -/

theorem validateRows_ok_iff (rows : List LiveColumn) (cols : List GeasColumnDesc) :
    validateRows rows cols = .ok ↔ List.Forall₂ Agrees rows cols := by
  fun_induction validateRows rows cols with
  | case1 => simp
  | case2 => simp
  | case3 => simp
  | case4 row rows col cols unstored => simp [Agrees, unstored]
  | case5 row rows col cols want stored same ih => simp [Agrees, stored, same, ih]
  | case6 row rows col cols want stored differs =>
      simp only [List.forall₂_cons, Agrees, stored, Option.some.injEq, exists_eq_left', differs,
        false_and, reduceCtorEq]

theorem storeIeq_refl (text : CString) : storeIeq text text = true := by
  induction text with
  | nil => rfl
  | cons a text ih => simp [storeIeq, ih]

/-! ## The new table -/

theorem createRefusal_ne_ok {cols : List GeasColumnDesc} : createRefusal cols ≠ some .ok := by
  fun_induction createRefusal cols with
  | case1 => simp
  | case2 => simp
  | case3 col cols want stored named ih => exact ih
  | case4 => simp

theorem storage_of_createRefusal {cols : List GeasColumnDesc}
    (storable : createRefusal cols = none) :
    ∀ col ∈ cols, storeSqlType col.ty = some col.storage := by
  fun_induction createRefusal cols with
  | case1 => simp
  | case2 col cols unstored => cases storable
  | case3 col cols want stored named ih =>
      intro other member
      cases List.mem_cons.mp member with
      | inl same => simp [same, GeasColumnDesc.storage, stored]
      | inr later => exact ih storable other later
  | case4 col cols want stored unnamed => cases storable

theorem listed_tableOf (s : GeasSchemaDesc) : (tableOf s).listed = (tableOf s).columns := by
  rw [LiveTable.listed, List.filter_eq_self]
  intro column member
  obtain ⟨i, inside, rfl⟩ := List.mem_mapIdx.mp member
  rfl

/-- A table just created is what its schema describes. -/
theorem lists_tableOf {s : GeasSchemaDesc} (wide : s.cols ≠ [])
    (storable : createRefusal s.cols = none) : Lists s (tableOf s) := by
  refine ⟨wide, ?_⟩
  rw [listed_tableOf, tableOf, List.forall₂_iff_get]
  refine ⟨by simp, ?_⟩
  intro i inside inside'
  have stored := storage_of_createRefusal storable s.cols[i] (List.getElem_mem inside')
  simp [Agrees, stored, storeIeq_refl]

theorem tableInfo_of_lookup {db : Database} {name : CString} {table : LiveTable}
    (found : db.lookup name = some table) : db.tableInfo name = table.listed := by
  rw [Database.tableInfo, found]

theorem tableInfo_of_absent {db : Database} {name : CString} (absent : db.lookup name = none) :
    db.tableInfo name = [] := by
  rw [Database.tableInfo, absent]

theorem Lists.listed_ne_nil {s : GeasSchemaDesc} {table : LiveTable} (lists : Lists s table) :
    table.listed ≠ [] := by
  intro empty
  have lengths := lists.2.length_eq
  rw [empty] at lengths
  exact lists.1 (List.eq_nil_of_length_eq_zero lengths.symm)

/-! ## Reconciling -/

section Runs

variable {sqlite : Sqlite} {s : GeasSchemaDesc} {db : Database}

theorem pragma_of_short {name : CString} (short : (pragmaText name).length < pragmaSize) :
    pragma name = pragmaText name := by
  rw [pragma, List.take_of_length_le]
  omega

/-- A pragma that can be prepared asks for the schema's own table. -/
theorem name_of_prepared (documented : Documented sqlite s) {name : CString}
    (prepared : sqlite.prepare (pragma s.table) = some name) : name = s.table := by
  by_cases short : (pragmaText s.table).length < pragmaSize
  · rw [pragma_of_short short] at prepared
    exact documented.asks name prepared
  · have clipped : (pragma s.table).length < (pragmaText s.table).length := by
      rw [pragma, List.length_take]
      unfold pragmaSize at short ⊢
      omega
    rw [documented.incomplete clipped] at prepared
    cases prepared

/-- The run over a table that is there. -/
theorem reconcile_listed (heap : Nat → Bool) (wide : s.cols ≠ [])
    (named : storeIdentOk s.table = true)
    (prepared : sqlite.prepare (pragma s.table) = some s.table)
    (present : db.tableInfo s.table ≠ []) :
    geasStoreReconcile sqlite heap s db =
      some (validateRows (db.tableInfo s.table) s.cols, db) := by
  simp [geasStoreReconcile, wide, named, prepared, present, storeValidateTable]

/-- A run over a table that lists the schema's columns. -/
theorem reconcile_lists (heap : Nat → Bool) {table : LiveTable}
    (named : storeIdentOk s.table = true)
    (prepared : sqlite.prepare (pragma s.table) = some s.table)
    (found : db.lookup s.table = some table) (lists : Lists s table) :
    geasStoreReconcile sqlite heap s db = some (.ok, db) := by
  have rows := tableInfo_of_lookup found
  rw [reconcile_listed heap lists.1 named prepared (rows ▸ lists.listed_ne_nil), rows,
    (validateRows_ok_iff _ _).mpr lists.2]

/-- What the creation of a table comes to. -/
theorem execBuilt_cases (heap : Nat → Bool) (documented : Documented sqlite s)
    (empty : db.tableInfo s.table = [])
    (fits : CreateFits s) (columns : ∀ col ∈ s.cols.tail, constraintWord col.name = false) :
    (∃ status, status ≠ .ok ∧
        execBuilt sqlite db (storeCreateTable heap s) = some (status, db)) ∨
      (createRefusal s.cols = none ∧ ∃ db', Created s db db' ∧
        execBuilt sqlite db (storeCreateTable heap s) = some (.ok, db')) := by
  have complete := (createComplete_iff s).mpr fits
  cases refusal : createRefusal s.cols with
  | some status =>
      left
      rw [storeCreateTable_refused refusal]
      exact ⟨status, fun ok => createRefusal_ne_ok (ok ▸ refusal), rfl⟩
  | none =>
      rw [CreateComplete, refusal] at complete
      cases complete.every heap with
      | inr null => exact .inl ⟨.errOom, by decide, by rw [null]; rfl⟩
      | inl whole =>
          rw [whole]
          cases ran : sqlite.exec db (createText s) with
          | none => exact .inl ⟨.errStore, by decide, by simp [execBuilt, ran]⟩
          | some db' =>
              have created := documented.creates refusal columns db db' empty ran
              exact .inr ⟨rfl, db', created, by simp [execBuilt, ran]⟩

/-- The run over a name of which nothing is listed. -/
theorem reconcile_unlisted (heap : Nat → Bool) (wide : s.cols ≠ [])
    (named : storeIdentOk s.table = true)
    (prepared : sqlite.prepare (pragma s.table) = some s.table)
    (empty : db.tableInfo s.table = []) :
    geasStoreReconcile sqlite heap s db = execBuilt sqlite db (storeCreateTable heap s) := by
  simp [geasStoreReconcile, wide, named, prepared, empty]

/-- What one run does: the table is there as the schema lists it and nothing changes, or it
was absent and is there now, or the run fails and nothing changes. -/
theorem reconcile_cases (heap : Nat → Bool) (documented : Documented sqlite s)
    (named : storeIdentOk s.table = true) (reconcilable : Reconcilable sqlite s db) :
    (∃ table, db.lookup s.table = some table ∧ Lists s table ∧
        geasStoreReconcile sqlite heap s db = some (.ok, db)) ∨
      (Lists s (tableOf s) ∧ ∃ db', Created s db db' ∧
        geasStoreReconcile sqlite heap s db = some (.ok, db')) ∨
      ∃ status, status ≠ .ok ∧ geasStoreReconcile sqlite heap s db = some (status, db) ∧
        ∀ table, db.lookup s.table = some table → ¬ Lists s table := by
  by_cases wide : s.cols = []
  · exact .inr (.inr ⟨.errType, by decide, by simp [geasStoreReconcile, wide],
      fun table found lists => lists.1 wide⟩)
  cases prepared : sqlite.prepare (pragma s.table) with
  | none =>
      refine .inr (.inr ⟨.errStore, by decide, by simp [geasStoreReconcile, wide, named, prepared],
        fun table found lists => ?_⟩)
      obtain ⟨short, asked⟩ := reconcilable.askable (by simp [found])
      rw [← pragma_of_short short, prepared] at asked
      cases asked
  | some name =>
      obtain rfl := name_of_prepared documented prepared
      by_cases empty : db.tableInfo s.table = []
      · have run := reconcile_unlisted heap wide named prepared empty
        obtain ⟨status, failed, built⟩ | ⟨storable, db', created, built⟩ :=
          execBuilt_cases heap documented empty (reconcilable.fits empty)
            (reconcilable.columns empty)
        · refine .inr (.inr ⟨status, failed, run.trans built, fun table found lists => ?_⟩)
          exact lists.listed_ne_nil (tableInfo_of_lookup found ▸ empty)
        · exact .inr (.inl ⟨lists_tableOf wide storable, db', created, run.trans built⟩)
      · have run := reconcile_listed heap wide named prepared empty
        cases found : db.lookup s.table with
        | none => exact absurd (tableInfo_of_absent found) empty
        | some table =>
            rw [tableInfo_of_lookup found] at run
            by_cases same : List.Forall₂ Agrees table.listed s.cols
            · rw [(validateRows_ok_iff _ _).mpr same] at run
              exact .inl ⟨table, rfl, ⟨wide, same⟩, run⟩
            · refine .inr (.inr ⟨_, fun ok => same ((validateRows_ok_iff _ _).mp ok), run, ?_⟩)
              rintro other ⟨⟩ lists
              exact same lists.2

/-- What reconciling a schema comes to: `GEAS_OK` exactly for a table that was created or
already lists the schema's columns, no change otherwise, and none by a second run. -/
structure Reconciled (sqlite : Sqlite) (s : GeasSchemaDesc) (db db' : Database)
    (status : GeasStatus) : Prop where
  ok_iff : status = .ok ↔
    Created s db db' ∨ ∃ table, db.lookup s.table = some table ∧ Lists s table
  kept : status ≠ .ok ∨ db.lookup s.table ≠ none → db' = db
  again : status = .ok → ∀ heap, geasStoreReconcile sqlite heap s db' = some (.ok, db')

/-- A run that came out with a status did so because SQLite could be asked. -/
theorem prepared_of_ok {heap : Nat → Bool} {db' : Database} (documented : Documented sqlite s)
    (ok : geasStoreReconcile sqlite heap s db = some (.ok, db')) :
    sqlite.prepare (pragma s.table) = some s.table := by
  unfold geasStoreReconcile at ok
  split at ok
  · simp at ok
  split at ok
  · simp at ok
  cases prepared : sqlite.prepare (pragma s.table) with
  | none => simp [prepared] at ok
  | some name => rw [name_of_prepared documented prepared]

/-- For a schema and a database where a live table can be asked for and a new one is stated
whole, reconciling creates the table or finds its columns listed, or fails and changes
nothing. -/
theorem reconcile_exact (heap : Nat → Bool) (documented : Documented sqlite s)
    (named : storeIdentOk s.table = true) (reconcilable : Reconcilable sqlite s db) :
    ∃ status db', geasStoreReconcile sqlite heap s db = some (status, db') ∧
      Reconciled sqlite s db db' status := by
  obtain ⟨table, found, lists, run⟩ | ⟨lists, db', created, run⟩ |
    ⟨status, failed, run, unlike⟩ := reconcile_cases heap documented named reconcilable
  · refine ⟨.ok, db, run, ⟨by simpa using .inr ⟨table, found, lists⟩, fun _ => rfl, ?_⟩⟩
    intro _ heap'
    exact reconcile_lists heap' named (prepared_of_ok documented run) found lists
  · refine ⟨.ok, db', run, ⟨by simpa using .inl created, ?_, ?_⟩⟩
    · rintro (failed | found)
      · exact absurd rfl failed
      · exact absurd created.absent found
    · intro _ heap'
      exact reconcile_lists heap' named (prepared_of_ok documented run) created.there lists
  · refine ⟨status, db, run, ⟨⟨fun ok => absurd ok failed, ?_⟩, fun _ => rfl,
      fun ok => absurd ok failed⟩⟩
    rintro (created | ⟨table, found, lists⟩)
    · have there := created.there
      rw [created.absent] at there
      cases there
    · exact absurd lists (unlike table found)

end Runs

/-! ## A table without its key -/

/-- A backend that knows one schema: its pragma, and its `CREATE TABLE` while the name is
free. -/
def sqliteFor (s : GeasSchemaDesc) : Sqlite where
  prepare text := if text = pragmaText s.table then some s.table else none
  exec db text :=
    if text = createText s ∧ db.lookup s.table = none then some (tableOf s :: db) else none

theorem documented_sqliteFor (s : GeasSchemaDesc) : Documented (sqliteFor s) s where
  asks name prepared := by
    simpa [sqliteFor, eq_comm] using prepared
  incomplete clipped := by
    have differs : pragma s.table ≠ pragmaText s.table := fun same => by simp [same] at clipped
    simp [sqliteFor, differs]
  creates _ _ db db' _ ran := by
    obtain ⟨⟨-, absent⟩, rfl⟩ : (createText s = createText s ∧ db.lookup s.table = none) ∧
        tableOf s :: db = db' := by simpa [sqliteFor] using ran
    refine ⟨absent, by simp [Database.lookup, tableOf, storeIeq_refl], ?_⟩
    intro name other
    simp [Database.lookup, tableOf, other]

/-- A schema of an identifier and a name. -/
def accounts : GeasSchemaDesc where
  table := ascii "accounts"
  cols := [⟨ascii "id", GeasTypeTag.int.code⟩, ⟨ascii "owner", GeasTypeTag.string.code⟩]
  ncols := by decide

/-- An empty database gets the table. -/
theorem accounts_created : ∃ status db',
    geasStoreReconcile (sqliteFor accounts) (fun _ => true) accounts [] = some (status, db') ∧
      Reconciled (sqliteFor accounts) accounts [] db' status :=
  reconcile_exact (fun _ => true) (documented_sqliteFor accounts) (by decide)
    ⟨fun found => absurd rfl found, fun _ _ => .inl (by decide), fun _ => by decide⟩

/-- A table with the schema's columns and no primary key. -/
def keyless : LiveTable where
  name := ascii "accounts"
  columns := [⟨ascii "id", ascii "INTEGER", 0, false⟩, ⟨ascii "owner", ascii "TEXT", 0, false⟩]

/-- A live table without the primary key is accepted. -/
theorem keyless_accepted :
    Documented (sqliteFor accounts) accounts ∧
      Database.lookup [keyless] accounts.table = some keyless ∧
      geasStoreReconcile (sqliteFor accounts) (fun _ => true) accounts [keyless] =
        some (.ok, [keyless]) ∧
      ¬ Carries accounts keyless := by
  refine ⟨documented_sqliteFor accounts, by decide, by decide, ?_⟩
  rintro ⟨-, -, key⟩
  exact absurd key (by decide)

end Geas.Store
