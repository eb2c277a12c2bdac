import Geas.Lib.Template
import Geas.Runtime.Registry
import Geas.Store.Cells
import Geas.Store.Predicates
import Mathlib.Algebra.Group.Nat.Defs
import Mathlib.Algebra.Order.Ring.Nat

/-!
# Statements in sized blocks

Every statement of the store is printed piece by piece into a block whose size was
reckoned before from the lengths of the names.  The sizes leave room enough.  What fails
is the arithmetic around them: the number of a page's bound wraps to zero behind
`UINT32_MAX` terms, a size of 2^64 or more wraps, and the size of a `CREATE TABLE` is
narrowed to a C `int`.
-/

namespace Geas.Store

open Geas.Abi
open Geas.Lib
open Geas.Runtime (CString ascii decimal)

variable {ρ : Type}

/-- One column of a schema: its name and the type of its values. -/
structure GeasColumnDesc where
  name : CString
  ty : UInt32
  deriving DecidableEq, Repr

/-- A schema, its columns as many as a `uint32_t` counts. -/
structure GeasSchemaDesc where
  table : CString
  cols : List GeasColumnDesc
  ncols : cols.length < 2 ^ 32

/-- A schema with a first column, the primary key. -/
structure StoredSchema extends GeasSchemaDesc where
  keyed : toGeasSchemaDesc.cols ≠ []

namespace StoredSchema

/-- The place of the primary key. -/
def pk (s : StoredSchema) : Fin s.cols.length := ⟨0, List.length_pos_iff.mpr s.keyed⟩

/-- The name of a column. -/
def name (s : StoredSchema) (col : Fin s.cols.length) : CString := s.cols[col].name

end StoredSchema

/-- A term: a column compared with a value. -/
structure GeasStoreTerm (s : StoredSchema) (ρ : Type) where
  col : Fin s.cols.length
  cmp : GeasCmp
  value : ρ

/-- Terms, as many as a `uint32_t` counts. -/
structure Terms (s : StoredSchema) (ρ : Type) where
  terms : List (GeasStoreTerm s ρ)
  nterms : terms.length < 2 ^ 32

/-- Terms split into groups. -/
structure Groups (s : StoredSchema) (ρ : Type) extends Terms s ρ where
  groupLens : List Nat
  ngroups : groupLens.length < 2 ^ 32
  total : groupLens.sum = terms.length

/-! ## The builders -/

/-- What a builder hands back: a status before anything is printed, no block, a block
whose text is not promised, or a statement. -/
inductive Built where
  | refused (status : GeasStatus)
  | null
  | clipped
  | sql (text : CString)
  deriving DecidableEq, Repr

/-- The bytes a builder reckons and the texts it prints, one for each `snprintf`. -/
structure Plan where
  need : Nat
  calls : List CString

/-- `INT_MAX`, past which `snprintf` prints nothing. -/
def intMax : Nat := 2 ^ 31 - 1

/-- Print the texts into a block of the given size. -/
def printed (size : Nat) (calls : List CString) : Built :=
  match fill intMax size calls [] with
  | some text => .sql text
  | none => .clipped

/-- The block of a plan, its size a `size_t`. -/
def Plan.block (plan : Plan) : Nat := plan.need % 2 ^ 64

/-- Take the block from `malloc` and print into it. -/
def Plan.build (heap : Nat → Bool) (plan : Plan) : Built :=
  if heap plan.block then printed plan.block plan.calls else .null

section Sources

variable (s : StoredSchema)

/-- `store_cols_span`. -/
def storeColsSpan : Nat := (s.cols.map fun col => col.name.length + 4).sum

/-- The column names, a comma before every one but the first. -/
def colNames : List CString :=
  s.cols.mapIdx fun i col => (if i = 0 then [] else ascii ", ") ++ col.name

/-- `dir`. -/
def direction (desc : Bool) : CString := if desc then ascii "DESC" else ascii "ASC"

/-- `zero`: what a sum over no rows is. -/
def zeroOf (col : Fin s.cols.length) : CString :=
  if s.cols[col].ty = GeasTypeTag.float.code then ascii "0.0" else ascii "0"

/-- The bytes reckoned for terms. -/
def termsSpan (terms : List (GeasStoreTerm s ρ)) : Nat :=
  (terms.map fun term => (s.name term.col).length + (ascii term.cmp.ops).length + 24).sum

/-- One term: `i` counts from the start of its run, `termI` from the first term of all. -/
def termText (i termI : Nat) (term : GeasStoreTerm s ρ) : CString :=
  (if i = 0 then [] else ascii " AND ") ++ (s.name term.col ++ ascii " " ++
    ascii term.cmp.ops ++ ascii " ?" ++ decimal (UInt32.ofNat (termI + 1)))

/-- The terms of a run. -/
def termTexts (termI : Nat) (terms : List (GeasStoreTerm s ρ)) : List CString :=
  terms.mapIdx fun i term => termText s i (termI + i) term

/-- `store_sql_select`. -/
def storeSqlSelect : Plan where
  need := 48 + s.table.length + (s.name s.pk).length + storeColsSpan s
  calls := ascii "SELECT " :: colNames s ++
    [ascii " FROM " ++ s.table ++ ascii " WHERE " ++ s.name s.pk ++ ascii "=?"]

/-- `store_sql_select_eq`. -/
def storeSqlSelectEq (col : Fin s.cols.length) : Plan where
  need := 48 + s.table.length + (s.name col).length + storeColsSpan s
  calls := ascii "SELECT " :: colNames s ++
    [ascii " FROM " ++ s.table ++ ascii " WHERE " ++ s.name col ++ ascii "=?1"]

/-- `store_sql_select_where`. -/
def storeSqlSelectWhere (t : Terms s ρ) : Plan where
  need := 48 + s.table.length + storeColsSpan s + termsSpan s t.terms
  calls := ascii "SELECT " :: colNames s ++
    (ascii " FROM " ++ s.table ++ ascii " WHERE ") :: termTexts s 0 t.terms

/-- `store_sql_count_where`. -/
def storeSqlCountWhere (t : Terms s ρ) : Plan where
  need := 48 + s.table.length + termsSpan s t.terms
  calls := (ascii "SELECT COUNT(*) FROM " ++ s.table ++ ascii " WHERE ") :: termTexts s 0 t.terms

/-- `store_sql_sum_where`. -/
def storeSqlSumWhere (sumCol : Fin s.cols.length) (t : Terms s ρ) : Plan where
  need := 72 + s.table.length + (s.name sumCol).length + (zeroOf s sumCol).length +
    termsSpan s t.terms
  calls := (ascii "SELECT COALESCE(SUM(" ++ s.name sumCol ++ ascii "), " ++ zeroOf s sumCol ++
    ascii ") FROM " ++ s.table ++ ascii " WHERE ") :: termTexts s 0 t.terms

/-- `store_sql_select_ordered`. -/
def storeSqlSelectOrdered (t : Terms s ρ) (orderCol : Fin s.cols.length) (desc : Bool) : Plan where
  need := 64 + s.table.length + storeColsSpan s + (s.name orderCol).length +
    (direction desc).length + termsSpan s t.terms
  calls := ascii "SELECT " :: colNames s ++
    (ascii " FROM " ++ s.table ++ ascii " WHERE ") :: termTexts s 0 t.terms ++
    [ascii " ORDER BY " ++ s.name orderCol ++ ascii " " ++ direction desc]

/-- `store_sql_select_page`.  The number of the bound is a `uint32_t`. -/
def storeSqlSelectPage (t : Terms s ρ) (orderCol : Fin s.cols.length) (desc : Bool) : Plan where
  need := 80 + s.table.length + storeColsSpan s + (s.name orderCol).length +
    (direction desc).length + termsSpan s t.terms
  calls := ascii "SELECT " :: colNames s ++
    (ascii " FROM " ++ s.table ++ ascii " WHERE ") :: termTexts s 0 t.terms ++
    [ascii " ORDER BY " ++ s.name orderCol ++ ascii " " ++ direction desc ++
      ascii " LIMIT ?" ++ decimal (UInt32.ofNat (t.terms.length + 1))]

/-- `store_sql_any_where_span`. -/
def storeSqlAnyWhereSpan (g : Groups s ρ) : Nat :=
  g.groupLens.length * 8 + termsSpan s g.terms

/-- The loop of `store_sql_emit_any_where` from group `g` on, the terms not yet printed. -/
def emitGroups : Nat → Nat → List Nat → List (GeasStoreTerm s ρ) → List CString
  | _, _, [], _ => []
  | g, termI, len :: lens, terms =>
      ((if g = 0 then [] else ascii " OR ") ++ ascii "(") ::
        (termTexts s termI (terms.take len) ++
          ascii ")" :: emitGroups (g + 1) (termI + len) lens (terms.drop len))

/-- `store_sql_emit_any_where`. -/
def storeSqlEmitGroups (g : Groups s ρ) : List CString := emitGroups s 0 0 g.groupLens g.terms

/-- `store_sql_select_any`, `GEAS_STORE_NO_ORDER` as `none`. -/
def storeSqlSelectAny (g : Groups s ρ) (orderCol : Option (Fin s.cols.length))
    (desc bounded : Bool) : Plan where
  need := 80 + s.table.length + storeColsSpan s + storeSqlAnyWhereSpan s g +
    (match orderCol with
      | some col => (s.name col).length + (direction desc).length + 16
      | none => 0) +
    if bounded then 24 else 0
  calls := ascii "SELECT " :: colNames s ++
    (ascii " FROM " ++ s.table ++ ascii " WHERE ") :: storeSqlEmitGroups s g ++
    (match orderCol with
      | some col => [ascii " ORDER BY " ++ s.name col ++ ascii " " ++ direction desc]
      | none => []) ++
    if bounded then [ascii " LIMIT ?" ++ decimal (UInt32.ofNat (g.terms.length + 1))] else []

/-- `store_sql_count_any`. -/
def storeSqlCountAny (g : Groups s ρ) : Plan where
  need := 48 + s.table.length + storeSqlAnyWhereSpan s g
  calls := (ascii "SELECT COUNT(*) FROM " ++ s.table ++ ascii " WHERE ") :: storeSqlEmitGroups s g

/-- `store_sql_sum_any`. -/
def storeSqlSumAny (sumCol : Fin s.cols.length) (g : Groups s ρ) : Plan where
  need := 72 + s.table.length + (s.name sumCol).length + (zeroOf s sumCol).length +
    storeSqlAnyWhereSpan s g
  calls := (ascii "SELECT COALESCE(SUM(" ++ s.name sumCol ++ ascii "), " ++ zeroOf s sumCol ++
    ascii ") FROM " ++ s.table ++ ascii " WHERE ") :: storeSqlEmitGroups s g

/-- `store_sql_extreme_any`. -/
def storeSqlExtremeAny (aggCol : Fin s.cols.length) (desc : Bool) (g : Groups s ρ) : Plan where
  need := 80 + s.table.length + (s.name aggCol).length * 2 + (direction desc).length +
    storeSqlAnyWhereSpan s g
  calls := (ascii "SELECT " ++ s.name aggCol ++ ascii " FROM " ++ s.table ++ ascii " WHERE ") ::
    storeSqlEmitGroups s g ++
    [ascii " ORDER BY " ++ s.name aggCol ++ ascii " " ++ direction desc ++ ascii " LIMIT 1"]

/-- `store_sql_avg_any`. -/
def storeSqlAvgAny (aggCol : Fin s.cols.length) (g : Groups s ρ) : Plan where
  need := 96 + s.table.length + (s.name aggCol).length + (zeroOf s aggCol).length +
    storeSqlAnyWhereSpan s g
  calls := (ascii "SELECT COUNT(*), COALESCE(SUM(" ++ s.name aggCol ++ ascii "), " ++
    zeroOf s aggCol ++ ascii ") FROM " ++ s.table ++ ascii " WHERE ") :: storeSqlEmitGroups s g

/-- `store_sql_insert`. -/
def storeSqlInsert : Plan where
  need := 48 + s.table.length + storeColsSpan s + s.cols.length * 3
  calls := (ascii "INSERT INTO " ++ s.table ++ ascii "(") :: colNames s ++
    ascii ") VALUES(" ::
    (s.cols.mapIdx fun i _ => (if i = 0 then [] else ascii ", ") ++ ascii "?") ++ [ascii ")"]

/-- `store_sql_update`. -/
def storeSqlUpdate : Plan where
  need := 48 + s.table.length + (s.name s.pk).length + storeColsSpan s * 2
  calls := (ascii "UPDATE " ++ s.table ++ ascii " SET ") ::
    (s.cols.mapIdx fun i col => (if i = 0 then [] else ascii ", ") ++ (col.name ++ ascii "=?")) ++
    [ascii " WHERE " ++ s.name s.pk ++ ascii "=?"]

end Sources

/-! ## Creating a table -/

/-- `store_sql_type`. -/
def storeSqlType (ty : UInt32) : Option CString :=
  match GeasTypeTag.ofCode ty with
  | some .int | some .uint | some .bool | some .byte | some .char => some (ascii "INTEGER")
  | some .float => some (ascii "REAL")
  | some .string => some (ascii "TEXT")
  | _ => none

def identAlpha (c : UInt8) : Bool := (97 ≤ c && c ≤ 122) || (65 ≤ c && c ≤ 90) || c == 95

def identDigit (c : UInt8) : Bool := 48 ≤ c && c ≤ 57

/-- `store_ident_ok`. -/
def storeIdentOk : CString → Bool
  | [] => false
  | c :: rest => identAlpha c && rest.all fun c => identAlpha c || identDigit c

/-- `SQLITE_MAX_ALLOCATION_SIZE`. -/
def sqliteMaxAllocationSize : Nat := 2147483391

/-- The size `sqlite3_malloc` is asked for: a `size_t` cast to `int`, refused unless it is
positive and not over the maximum. -/
def sqliteBlock (need : Nat) : Option Nat :=
  let n := narrowed (need % 2 ^ 64)
  if n ≤ 0 ∨ sqliteMaxAllocationSize < n.toNat then none else some n.toNat

section Create

/-- The storage type of a column that has one. -/
def GeasColumnDesc.storage (col : GeasColumnDesc) : CString := (storeSqlType col.ty).getD []

/-- The first column that keeps a table from being created. -/
def createRefusal : List GeasColumnDesc → Option GeasStatus
  | [] => none
  | col :: cols =>
      match storeSqlType col.ty with
      | none => some .errType
      | some _ => if storeIdentOk col.name then createRefusal cols else some .errStore

/-- The statement `store_create_table` prints. -/
def createPlan (s : GeasSchemaDesc) : Plan where
  need := 64 + s.table.length +
    (s.cols.map fun col => col.name.length + col.storage.length + 24).sum
  calls := (ascii "CREATE TABLE " ++ s.table ++ ascii "(") ::
    (s.cols.mapIdx fun i col => (if i = 0 then [] else ascii ", ") ++
      (col.name ++ ascii " " ++ col.storage ++ if i = 0 then ascii " PRIMARY KEY" else [])) ++
    [ascii ")"]

/-- Print into the block asked for, if there is one. -/
def printIn (heap : Nat → Bool) (calls : List CString) : Option Nat → Built
  | none => .null
  | some size => if heap size then printed size calls else .null

/-- `store_create_table` up to its statement.  `snprintf` is told of `need` bytes, so a
block that the cast made smaller than the text is overrun. -/
def storeCreateTable (heap : Nat → Bool) (s : GeasSchemaDesc) : Built :=
  match createRefusal s.cols with
  | some status => .refused status
  | none => printIn heap (createPlan s).calls (sqliteBlock (createPlan s).need)

end Create

/-! ## The statements meant -/

/-- A literal piece of a statement. -/
def lit (text : String) : Part UInt8 ρ := .text (ascii text)

/-- `?1`, `?2` and so on. -/
def numbered (k : Nat) : CString :=
  ascii "?" ++ (Nat.toDigits 10 (k + 1)).map fun c => UInt8.ofNat c.toNat

/-- A bare `?`, which SQLite numbers behind the last one. -/
def positional (_ : Nat) : CString := ascii "?"

section Statements

variable (s : StoredSchema)

/-- The columns of a statement. -/
def columnList : List (Part UInt8 ρ) :=
  List.intercalate [lit ", "] (s.cols.map fun col => [.text col.name])

/-- A comparison with its value. -/
def comparison (term : GeasStoreTerm s ρ) : List (Part UInt8 ρ) :=
  [.text (s.name term.col), lit " ", .text (ascii term.cmp.ops), lit " ", .param term.value]

/-- Comparisons that all have to hold. -/
def conjunction (terms : List (GeasStoreTerm s ρ)) : List (Part UInt8 ρ) :=
  List.intercalate [lit " AND "] (terms.map (comparison s))

/-- The terms cut into groups. -/
def cut : List Nat → List (GeasStoreTerm s ρ) → List (List (GeasStoreTerm s ρ))
  | [], _ => []
  | len :: lens, terms => terms.take len :: cut lens (terms.drop len)

/-- A group in parentheses. -/
def group (terms : List (GeasStoreTerm s ρ)) : List (Part UInt8 ρ) :=
  lit "(" :: conjunction s terms ++ [lit ")"]

/-- Groups one of which has to hold. -/
def disjunction (g : Groups s ρ) : List (Part UInt8 ρ) :=
  List.intercalate [lit " OR "] ((cut s g.groupLens g.terms).map (group s))

/-- The rows a statement picks from the table. -/
def fromWhere (condition : List (Part UInt8 ρ)) : List (Part UInt8 ρ) :=
  [lit " FROM ", .text s.table, lit " WHERE "] ++ condition

/-- The order of the rows. -/
def orderBy (col : Fin s.cols.length) (desc : Bool) : List (Part UInt8 ρ) :=
  [lit " ORDER BY ", .text (s.name col), lit " ", .text (direction desc)]

/-- A sum that is never NULL. -/
def coalescedSum (col : Fin s.cols.length) : List (Part UInt8 ρ) :=
  [lit "COALESCE(SUM(", .text (s.name col), lit "), ", .text (zeroOf s col), lit ")"]

/-- The text of a `CREATE TABLE`. -/
def createText (s : GeasSchemaDesc) : CString :=
  ascii "CREATE TABLE " ++ s.table ++ ascii "(" ++
    (ascii ", ").intercalate (s.cols.mapIdx fun i col =>
      col.name ++ ascii " " ++ col.storage ++ if i = 0 then ascii " PRIMARY KEY" else []) ++
    ascii ")"

end Statements

/-- A call of a builder with the values its caller binds. -/
inductive Builder (s : StoredSchema) (ρ : Type) where
  | select (key : ρ)
  | selectEq (col : Fin s.cols.length) (value : ρ)
  | selectWhere (t : Terms s ρ)
  | countWhere (t : Terms s ρ)
  | sumWhere (sumCol : Fin s.cols.length) (t : Terms s ρ)
  | selectOrdered (t : Terms s ρ) (orderCol : Fin s.cols.length) (desc : Bool)
  | selectPage (t : Terms s ρ) (orderCol : Fin s.cols.length) (desc : Bool) (limit : ρ)
  | selectAny (g : Groups s ρ) (orderCol : Option (Fin s.cols.length)) (desc : Bool)
      (limit : Option ρ)
  | countAny (g : Groups s ρ)
  | sumAny (sumCol : Fin s.cols.length) (g : Groups s ρ)
  | extremeAny (aggCol : Fin s.cols.length) (desc : Bool) (g : Groups s ρ)
  | avgAny (aggCol : Fin s.cols.length) (g : Groups s ρ)
  | insert (row : List ρ) (whole : row.length = s.cols.length)
  | update (row : List ρ) (whole : row.length = s.cols.length) (key : ρ)

namespace Builder

variable {s : StoredSchema}

/-- The builder a call runs. -/
def plan : Builder s ρ → Plan
  | select _ => storeSqlSelect s
  | selectEq col _ => storeSqlSelectEq s col
  | selectWhere t => storeSqlSelectWhere s t
  | countWhere t => storeSqlCountWhere s t
  | sumWhere sumCol t => storeSqlSumWhere s sumCol t
  | selectOrdered t orderCol desc => storeSqlSelectOrdered s t orderCol desc
  | selectPage t orderCol desc _ => storeSqlSelectPage s t orderCol desc
  | selectAny g orderCol desc limit => storeSqlSelectAny s g orderCol desc limit.isSome
  | countAny g => storeSqlCountAny s g
  | sumAny sumCol g => storeSqlSumAny s sumCol g
  | extremeAny aggCol desc g => storeSqlExtremeAny s aggCol desc g
  | avgAny aggCol g => storeSqlAvgAny s aggCol g
  | insert _ _ => storeSqlInsert s
  | update _ _ _ => storeSqlUpdate s

/-- The parameters the caller binds, in order. -/
def bound : Builder s ρ → List ρ
  | select key => [key]
  | selectEq _ value => [value]
  | selectWhere t | countWhere t | sumWhere _ t | selectOrdered t _ _ =>
      t.terms.map GeasStoreTerm.value
  | selectPage t _ _ limit => t.terms.map GeasStoreTerm.value ++ [limit]
  | selectAny g _ _ limit => g.terms.map GeasStoreTerm.value ++ limit.toList
  | countAny g | sumAny _ g | extremeAny _ _ g | avgAny _ g => g.terms.map GeasStoreTerm.value
  | insert row _ => row
  | update row _ key => row ++ [key]

/-- The statement a call means. -/
def statement : Builder s ρ → List (Part UInt8 ρ)
  | select key => lit "SELECT " :: columnList s ++
      fromWhere s [.text (s.name s.pk), lit "=", .param key]
  | selectEq col value => lit "SELECT " :: columnList s ++
      fromWhere s [.text (s.name col), lit "=", .param value]
  | selectWhere t => lit "SELECT " :: columnList s ++ fromWhere s (conjunction s t.terms)
  | countWhere t => lit "SELECT COUNT(*)" :: fromWhere s (conjunction s t.terms)
  | sumWhere col t =>
      lit "SELECT " :: coalescedSum s col ++ fromWhere s (conjunction s t.terms)
  | selectOrdered t col desc => lit "SELECT " :: columnList s ++
      fromWhere s (conjunction s t.terms) ++ orderBy s col desc
  | selectPage t col desc limit => lit "SELECT " :: columnList s ++
      fromWhere s (conjunction s t.terms) ++ orderBy s col desc ++ [lit " LIMIT ", .param limit]
  | selectAny g col desc limit => lit "SELECT " :: columnList s ++ fromWhere s (disjunction s g) ++
      (match col with
        | some col => orderBy s col desc
        | none => []) ++
      (match limit with
        | some limit => [lit " LIMIT ", .param limit]
        | none => [])
  | countAny g => lit "SELECT COUNT(*)" :: fromWhere s (disjunction s g)
  | sumAny col g => lit "SELECT " :: coalescedSum s col ++ fromWhere s (disjunction s g)
  | extremeAny col desc g => lit "SELECT " :: .text (s.name col) :: fromWhere s (disjunction s g) ++
      orderBy s col desc ++ [lit " LIMIT 1"]
  | avgAny col g =>
      lit "SELECT COUNT(*), " :: coalescedSum s col ++ fromWhere s (disjunction s g)
  | insert row _ => [lit "INSERT INTO ", .text s.table, lit "("] ++ columnList s ++
      lit ") VALUES(" :: List.intercalate [lit ", "] (row.map fun value => [.param value]) ++
      [lit ")"]
  | update row _ key => [lit "UPDATE ", .text s.table, lit " SET "] ++
      List.intercalate [lit ", "] ((s.cols.zip row).map fun (col, value) =>
        [.text col.name, lit "=", .param value]) ++
      [lit " WHERE ", .text (s.name s.pk), lit "=", .param key]

/-- How a statement marks its parameters. -/
def mark : Builder s ρ → Nat → CString
  | select _ | insert _ _ | update _ _ _ => positional
  | _ => numbered

/-- The whole text of the statement. -/
def text (b : Builder s ρ) : CString := spell b.mark 0 b.statement

end Builder

end Geas.Store
