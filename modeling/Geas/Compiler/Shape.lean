import Geas.Compiler.Types

/-!
# Declarations and the shape of a contract

The declarations of a program as the emitter meets them, with every type lowered, and
the canonical signature of a contract: the text its shape hash is taken of.  A
signature is looked up under a key of its own, the member name in its contract or the
pledge name in its subcontract; these keys are free of repeats in a program that
resolves, so a declaration here carries its own signature.

The text can be read back: it fixes the names, the order and the types of vows,
pledges and schema columns.  It does not fix what a named type is made of, because a
type is spelled by its name.
-/

namespace Geas.Compiler.Sigs

open Geas.Lib.Delimited
open Geas.Runtime (CString ascii)

/-! ### Declarations -/

/-- A name with its type. -/
structure FieldSig where
  name : Ident
  ty : Ty

/-- A vow. -/
structure VowNode where
  name : Ident
  ty : Ty

/-- A pledge; without a body it is abstract. -/
structure PledgeNode where
  name : Ident
  params : List Ty
  ret : Ty
  body : Bool

/-- A clause. -/
structure ClauseNode where
  name : Ident
  params : List Ty
  ret : Ty

/-- A subcontract, named or not. -/
structure SubNode where
  name : Option Ident
  pledges : List PledgeNode

/-- A schema. -/
structure SchemaNode where
  name : Ident
  cols : List FieldSig

/-- A member of a contract that carries a name. -/
inductive Member where
  | vow (vow : VowNode)
  | pledge (pledge : PledgeNode)
  | clause (clause : ClauseNode)
  | subcontract (sub : SubNode)
  | schema (schema : SchemaNode)

/-- A contract; `version` is its version attribute or 1. -/
structure ContractNode where
  name : Ident
  isInternal : Bool
  version : Nat
  members : List Member

/-- A variant of a sum. -/
structure VariantNode where
  name : Ident
  fields : List FieldSig

/-- A declaration of a program. -/
inductive Decl where
  | record (name : Ident) (fields : List FieldSig)
  | sum (name : Ident) (variants : List VariantNode)
  | prov (name : Ident)
  | contract (contract : ContractNode)

/-- The name of the builtin record. -/
def partialResult : Ident := ⟨ascii "PartialResult", by decide⟩

/-- The fields of the builtin record. -/
def partialResultFields : List FieldSig :=
  [⟨⟨ascii "state", by decide⟩, .str⟩, ⟨⟨ascii "fulfilled", by decide⟩, .list .str⟩,
    ⟨⟨ascii "pending", by decide⟩, .list .str⟩, ⟨⟨ascii "broken", by decide⟩, .list .str⟩]

/-- A program: its own declarations in order. -/
structure Program where
  own : List Decl

/-- All declarations: the builtin record comes last. -/
def Program.decls (p : Program) : List Decl :=
  p.own ++ [.record partialResult partialResultFields]

/-! ### Members -/

namespace ContractNode

/-- The vows in declaration order. -/
def vows (c : ContractNode) : List VowNode :=
  c.members.filterMap fun | .vow vow => some vow | _ => none

/-- The clauses in declaration order. -/
def clauses (c : ContractNode) : List ClauseNode :=
  c.members.filterMap fun | .clause clause => some clause | _ => none

/-- The subcontracts in declaration order. -/
def subs (c : ContractNode) : List SubNode :=
  c.members.filterMap fun | .subcontract sub => some sub | _ => none

/-- The schemas in declaration order. -/
def schemas (c : ContractNode) : List SchemaNode :=
  c.members.filterMap fun | .schema schema => some schema | _ => none

/-- `collect`: the pledges in declaration order, loose ones and those of every
subcontract in one list. -/
def pledges (c : ContractNode) : List PledgeNode :=
  c.members.flatMap fun
    | .pledge pledge => [pledge]
    | .subcontract sub => sub.pledges
    | _ => []

end ContractNode

/-! ### Name resolution -/

/-- Declare a name: a repeat is a fault, and the first entry stays. -/
def declareName (state : List Ident × List Ident) (name : Ident) : List Ident × List Ident :=
  if name ∈ state.1 then (state.1, state.2 ++ [name]) else (name :: state.1, state.2)

/-- The names of a list that are declared again. -/
def duplicates (names : List Ident) : List Ident :=
  (names.foldl declareName ([], [])).2

/-- The names a declaration puts into the global namespace. -/
def Decl.globals : Decl → List Ident
  | record name _ => [name]
  | sum name variants => name :: variants.map VariantNode.name
  | prov name => [name]
  | contract c => [c.name]

namespace Program

/-- The contracts in declaration order. -/
def contracts (p : Program) : List ContractNode :=
  p.decls.filterMap fun | .contract c => some c | _ => none

/-- The global namespace: the declarations, then the row records of schemas. -/
def globals (p : Program) : List Ident :=
  p.decls.flatMap Decl.globals ++
    p.contracts.flatMap fun c => c.schemas.map SchemaNode.name

end Program

/-- The names a member puts into its contract's namespace.  An anonymous subcontract
contributes its pledges, a named one itself. -/
def Member.names : Member → List Ident
  | .vow v => [v.name]
  | .pledge pl => [pl.name]
  | .clause cl => [cl.name]
  | .subcontract ⟨some name, _⟩ => [name]
  | .subcontract ⟨none, pledges⟩ => pledges.map PledgeNode.name
  | .schema _ => []

/-- The namespace of a contract's members. -/
def ContractNode.memberNames (c : ContractNode) : List Ident :=
  c.members.flatMap Member.names

/-- The names resolve: no global name repeats, no member name repeats in its contract,
and no pledge name repeats in its named subcontract. -/
structure Program.Resolves (p : Program) : Prop where
  globals : duplicates p.globals = []
  members : ∀ c ∈ p.contracts, duplicates c.memberNames = []
  subs : ∀ c ∈ p.contracts, ∀ sub ∈ c.subs, sub.name.isSome = true →
    duplicates (sub.pledges.map PledgeNode.name) = []

/-! ### The canonical signature -/

/-- The line of a vow. -/
def vowLine (vow : VowNode) : CString :=
  ascii "vow " ++ vow.name.text ++ ascii ":" ++ vow.ty.canon ++ ascii ";"

/-- What the line of a pledge says of it. -/
structure PledgeSig where
  name : Ident
  params : List Ty
  ret : Ty

/-- The signature of a pledge. -/
def PledgeNode.sig (pledge : PledgeNode) : PledgeSig :=
  ⟨pledge.name, pledge.params, pledge.ret⟩

/-- The line of a pledge. -/
def pledgeLine (pledge : PledgeSig) : CString :=
  ascii "pledge " ++ pledge.name.text ++ ascii ":" ++ sigCanon pledge.params pledge.ret ++
    ascii ";"

/-- The text of a schema column. -/
def columnText (column : FieldSig) : CString :=
  column.name.text ++ ascii ":" ++ column.ty.canon

/-- The line of a schema. -/
def schemaLine (schema : SchemaNode) : CString :=
  ascii "schema " ++ schema.name.text ++ ascii ":" ++ separated 44 columnText schema.cols ++
    ascii ";"

/-- `shape_string`: the text the shape hash is taken of. -/
def shapeString (c : ContractNode) : CString :=
  ascii "contract " ++ c.name.text ++ ascii ";" ++ c.vows.flatMap vowLine ++
    (c.pledges.map PledgeNode.sig).flatMap pledgeLine ++ c.schemas.flatMap schemaLine

theorem stops_colon (rest : CString) : Stops isIdentContinue (ascii ":" ++ rest) := rfl

theorem stops_semicolon (rest : CString) : Stops isIdentContinue (ascii ";" ++ rest) := rfl

theorem readsAt_vowLine (vow : VowNode) : ReadsAt (fun _ => True) vowLine vow := by
  intro other left right _ _ same
  simp only [vowLine, List.append_assoc, List.append_cancel_left_eq] at same
  have name := readsAt_ident vow.name other.name _ _ (stops_colon _) (stops_colon _) same
  have ty := Ty.readsAt_canon vow.ty other.ty _ _ (stops_semicolon _) (stops_semicolon _)
    (List.append_cancel_left name.2)
  cases vow
  cases other
  exact ⟨by simp_all, List.append_cancel_left ty.2⟩

theorem readsAt_pledgeLine (pledge : PledgeSig) :
    ReadsAt (fun _ => True) pledgeLine pledge := by
  intro other left right _ _ same
  simp only [pledgeLine, List.append_assoc, List.append_cancel_left_eq] at same
  have name := readsAt_ident pledge.name other.name _ _ (stops_colon _) (stops_colon _) same
  have sig := sigCanon_inj (stops_semicolon _) (stops_semicolon _)
    (List.append_cancel_left name.2)
  cases pledge
  cases other
  exact ⟨by simp_all, List.append_cancel_left sig.2.2⟩

theorem readsAt_columnText (column : FieldSig) :
    ReadsAt (Stops isIdentContinue) columnText column := by
  intro other left right leftStops rightStops same
  simp only [columnText, List.append_assoc] at same
  have name := readsAt_ident column.name other.name _ _ (stops_colon _) (stops_colon _) same
  have ty := Ty.readsAt_canon column.ty other.ty _ _ leftStops rightStops
    (List.append_cancel_left name.2)
  cases column
  cases other
  exact ⟨by simp_all, ty.2⟩

/-- The text of a column starts with its name. -/
theorem columnText_ne (column : FieldSig) (rest text : CString) (ended : text.head? = some 59) :
    columnText column ++ rest ≠ text := by
  rintro rfl
  cases shape : column.name.text with
  | nil => exact column.name.text_ne_nil shape
  | cons first tail =>
      have inside := column.name.continues first (by simp [shape])
      simp only [columnText, shape, List.cons_append, List.head?_cons, Option.some.injEq] at ended
      subst ended
      exact absurd inside (by decide)

theorem readsAt_columns (columns : List FieldSig) :
    ReadsAt (fun text => text.head? = some 59) (separated 44 columnText) columns := by
  refine readsAt_separated (fun column _ => readsAt_columnText column) (fun _ => rfl) ?_ ?_
    columnText_ne
  · intro rest ended
    cases rest with
    | nil => cases ended
    | cons first rest =>
        cases ended
        rfl
  · rintro rest _ ended rfl
    cases ended

theorem readsAt_schemaLine (schema : SchemaNode) : ReadsAt (fun _ => True) schemaLine schema := by
  intro other left right _ _ same
  simp only [schemaLine, List.append_assoc, List.append_cancel_left_eq] at same
  have name := readsAt_ident schema.name other.name _ _ (stops_colon _) (stops_colon _) same
  have columns := readsAt_columns schema.cols other.cols (ascii ";" ++ left) (ascii ";" ++ right)
    rfl rfl (List.append_cancel_left name.2)
  cases schema
  cases other
  exact ⟨by simp_all, List.append_cancel_left columns.2⟩

/-- Lines that all start with one byte, in front of a text that does not start with
it. -/
theorem readsAt_lines {α : Type} {line : α → CString} {start : UInt8}
    (reads : ∀ a, ReadsAt (fun _ => True) line a) (starts : ∀ a, (line a).head? = some start)
    (values : List α) :
    ReadsAt (fun text => text.head? ≠ some start) (fun values => values.flatMap line) values := by
  refine readsAt_flatMap (fun a _ => reads a) (fun _ _ => trivial) (fun _ _ => trivial) ?_
  rintro a rest _ ended rfl
  apply ended
  rw [List.head?_append, starts a]
  rfl

theorem head_lines {α : Type} {line : α → CString} {start : UInt8}
    (starts : ∀ a, (line a).head? = some start) (values : List α) (text : CString) :
    (values.flatMap line ++ text).head? = some start ∨
      (values.flatMap line ++ text).head? = text.head? := by
  cases values with
  | nil => exact Or.inr rfl
  | cons a values =>
      left
      rw [List.flatMap_cons, List.append_assoc, List.head?_append, starts a]
      rfl

theorem vowLine_head (vow : VowNode) : (vowLine vow).head? = some 118 := rfl

theorem pledgeLine_head (pledge : PledgeSig) : (pledgeLine pledge).head? = some 112 := rfl

theorem schemaLine_head (schema : SchemaNode) : (schemaLine schema).head? = some 115 := rfl

/-- Equal texts are texts of one contract: one name, the same vows, the same pledge
signatures and the same schemas in the same order, every type spelled alike. -/
theorem shapeString_inj {c c' : ContractNode} (same : shapeString c = shapeString c') :
    c.name = c'.name ∧ c.vows = c'.vows ∧
      c.pledges.map PledgeNode.sig = c'.pledges.map PledgeNode.sig ∧ c.schemas = c'.schemas := by
  simp only [shapeString, List.append_assoc, List.append_cancel_left_eq] at same
  have name := readsAt_ident c.name c'.name _ _ (stops_semicolon _) (stops_semicolon _) same
  have afterPledges : ∀ schemas : List SchemaNode,
      (schemas.flatMap schemaLine).head? ≠ some 112 := by
    intro schemas
    have head := head_lines schemaLine_head schemas []
    rw [List.append_nil] at head
    rcases head with head | head <;> rw [head] <;> decide
  have afterVows : ∀ (pledges : List PledgeSig) (schemas : List SchemaNode),
      (pledges.flatMap pledgeLine ++ schemas.flatMap schemaLine).head? ≠ some 118 := by
    intro pledges schemas
    have later := head_lines schemaLine_head schemas []
    rw [List.append_nil] at later
    rcases head_lines pledgeLine_head pledges (schemas.flatMap schemaLine) with head | head
    · rw [head]
      decide
    · rw [head]
      rcases later with later | later <;> rw [later] <;> decide
  have vows := readsAt_lines readsAt_vowLine vowLine_head c.vows c'.vows _ _ (afterVows _ _)
    (afterVows _ _) (List.append_cancel_left name.2)
  have pledges := readsAt_lines readsAt_pledgeLine pledgeLine_head _ _ _ _ (afterPledges _)
    (afterPledges _) vows.2
  have schemas := readsAt_lines readsAt_schemaLine schemaLine_head c.schemas c'.schemas [] []
    (by simp) (by simp) (by simpa using pledges.2)
  exact ⟨name.1, vows.1, pledges.1, schemas.1⟩

/-! ### Layouts -/

/-- What a named type is made of. -/
inductive Layout where
  | record (fields : List FieldSig)
  | sum (variants : List VariantNode)

/-- The names of records and sums in a layout. -/
def Layout.names : Layout → List Ident
  | record fields => fields.flatMap fun f => f.ty.names
  | sum variants => variants.flatMap fun v => v.fields.flatMap fun f => f.ty.names

namespace Program

/-- The layouts of a program: its records and sums, and the row records of schemas. -/
def layouts (p : Program) : List (Ident × Layout) :=
  (p.decls.filterMap fun
    | .record name fields => some (name, .record fields)
    | .sum name variants => some (name, .sum variants)
    | _ => none) ++
  p.contracts.flatMap fun c => c.schemas.map fun schema => (schema.name, .record schema.cols)

/-- The layout behind a name. -/
def layout (p : Program) (name : Ident) : Option Layout :=
  p.layouts.lookup name

/-- The global names that are not types. -/
def nonTypes (p : Program) : List Ident :=
  p.decls.flatMap fun
    | .sum _ variants => variants.map VariantNode.name
    | .prov name => [name]
    | .contract c => [c.name]
    | .record _ _ => []

end Program

/-- The named types in the vows and pledges of a contract. -/
def ContractNode.mentioned (c : ContractNode) : List Ident :=
  (c.vows.flatMap fun vow => vow.ty.names) ++
    c.pledges.flatMap fun pledge => (pledge.params.flatMap Ty.names) ++ pledge.ret.names

/-- `is_scalar_col`. -/
def isScalarCol : Ty → Bool
  | .int | .uint | .float | .bool | .byte | .char | .str | .unknown => true
  | _ => false

/-- The rules on declarations: names resolve, a named type is no contract, variant or
provisional clause, and a schema column is a scalar. -/
structure Program.Accepted (p : Program) : Prop extends p.Resolves where
  types : ∀ c ∈ p.contracts, ∀ name ∈ c.mentioned, name ∉ p.nonTypes
  columns : ∀ c ∈ p.contracts, ∀ schema ∈ c.schemas, ∀ column ∈ schema.cols,
    isScalarCol column.ty = true

/-- A contract's signature mentions a named type, itself or through the layout of one
it mentions. -/
inductive Mentions (p : Program) (c : ContractNode) : Ident → Prop where
  | direct {name : Ident} (inside : name ∈ c.mentioned) : Mentions p c name
  | within {name inner : Ident} {layout : Layout} (mentions : Mentions p c name)
      (known : p.layout name = some layout) (inside : inner ∈ layout.names) : Mentions p c inner

/-- Two contracts agree on everything a host relies on: names, order and types of vows,
pledges and schemas, and the layout of every type they mention. -/
structure SameAbi (p : Program) (c : ContractNode) (p' : Program) (c' : ContractNode) :
    Prop where
  name : c.name = c'.name
  vows : c.vows = c'.vows
  pledges : c.pledges.map PledgeNode.sig = c'.pledges.map PledgeNode.sig
  schemas : c.schemas = c'.schemas
  layouts : ∀ name, Mentions p c name → p.layout name = p'.layout name

theorem foldl_declareName {names seen faults : List Ident} :
    (names.foldl declareName (seen, faults)).2 = [] ↔
      faults = [] ∧ names.Nodup ∧ ∀ name ∈ names, name ∉ seen := by
  induction names generalizing seen faults with
  | nil => simp
  | cons name names ih =>
      rw [List.foldl_cons, declareName]
      split
      · rename_i repeated
        rw [ih]
        simp [repeated]
      · rename_i new
        rw [ih]
        simp only [List.nodup_cons, List.mem_cons, not_or]
        grind

/-- Names resolve when none of them repeats. -/
theorem duplicates_eq_nil_iff {names : List Ident} : duplicates names = [] ↔ names.Nodup := by
  simp [duplicates, foldl_declareName]

/-- An entry of a table without repeated keys is found under its key, in its place. -/
theorem findIdx?_of_nodup {α κ : Type} [DecidableEq κ] {key : α → κ} {entries : List α}
    (nodup : (entries.map key).Nodup) {k : Nat} {entry : α} (listed : entries[k]? = some entry) :
    entries.findIdx? (fun e => key e = key entry) = some k := by
  obtain ⟨inside, here⟩ := List.getElem?_eq_some_iff.mp listed
  apply List.findIdx?_eq_some_iff_getElem.mpr
  refine ⟨inside, by simp [here], ?_⟩
  intro j earlier
  simp only [decide_eq_true_eq]
  intro same
  have keys : (entries.map key)[j]? = (entries.map key)[k]? := by
    rw [List.getElem?_map, List.getElem?_map, listed,
      List.getElem?_eq_getElem (Nat.lt_trans earlier inside)]
    simpa using same
  have bound : j < (entries.map key).length := by
    rw [List.length_map]
    exact Nat.lt_trans earlier inside
  exact absurd ((List.getElem?_inj bound nodup).mp keys) (Nat.ne_of_lt earlier)

theorem lookup_of_mem {β : Type} {entries : List (Ident × β)}
    (nodup : (entries.map Prod.fst).Nodup) {name : Ident} {value : β}
    (inside : (name, value) ∈ entries) : entries.lookup name = some value := by
  induction entries with
  | nil => cases inside
  | cons entry entries ih =>
      rw [List.map_cons, List.nodup_cons] at nodup
      rcases List.mem_cons.mp inside with rfl | inside
      · exact List.lookup_cons_self
      · have other : name ≠ entry.1 := by
          rintro rfl
          exact nodup.1 (List.mem_map.mpr ⟨_, inside, rfl⟩)
        rw [List.lookup_cons, beq_false_of_ne other]
        exact ih nodup.2 inside

theorem layouts_keys_sublist (p : Program) :
    (p.layouts.map Prod.fst).Sublist p.globals := by
  rw [Program.layouts, Program.globals, List.map_append]
  apply List.Sublist.append
  · induction p.decls with
    | nil => exact List.Sublist.refl _
    | cons decl decls ih =>
        rw [List.flatMap_cons]
        cases decl with
        | record name fields => exact ih.cons_cons name
        | sum name variants => exact (ih.trans (List.sublist_append_right _ _)).cons_cons name
        | prov name => exact ih.cons name
        | contract c => exact ih.cons c.name
  · rw [List.map_flatMap]
    simp [Function.comp_def]

theorem layout_of_mem {p : Program} (resolves : p.Resolves) {name : Ident} {layout : Layout}
    (inside : (name, layout) ∈ p.layouts) : p.layout name = some layout :=
  lookup_of_mem ((layouts_keys_sublist p).nodup (duplicates_eq_nil_iff.mp resolves.globals)) inside

/-- The row record of a schema is laid out as its columns. -/
theorem layout_schema {p : Program} (resolves : p.Resolves) {c : ContractNode}
    (declared : c ∈ p.contracts) {schema : SchemaNode} (inside : schema ∈ c.schemas) :
    p.layout schema.name = some (.record schema.cols) := by
  refine layout_of_mem resolves (List.mem_append_right _ (List.mem_flatMap.mpr ⟨c, declared, ?_⟩))
  exact List.mem_map_of_mem (f := fun schema : SchemaNode => (schema.name, Layout.record schema.cols))
    inside

/-- The builtin record is laid out alike in all programs. -/
theorem layout_partialResult {p : Program} (resolves : p.Resolves) :
    p.layout partialResult = some (.record partialResultFields) := by
  refine layout_of_mem resolves (List.mem_append_left _ ?_)
  simp [Program.decls]

theorem names_of_isScalarCol {ty : Ty} (scalar : isScalarCol ty = true) : ty.names = [] := by
  cases ty <;> first
    | rfl
    | cases scalar

/-- Types laid out by a contract's own schemas and by the builtin record lead to no
others. -/
theorem mentions_own {p : Program} (accepted : p.Accepted) {c : ContractNode}
    (declared : c ∈ p.contracts)
    (own : ∀ name ∈ c.mentioned, name = partialResult ∨ name ∈ c.schemas.map SchemaNode.name)
    {name : Ident} (mentions : Mentions p c name) :
    name = partialResult ∨ name ∈ c.schemas.map SchemaNode.name := by
  induction mentions with
  | direct inside => exact own _ inside
  | @within name inner layout _ known inside ih =>
      rcases ih with rfl | row
      · rw [layout_partialResult accepted.toResolves] at known
        cases known
        simp [Layout.names, partialResultFields, Ty.names] at inside
      · obtain ⟨schema, member, rfl⟩ := List.mem_map.mp row
        rw [layout_schema accepted.toResolves declared member] at known
        cases known
        obtain ⟨column, isColumn, named⟩ := List.mem_flatMap.mp inside
        rw [names_of_isScalarCol (accepted.columns c declared schema member column isColumn)] at named
        cases named

/-- A record and a contract. -/
def recordBeside (name : Ident) (fields : List FieldSig) (c : ContractNode) : Program :=
  ⟨[.record name fields, .contract c]⟩

theorem mem_contracts {p : Program} {c : ContractNode} :
    c ∈ p.contracts ↔ Decl.contract c ∈ p.own := by
  simp only [Program.contracts, Program.decls, List.mem_filterMap, List.mem_append,
    List.mem_singleton]
  constructor
  · rintro ⟨decl, inside, found⟩
    cases decl with
    | contract c' =>
        cases found
        rcases inside with inside | builtin
        · exact inside
        · cases builtin
    | _ => cases found
  · intro inside
    exact ⟨.contract c, Or.inl inside, rfl⟩

theorem contracts_recordBeside (name : Ident) (fields : List FieldSig) (c : ContractNode) :
    (recordBeside name fields c).contracts = [c] := rfl

/-- A contract of an accepted program is accepted beside a record of any layout that
its types name and that is not a row of its own. -/
theorem accepted_recordBeside {p : Program} (accepted : p.Accepted) {c : ContractNode}
    (declared : c ∈ p.contracts) {name : Ident} (mentioned : name ∈ c.mentioned)
    (foreign : name ≠ partialResult) (notRow : name ∉ c.schemas.map SchemaNode.name)
    (fields : List FieldSig) : (recordBeside name fields c).Accepted := by
  have isContract : c.name ∈ p.nonTypes := by
    refine List.mem_flatMap.mpr ⟨.contract c, ?_, List.mem_singleton.mpr rfl⟩
    exact List.mem_append_left _ (mem_contracts.mp declared)
  have apart : name ≠ c.name := by
    rintro rfl
    exact accepted.types c declared _ mentioned isContract
  -- What remains of the global names is a part of those of the accepted program.
  have kept : ([c.name, partialResult] ++ c.schemas.map SchemaNode.name).Nodup := by
    have whole := duplicates_eq_nil_iff.mp accepted.globals
    refine List.Sublist.nodup ?_ whole
    rw [Program.globals, Program.decls, List.flatMap_append]
    have own : [c.name].Sublist (p.own.flatMap Decl.globals) := by
      apply List.singleton_sublist.mpr
      exact List.mem_flatMap.mpr ⟨.contract c, mem_contracts.mp declared,
        List.mem_singleton.mpr rfl⟩
    refine List.Sublist.append (List.Sublist.append own (List.Sublist.refl _)) ?_
    rw [List.flatMap_def]
    exact List.sublist_flatten_of_mem (List.mem_map_of_mem declared)
  refine ⟨⟨?_, ?_, ?_⟩, ?_, ?_⟩
  · rw [duplicates_eq_nil_iff]
    change (name :: ([c.name, partialResult] ++ (c.schemas.map SchemaNode.name ++ []))).Nodup
    rw [List.append_nil, List.nodup_cons]
    refine ⟨?_, kept⟩
    simp only [List.mem_append, List.mem_cons, List.not_mem_nil, or_false, not_or]
    exact ⟨⟨apart, foreign⟩, notRow⟩
  · intro c' inside
    rw [contracts_recordBeside, List.mem_singleton] at inside
    subst inside
    exact accepted.members c' declared
  · intro c' inside
    rw [contracts_recordBeside, List.mem_singleton] at inside
    subst inside
    exact accepted.subs c' declared
  · intro c' inside other mentions
    rw [contracts_recordBeside, List.mem_singleton] at inside
    subst inside
    change other ∉ [c'.name]
    rw [List.mem_singleton]
    rintro rfl
    exact accepted.types c' declared _ mentions isContract
  · intro c' inside
    rw [contracts_recordBeside, List.mem_singleton] at inside
    subst inside
    exact accepted.columns c' declared

/-- The text pins down everything a host relies on exactly when the vows and pledges of
the contract name no types but the rows of its own schemas and the builtin record:
whatever else has the same text then agrees on the signature and on every layout. -/
theorem shapeString_pins_iff {p : Program} (accepted : p.Accepted) {c : ContractNode}
    (declared : c ∈ p.contracts) :
    (∀ p' c', p'.Accepted → c' ∈ p'.contracts → shapeString c = shapeString c' →
        SameAbi p c p' c') ↔
      ∀ name ∈ c.mentioned, name = partialResult ∨ name ∈ c.schemas.map SchemaNode.name := by
  constructor
  · intro pins name mentioned
    by_contra foreign
    rw [not_or] at foreign
    -- A record of another layout under the same name leaves the text as it is.
    obtain ⟨fields, differs⟩ : ∃ fields, p.layout name ≠ some (.record fields) := by
      by_cases known : p.layout name = some (.record [⟨name, .int⟩])
      · exact ⟨[⟨name, .bool⟩], by simp [known]⟩
      · exact ⟨[⟨name, .int⟩], known⟩
    have accepted' := accepted_recordBeside accepted declared mentioned foreign.1 foreign.2 fields
    have same := pins (recordBeside name fields c) c accepted' (List.mem_singleton.mpr rfl) rfl
    apply differs
    rw [same.layouts name (.direct mentioned)]
    exact layout_of_mem accepted'.toResolves List.mem_cons_self
  · intro own p' c' accepted' declared' same
    obtain ⟨name, vows, pledges, schemas⟩ := shapeString_inj same
    refine ⟨name, vows, pledges, schemas, ?_⟩
    intro name mentions
    rcases mentions_own accepted declared own mentions with rfl | row
    · rw [layout_partialResult accepted.toResolves, layout_partialResult accepted'.toResolves]
    · obtain ⟨schema, member, rfl⟩ := List.mem_map.mp row
      rw [layout_schema accepted.toResolves declared member,
        layout_schema accepted'.toResolves declared' (schemas ▸ member)]

/-- A contract with one vow and one pledge over scalars. -/
def greeter : ContractNode where
  name := ⟨ascii "Greeter", by decide⟩
  isInternal := false
  version := 1
  members := [.vow ⟨⟨ascii "greeting", by decide⟩, .str⟩,
    .pledge ⟨⟨ascii "greet", by decide⟩, [.str], .result .str .str, true⟩]

theorem greeter_pinned : greeter.mentioned = [] ∧
    ∀ p' c', p'.Accepted → c' ∈ p'.contracts → shapeString greeter = shapeString c' →
      SameAbi ⟨[.contract greeter]⟩ greeter p' c' := by
  have accepted : Program.Accepted ⟨[.contract greeter]⟩ :=
    ⟨⟨by decide +kernel, by decide +kernel, by decide +kernel⟩, by decide +kernel,
      by decide +kernel⟩
  have scalars : greeter.mentioned = [] := by decide +kernel
  refine ⟨scalars, (shapeString_pins_iff accepted (List.mem_singleton.mpr rfl)).mpr ?_⟩
  simp [scalars]

/-- The name of a record. -/
def point : Ident := ⟨ascii "Point", by decide⟩

/-- A contract whose pledge returns a record. -/
def locator : ContractNode where
  name := ⟨ascii "Locator", by decide⟩
  isInternal := false
  version := 1
  members := [.pledge ⟨⟨ascii "locate", by decide⟩, [], .option (.named point), false⟩]

/-- The record with one field of a type, beside the contract. -/
def locatorWith (ty : Ty) : Program :=
  recordBeside point [⟨⟨ascii "x", by decide⟩, ty⟩] locator

theorem locatorWith_accepted (ty : Ty) : (locatorWith ty).Accepted := by
  have alone : Program.Accepted ⟨[.contract locator]⟩ :=
    ⟨⟨by decide +kernel, by decide +kernel, by decide +kernel⟩, by decide +kernel,
      by decide +kernel⟩
  exact accepted_recordBeside alone (List.mem_singleton.mpr rfl) (by decide +kernel)
    (by decide +kernel) (by decide +kernel) _

/-- Two layouts of a record leave the text of a contract that returns it the same. -/
theorem locator_unpinned : ∃ p c p' c', p.Accepted ∧ c ∈ p.contracts ∧ p'.Accepted ∧
    c' ∈ p'.contracts ∧ shapeString c = shapeString c' ∧ ¬ SameAbi p c p' c' := by
  refine ⟨locatorWith .int, locator, locatorWith .bool, locator, locatorWith_accepted .int,
    List.mem_singleton.mpr rfl, locatorWith_accepted .bool, List.mem_singleton.mpr rfl, rfl, ?_⟩
  intro same
  have layouts := same.layouts point (.direct (by decide +kernel))
  rw [layout_of_mem (locatorWith_accepted .int).toResolves List.mem_cons_self,
    layout_of_mem (locatorWith_accepted .bool).toResolves List.mem_cons_self] at layouts
  simp at layouts

end Geas.Compiler.Sigs
