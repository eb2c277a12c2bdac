import Geas.Store.Builders
import Mathlib.Algebra.Order.BigOperators.Group.List
import Mathlib.Algebra.Order.Ring.Nat

/-!
# The budgets of the statements

Each builder writes its statement whole exactly when nothing in the arithmetic around it
overflows.  The parameters of the statement are then numbered in the order they are
bound, the bound of a page last.
-/

namespace Geas.Store

open Geas.Abi
open Geas.Lib
open Geas.Runtime (CString ascii decimal)

variable {ρ : Type} {s : StoredSchema}

/-! ## Statements written whole -/

/-- A builder keeps its text: the block it reckons is larger than the text, and holds it
once the heap has given the block. -/
structure WritesWhole (block : Nat) (build : (Nat → Bool) → Built) (text : CString) : Prop where
  roomy : text.length < block
  served : build (fun _ => true) = .sql text
  every : ∀ heap, build heap = .sql text ∨ build heap = .null

/-- A call writes its statement whole, the parameters in the order they are bound. -/
structure Builder.Complete (b : Builder s ρ) : Prop where
  whole : WritesWhole b.plan.block b.plan.build b.text
  inOrder : params b.statement = b.bound

/-- A table's statement is written whole, or refused for a column. -/
def CreateComplete (s : GeasSchemaDesc) : Prop :=
  match createRefusal s.cols with
  | some status => ∀ heap, storeCreateTable heap s = .refused status
  | none => WritesWhole ((sqliteBlock (createPlan s).need).getD 0)
      (fun heap => storeCreateTable heap s) (createText s)

/-! ## The conditions -/

section Sizes

variable (s)

/-- How long the printed column names are. -/
def colSizes (extra : Nat) : List Nat :=
  s.cols.mapIdx fun i col => (if i = 0 then 0 else 2) + (col.name.length + extra)

/-- How long the printed terms are. -/
def termSizes (termI : Nat) (terms : List (GeasStoreTerm s ρ)) : List Nat :=
  terms.mapIdx fun i term => (if i = 0 then 0 else 5) + ((s.name term.col).length +
    (ascii term.cmp.ops).length + 3 + (decimal (UInt32.ofNat (termI + i + 1))).length)

/-- How long the pieces of the printed groups are. -/
def groupSizes : Nat → Nat → List Nat → List (GeasStoreTerm s ρ) → List Nat
  | _, _, [], _ => []
  | g, termI, len :: lens, terms =>
      (if g = 0 then 1 else 5) :: (termSizes s termI (terms.take len) ++
        1 :: groupSizes (g + 1) (termI + len) lens (terms.drop len))

end Sizes

namespace Builder

/-- How long the texts are that one call of `snprintf` prints. -/
def sizes : Builder s ρ → List Nat
  | select _ => 7 :: colSizes s 0 ++ [15 + s.table.length + (s.name s.pk).length]
  | selectEq col _ => 7 :: colSizes s 0 ++ [16 + s.table.length + (s.name col).length]
  | selectWhere t => 7 :: colSizes s 0 ++ (13 + s.table.length) :: termSizes s 0 t.terms
  | countWhere t => (28 + s.table.length) :: termSizes s 0 t.terms
  | sumWhere col t => (37 + s.table.length + (s.name col).length + (zeroOf s col).length) ::
      termSizes s 0 t.terms
  | selectOrdered t col desc => 7 :: colSizes s 0 ++
      (13 + s.table.length) :: termSizes s 0 t.terms ++
      [11 + (s.name col).length + (direction desc).length]
  | selectPage t col desc _ => 7 :: colSizes s 0 ++
      (13 + s.table.length) :: termSizes s 0 t.terms ++
      [19 + (s.name col).length + (direction desc).length +
        (decimal (UInt32.ofNat (t.terms.length + 1))).length]
  | selectAny g col desc limit => 7 :: colSizes s 0 ++
      (13 + s.table.length) :: groupSizes s 0 0 g.groupLens g.terms ++
      (match col with
        | some col => [11 + (s.name col).length + (direction desc).length]
        | none => []) ++
      if limit.isSome then [8 + (decimal (UInt32.ofNat (g.terms.length + 1))).length] else []
  | countAny g => (28 + s.table.length) :: groupSizes s 0 0 g.groupLens g.terms
  | sumAny col g => (37 + s.table.length + (s.name col).length + (zeroOf s col).length) ::
      groupSizes s 0 0 g.groupLens g.terms
  | extremeAny col desc g => (20 + s.table.length + (s.name col).length) ::
      groupSizes s 0 0 g.groupLens g.terms ++
      [19 + (s.name col).length + (direction desc).length]
  | avgAny col g => (47 + s.table.length + (s.name col).length + (zeroOf s col).length) ::
      groupSizes s 0 0 g.groupLens g.terms
  | insert _ _ => (13 + s.table.length) :: colSizes s 0 ++
      9 :: (s.cols.mapIdx fun i _ => (if i = 0 then 0 else 2) + 1) ++ [1]
  | update _ _ _ => (12 + s.table.length) :: colSizes s 2 ++ [9 + (s.name s.pk).length]

/-- A bound behind the terms has a number. -/
def BoundCounted : Builder s ρ → Prop
  | selectPage t _ _ _ => t.terms.length < 2 ^ 32 - 1
  | selectAny g _ _ (some _) => g.terms.length < 2 ^ 32 - 1
  | _ => True

/-- Nothing overflows: every text is short enough for one call, the bytes reckoned fit a
`size_t`, and the bound has a number. -/
structure Fits (b : Builder s ρ) : Prop where
  short : ∀ size ∈ b.sizes, size ≤ intMax
  reckoned : b.plan.need < 2 ^ 64
  counted : b.BoundCounted

end Builder

/-! ## Printing -/

theorem printed_eq {size : Nat} {calls : List CString}
    (short : ∀ call ∈ calls, call.length ≤ intMax)
    (room : calls.flatten.length < size) : printed size calls = .sql calls.flatten := by
  rw [printed, fill_of_room short (by simpa using room)]
  rfl

theorem of_printed {size : Nat} {calls : List CString} {text : CString}
    (whole : printed size calls = .sql text) :
    text = calls.flatten ∧ ∀ call ∈ calls, call.length ≤ intMax := by
  unfold printed at whole
  cases filled : fill intMax size calls [] with
  | none => simp [filled] at whole
  | some out =>
      obtain rfl : out = text := by simpa [filled] using whole
      simpa using whole_of_fill filled

/-- Texts printed into a block from the heap are written whole when no call prints too much
and the block is larger than all of them. -/
theorem writesWhole_iff (size : Nat) (calls : List CString) (text : CString) :
    WritesWhole size (fun heap => if heap size then printed size calls else .null) text ↔
      (∀ call ∈ calls, call.length ≤ intMax) ∧ calls.flatten = text ∧
        calls.flatten.length < size := by
  constructor
  · rintro ⟨roomy, served, -⟩
    obtain ⟨rfl, short⟩ := of_printed (by simpa using served)
    exact ⟨short, rfl, roomy⟩
  · rintro ⟨short, rfl, roomy⟩
    have whole := printed_eq short roomy
    refine ⟨roomy, by simp [whole], ?_⟩
    intro heap
    split
    · exact .inl whole
    · exact .inr rfl

/-! ## What the builders print -/

@[simp] theorem spell_lit {mark : Nat → CString} {k : Nat} (text : String)
    (parts : List (Part UInt8 ρ)) :
    spell mark k (lit text :: parts) = ascii text ++ spell mark k parts := rfl

@[simp] theorem params_lit (text : String) (parts : List (Part UInt8 ρ)) :
    params (lit text :: parts) = params parts := rfl

@[simp] theorem params_comparison (term : GeasStoreTerm s ρ) :
    params (comparison s term) = [term.value] := rfl

theorem numbered_eq {k : Nat} (small : k + 1 < 2 ^ 32) :
    ascii "?" ++ decimal (UInt32.ofNat (k + 1)) = numbered k := by
  rw [numbered, decimal, UInt32.toNat_ofNat_of_lt' small]

theorem spell_columnList (mark : Nat → CString) (k : Nat) :
    spell mark k (columnList s : List (Part UInt8 ρ)) = (colNames s).flatten := by
  rw [columnList, lit, spell_separated (n := 0) _ (fun _ => rfl), colNames, flatten_separated]
  simp

theorem params_columnList : params (columnList s : List (Part UInt8 ρ)) = [] := by
  simp [columnList, lit, params_separated, List.flatMap_map]

theorem params_conjunction (terms : List (GeasStoreTerm s ρ)) :
    params (conjunction s terms) = terms.map GeasStoreTerm.value := by
  rw [conjunction, lit, params_separated, List.flatMap_map, List.map_eq_flatMap]
  rfl

/-- A run of terms, its placeholders numbered on from `k`. -/
theorem spell_conjunction {k : Nat} {terms : List (GeasStoreTerm s ρ)}
    (small : k + terms.length < 2 ^ 32) :
    spell numbered k (conjunction s terms) = (termTexts s k terms).flatten := by
  have printed := flatten_separated (ascii " AND ") (fun i term => s.name term.col ++ ascii " " ++
    ascii term.cmp.ops ++ ascii " ?" ++ decimal (UInt32.ofNat (k + i + 1))) terms
  have texts : termTexts s k terms = terms.mapIdx fun i term =>
      (if i = 0 then [] else ascii " AND ") ++ (s.name term.col ++ ascii " " ++
        ascii term.cmp.ops ++ ascii " ?" ++ decimal (UInt32.ofNat (k + i + 1))) := rfl
  have width (term : GeasStoreTerm s ρ) : (params (comparison s term)).length = 1 := rfl
  rw [texts, printed, conjunction, lit, spell_separated _ width]
  congr 1
  rw [List.mapIdx_eq_mapIdx_iff]
  intro i inside
  have mark := numbered_eq (k := k + i) (by omega)
  have blank : ascii " ?" = ascii " " ++ ascii "?" := by decide
  simp [comparison, blank, ← mark]

theorem flatten_cut (lens : List Nat) (terms : List (GeasStoreTerm s ρ))
    (whole : lens.sum = terms.length) : (cut s lens terms).flatten = terms := by
  induction lens generalizing terms with
  | nil =>
      have none : terms = [] := List.eq_nil_of_length_eq_zero (by simpa using whole.symm)
      simp [cut, none]
  | cons len lens ih =>
      rw [List.sum_cons] at whole
      rw [cut, List.flatten_cons, ih _ (by rw [List.length_drop]; omega), List.take_append_drop]

theorem params_group (terms : List (GeasStoreTerm s ρ)) :
    params (group s terms) = terms.map GeasStoreTerm.value := by
  simp [group, params_conjunction]

theorem params_disjunction (g : Groups s ρ) :
    params (disjunction s g) = g.terms.map GeasStoreTerm.value := by
  have cutAll := flatten_cut g.groupLens g.terms g.total
  conv_rhs => rw [← cutAll, List.map_flatten, ← List.flatMap_def]
  rw [disjunction, lit, params_separated, List.flatMap_map]
  simp only [params_group]

theorem spell_group (termI : Nat) (terms : List (GeasStoreTerm s ρ))
    (small : termI + terms.length < 2 ^ 32) :
    spell numbered termI (group s terms) =
      ascii "(" ++ (termTexts s termI terms).flatten ++ ascii ")" := by
  simp [group, ← spell_conjunction small]

/-- The groups from one on, the placeholders numbered on through all of them. -/
theorem spell_emitGroups (g termI : Nat) (lens : List Nat)
    (terms : List (GeasStoreTerm s ρ)) (whole : lens.sum = terms.length)
    (small : termI + terms.length < 2 ^ 32) :
    (emitGroups s (g + 1) termI lens terms).flatten =
      spell numbered termI
        (((cut s lens terms).map (group s)).flatMap fun item => .text (ascii " OR ") :: item) := by
  induction lens generalizing g termI terms with
  | nil => rfl
  | cons len lens ih =>
      rw [List.sum_cons] at whole
      have length : (terms.take len).length = len := by rw [List.length_take]; omega
      have rest := ih (g + 1) (termI + len) (terms.drop len)
        (by rw [List.length_drop]; omega) (by rw [List.length_drop]; omega)
      have run := spell_group termI (terms.take len) (by omega)
      rw [cut, List.map_cons, List.flatMap_cons, spell_append, spell_text, params_text,
        params_group, List.length_map, length, ← rest, run]
      simp [emitGroups]

theorem spell_disjunction (g : Groups s ρ) :
    spell numbered 0 (disjunction s g) = (storeSqlEmitGroups s g).flatten := by
  have whole := g.total
  have small := g.nterms
  rw [disjunction, storeSqlEmitGroups]
  cases lens : g.groupLens with
  | nil => rfl
  | cons len rest =>
      rw [lens, List.sum_cons] at whole
      have length : (g.terms.take len).length = len := by rw [List.length_take]; omega
      have others := spell_emitGroups 0 (0 + len) rest (g.terms.drop len)
        (by rw [List.length_drop]; omega) (by rw [List.length_drop]; omega)
      have run := spell_group 0 (g.terms.take len) (by omega)
      rw [cut, List.map_cons, lit, intercalate_cons, spell_append, params_group, List.length_map,
        length, run]
      simp only [List.cons_append, List.nil_append]
      rw [← others]
      simp [emitGroups]

theorem params_marks (row : List ρ) :
    params (List.intercalate [lit ", "] (row.map fun value => [.param value])) = row := by
  simp [lit, params_separated, List.flatMap_map]

theorem params_assignments (cols : List GeasColumnDesc) (row : List ρ)
    (whole : row.length = cols.length) :
    params (List.intercalate [lit ", "] ((cols.zip row).map fun (col, value) =>
      [.text col.name, lit "=", .param value])) = row := by
  rw [lit, params_separated, List.flatMap_map]
  calc (cols.zip row).flatMap (fun pair => params [.text pair.1.name, lit "=", .param pair.2])
      = (cols.zip row).map Prod.snd := by rw [List.map_eq_flatMap]; rfl
    _ = row := List.map_snd_zip (by omega)

/-- The parameters of a statement are the ones the caller binds. -/
theorem params_statement (b : Builder s ρ) : params b.statement = b.bound := by
  cases b with
  | insert row whole =>
      simp [Builder.statement, Builder.bound, params_columnList, params_marks]
  | update row whole key =>
      simp [Builder.statement, Builder.bound, params_assignments _ _ whole]
  | selectAny g col desc limit =>
      cases col <;> cases limit <;>
        simp [Builder.statement, Builder.bound, params_columnList, fromWhere, params_disjunction,
          orderBy]
  | _ =>
      simp [Builder.statement, Builder.bound, params_columnList, fromWhere, coalescedSum,
        params_conjunction, params_disjunction, orderBy]

theorem spell_marks (k : Nat) (row : List ρ) :
    spell positional k (List.intercalate [lit ", "] (row.map fun value => [.param value])) =
      (row.mapIdx fun i _ => (if i = 0 then [] else ascii ", ") ++ ascii "?").flatten := by
  have width (value : ρ) : (params [Part.param (α := UInt8) value]).length = 1 := rfl
  rw [lit, spell_separated _ width, flatten_separated]
  rfl

theorem spell_assignments (k : Nat) (cols : List GeasColumnDesc) (row : List ρ)
    (whole : row.length = cols.length) :
    spell positional k (List.intercalate [lit ", "] ((cols.zip row).map fun (col, value) =>
        [.text col.name, lit "=", .param value])) =
      (cols.mapIdx fun i col => (if i = 0 then [] else ascii ", ") ++
        (col.name ++ ascii "=?")).flatten := by
  have width (pair : GeasColumnDesc × ρ) :
      (params [Part.text pair.1.name, lit "=", .param pair.2]).length = 1 := rfl
  have names : ((cols.zip row).mapIdx fun i pair => (if i = 0 then [] else ascii ", ") ++
      (pair.1.name ++ ascii "=?")) =
      cols.mapIdx fun i col => (if i = 0 then [] else ascii ", ") ++ (col.name ++ ascii "=?") :=
    List.ext_getElem (by simp [whole]) (by simp)
  have marked : ascii "=?" = ascii "=" ++ ascii "?" := by decide
  rw [← names, flatten_separated, lit, spell_separated _ width]
  simp [positional, marked]

theorem insert_marks {row : List ρ} (whole : row.length = s.cols.length) :
    (row.mapIdx fun i _ => (if i = 0 then [] else ascii ", ") ++ ascii "?") =
      s.cols.mapIdx fun i _ => (if i = 0 then [] else ascii ", ") ++ ascii "?" :=
  List.ext_getElem (by simpa using whole) (by simp)

/-- Literals that a builder prints in one piece. -/
theorem joined_literals :
    ascii "=?" = ascii "=" ++ ascii "?" ∧
    ascii "=?1" = ascii "=" ++ numbered 0 ∧
    ascii " LIMIT ?" = ascii " LIMIT " ++ ascii "?" ∧
    ascii ") FROM " = ascii ")" ++ ascii " FROM " ∧
    ascii "SELECT COUNT(*) FROM " = ascii "SELECT COUNT(*)" ++ ascii " FROM " ∧
    ascii "SELECT COALESCE(SUM(" = ascii "SELECT " ++ ascii "COALESCE(SUM(" ∧
    ascii "SELECT COUNT(*), COALESCE(SUM(" =
      ascii "SELECT COUNT(*), " ++ ascii "COALESCE(SUM(" := by
  decide

theorem spell_terms (t : Terms s ρ) :
    spell numbered 0 (conjunction s t.terms) = (termTexts s 0 t.terms).flatten :=
  spell_conjunction (by have := t.nterms; omega)

/-- The number behind the last term is the next one unless there are `UINT32_MAX` terms,
behind which the count starts over. -/
theorem bound_marked_iff {n : Nat} (small : n < 2 ^ 32) :
    ascii "?" ++ decimal (UInt32.ofNat (n + 1)) = numbered n ↔ n < 2 ^ 32 - 1 := by
  constructor
  · intro marked
    by_contra last
    obtain rfl : n = 2 ^ 32 - 1 := by omega
    have lengths := congrArg List.length marked
    have many : ¬ (Nat.toDigits 10 (2 ^ 32 - 1 + 1)).length ≤ 1 := by
      rw [Nat.length_toDigits_le_iff (by decide) (by decide)]
      omega
    have one : (decimal (UInt32.ofNat (2 ^ 32 - 1 + 1))).length = 1 := by decide
    simp only [numbered, List.length_append, List.length_map, one] at lengths
    omega
  · intro inside
    exact numbered_eq (by omega)

/-- What the calls of a builder print is its statement exactly when the bound has a
number. -/
theorem flatten_calls_iff (b : Builder s ρ) : b.plan.calls.flatten = b.text ↔ b.BoundCounted := by
  obtain ⟨mark, mark1, limit, overall, count, sum, avg⟩ := joined_literals
  cases b with
  | selectPage t col desc value =>
      simpa [Builder.plan, storeSqlSelectPage, Builder.text, Builder.statement, Builder.mark,
        spell_columnList, params_columnList, fromWhere, spell_terms, params_conjunction, orderBy,
        limit, Builder.BoundCounted] using bound_marked_iff t.nterms
  | selectAny g col desc value =>
      cases value with
      | none =>
          cases col <;>
            simp [Builder.plan, storeSqlSelectAny, Builder.text, Builder.statement, Builder.mark,
              spell_columnList, params_columnList, fromWhere, spell_disjunction, orderBy,
              Builder.BoundCounted]
      | some value =>
          cases col <;>
            simpa [Builder.plan, storeSqlSelectAny, Builder.text, Builder.statement, Builder.mark,
              spell_columnList, params_columnList, fromWhere, spell_disjunction,
              params_disjunction, orderBy, limit, Builder.BoundCounted]
              using bound_marked_iff g.nterms
  | select key =>
      simp [Builder.plan, storeSqlSelect, Builder.text, Builder.statement, Builder.mark,
        spell_columnList, params_columnList, fromWhere, positional, mark, Builder.BoundCounted]
  | selectEq col value =>
      simp [Builder.plan, storeSqlSelectEq, Builder.text, Builder.statement, Builder.mark,
        spell_columnList, params_columnList, fromWhere, mark1, Builder.BoundCounted]
  | selectWhere t =>
      simp [Builder.plan, storeSqlSelectWhere, Builder.text, Builder.statement, Builder.mark,
        spell_columnList, params_columnList, fromWhere, spell_terms, Builder.BoundCounted]
  | countWhere t =>
      simp [Builder.plan, storeSqlCountWhere, Builder.text, Builder.statement, Builder.mark,
        fromWhere, spell_terms, count, Builder.BoundCounted]
  | sumWhere col t =>
      simp [Builder.plan, storeSqlSumWhere, Builder.text, Builder.statement, Builder.mark,
        fromWhere, spell_terms, sum, overall, coalescedSum, Builder.BoundCounted]
  | selectOrdered t col desc =>
      simp [Builder.plan, storeSqlSelectOrdered, Builder.text, Builder.statement, Builder.mark,
        spell_columnList, params_columnList, fromWhere, spell_terms, orderBy, Builder.BoundCounted]
  | countAny g =>
      simp [Builder.plan, storeSqlCountAny, Builder.text, Builder.statement, Builder.mark,
        fromWhere, spell_disjunction, count, Builder.BoundCounted]
  | sumAny col g =>
      simp [Builder.plan, storeSqlSumAny, Builder.text, Builder.statement, Builder.mark,
        fromWhere, spell_disjunction, sum, overall, coalescedSum, Builder.BoundCounted]
  | extremeAny col desc g =>
      simp [Builder.plan, storeSqlExtremeAny, Builder.text, Builder.statement, Builder.mark,
        fromWhere, spell_disjunction, orderBy, Builder.BoundCounted]
  | avgAny col g =>
      simp [Builder.plan, storeSqlAvgAny, Builder.text, Builder.statement, Builder.mark,
        fromWhere, spell_disjunction, avg, overall, coalescedSum, Builder.BoundCounted]
  | insert row whole =>
      simp [Builder.plan, storeSqlInsert, Builder.text, Builder.statement, Builder.mark,
        spell_columnList, params_columnList, spell_marks, insert_marks whole, Builder.BoundCounted]
  | update row whole key =>
      simp [Builder.plan, storeSqlUpdate, Builder.text, Builder.statement, Builder.mark,
        spell_assignments _ _ _ whole, positional, mark, Builder.BoundCounted]

/-! ## How much is printed -/

theorem length_decimal (word : UInt32) :
    1 ≤ (decimal word).length ∧ (decimal word).length ≤ 10 := by
  have small : word.toNat < 10 ^ 10 := Nat.lt_of_lt_of_le word.toNat_lt (by decide)
  rw [decimal, List.length_map]
  exact ⟨Nat.length_toDigits_pos, (Nat.length_toDigits_le_iff (by decide) (by decide)).mpr small⟩

/-- How long the literals of the statements are. -/
theorem literal_lengths :
    (ascii "SELECT ").length = 7 ∧
    (ascii " FROM ").length = 6 ∧
    (ascii " WHERE ").length = 7 ∧
    (ascii "=?").length = 2 ∧
    (ascii "=?1").length = 3 ∧
    (ascii "SELECT COUNT(*) FROM ").length = 21 ∧
    (ascii "SELECT COALESCE(SUM(").length = 20 ∧
    (ascii "), ").length = 3 ∧
    (ascii ") FROM ").length = 7 ∧
    (ascii " ORDER BY ").length = 10 ∧
    (ascii " ").length = 1 ∧
    (ascii " LIMIT ?").length = 8 ∧
    (ascii " LIMIT 1").length = 8 ∧
    (ascii "SELECT COUNT(*), COALESCE(SUM(").length = 30 ∧
    (ascii "INSERT INTO ").length = 12 ∧
    (ascii "(").length = 1 ∧
    (ascii ") VALUES(").length = 9 ∧
    (ascii ")").length = 1 ∧
    (ascii "UPDATE ").length = 7 ∧
    (ascii " SET ").length = 5 ∧
    (ascii ", ").length = 2 ∧
    (ascii "?").length = 1 ∧
    (ascii " AND ").length = 5 ∧
    (ascii " ?").length = 2 ∧
    (ascii "CREATE TABLE ").length = 13 ∧
    (ascii " PRIMARY KEY").length = 12 := by
  decide

theorem length_lead (sep : CString) (i : Nat) :
    (if i = 0 then [] else sep).length = if i = 0 then 0 else sep.length := by
  split <;> rfl

theorem lengths_mapIdx {α : Type} (text : Nat → α → CString) (items : List α) :
    (items.mapIdx text).map List.length = items.mapIdx fun i x => (text i x).length :=
  List.ext_getElem (by simp) (by simp)

theorem lengths_termTexts (termI : Nat) (terms : List (GeasStoreTerm s ρ)) :
    (termTexts s termI terms).map List.length = termSizes s termI terms := by
  have literals := literal_lengths
  rw [termTexts, lengths_mapIdx, termSizes, List.mapIdx_eq_mapIdx_iff]
  intro i inside
  simp only [termText, List.length_append, length_lead, literals]
  omega

theorem lengths_colNames : (colNames s).map List.length = colSizes s 0 := by
  have literals := literal_lengths
  simp only [colNames, lengths_mapIdx, colSizes, List.length_append, length_lead, literals,
    Nat.add_zero]

theorem lengths_emitGroups (g termI : Nat) (lens : List Nat) (terms : List (GeasStoreTerm s ρ)) :
    (emitGroups s g termI lens terms).map List.length = groupSizes s g termI lens terms := by
  induction lens generalizing g termI terms with
  | nil => rfl
  | cons len lens ih =>
      have opened : ((if g = 0 then [] else ascii " OR ") ++ ascii "(").length =
          if g = 0 then 1 else 5 := by split <;> decide
      have closed : (ascii ")").length = 1 := by decide
      simp only [emitGroups, groupSizes, List.map_cons, List.map_append, lengths_termTexts, ih,
        opened, closed]

/-- The texts of a builder are as long as reckoned from the names. -/
theorem lengths_calls (b : Builder s ρ) : b.plan.calls.map List.length = b.sizes := by
  have literals := literal_lengths
  cases b with
  | select key =>
      simp [Builder.plan, storeSqlSelect, Builder.sizes, lengths_colNames, literals]
      omega
  | selectEq col value =>
      simp [Builder.plan, storeSqlSelectEq, Builder.sizes, lengths_colNames, literals]
      omega
  | selectWhere t =>
      simp [Builder.plan, storeSqlSelectWhere, Builder.sizes, lengths_colNames, lengths_termTexts,
        literals]
      omega
  | countWhere t =>
      simp [Builder.plan, storeSqlCountWhere, Builder.sizes, lengths_termTexts, literals]
      omega
  | sumWhere col t =>
      simp [Builder.plan, storeSqlSumWhere, Builder.sizes, lengths_termTexts, literals]
      omega
  | selectOrdered t col desc =>
      simp [Builder.plan, storeSqlSelectOrdered, Builder.sizes, lengths_colNames,
        lengths_termTexts, literals]
      omega
  | selectPage t col desc value =>
      simp [Builder.plan, storeSqlSelectPage, Builder.sizes, lengths_colNames,
        lengths_termTexts, literals]
      omega
  | selectAny g col desc value =>
      cases col <;> cases value <;>
        simp [Builder.plan, storeSqlSelectAny, storeSqlEmitGroups, Builder.sizes,
          lengths_colNames, lengths_emitGroups, literals] <;>
        omega
  | countAny g =>
      simp [Builder.plan, storeSqlCountAny, storeSqlEmitGroups, Builder.sizes, lengths_emitGroups,
        literals]
      omega
  | sumAny col g =>
      simp [Builder.plan, storeSqlSumAny, storeSqlEmitGroups, Builder.sizes, lengths_emitGroups,
        literals]
      omega
  | extremeAny col desc g =>
      simp [Builder.plan, storeSqlExtremeAny, storeSqlEmitGroups, Builder.sizes,
        lengths_emitGroups, literals]
      omega
  | avgAny col g =>
      simp [Builder.plan, storeSqlAvgAny, storeSqlEmitGroups, Builder.sizes, lengths_emitGroups,
        literals]
      omega
  | insert row whole =>
      simp [Builder.plan, storeSqlInsert, Builder.sizes, lengths_colNames, lengths_mapIdx,
        length_lead, literals]
      omega
  | update row whole key =>
      simp [Builder.plan, storeSqlUpdate, Builder.sizes, lengths_mapIdx, colSizes,
        length_lead, literals]
      omega

theorem sum_map_add_const {α : Type} (f : α → Nat) (c : Nat) (items : List α) :
    (items.map fun x => f x + c).sum = (items.map f).sum + c * items.length := by
  induction items with
  | nil => simp
  | cons x items ih =>
      simp only [List.map_cons, List.sum_cons, ih, List.length_cons, Nat.mul_add, Nat.mul_one]
      omega

/-- A sum over places is between sums that do not look at them. -/
theorem sum_mapIdx_bounds {α : Type} {f : Nat → α → Nat} (low high : α → Nat)
    (above : ∀ i x, low x ≤ f i x) (below : ∀ i x, f i x ≤ high x) (items : List α) :
    (items.map low).sum ≤ (items.mapIdx f).sum ∧ (items.mapIdx f).sum ≤ (items.map high).sum := by
  induction items generalizing f with
  | nil => simp
  | cons x items ih =>
      have tail := ih (f := fun i => f (i + 1)) (fun i => above (i + 1)) (fun i => below (i + 1))
      have lower := above 0 x
      have upper := below 0 x
      simp only [List.map_cons, List.sum_cons, List.mapIdx_cons]
      exact ⟨by omega, by omega⟩

/-- The bytes of all column names. -/
def nameBytes (s : StoredSchema) : Nat := (s.cols.map fun col => col.name.length).sum

/-- The bytes of the names and operators of terms. -/
def termBytes (s : StoredSchema) (terms : List (GeasStoreTerm s ρ)) : Nat :=
  (terms.map fun term => (s.name term.col).length + (ascii term.cmp.ops).length).sum

theorem storeColsSpan_eq : storeColsSpan s = nameBytes s + 4 * s.cols.length :=
  sum_map_add_const _ 4 _

theorem termsSpan_eq (terms : List (GeasStoreTerm s ρ)) :
    termsSpan s terms = termBytes s terms + 24 * terms.length :=
  sum_map_add_const _ 24 _

theorem colSizes_bounds (extra : Nat) :
    nameBytes s + extra * s.cols.length ≤ (colSizes s extra).sum ∧
      (colSizes s extra).sum ≤ nameBytes s + (2 + extra) * s.cols.length := by
  have bounds := sum_mapIdx_bounds
    (f := fun i (col : GeasColumnDesc) => (if i = 0 then 0 else 2) + (col.name.length + extra))
    (fun col => col.name.length + extra) (fun col => col.name.length + (2 + extra))
    (fun i col => by omega) (fun i col => by split <;> omega) s.cols
  rwa [sum_map_add_const, sum_map_add_const] at bounds

theorem termSizes_bounds (termI : Nat) (terms : List (GeasStoreTerm s ρ)) :
    termBytes s terms ≤ (termSizes s termI terms).sum ∧
      (termSizes s termI terms).sum ≤ termBytes s terms + 18 * terms.length := by
  have bounds := sum_mapIdx_bounds
    (f := fun i (term : GeasStoreTerm s ρ) => (if i = 0 then 0 else 5) +
      ((s.name term.col).length + (ascii term.cmp.ops).length + 3 +
        (decimal (UInt32.ofNat (termI + i + 1))).length))
    (fun term => (s.name term.col).length + (ascii term.cmp.ops).length)
    (fun term => (s.name term.col).length + (ascii term.cmp.ops).length + 18)
    (fun i term => by omega)
    (fun i term => by
      have number := length_decimal (UInt32.ofNat (termI + i + 1))
      split <;> omega) terms
  rwa [sum_map_add_const] at bounds

theorem termBytes_cut (len : Nat) (terms : List (GeasStoreTerm s ρ)) :
    termBytes s terms = termBytes s (terms.take len) + termBytes s (terms.drop len) := by
  unfold termBytes
  rw [← List.sum_append, ← List.map_append, List.take_append_drop]

theorem groupSizes_bounds (g termI : Nat) (lens : List Nat) (terms : List (GeasStoreTerm s ρ))
    (whole : lens.sum = terms.length) :
    termBytes s terms ≤ (groupSizes s g termI lens terms).sum ∧
      (groupSizes s g termI lens terms).sum ≤
        termBytes s terms + 18 * terms.length + 6 * lens.length := by
  induction lens generalizing g termI terms with
  | nil =>
      obtain rfl : terms = [] := List.eq_nil_of_length_eq_zero (by simpa using whole.symm)
      simp [termBytes, groupSizes]
  | cons len lens ih =>
      rw [List.sum_cons] at whole
      have run := termSizes_bounds termI (terms.take len)
      have rest := ih (g + 1) (termI + len) (terms.drop len) (by rw [List.length_drop]; omega)
      rw [List.length_take] at run
      rw [List.length_drop] at rest
      rw [termBytes_cut len terms]
      simp only [groupSizes, List.sum_cons, List.sum_append, List.length_cons]
      split <;> omega

theorem emitted_bounds (g : Groups s ρ) :
    termBytes s g.terms ≤ (groupSizes s 0 0 g.groupLens g.terms).sum ∧
      (groupSizes s 0 0 g.groupLens g.terms).sum ≤
        termBytes s g.terms + 18 * g.terms.length + 6 * g.groupLens.length :=
  groupSizes_bounds 0 0 g.groupLens g.terms g.total

theorem storeSqlAnyWhereSpan_eq (g : Groups s ρ) :
    storeSqlAnyWhereSpan s g =
      8 * g.groupLens.length + (termBytes s g.terms + 24 * g.terms.length) := by
  rw [storeSqlAnyWhereSpan, termsSpan_eq, Nat.mul_comm]

/-- What an update reckons twice and prints once. -/
def Builder.surplus : Builder s ρ → Nat
  | update _ _ _ => nameBytes s
  | _ => 0

/-- Every builder reckons more than it prints, but for the surplus not much more. -/
theorem need_bounds (b : Builder s ρ) :
    b.sizes.sum < b.plan.need ∧ b.plan.need ≤ b.sizes.sum + b.surplus + 2 ^ 40 := by
  have cols := colSizes_bounds (s := s) 0
  have span := storeColsSpan_eq (s := s)
  have columns := s.ncols
  cases b with
  | select key =>
      simp [Builder.sizes, Builder.plan, Builder.surplus, storeSqlSelect]
      omega
  | selectEq col value =>
      simp [Builder.sizes, Builder.plan, Builder.surplus, storeSqlSelectEq]
      omega
  | selectWhere t =>
      have terms := termSizes_bounds 0 t.terms
      have few := t.nterms
      simp [Builder.sizes, Builder.plan, Builder.surplus, storeSqlSelectWhere, termsSpan_eq]
      omega
  | countWhere t =>
      have terms := termSizes_bounds 0 t.terms
      have few := t.nterms
      simp [Builder.sizes, Builder.plan, Builder.surplus, storeSqlCountWhere, termsSpan_eq]
      omega
  | sumWhere col t =>
      have terms := termSizes_bounds 0 t.terms
      have few := t.nterms
      simp [Builder.sizes, Builder.plan, Builder.surplus, storeSqlSumWhere, termsSpan_eq]
      omega
  | selectOrdered t col desc =>
      have terms := termSizes_bounds 0 t.terms
      have few := t.nterms
      simp [Builder.sizes, Builder.plan, Builder.surplus, storeSqlSelectOrdered, termsSpan_eq]
      omega
  | selectPage t col desc value =>
      have terms := termSizes_bounds 0 t.terms
      have few := t.nterms
      have number := length_decimal (UInt32.ofNat t.terms.length + 1)
      simp [Builder.sizes, Builder.plan, Builder.surplus, storeSqlSelectPage, termsSpan_eq]
      omega
  | selectAny g col desc value =>
      have groups := emitted_bounds g
      have few := g.nterms
      have split := g.ngroups
      have number := length_decimal (UInt32.ofNat g.terms.length + 1)
      cases col <;> cases value <;>
        simp [Builder.sizes, Builder.plan, Builder.surplus, storeSqlSelectAny,
          storeSqlAnyWhereSpan_eq] <;>
        omega
  | countAny g =>
      have groups := emitted_bounds g
      have few := g.nterms
      have split := g.ngroups
      simp [Builder.sizes, Builder.plan, Builder.surplus, storeSqlCountAny, storeSqlAnyWhereSpan_eq]
      omega
  | sumAny col g =>
      have groups := emitted_bounds g
      have few := g.nterms
      have split := g.ngroups
      simp [Builder.sizes, Builder.plan, Builder.surplus, storeSqlSumAny, storeSqlAnyWhereSpan_eq]
      omega
  | extremeAny col desc g =>
      have groups := emitted_bounds g
      have few := g.nterms
      have split := g.ngroups
      simp [Builder.sizes, Builder.plan, Builder.surplus, storeSqlExtremeAny,
        storeSqlAnyWhereSpan_eq]
      omega
  | avgAny col g =>
      have groups := emitted_bounds g
      have few := g.nterms
      have split := g.ngroups
      simp [Builder.sizes, Builder.plan, Builder.surplus, storeSqlAvgAny, storeSqlAnyWhereSpan_eq]
      omega
  | insert row whole =>
      have marks := sum_mapIdx_bounds
        (f := fun i (_ : GeasColumnDesc) => (if i = 0 then 0 else 2) + 1)
        (fun _ => 1) (fun _ => 3) (fun i _ => by omega) (fun i _ => by split <;> omega) s.cols
      simp [Builder.sizes, Builder.plan, Builder.surplus, storeSqlInsert] at marks ⊢
      omega
  | update row whole key =>
      have assigned := colSizes_bounds (s := s) 2
      simp [Builder.sizes, Builder.plan, Builder.surplus, storeSqlUpdate]
      omega

/-- A block that was reckoned modulo 2^64 and holds what is printed was reckoned right. -/
theorem reckoned_of_room {b : Builder s ρ} (short : ∀ size ∈ b.sizes, size ≤ intMax)
    (room : b.sizes.sum < b.plan.block) : b.plan.need < 2 ^ 64 := by
  have bounds := need_bounds b
  have surplus : b.surplus ≤ 2 ^ 63 ∧ b.surplus ≤ b.sizes.sum := by
    cases b with
    | update row whole key =>
        have assigned := colSizes_bounds (s := s) 2
        have columns := s.ncols
        have each : ∀ size ∈ colSizes s 2, size ≤ intMax :=
          fun size member => short size (by simp [Builder.sizes, member])
        have all := List.sum_le_card_nsmul (colSizes s 2) intMax each
        simp only [colSizes, List.length_mapIdx, Nat.nsmul_eq_mul, intMax] at all
        simp only [colSizes, Builder.surplus, Builder.sizes, List.sum_append,
          List.sum_cons] at assigned ⊢
        omega
    | _ => simp [Builder.surplus]
  rw [Plan.block] at room
  omega

/-! ## The builders -/

theorem length_calls_flatten (b : Builder s ρ) : b.plan.calls.flatten.length = b.sizes.sum := by
  rw [List.length_flatten, lengths_calls]

theorem short_calls_iff (b : Builder s ρ) :
    (∀ call ∈ b.plan.calls, call.length ≤ intMax) ↔ ∀ size ∈ b.sizes, size ≤ intMax := by
  rw [← lengths_calls b, List.forall_mem_map]

/-- A builder writes its statement whole exactly when nothing overflows. -/
theorem complete_iff (b : Builder s ρ) : b.Complete ↔ b.Fits := by
  have whole : WritesWhole b.plan.block b.plan.build b.text ↔ _ :=
    writesWhole_iff b.plan.block b.plan.calls b.text
  rw [flatten_calls_iff, length_calls_flatten, short_calls_iff] at whole
  constructor
  · rintro ⟨written, -⟩
    obtain ⟨short, counted, room⟩ := whole.mp written
    exact ⟨short, reckoned_of_room short room, counted⟩
  · rintro ⟨short, reckoned, counted⟩
    have room : b.sizes.sum < b.plan.block := by
      rw [Plan.block, Nat.mod_eq_of_lt reckoned]
      exact (need_bounds b).1
    exact ⟨whole.mpr ⟨short, counted, room⟩, params_statement b⟩

/-! ## Creating a table -/

/-- How long the printed columns of a new table are. -/
def createSize (s : GeasSchemaDesc) : Nat :=
  15 + s.table.length + (s.cols.mapIdx fun i col =>
    (if i = 0 then 12 else 2) + (col.name.length + 1 + col.storage.length)).sum

/-- What the cast to `int` leaves of the bytes reckoned is a block that SQLite gives and
that holds the text: nothing is cut off, or what is left is still enough. -/
def CreateFits (s : GeasSchemaDesc) : Prop :=
  createRefusal s.cols = none →
    (createPlan s).need ≤ sqliteMaxAllocationSize ∨
      (createSize s < (createPlan s).need % 2 ^ 32 ∧
        (createPlan s).need % 2 ^ 32 ≤ sqliteMaxAllocationSize)

theorem flatten_createPlan (s : GeasSchemaDesc) : (createPlan s).calls.flatten = createText s := by
  simp [createPlan, createText, flatten_separated]

theorem length_createText (s : GeasSchemaDesc) : (createText s).length = createSize s := by
  have literals := literal_lengths
  have column (i : Nat) (col : GeasColumnDesc) :
      ((if i = 0 then [] else ascii ", ") ++ (col.name ++ ascii " " ++ col.storage ++
        if i = 0 then ascii " PRIMARY KEY" else [])).length =
      (if i = 0 then 12 else 2) + (col.name.length + 1 + col.storage.length) := by
    by_cases first : i = 0 <;> simp [first, literals] <;> omega
  rw [← flatten_createPlan, List.length_flatten]
  simp only [createPlan, createSize, List.map_append, List.map_cons, lengths_mapIdx, column,
    List.sum_append, List.sum_cons, List.length_append, literals, List.map_nil, List.sum_nil]
  omega

theorem createSize_lt_need (s : GeasSchemaDesc) : createSize s < (createPlan s).need := by
  have bounds := sum_mapIdx_bounds
    (f := fun i (col : GeasColumnDesc) =>
      (if i = 0 then 12 else 2) + (col.name.length + 1 + col.storage.length))
    (fun _ => 0) (fun col => col.name.length + col.storage.length + 24)
    (fun i col => by omega) (fun i col => by split <;> omega) s.cols
  simp only [createSize, createPlan]
  omega

theorem sqliteBlock_eq_some_iff {need size : Nat} :
    sqliteBlock need = some size ↔
      size = need % 2 ^ 32 ∧ 0 < size ∧ size ≤ sqliteMaxAllocationSize := by
  have narrow := narrowed_eq (need % 2 ^ 64)
  have low : need % 2 ^ 64 % 2 ^ 32 = need % 2 ^ 32 := by omega
  have small : need % 2 ^ 32 < 2 ^ 32 := Nat.mod_lt _ (by decide)
  rw [low] at narrow
  unfold sqliteBlock sqliteMaxAllocationSize
  generalize narrowed (need % 2 ^ 64) = n at narrow ⊢
  generalize need % 2 ^ 32 = rest at narrow small ⊢
  dsimp only
  split at narrow <;> split
  all_goals
    simp only [reduceCtorEq, Option.some.injEq, false_iff, not_and]
    omega

theorem createFits_iff (s : GeasSchemaDesc) (storable : createRefusal s.cols = none) :
    CreateFits s ↔ ∃ size, sqliteBlock (createPlan s).need = some size ∧ createSize s < size := by
  have more := createSize_lt_need s
  simp only [CreateFits, storable, forall_const, sqliteBlock_eq_some_iff]
  unfold sqliteMaxAllocationSize
  constructor
  · intro fits
    exact ⟨_, ⟨rfl, by omega, by omega⟩, by omega⟩
  · rintro ⟨size, ⟨rfl, -, allowed⟩, room⟩
    exact .inr ⟨room, allowed⟩

theorem storeCreateTable_refused {s : GeasSchemaDesc} {status : GeasStatus}
    (refusal : createRefusal s.cols = some status) (heap : Nat → Bool) :
    storeCreateTable heap s = .refused status := by
  rw [storeCreateTable, refusal]

theorem storeCreateTable_printed {s : GeasSchemaDesc} (storable : createRefusal s.cols = none)
    (heap : Nat → Bool) :
    storeCreateTable heap s =
      printIn heap (createPlan s).calls (sqliteBlock (createPlan s).need) := by
  rw [storeCreateTable, storable]

/-- Printing where SQLite may have given no block. -/
theorem writesWhole_printIn_iff (calls : List CString) (text : CString) (block : Option Nat) :
    WritesWhole (block.getD 0) (fun heap => printIn heap calls block) text ↔
      ∃ size, block = some size ∧ (∀ call ∈ calls, call.length ≤ intMax) ∧ calls.flatten = text ∧
        calls.flatten.length < size := by
  cases block with
  | none =>
      constructor
      · intro whole
        cases whole.served
      · rintro ⟨size, given, -⟩
        cases given
  | some size => simpa [printIn] using writesWhole_iff size calls text

/-- A table's statement is written whole exactly when the cast leaves a block that holds
it. -/
theorem createComplete_iff (s : GeasSchemaDesc) : CreateComplete s ↔ CreateFits s := by
  cases refusal : createRefusal s.cols with
  | some status =>
      have refused : CreateComplete s := by
        rw [CreateComplete, refusal]
        exact storeCreateTable_refused refusal
      exact iff_of_true refused fun storable => by cases refusal.symm.trans storable
  | none =>
      have meaning : CreateComplete s ↔ ∃ size, sqliteBlock (createPlan s).need = some size ∧
          (∀ call ∈ (createPlan s).calls, call.length ≤ intMax) ∧
          (createPlan s).calls.flatten = createText s ∧
          (createPlan s).calls.flatten.length < size := by
        rw [CreateComplete, refusal]
        simp only [storeCreateTable_printed refusal]
        exact writesWhole_printIn_iff _ _ _
      rw [meaning, createFits_iff s refusal, flatten_createPlan, length_createText]
      refine exists_congr fun size => and_congr_right fun given => ?_
      refine ⟨fun whole => whole.2.2, fun room => ⟨?_, rfl, room⟩⟩
      intro call member
      have part : call.length ≤ (createText s).length := by
        rw [← flatten_createPlan]
        exact (List.sublist_flatten_of_mem member).length_le
      have most := (sqliteBlock_eq_some_iff.mp given).2.2
      rw [length_createText] at part
      unfold sqliteMaxAllocationSize at most
      unfold intMax
      omega

/-- Every statement is written whole, its parameters in the order they are bound, exactly
when nothing in the arithmetic around it overflows. -/
theorem statements_whole_iff (s : StoredSchema) :
    (∀ b : Builder s ρ, b.Complete ↔ b.Fits) ∧
      (CreateComplete s.toGeasSchemaDesc ↔ CreateFits s.toGeasSchemaDesc) :=
  ⟨complete_iff, createComplete_iff s.toGeasSchemaDesc⟩

/-- A table of one integer column. -/
def oneColumn : StoredSchema where
  table := ascii "t"
  cols := [⟨ascii "c", GeasTypeTag.int.code⟩]
  ncols := by decide
  keyed := by decide

/-- As many terms as a `uint32_t` counts. -/
def allTerms : Terms oneColumn Unit where
  terms := List.replicate (2 ^ 32 - 1) ⟨oneColumn.pk, .eq, ()⟩
  nterms := by rw [List.length_replicate]; decide

/-- The bound of a page behind `UINT32_MAX` terms is printed as `?0`. -/
theorem full_page_unbound :
    ¬ (Builder.selectPage allTerms oneColumn.pk false ()).Complete := by
  intro complete
  have counted : (List.replicate (2 ^ 32 - 1) _).length < 2 ^ 32 - 1 :=
    ((complete_iff _).mp complete).counted
  rw [List.length_replicate] at counted
  exact absurd counted (Nat.lt_irrefl _)

end Geas.Store
