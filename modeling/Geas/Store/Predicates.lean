import Geas.Lib.Kleene
import Mathlib.Data.List.Basic
import Mathlib.Data.List.Nodup

/-!
# From a store predicate to the text of its condition

A predicate of a store operation is a tree over `&&`, `||`, `!` and the six
comparisons of a column with a value.  The compiler removes the negations, and
then lowers the tree in one of two ways: a tree without `||` as one run of terms,
any other as the groups of its disjunctive normal form, flattened into one array
of terms beside the lengths of the groups.  The runtime spells either as the
condition of a statement, with one numbered placeholder for each term.

The condition is read back here the way SQL reads it, `AND` binding tighter than
`OR`, and valued in Kleene's logic.  How a cell compares with a bound value is
SQLite's own and a parameter throughout; it answers `none` when either side is
NULL.
-/

namespace Geas.Store

open Geas.Lib

/-- The six comparisons. -/
inductive GeasCmp where
  | eq | ne | lt | le | gt | ge
  deriving DecidableEq, Repr

namespace GeasCmp

/-- The operator the runtime spells in a condition. -/
def ops : GeasCmp → String
  | eq => "=" | ne => "<>" | lt => "<" | le => "<=" | gt => ">" | ge => ">="

/-- Whether a comparison holds of two values in the given order. -/
def holds : GeasCmp → Ordering → Bool
  | eq, order => order == .eq
  | ne, order => order != .eq
  | lt, order => order == .lt
  | le, order => order != .gt
  | gt, order => order == .gt
  | ge, order => order != .lt

/-- The truth of a comparison, unknown when a side is NULL. -/
def truth (op : GeasCmp) : Option Ordering → Truth
  | none => .unknown
  | some order => .ofBool (op.holds order)

end GeasCmp

/-- A comparison of a column with the value of a right side. -/
structure Comparison (ρ : Type) where
  op : GeasCmp
  column : String
  right : ρ

/-- A predicate as the checker admits it. -/
inductive Pred (ρ : Type) where
  | compare (comparison : Comparison ρ)
  | and (left right : Pred ρ)
  | or (left right : Pred ρ)
  | not (inner : Pred ρ)

/-- A predicate without negation. -/
inductive Positive (ρ : Type) where
  | compare (comparison : Comparison ρ)
  | and (left right : Positive ρ)
  | or (left right : Positive ρ)

variable {ρ V κ : Type}

/-! ### The compiler's half -/

/-- The comparison that holds exactly when the given one does not. -/
def cgFlipCmp : GeasCmp → GeasCmp
  | .eq => .ne
  | .ne => .eq
  | .lt => .ge
  | .le => .gt
  | .gt => .le
  | .ge => .lt

/-- Remove every negation, carrying a pending one down the tree. -/
def cgPredNorm : Pred ρ → Bool → Positive ρ
  | .not inner, neg => cgPredNorm inner !neg
  | .and left right, neg =>
      if neg then .or (cgPredNorm left neg) (cgPredNorm right neg)
      else .and (cgPredNorm left neg) (cgPredNorm right neg)
  | .or left right, neg =>
      if neg then .and (cgPredNorm left neg) (cgPredNorm right neg)
      else .or (cgPredNorm left neg) (cgPredNorm right neg)
  | .compare comparison, neg =>
      if neg then .compare { comparison with op := cgFlipCmp comparison.op }
      else .compare comparison

/-- The form of a predicate without negation. -/
def cgPredPositive (pred : Pred ρ) : Positive ρ :=
  cgPredNorm pred false

/-- Whether a predicate carries a disjunction. -/
def cgPredHasOr : Positive ρ → Bool
  | .compare _ => false
  | .and left right => cgPredHasOr left || cgPredHasOr right
  | .or _ _ => true

/-- The disjunctive normal form as groups of comparisons: a conjunction joins every
left group with every right one. -/
def cgDnf : Positive ρ → List (List (Comparison ρ))
  | .compare comparison => [[comparison]]
  | .or left right => cgDnf left ++ cgDnf right
  | .and left right =>
      (cgDnf left).flatMap fun leftGroup =>
        (cgDnf right).map fun rightGroup => leftGroup ++ rightGroup

/-- The comparisons of a conjunction, left to right.  No caller passes a disjunction. -/
def cgQueryTerms : Positive ρ → List (Comparison ρ)
  | .compare comparison => [comparison]
  | .and left right => cgQueryTerms left ++ cgQueryTerms right
  | .or _ _ => []

/-- The declaration index of a column.  The loop runs over all fields, so the last
one of the name stands. -/
def colIdx (name : String) : List String → Nat → Option Nat → Option Nat
  | [], _, found => found
  | column :: columns, i, found =>
      colIdx name columns (i + 1) (if column = name then some i else found)

/-- A term as the runtime receives it. -/
structure StoreTerm (V : Type) where
  col : Nat
  cmp : GeasCmp
  value : V

/-- Lower one comparison: its column by index, its right side by value.  The checker
admits no column outside the schema. -/
def cgSelectTerm (columns : List String) (value : ρ → V) (comparison : Comparison ρ) :
    StoreTerm V where
  col := (colIdx comparison.column columns 0 none).getD columns.length
  cmp := comparison.op
  value := value comparison.right

/-- What a lowered predicate hands the runtime: one run of terms, or the terms of
all groups with the length of each group. -/
inductive WhereCall (V : Type) where
  | terms (terms : List (StoreTerm V))
  | groups (terms : List (StoreTerm V)) (groupLens : List Nat)

/-- Flatten the disjunctive normal form, group by group. -/
def cgDnfArrays (columns : List String) (value : ρ → V) (pred : Positive ρ) : WhereCall V :=
  .groups ((cgDnf pred).flatMap fun group => group.map (cgSelectTerm columns value))
    ((cgDnf pred).map List.length)

/-- The lowering of a query, a count or a sum. -/
def lowerPredicate (columns : List String) (value : ρ → V) (pred : Pred ρ) : WhereCall V :=
  let positive := cgPredPositive pred
  if cgPredHasOr positive then cgDnfArrays columns value positive
  else .terms ((cgQueryTerms positive).map (cgSelectTerm columns value))

/-- The lowering of a minimum, a maximum or an average, always by groups. -/
def lowerAggregate (columns : List String) (value : ρ → V) (pred : Pred ρ) : WhereCall V :=
  cgDnfArrays columns value (cgPredPositive pred)

/-! ### The runtime's half -/

/-- A lexical element of a condition. -/
inductive Token where
  | lparen | rparen | and | or
  | compare (column : String) (op : GeasCmp) (placeholder : Nat)
  deriving DecidableEq, Repr

/-- The text of an element, with the blanks the runtime writes. -/
def Token.spell : Token → String
  | lparen => "("
  | rparen => ")"
  | and => " AND "
  | or => " OR "
  | compare column op placeholder => column ++ " " ++ op.ops ++ " ?" ++ toString placeholder

/-- One term of a condition, under the number of its placeholder. -/
def compareAt (columns : List String) (termI : Nat) (term : StoreTerm V) : Token :=
  .compare (columns[term.col]?.getD "") term.cmp (termI + 1)

/-- A run of terms joined by `AND`: `i` counts the terms of the run, `termI` all
terms of the condition. -/
def emitTerms (columns : List String) : Nat → Nat → List (StoreTerm V) → List Token
  | _, _, [] => []
  | i, termI, term :: terms =>
      (if i = 0 then [] else [.and]) ++ compareAt columns termI term ::
        emitTerms columns (i + 1) (termI + 1) terms

/-- The groups of a condition, each in parentheses, joined by `OR`. -/
def storeSqlEmitAnyWhere (columns : List String) :
    Nat → Nat → List Nat → List (StoreTerm V) → List Token
  | _, _, [], _ => []
  | g, termI, len :: lens, terms =>
      (if g = 0 then [] else [.or]) ++ .lparen :: (emitTerms columns 0 termI (terms.take len) ++
        .rparen :: storeSqlEmitAnyWhere columns (g + 1) (termI + len) lens (terms.drop len))

namespace WhereCall

/-- The terms, in the order their values are bound. -/
def flat : WhereCall V → List (StoreTerm V)
  | terms run => run
  | groups run _ => run

/-- The condition the runtime emits. -/
def tokens (columns : List String) : WhereCall V → List Token
  | terms run => emitTerms columns 0 0 run
  | groups run groupLens => storeSqlEmitAnyWhere columns 0 0 groupLens run

/-- The text of the condition. -/
def text (columns : List String) (call : WhereCall V) : String :=
  String.join ((call.tokens columns).map Token.spell)

/-- The values bound, placeholder by placeholder. -/
def params (call : WhereCall V) : List V :=
  call.flat.map StoreTerm.value

end WhereCall

/-! ### Reading a condition back -/

/-- A condition as SQL parses it. -/
inductive SqlExpr where
  | compare (column : String) (op : GeasCmp) (placeholder : Nat)
  | and (left right : SqlExpr)
  | or (left right : SqlExpr)

/-- A parser over the elements of a condition. -/
abbrev SqlParser := List Token → Option (SqlExpr × List Token)

/-- A comparison, or a condition in parentheses. -/
def sqlPrimary (inner : SqlParser) : SqlParser
  | .compare column op placeholder :: rest => some (.compare column op placeholder, rest)
  | .lparen :: rest =>
      match inner rest with
      | some (expr, .rparen :: rest) => some (expr, rest)
      | _ => none
  | _ => none

/-- Further operands behind a separator, joined from the left.  The fuel is the
number of elements that are left. -/
def sqlMore (separator : Token) (join : SqlExpr → SqlExpr → SqlExpr) (operand : SqlParser) :
    Nat → SqlExpr → SqlParser
  | fuel + 1, first, token :: rest =>
      if token = separator then
        match operand rest with
        | some (next, rest) => sqlMore separator join operand fuel (join first next) rest
        | none => none
      else some (first, token :: rest)
  | _, first, rest => some (first, rest)

/-- A chain of operands behind separators. -/
def sqlChain (separator : Token) (join : SqlExpr → SqlExpr → SqlExpr) (operand : SqlParser) :
    SqlParser := fun tokens =>
  match operand tokens with
  | some (first, rest) => sqlMore separator join operand rest.length first rest
  | none => none

/-- A condition: `AND` binds tighter than `OR`.  The fuel bounds the nesting. -/
def sqlExpr : Nat → SqlParser
  | 0 => fun _ => none
  | fuel + 1 => sqlChain .or .or (sqlChain .and .and (sqlPrimary (sqlExpr fuel)))

/-- Parse a whole condition. -/
def parseWhere (tokens : List Token) : Option SqlExpr :=
  match sqlExpr (tokens.length + 1) tokens with
  | some (expr, []) => some expr
  | _ => none

/-- A table with the columns of a schema.  SQLite has no table with two columns of
one name. -/
structure Table where
  columns : List String
  nodup : columns.Nodup

section Valuation

variable (table : Table) (order : κ → V → Option Ordering) (row : Nat → κ)

/-- The truth of a condition on a row: a column is looked up by its name, and a
placeholder reads the value bound to its number, NULL when there is none. -/
def SqlExpr.eval (params : List V) : SqlExpr → Truth
  | compare column op placeholder =>
      op.truth (params[placeholder - 1]?.bind (order (row (table.columns.idxOf column))))
  | and left right => (left.eval params).and (right.eval params)
  | or left right => (left.eval params).or (right.eval params)

/-- Whether a row satisfies a condition with the given values bound. -/
def acceptsRow (tokens : List Token) (params : List V) : Prop :=
  ∃ expr, parseWhere tokens = some expr ∧ expr.eval table order row params = .yes

variable (value : ρ → V)

/-- The truth of a comparison of the source, its right side's value fixed. -/
def Comparison.eval (comparison : Comparison ρ) : Truth :=
  comparison.op.truth (order (row (table.columns.idxOf comparison.column)) (value comparison.right))

/-- The truth of a predicate of the source. -/
def Pred.eval : Pred ρ → Truth
  | compare comparison => comparison.eval table order row value
  | and left right => (left.eval).and right.eval
  | or left right => (left.eval).or right.eval
  | not inner => (inner.eval).not

/-- The truth of a predicate without negation. -/
def Positive.eval : Positive ρ → Truth
  | compare comparison => comparison.eval table order row value
  | and left right => (left.eval).and right.eval
  | or left right => (left.eval).or right.eval

/-- The truth of a lowered term. -/
def StoreTerm.eval (term : StoreTerm V) : Truth :=
  term.cmp.truth (order (row term.col) term.value)

end Valuation

/-- Every comparison names a column of the schema, which is what the checker asks. -/
def Pred.Admitted (columns : List String) : Pred ρ → Prop
  | compare comparison => comparison.column ∈ columns
  | and left right => left.Admitted columns ∧ right.Admitted columns
  | or left right => left.Admitted columns ∧ right.Admitted columns
  | not inner => inner.Admitted columns

@[inherit_doc Pred.Admitted]
def Positive.Admitted (columns : List String) : Positive ρ → Prop
  | compare comparison => comparison.column ∈ columns
  | and left right => left.Admitted columns ∧ right.Admitted columns
  | or left right => left.Admitted columns ∧ right.Admitted columns

/-! ### Negations -/

@[simp] theorem truth_cgFlipCmp (op : GeasCmp) (compared : Option Ordering) :
    (cgFlipCmp op).truth compared = (op.truth compared).not := by
  cases compared with
  | none => rfl
  | some order => cases op <;> cases order <;> rfl

theorem cgPredNorm_admitted {columns : List String} (pred : Pred ρ) (neg : Bool)
    (admitted : pred.Admitted columns) : (cgPredNorm pred neg).Admitted columns := by
  induction pred generalizing neg with
  | compare comparison => cases neg <;> exact admitted
  | and left right ihLeft ihRight =>
      cases neg <;> exact ⟨ihLeft _ admitted.1, ihRight _ admitted.2⟩
  | or left right ihLeft ihRight =>
      cases neg <;> exact ⟨ihLeft _ admitted.1, ihRight _ admitted.2⟩
  | not inner ih => exact ih _ admitted

section Meaning

variable {table : Table} {order : κ → V → Option Ordering} {row : Nat → κ} {value : ρ → V}

/-- Removing the negations keeps the truth, `unknown` included. -/
theorem cgPredNorm_eval (pred : Pred ρ) (neg : Bool) :
    (cgPredNorm pred neg).eval table order row value =
      if neg then (pred.eval table order row value).not else pred.eval table order row value := by
  induction pred generalizing neg with
  | compare comparison =>
      cases neg with
      | false => rfl
      | true => simp [cgPredNorm, Positive.eval, Pred.eval, Comparison.eval]
  | and left right ihLeft ihRight =>
      cases neg with
      | false => simp [cgPredNorm, Positive.eval, Pred.eval, ihLeft, ihRight]
      | true => simp [cgPredNorm, Positive.eval, Pred.eval, ihLeft, ihRight, Truth.not_and]
  | or left right ihLeft ihRight =>
      cases neg with
      | false => simp [cgPredNorm, Positive.eval, Pred.eval, ihLeft, ihRight]
      | true => simp [cgPredNorm, Positive.eval, Pred.eval, ihLeft, ihRight, Truth.not_or]
  | not inner ih =>
      rw [cgPredNorm, ih]
      cases neg <;> simp [Pred.eval]

/-! ### Groups -/

/-- The truth of a group of comparisons. -/
def groupTruth (table : Table) (order : κ → V → Option Ordering) (row : Nat → κ) (value : ρ → V)
    (group : List (Comparison ρ)) : Truth :=
  .all (group.map (Comparison.eval table order row value))

theorem any_joined_groups (left right : List (List (Comparison ρ))) :
    Truth.any ((left.flatMap fun leftGroup => right.map fun rightGroup =>
        leftGroup ++ rightGroup).map (groupTruth table order row value)) =
      (Truth.any (left.map (groupTruth table order row value))).and
        (.any (right.map (groupTruth table order row value))) := by
  induction left with
  | nil => rfl
  | cons group groups ih =>
      have joined : (right.map fun rightGroup => group ++ rightGroup).map
          (groupTruth table order row value) =
        (right.map (groupTruth table order row value)).map
          (groupTruth table order row value group).and := by
        simp [groupTruth, Function.comp_def]
      rw [List.flatMap_cons, List.map_append, Truth.any_append, ih, joined, Truth.any_map_and,
        List.map_cons, Truth.any, Truth.or_and]

/-- The disjunctive normal form keeps the truth of a predicate. -/
theorem cgDnf_eval (pred : Positive ρ) :
    Truth.any ((cgDnf pred).map (groupTruth table order row value)) =
      pred.eval table order row value := by
  induction pred with
  | compare comparison =>
      simp [cgDnf, groupTruth, Truth.any, Truth.all, Positive.eval]
  | and left right ihLeft ihRight =>
      rw [cgDnf, any_joined_groups, ihLeft, ihRight, Positive.eval]
  | or left right ihLeft ihRight =>
      rw [cgDnf, List.map_append, Truth.any_append, ihLeft, ihRight, Positive.eval]

/-- The run of terms of a predicate without disjunction keeps its truth. -/
theorem cgQueryTerms_eval (pred : Positive ρ) (conjunctive : cgPredHasOr pred = false) :
    groupTruth table order row value (cgQueryTerms pred) = pred.eval table order row value := by
  induction pred with
  | compare comparison => simp [cgQueryTerms, groupTruth, Truth.all, Positive.eval]
  | and left right ihLeft ihRight =>
      rw [cgPredHasOr, Bool.or_eq_false_iff] at conjunctive
      have evalLeft := ihLeft conjunctive.1
      have evalRight := ihRight conjunctive.2
      simp only [groupTruth] at evalLeft evalRight ⊢
      rw [cgQueryTerms, List.map_append, Truth.all_append, evalLeft, evalRight, Positive.eval]
  | or left right => cases conjunctive

end Meaning

theorem cgDnf_ne_nil (pred : Positive ρ) : cgDnf pred ≠ [] := by
  induction pred with
  | compare comparison => simp [cgDnf]
  | and left right ihLeft ihRight =>
      obtain ⟨group, groups, shape⟩ := List.exists_cons_of_ne_nil ihLeft
      simp [cgDnf, shape, ihRight]
  | or left right ihLeft => simp [cgDnf, ihLeft]

theorem cgDnf_group_ne_nil (pred : Positive ρ) : ∀ group ∈ cgDnf pred, group ≠ [] := by
  induction pred with
  | compare comparison => simp [cgDnf]
  | and left right ihLeft ihRight =>
      intro group member
      simp only [cgDnf, List.mem_flatMap, List.mem_map] at member
      obtain ⟨leftGroup, inLeft, rightGroup, -, rfl⟩ := member
      simp [ihLeft leftGroup inLeft]
  | or left right ihLeft ihRight =>
      intro group member
      rcases List.mem_append.mp member with inLeft | inRight
      · exact ihLeft group inLeft
      · exact ihRight group inRight

theorem cgQueryTerms_ne_nil (pred : Positive ρ) (conjunctive : cgPredHasOr pred = false) :
    cgQueryTerms pred ≠ [] := by
  induction pred with
  | compare comparison => simp [cgQueryTerms]
  | and left right ihLeft =>
      rw [cgPredHasOr, Bool.or_eq_false_iff] at conjunctive
      simp [cgQueryTerms, ihLeft conjunctive.1]
  | or left right => cases conjunctive

theorem cgDnf_admitted {columns : List String} (pred : Positive ρ)
    (admitted : pred.Admitted columns) :
    ∀ group ∈ cgDnf pred, ∀ comparison ∈ group, comparison.column ∈ columns := by
  induction pred with
  | compare comparison => simpa [cgDnf, Positive.Admitted] using admitted
  | and left right ihLeft ihRight =>
      intro group member comparison inside
      simp only [cgDnf, List.mem_flatMap, List.mem_map] at member
      obtain ⟨leftGroup, inLeft, rightGroup, inRight, rfl⟩ := member
      rcases List.mem_append.mp inside with insideLeft | insideRight
      · exact ihLeft admitted.1 leftGroup inLeft comparison insideLeft
      · exact ihRight admitted.2 rightGroup inRight comparison insideRight
  | or left right ihLeft ihRight =>
      intro group member
      rcases List.mem_append.mp member with inLeft | inRight
      · exact ihLeft admitted.1 group inLeft
      · exact ihRight admitted.2 group inRight

theorem cgQueryTerms_admitted {columns : List String} (pred : Positive ρ)
    (admitted : pred.Admitted columns) :
    ∀ comparison ∈ cgQueryTerms pred, comparison.column ∈ columns := by
  induction pred with
  | compare comparison => simpa [cgQueryTerms, Positive.Admitted] using admitted
  | and left right ihLeft ihRight =>
      intro comparison inside
      rcases List.mem_append.mp inside with insideLeft | insideRight
      · exact ihLeft admitted.1 comparison insideLeft
      · exact ihRight admitted.2 comparison insideRight
  | or left right => simp [cgQueryTerms]

/-! ### Columns -/

theorem colIdx_of_notMem {name : String} {columns : List String} (absent : name ∉ columns)
    (i : Nat) (found : Option Nat) : colIdx name columns i found = found := by
  induction columns generalizing i found with
  | nil => rfl
  | cons column columns ih =>
      rw [List.mem_cons, not_or] at absent
      rw [colIdx, ih absent.2, if_neg (Ne.symm absent.1)]

/-- With distinct columns, the last one of a name is the only one. -/
theorem colIdx_eq_idxOf {name : String} {columns : List String} (nodup : columns.Nodup)
    (present : name ∈ columns) (i : Nat) (found : Option Nat) :
    colIdx name columns i found = some (i + columns.idxOf name) := by
  induction columns generalizing i found with
  | nil => cases present
  | cons column columns ih =>
      rw [List.nodup_cons] at nodup
      rw [colIdx]
      by_cases same : column = name
      · subst same
        rw [colIdx_of_notMem nodup.1]
        simp
      · have later : name ∈ columns := by
          rcases List.mem_cons.mp present with here | later
          · exact absurd here.symm same
          · exact later
        rw [ih nodup.2 later, List.idxOf_cons_ne _ same]
        simp only [Option.some.injEq]
        omega

theorem cgSelectTerm_col {table : Table} {value : ρ → V} {comparison : Comparison ρ}
    (present : comparison.column ∈ table.columns) :
    (cgSelectTerm table.columns value comparison).col =
      table.columns.idxOf comparison.column := by
  simp [cgSelectTerm, colIdx_eq_idxOf table.nodup present]

theorem cgSelectTerm_eval {table : Table} {order : κ → V → Option Ordering} {row : Nat → κ}
    {value : ρ → V} {comparison : Comparison ρ} (present : comparison.column ∈ table.columns) :
    (cgSelectTerm table.columns value comparison).eval order row =
      comparison.eval table order row value := by
  rw [StoreTerm.eval, cgSelectTerm_col present]
  rfl

/-- A term whose column the table has. -/
def StoreTerm.Placed (table : Table) (term : StoreTerm V) : Prop :=
  term.col < table.columns.length

theorem cgSelectTerm_placed {table : Table} {value : ρ → V} {comparison : Comparison ρ}
    (present : comparison.column ∈ table.columns) :
    (cgSelectTerm table.columns value comparison).Placed table := by
  rw [StoreTerm.Placed, cgSelectTerm_col present]
  exact List.idxOf_lt_length_iff.mpr present

/-! ### Parsing what the runtime emits -/

section Parsing

variable {separator : Token} {join : SqlExpr → SqlExpr → SqlExpr} {operand : SqlParser}
  {Ends : List Token → Prop}

/-- An operand is read off its elements whenever what follows may end it. -/
def Reads (operand : SqlParser) (Ends : List Token → Prop) (chunk : List Token × SqlExpr) : Prop :=
  ∀ rest, Ends rest → operand (chunk.1 ++ rest) = some (chunk.2, rest)

theorem sqlMore_reads {chunks : List (List Token × SqlExpr)} {rest : List Token}
    (reads : ∀ chunk ∈ chunks, Reads operand Ends chunk)
    (separates : ∀ rest, Ends (separator :: rest)) (ends : Ends rest)
    (stops : rest.head? ≠ some separator) {fuel : Nat} (enough : chunks.length ≤ fuel)
    (first : SqlExpr) :
    sqlMore separator join operand fuel first
        ((chunks.flatMap fun chunk => separator :: chunk.1) ++ rest) =
      some ((chunks.map Prod.snd).foldl join first, rest) := by
  induction chunks generalizing fuel first with
  | nil =>
      cases fuel with
      | zero => rfl
      | succ fuel =>
          cases rest with
          | nil => rfl
          | cons token rest =>
              have other : token ≠ separator := fun same => stops (by rw [same]; rfl)
              simp [sqlMore, other]
  | cons chunk chunks ih =>
      cases fuel with
      | zero => cases enough
      | succ fuel =>
          have followed : Ends ((chunks.flatMap fun chunk => separator :: chunk.1) ++ rest) := by
            cases chunks with
            | nil => exact ends
            | cons next chunks => exact separates _
          have head := reads chunk (by simp) _ followed
          have tail := ih (fun chunk inside => reads chunk (List.mem_cons_of_mem _ inside))
            (Nat.le_of_succ_le_succ enough) (join first chunk.2)
          rw [List.flatMap_cons, List.cons_append, List.cons_append, List.append_assoc, sqlMore,
            if_pos rfl, head]
          exact tail

/-- A chain is read as its operands, joined from the left. -/
theorem sqlChain_reads {chunk : List Token × SqlExpr} {chunks : List (List Token × SqlExpr)}
    {rest : List Token} (reads : ∀ next ∈ chunk :: chunks, Reads operand Ends next)
    (separates : ∀ rest, Ends (separator :: rest)) (ends : Ends rest)
    (stops : rest.head? ≠ some separator) :
    sqlChain separator join operand
        (chunk.1 ++ (chunks.flatMap fun chunk => separator :: chunk.1) ++ rest) =
      some ((chunks.map Prod.snd).foldl join chunk.2, rest) := by
  have followed : Ends ((chunks.flatMap fun chunk => separator :: chunk.1) ++ rest) := by
    cases chunks with
    | nil => exact ends
    | cons next chunks => exact separates _
  have head := reads chunk (by simp) _ followed
  have enough : chunks.length ≤
      ((chunks.flatMap fun chunk => separator :: chunk.1) ++ rest).length := by
    clear head followed reads
    induction chunks with
    | nil => simp
    | cons next chunks ih =>
        simp only [List.flatMap_cons, List.length_append, List.length_cons] at ih ⊢
        omega
  rw [List.append_assoc, sqlChain, head]
  exact sqlMore_reads (fun next inside => reads next (List.mem_cons_of_mem _ inside)) separates
    ends stops enough chunk.2

/-- A chain of one operand. -/
theorem sqlChain_single {tokens rest : List Token} {expr : SqlExpr}
    (reads : operand tokens = some (expr, rest)) (stops : rest.head? ≠ some separator) :
    sqlChain separator join operand tokens = some (expr, rest) := by
  have none : ∀ chunk ∈ ([] : List (List Token × SqlExpr)), Reads operand (fun _ => True) chunk := by
    simp
  rw [sqlChain, reads]
  exact sqlMore_reads none (fun _ => trivial) trivial stops (Nat.zero_le _) expr

end Parsing

section Emission

variable (columns : List String)

/-- The comparison the condition holds for a term. -/
def compareExpr (termI : Nat) (term : StoreTerm V) : SqlExpr :=
  .compare (columns[term.col]?.getD "") term.cmp (termI + 1)

/-- The elements and the meaning of the terms of a run, each from its own index on. -/
def runChunks (termI : Nat) (terms : List (StoreTerm V)) : List (List Token × SqlExpr) :=
  (terms.zipIdx termI).map fun entry =>
    ([compareAt columns entry.2 entry.1], compareExpr columns entry.2 entry.1)

/-- The meaning of a run: its terms joined by `AND` from the left. -/
def runExpr (termI : Nat) (term : StoreTerm V) (terms : List (StoreTerm V)) : SqlExpr :=
  ((runChunks columns (termI + 1) terms).map Prod.snd).foldl .and (compareExpr columns termI term)

theorem emitTerms_succ (i termI : Nat) (terms : List (StoreTerm V)) :
    emitTerms columns (i + 1) termI terms =
      (runChunks columns termI terms).flatMap fun chunk => .and :: chunk.1 := by
  induction terms generalizing i termI with
  | nil => rfl
  | cons term terms ih =>
      rw [emitTerms, ih]
      simp [runChunks]

theorem emitTerms_zero (termI : Nat) (term : StoreTerm V) (terms : List (StoreTerm V)) :
    emitTerms columns 0 termI (term :: terms) = compareAt columns termI term ::
      (runChunks columns (termI + 1) terms).flatMap fun chunk => .and :: chunk.1 := by
  rw [emitTerms, emitTerms_succ]
  rfl

/-- A run of terms is read as their conjunction, up to an element that is no `AND`. -/
theorem sqlChain_run (inner : SqlParser) (termI : Nat) (term : StoreTerm V)
    (terms : List (StoreTerm V)) {rest : List Token} (stops : rest.head? ≠ some .and) :
    sqlChain .and .and (sqlPrimary inner) (emitTerms columns 0 termI (term :: terms) ++ rest) =
      some (runExpr columns termI term terms, rest) := by
  have reads : ∀ next ∈ ([compareAt columns termI term], compareExpr columns termI term) ::
      runChunks columns (termI + 1) terms, Reads (sqlPrimary inner) (fun _ => True) next := by
    intro next inside rest _
    rcases List.mem_cons.mp inside with rfl | inside
    · rfl
    · obtain ⟨entry, -, rfl⟩ := List.mem_map.mp inside
      rfl
  rw [emitTerms_zero]
  exact sqlChain_reads reads (fun _ => trivial) trivial stops

/-- The elements and the meaning of the groups, each from its own index on. -/
def groupChunks : Nat → List (StoreTerm V × List (StoreTerm V)) → List (List Token × SqlExpr)
  | _, [] => []
  | termI, (term, terms) :: groups =>
      (.lparen :: (emitTerms columns 0 termI (term :: terms) ++ [.rparen]),
        runExpr columns termI term terms) :: groupChunks (termI + (terms.length + 1)) groups

theorem emitAnyWhere_succ (g termI : Nat) (groups : List (StoreTerm V × List (StoreTerm V))) :
    storeSqlEmitAnyWhere columns (g + 1) termI (groups.map fun group => group.2.length + 1)
        (groups.flatMap fun group => group.1 :: group.2) =
      (groupChunks columns termI groups).flatMap fun chunk => .or :: chunk.1 := by
  induction groups generalizing g termI with
  | nil => rfl
  | cons group groups ih =>
      have taken : ((group.1 :: group.2) ++ groups.flatMap fun group => group.1 :: group.2).take
          (group.2.length + 1) = group.1 :: group.2 := by simp
      have dropped : ((group.1 :: group.2) ++ groups.flatMap fun group => group.1 :: group.2).drop
          (group.2.length + 1) = groups.flatMap fun group => group.1 :: group.2 := by simp
      rw [List.map_cons, List.flatMap_cons, storeSqlEmitAnyWhere, taken, dropped, ih]
      simp [groupChunks]

/-- The condition of a nonempty list of groups. -/
theorem emitAnyWhere_zero (group : StoreTerm V × List (StoreTerm V))
    (groups : List (StoreTerm V × List (StoreTerm V))) :
    storeSqlEmitAnyWhere columns 0 0 ((group :: groups).map fun group => group.2.length + 1)
        ((group :: groups).flatMap fun group => group.1 :: group.2) =
      (.lparen :: (emitTerms columns 0 0 (group.1 :: group.2) ++ [.rparen])) ++
        (groupChunks columns (group.2.length + 1) groups).flatMap fun chunk => .or :: chunk.1 := by
  have taken : ((group.1 :: group.2) ++ groups.flatMap fun group => group.1 :: group.2).take
      (group.2.length + 1) = group.1 :: group.2 := by simp
  have dropped : ((group.1 :: group.2) ++ groups.flatMap fun group => group.1 :: group.2).drop
      (group.2.length + 1) = groups.flatMap fun group => group.1 :: group.2 := by simp
  rw [List.map_cons, List.flatMap_cons, storeSqlEmitAnyWhere, taken, dropped, emitAnyWhere_succ]
  simp

/-- A group in parentheses is read as one operand of `OR`. -/
theorem sqlChain_group (fuel termI : Nat) (term : StoreTerm V) (terms : List (StoreTerm V)) :
    Reads (sqlChain .and .and (sqlPrimary (sqlExpr (fuel + 1)))) (·.head? ≠ some .and)
      (.lparen :: (emitTerms columns 0 termI (term :: terms) ++ [.rparen]),
        runExpr columns termI term terms) := by
  intro rest ends
  have run : sqlChain .and .and (sqlPrimary (sqlExpr fuel))
      (emitTerms columns 0 termI (term :: terms) ++ .rparen :: rest) =
        some (runExpr columns termI term terms, .rparen :: rest) :=
    sqlChain_run columns (sqlExpr fuel) termI term terms (by simp)
  have inside : sqlExpr (fuel + 1)
      (emitTerms columns 0 termI (term :: terms) ++ .rparen :: rest) =
        some (runExpr columns termI term terms, .rparen :: rest) :=
    sqlChain_single run (by simp)
  have group : sqlPrimary (sqlExpr (fuel + 1))
      (.lparen :: (emitTerms columns 0 termI (term :: terms) ++ .rparen :: rest)) =
        some (runExpr columns termI term terms, rest) := by
    rw [sqlPrimary, inside]
  have chain : sqlChain .and .and (sqlPrimary (sqlExpr (fuel + 1)))
      (.lparen :: (emitTerms columns 0 termI (term :: terms) ++ .rparen :: rest)) =
        some (runExpr columns termI term terms, rest) :=
    sqlChain_single group ends
  simpa using chain

/-- A run of terms is a whole condition. -/
theorem parseWhere_run (term : StoreTerm V) (terms : List (StoreTerm V)) :
    parseWhere (emitTerms columns 0 0 (term :: terms)) = some (runExpr columns 0 term terms) := by
  have run : ∀ fuel, sqlChain .and .and (sqlPrimary (sqlExpr fuel))
      (emitTerms columns 0 0 (term :: terms)) = some (runExpr columns 0 term terms, []) := by
    intro fuel
    have read := sqlChain_run columns (sqlExpr fuel) 0 term terms
      (show ([] : List Token).head? ≠ some .and by simp)
    rwa [List.append_nil] at read
  have whole : sqlExpr ((emitTerms columns 0 0 (term :: terms)).length + 1)
      (emitTerms columns 0 0 (term :: terms)) = some (runExpr columns 0 term terms, []) :=
    sqlChain_single (run _) (by simp)
  rw [parseWhere, whole]

/-- The meaning of a condition by groups: the groups joined by `OR` from the left. -/
def groupsExpr (group : StoreTerm V × List (StoreTerm V))
    (groups : List (StoreTerm V × List (StoreTerm V))) : SqlExpr :=
  ((groupChunks columns (group.2.length + 1) groups).map Prod.snd).foldl .or
    (runExpr columns 0 group.1 group.2)

theorem groupChunks_reads (fuel termI : Nat) (groups : List (StoreTerm V × List (StoreTerm V))) :
    ∀ chunk ∈ groupChunks columns termI groups,
      Reads (sqlChain .and .and (sqlPrimary (sqlExpr (fuel + 1)))) (·.head? ≠ some .and) chunk := by
  induction groups generalizing termI with
  | nil => simp [groupChunks]
  | cons group groups ih =>
      intro chunk inside
      rcases List.mem_cons.mp inside with rfl | inside
      · exact sqlChain_group columns fuel termI group.1 group.2
      · exact ih _ chunk inside

/-- A nonempty list of groups is a whole condition. -/
theorem parseWhere_groups (group : StoreTerm V × List (StoreTerm V))
    (groups : List (StoreTerm V × List (StoreTerm V))) :
    parseWhere (storeSqlEmitAnyWhere columns 0 0
        ((group :: groups).map fun group => group.2.length + 1)
        ((group :: groups).flatMap fun group => group.1 :: group.2)) =
      some (groupsExpr columns group groups) := by
  rw [emitAnyWhere_zero]
  generalize wholeText : (.lparen :: (emitTerms columns 0 0 (group.1 :: group.2) ++ [.rparen])) ++
    (groupChunks columns (group.2.length + 1) groups).flatMap (fun chunk => .or :: chunk.1) = tokens
  have nonempty : ∃ fuel, tokens.length = fuel + 1 := by
    rw [← wholeText]
    exact ⟨_, rfl⟩
  obtain ⟨fuel, length⟩ := nonempty
  have reads : ∀ next ∈
      ((.lparen :: (emitTerms columns 0 0 (group.1 :: group.2) ++ [.rparen]) : List Token),
        runExpr columns 0 group.1 group.2) :: groupChunks columns (group.2.length + 1) groups,
      Reads (sqlChain .and .and (sqlPrimary (sqlExpr (fuel + 1)))) (·.head? ≠ some .and) next := by
    intro next inside
    rcases List.mem_cons.mp inside with rfl | inside
    · exact sqlChain_group columns fuel 0 group.1 group.2
    · exact groupChunks_reads columns fuel _ groups next inside
  have whole : sqlExpr (fuel + 1 + 1) (tokens ++ []) = some (groupsExpr columns group groups, []) := by
    rw [← wholeText]
    exact sqlChain_reads reads (by simp) (by simp) (by simp)
  rw [List.append_nil] at whole
  rw [parseWhere, length, whole]

end Emission

/-! ### The value of the condition -/

section Value

variable {table : Table} {order : κ → V → Option Ordering} {row : Nat → κ}
  {bound : List (StoreTerm V)}

/-- A placeholder reads the value of the term it stands in. -/
theorem compareExpr_eval {termI : Nat} {term : StoreTerm V} {more : List (StoreTerm V)}
    (here : bound.drop termI = term :: more) (placed : term.Placed table) :
    (compareExpr table.columns termI term).eval table order row (bound.map StoreTerm.value) =
      term.eval order row := by
  have value : bound[termI]? = some term := by
    rw [← List.head?_drop, here]
    rfl
  have name : table.columns.idxOf (table.columns[term.col]?.getD "") = term.col := by
    rw [List.getElem?_eq_getElem placed, Option.getD_some]
    exact table.nodup.idxOf_getElem term.col placed
  simp [compareExpr, SqlExpr.eval, value, name, StoreTerm.eval]

theorem runChunks_eval {termI : Nat} {terms more : List (StoreTerm V)}
    (here : bound.drop termI = terms ++ more) (placed : ∀ term ∈ terms, term.Placed table) :
    ((runChunks table.columns termI terms).map Prod.snd).map
        (SqlExpr.eval table order row (bound.map StoreTerm.value)) =
      terms.map (StoreTerm.eval order row) := by
  induction terms generalizing termI with
  | nil => rfl
  | cons term terms ih =>
      have later : bound.drop (termI + 1) = terms ++ more := by
        rw [← List.drop_drop, here]
        rfl
      have rest := ih later fun term inside => placed term (List.mem_cons_of_mem _ inside)
      have first : (compareExpr table.columns termI term).eval table order row
          (bound.map StoreTerm.value) = term.eval order row :=
        compareExpr_eval here (placed term (by simp))
      rw [List.map_cons, ← rest, ← first]
      rfl

theorem eval_foldl_and (params : List V) (first : SqlExpr) (exprs : List SqlExpr) :
    (exprs.foldl .and first).eval table order row params =
      (first.eval table order row params).and
        (.all (exprs.map (SqlExpr.eval table order row params))) := by
  rw [← Truth.foldl_and]
  induction exprs generalizing first with
  | nil => rfl
  | cons expr exprs ih => simp [ih, SqlExpr.eval]

theorem eval_foldl_or (params : List V) (first : SqlExpr) (exprs : List SqlExpr) :
    (exprs.foldl .or first).eval table order row params =
      (first.eval table order row params).or
        (.any (exprs.map (SqlExpr.eval table order row params))) := by
  rw [← Truth.foldl_or]
  induction exprs generalizing first with
  | nil => rfl
  | cons expr exprs ih => simp [ih, SqlExpr.eval]

/-- The truth of a run of terms. -/
def termsTruth (order : κ → V → Option Ordering) (row : Nat → κ) (terms : List (StoreTerm V)) :
    Truth :=
  .all (terms.map (StoreTerm.eval order row))

theorem runExpr_eval {termI : Nat} {term : StoreTerm V} {terms more : List (StoreTerm V)}
    (here : bound.drop termI = (term :: terms) ++ more)
    (placed : ∀ member ∈ term :: terms, member.Placed table) :
    (runExpr table.columns termI term terms).eval table order row (bound.map StoreTerm.value) =
      termsTruth order row (term :: terms) := by
  have later : bound.drop (termI + 1) = terms ++ more := by
    rw [← List.drop_drop, here]
    rfl
  rw [runExpr, eval_foldl_and, compareExpr_eval here (placed term (by simp)),
    runChunks_eval later fun member inside => placed member (List.mem_cons_of_mem _ inside)]
  rfl

theorem groupChunks_eval {termI : Nat} {groups : List (StoreTerm V × List (StoreTerm V))}
    (here : bound.drop termI = groups.flatMap fun group => group.1 :: group.2)
    (placed : ∀ group ∈ groups, ∀ member ∈ group.1 :: group.2, member.Placed table) :
    ((groupChunks table.columns termI groups).map Prod.snd).map
        (SqlExpr.eval table order row (bound.map StoreTerm.value)) =
      groups.map fun group => termsTruth order row (group.1 :: group.2) := by
  induction groups generalizing termI with
  | nil => rfl
  | cons group groups ih =>
      have later : bound.drop (termI + (group.2.length + 1)) =
          groups.flatMap fun group => group.1 :: group.2 := by
        rw [← List.drop_drop, here]
        simp
      have rest := ih later fun group inside => placed group (List.mem_cons_of_mem _ inside)
      have first : (runExpr table.columns termI group.1 group.2).eval table order row
          (bound.map StoreTerm.value) = termsTruth order row (group.1 :: group.2) :=
        runExpr_eval here (placed group (by simp))
      rw [List.map_cons, ← rest, ← first]
      rfl

/-- The condition of a run of terms accepts the rows its terms accept. -/
theorem acceptsRow_run {terms : List (StoreTerm V)} (nonempty : terms ≠ [])
    (placed : ∀ term ∈ terms, term.Placed table) :
    acceptsRow table order row ((WhereCall.terms terms).tokens table.columns)
        (WhereCall.terms terms).params ↔ termsTruth order row terms = .yes := by
  obtain ⟨term, terms, rfl⟩ := List.exists_cons_of_ne_nil nonempty
  have here : (term :: terms).drop 0 = (term :: terms) ++ [] := by simp
  have value : (runExpr table.columns 0 term terms).eval table order row
      ((term :: terms).map StoreTerm.value) = termsTruth order row (term :: terms) :=
    runExpr_eval here placed
  simp only [acceptsRow, WhereCall.tokens, parseWhere_run, Option.some.injEq, exists_eq_left']
  rw [← value]
  rfl

/-- Nonempty groups as a first term and the others. -/
theorem exists_groups {groups : List (List (StoreTerm V))}
    (inhabited : ∀ group ∈ groups, group ≠ []) :
    ∃ pairs : List (StoreTerm V × List (StoreTerm V)),
      groups = pairs.map fun group => group.1 :: group.2 := by
  induction groups with
  | nil => exact ⟨[], rfl⟩
  | cons group groups ih =>
      obtain ⟨pairs, rfl⟩ := ih fun group inside => inhabited group (List.mem_cons_of_mem _ inside)
      obtain ⟨term, terms, rfl⟩ := List.exists_cons_of_ne_nil (inhabited group (by simp))
      exact ⟨(term, terms) :: pairs, rfl⟩

/-- The arrays of a list of groups. -/
def WhereCall.ofGroups (groups : List (List (StoreTerm V))) : WhereCall V :=
  .groups groups.flatten (groups.map List.length)

theorem tokens_ofGroups (columns : List String)
    (pairs : List (StoreTerm V × List (StoreTerm V))) :
    (WhereCall.ofGroups (pairs.map fun group => group.1 :: group.2)).tokens columns =
      storeSqlEmitAnyWhere columns 0 0 (pairs.map fun group => group.2.length + 1)
        (pairs.flatMap fun group => group.1 :: group.2) := by
  simp [WhereCall.ofGroups, WhereCall.tokens, Function.comp_def, List.flatMap_def]

/-- The condition of a list of groups accepts the rows one of its groups accepts. -/
theorem acceptsRow_groups {groups : List (List (StoreTerm V))} (nonempty : groups ≠ [])
    (inhabited : ∀ group ∈ groups, group ≠ [])
    (placed : ∀ group ∈ groups, ∀ term ∈ group, term.Placed table) :
    acceptsRow table order row ((WhereCall.ofGroups groups).tokens table.columns)
        (WhereCall.ofGroups groups).params ↔
      Truth.any (groups.map (termsTruth order row)) = .yes := by
  obtain ⟨pairs, rfl⟩ := exists_groups inhabited
  cases pairs with
  | nil => exact absurd rfl nonempty
  | cons group pairs =>
      have placedPairs : ∀ pair ∈ group :: pairs, ∀ member ∈ pair.1 :: pair.2,
          member.Placed table :=
        fun pair inside => placed _ (List.mem_map_of_mem inside)
      have params : (WhereCall.ofGroups ((group :: pairs).map fun group => group.1 :: group.2)).params
          = ((group :: pairs).flatMap fun group => group.1 :: group.2).map StoreTerm.value := by
        rw [WhereCall.params, WhereCall.ofGroups, WhereCall.flat, List.flatMap_def]
      have first : (runExpr table.columns 0 group.1 group.2).eval table order row
          (((group :: pairs).flatMap fun group => group.1 :: group.2).map StoreTerm.value) =
            termsTruth order row (group.1 :: group.2) :=
        runExpr_eval rfl (placedPairs group (by simp))
      have later : ((group :: pairs).flatMap fun group => group.1 :: group.2).drop
          (group.2.length + 1) = pairs.flatMap fun group => group.1 :: group.2 := by simp
      have rest : ((groupChunks table.columns (group.2.length + 1) pairs).map Prod.snd).map
          (SqlExpr.eval table order row
            (((group :: pairs).flatMap fun group => group.1 :: group.2).map StoreTerm.value)) =
            pairs.map fun group => termsTruth order row (group.1 :: group.2) :=
        groupChunks_eval later fun pair inside => placedPairs pair (List.mem_cons_of_mem _ inside)
      rw [tokens_ofGroups, acceptsRow, parseWhere_groups, params]
      simp only [Option.some.injEq, exists_eq_left', groupsExpr, eval_foldl_or, first, rest]
      simp [Truth.any, Function.comp_def]

end Value

/-- The comparison an element of a condition makes. -/
def Token.comparison? : Token → Option (String × GeasCmp × Nat)
  | compare column op placeholder => some (column, op, placeholder)
  | _ => none

/-- The comparisons of a condition, when its terms stand in the given order. -/
def comparisonsOf (columns : List String) (termI : Nat) (terms : List (StoreTerm V)) :
    List (String × GeasCmp × Nat) :=
  (terms.zipIdx termI).map fun entry => (columns[entry.1.col]?.getD "", entry.1.cmp, entry.2 + 1)

theorem emitTerms_comparisons (columns : List String) (i termI : Nat)
    (terms : List (StoreTerm V)) :
    (emitTerms columns i termI terms).filterMap Token.comparison? =
      comparisonsOf columns termI terms := by
  induction terms generalizing i termI with
  | nil => rfl
  | cons term terms ih =>
      cases i <;>
        simp [emitTerms, compareAt, Token.comparison?, List.filterMap_cons, ih, comparisonsOf]

theorem emitAnyWhere_comparisons (columns : List String) (g termI : Nat)
    (groups : List (List (StoreTerm V))) :
    (storeSqlEmitAnyWhere columns g termI (groups.map List.length) groups.flatten).filterMap
        Token.comparison? = comparisonsOf columns termI groups.flatten := by
  induction groups generalizing g termI with
  | nil => rfl
  | cons group groups ih =>
      have taken : (group ++ groups.flatten).take group.length = group := by simp
      have dropped : (group ++ groups.flatten).drop group.length = groups.flatten := by simp
      have joined : comparisonsOf columns termI (group ++ groups.flatten) =
          comparisonsOf columns termI group ++
            comparisonsOf columns (termI + group.length) groups.flatten := by
        simp [comparisonsOf, List.zipIdx_append]
      rw [List.map_cons, List.flatten_cons, storeSqlEmitAnyWhere, taken, dropped, joined, ← ih (g + 1),
        ← emitTerms_comparisons columns 0 termI group]
      cases g <;> simp [Token.comparison?, List.filterMap_cons]

/-- A condition keeps its predicate: it accepts the rows the predicate is true of,
and its comparisons are its terms in order, each under the number its value is
bound to. -/
structure Preserves (table : Table) (value : ρ → V) (pred : Pred ρ) (call : WhereCall V) : Prop where
  accepts : ∀ (κ : Type) (order : κ → V → Option Ordering) (row : Nat → κ),
    acceptsRow table order row (call.tokens table.columns) call.params ↔
      pred.eval table order row value = .yes
  comparisons : (call.tokens table.columns).filterMap Token.comparison? =
    comparisonsOf table.columns 0 call.flat
  bound : ∀ (k : Nat) (term : StoreTerm V),
    call.flat[k]? = some term → call.params[k]? = some term.value

theorem cgDnfArrays_preserves {table : Table} {pred : Pred ρ}
    (admitted : pred.Admitted table.columns) (value : ρ → V) :
    Preserves table value pred (cgDnfArrays table.columns value (cgPredPositive pred)) := by
  have positive := cgPredNorm_admitted pred false admitted
  have present := cgDnf_admitted _ positive
  have arrays : cgDnfArrays table.columns value (cgPredPositive pred) = WhereCall.ofGroups
      ((cgDnf (cgPredPositive pred)).map (List.map (cgSelectTerm table.columns value))) := by
    simp [cgDnfArrays, WhereCall.ofGroups, List.flatMap_def, Function.comp_def]
  rw [arrays]
  constructor
  · intro κ order row
    have truths : ((cgDnf (cgPredPositive pred)).map
        (List.map (cgSelectTerm table.columns value))).map (termsTruth order row) =
          (cgDnf (cgPredPositive pred)).map (groupTruth table order row value) := by
      rw [List.map_map]
      apply List.map_congr_left
      intro group member
      rw [Function.comp_apply, termsTruth, groupTruth, List.map_map]
      congr 1
      apply List.map_congr_left
      intro comparison inside
      exact cgSelectTerm_eval (present group member comparison inside)
    rw [acceptsRow_groups, truths, cgDnf_eval, cgPredPositive, cgPredNorm_eval]
    · rfl
    · simpa using cgDnf_ne_nil (cgPredPositive pred)
    · intro group member
      obtain ⟨source, inside, rfl⟩ := List.mem_map.mp member
      simpa using cgDnf_group_ne_nil _ source inside
    · intro group member term inside
      obtain ⟨source, sourceInside, rfl⟩ := List.mem_map.mp member
      obtain ⟨comparison, comparisonInside, rfl⟩ := List.mem_map.mp inside
      exact cgSelectTerm_placed (present source sourceInside comparison comparisonInside)
  · exact emitAnyWhere_comparisons table.columns 0 0 _
  · intro k term here
    simp [WhereCall.params, here]

theorem cgQueryTerms_preserves {table : Table} {pred : Pred ρ}
    (admitted : pred.Admitted table.columns) (value : ρ → V)
    (conjunctive : cgPredHasOr (cgPredPositive pred) = false) :
    Preserves table value pred
      (.terms ((cgQueryTerms (cgPredPositive pred)).map (cgSelectTerm table.columns value))) := by
  have present := cgQueryTerms_admitted _ (cgPredNorm_admitted pred false admitted)
  constructor
  · intro κ order row
    have truths : termsTruth order row ((cgQueryTerms (cgPredPositive pred)).map
        (cgSelectTerm table.columns value)) =
          groupTruth table order row value (cgQueryTerms (cgPredPositive pred)) := by
      rw [termsTruth, groupTruth, List.map_map]
      congr 1
      apply List.map_congr_left
      intro comparison inside
      exact cgSelectTerm_eval (present comparison inside)
    rw [acceptsRow_run, truths, cgQueryTerms_eval _ conjunctive, cgPredPositive, cgPredNorm_eval]
    · rfl
    · simpa using cgQueryTerms_ne_nil _ conjunctive
    · intro term inside
      obtain ⟨comparison, comparisonInside, rfl⟩ := List.mem_map.mp inside
      exact cgSelectTerm_placed (present comparison comparisonInside)
  · exact emitTerms_comparisons table.columns 0 0 _
  · intro k term here
    simp [WhereCall.params, here]

/-- A negated conjunction over two columns: `!(a < 1 && b == 2)`. -/
def negatedPair : Pred Nat :=
  .not (.and (.compare ⟨.lt, "a", 1⟩) (.compare ⟨.eq, "b", 2⟩))

example : (lowerPredicate ["a", "b"] id negatedPair).text ["a", "b"] = "(a >= ?1) OR (b <> ?2)" := by
  decide +kernel

end Geas.Store
