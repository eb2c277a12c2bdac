import Geas.Store.Cells
import Geas.Store.Predicates
import Mathlib.Data.List.Pairwise
import Mathlib.Algebra.Group.Nat.Defs

/-!
# The order of a `UInt` column

The language compares two `UInt` values unsigned.  A store compares the cells they are
bound as, and SQLite compares two integer cells signed.  The two orders agree on values
of one half of the range and are each other's reverse across the halves, for the
comparisons of a predicate as for `ORDER BY` and the two extremes.
-/

namespace Geas.Store

open Geas.Abi

/-- How two integer cells compare.  Cells of other kinds are no part of a `UInt`
column. -/
def SqlCell.order : SqlCell → SqlCell → Option Ordering
  | .integer left, .integer right => some (compare left.toInt right.toInt)
  | _, _ => none

/-- The cell of a `UInt` and its comparison with another. -/
def uintOrder (u v : UInt64) : Option Ordering :=
  match bindCell (.uint 0 u), bindCell (.uint 0 v) with
  | .ok left, .ok right => left.order right
  | _, _ => none

/-- The order of `.as.u` against `.as.u`. -/
def langOrder (u v : UInt64) : Ordering := compare u.toNat v.toNat

/-- The comparison `column op ?` on a row that holds `u`, with `v` bound. -/
def storeHolds (op : GeasCmp) (u v : UInt64) : Option Bool := (uintOrder u v).map op.holds

/-- The comparison `u op v` in a body. -/
def langHolds (op : GeasCmp) (u v : UInt64) : Bool := op.holds (langOrder u v)

/-- The comparisons that depend on the order. -/
def GeasCmp.isOrder : GeasCmp → Bool
  | .lt | .le | .gt | .ge => true
  | .eq | .ne => false

/-- What comes first in the given direction, ties either way. -/
def precedes (desc : Bool) (order : Ordering) : Prop :=
  order ≠ if desc then .lt else .gt

instance (desc : Bool) (order : Ordering) : Decidable (precedes desc order) :=
  inferInstanceAs (Decidable (_ ≠ _))

section Rows

variable {ρ : Type} (column : ρ → UInt64)

/-- What `ORDER BY` on the column may answer: all of the rows, in the order of their
cells. -/
structure Ordered (desc : Bool) (rows answer : List ρ) : Prop where
  perm : answer.Perm rows
  sorted : answer.Pairwise fun first second =>
    ∃ order, uintOrder (column first) (column second) = some order ∧ precedes desc order

/-- What `ORDER BY` with `LIMIT 1` may answer, the row of `Store.min` or `Store.max`. -/
def Extreme (desc : Bool) (rows : List ρ) (found : ρ) : Prop :=
  ∃ answer, Ordered column desc rows answer ∧ answer.head? = some found

end Rows

/-! ## The two halves -/

/-- Both values are below `2 ^ 63`, or neither is. -/
def SameHalf (u v : UInt64) : Prop := u.toNat < 2 ^ 63 ↔ v.toNat < 2 ^ 63

theorem toInt_toInt64 (u : UInt64) :
    u.toInt64.toInt = if u.toNat < 2 ^ 63 then (u.toNat : Int) else u.toNat - 2 ^ 64 := by
  have cond := BitVec.toInt_eq_toNat_cond u.toBitVec
  have same : u.toInt64.toInt = u.toBitVec.toInt := rfl
  rw [same, cond, UInt64.toNat_toBitVec]
  split <;> split <;> omega

theorem uintOrder_eq (u v : UInt64) :
    uintOrder u v = some (compare u.toInt64.toInt v.toInt64.toInt) :=
  rfl

theorem uintOrder_of_sameHalf {u v : UInt64} (same : SameHalf u v) :
    uintOrder u v = some (langOrder u v) := by
  rw [uintOrder_eq, langOrder, toInt_toInt64, toInt_toInt64]
  congr 1
  unfold SameHalf at same
  rcases Nat.lt_trichotomy u.toNat v.toNat with less | equal | greater
  · rw [Nat.compare_eq_lt.mpr less, Int.compare_eq_lt]
    split <;> split <;> omega
  · rw [Nat.compare_eq_eq.mpr equal, Int.compare_eq_eq]
    split <;> split <;> omega
  · rw [Nat.compare_eq_gt.mpr greater, Int.compare_eq_gt]
    split <;> split <;> omega

theorem uintOrder_of_not_sameHalf {u v : UInt64} (across : ¬ SameHalf u v) :
    uintOrder u v = some (langOrder u v).swap := by
  rw [uintOrder_eq, langOrder, toInt_toInt64, toInt_toInt64]
  congr 1
  unfold SameHalf at across
  have bound := u.toNat_lt
  have bound' := v.toNat_lt
  rcases Nat.lt_trichotomy u.toNat v.toNat with less | equal | greater
  · rw [Nat.compare_eq_lt.mpr less, Ordering.swap, Int.compare_eq_gt]
    split <;> split <;> omega
  · omega
  · rw [Nat.compare_eq_gt.mpr greater, Ordering.swap, Int.compare_eq_lt]
    split <;> split <;> omega

theorem langOrder_ne_eq_of_not_sameHalf {u v : UInt64} (across : ¬ SameHalf u v) :
    langOrder u v ≠ .eq := by
  intro equal
  rw [langOrder, Nat.compare_eq_eq] at equal
  exact across (by rw [SameHalf, equal])

/-! ## Comparisons -/

theorem storeHolds_of_sameHalf {u v : UInt64} (same : SameHalf u v) (op : GeasCmp) :
    storeHolds op u v = some (langHolds op u v) := by
  rw [storeHolds, uintOrder_of_sameHalf same]
  rfl

/-- Across the halves every comparison that depends on the order is answered wrongly. -/
theorem storeHolds_of_not_sameHalf {u v : UInt64} (across : ¬ SameHalf u v) {op : GeasCmp}
    (isOrder : op.isOrder = true) : storeHolds op u v = some (!langHolds op u v) := by
  have notEqual := langOrder_ne_eq_of_not_sameHalf across
  rw [storeHolds, uintOrder_of_not_sameHalf across, Option.map_some, langHolds]
  congr 1
  revert isOrder notEqual
  generalize langOrder u v = order
  cases op <;> cases order <;> decide

theorem storeHolds_agrees_iff (u v : UInt64) :
    (∀ op : GeasCmp, op.isOrder = true → storeHolds op u v = some (langHolds op u v)) ↔
      SameHalf u v := by
  constructor
  · intro agrees
    by_contra across
    have wrong := storeHolds_of_not_sameHalf across (show GeasCmp.lt.isOrder = true from rfl)
    rw [agrees .lt rfl] at wrong
    simp at wrong
  · exact fun same op _ => storeHolds_of_sameHalf same op

/-! ## Ordered rows -/

section Rows

variable {ρ : Type} {column : ρ → UInt64} {desc : Bool} {rows answer : List ρ}

/-- The integer a row is ordered by, upwards. -/
def sortKey (desc : Bool) (u : UInt64) : Int := if desc then -u.toInt64.toInt else u.toInt64.toInt

theorem precedes_uintOrder (desc : Bool) (u v : UInt64) :
    (∃ order, uintOrder u v = some order ∧ precedes desc order) ↔
      sortKey desc u ≤ sortKey desc v := by
  rw [uintOrder_eq]
  simp only [Option.some.injEq, exists_eq_left', precedes, sortKey]
  cases desc with
  | false =>
      simp only [Bool.false_eq_true, if_false, ne_eq, Int.compare_eq_gt]
      omega
  | true =>
      simp only [if_true, ne_eq, Int.compare_eq_lt]
      omega

theorem exists_ordered (column : ρ → UInt64) (desc : Bool) (rows : List ρ) :
    ∃ answer, Ordered column desc rows answer := by
  let le (first second : ρ) : Bool :=
    decide (sortKey desc (column first) ≤ sortKey desc (column second))
  have sorted := @List.pairwise_mergeSort _ le
    (fun a b c => by simpa [le] using Int.le_trans)
    (fun a b => by simpa [le] using Int.le_total _ _) rows
  refine ⟨rows.mergeSort le, List.mergeSort_perm rows le, sorted.imp fun {first second} before => ?_⟩
  rw [precedes_uintOrder]
  exact of_decide_eq_true before

/-- The answer follows the order of the language. -/
def FollowsLang (column : ρ → UInt64) (desc : Bool) (answer : List ρ) : Prop :=
  answer.Pairwise fun first second => precedes desc (langOrder (column first) (column second))

theorem Ordered.followsLang (ordered : Ordered column desc rows answer)
    (same : ∀ first ∈ rows, ∀ second ∈ rows, SameHalf (column first) (column second)) :
    FollowsLang column desc answer := by
  refine List.Pairwise.imp_of_mem ?_ ordered.sorted
  intro first second mem mem' before
  have half := same first (ordered.perm.subset mem) second (ordered.perm.subset mem')
  rw [uintOrder_of_sameHalf half] at before
  obtain ⟨order, here, before⟩ := before
  cases here
  exact before

/-- Rows of both halves come out in the wrong order. -/
theorem Ordered.not_followsLang (ordered : Ordered column desc rows answer) {first second : ρ}
    (mem : first ∈ rows) (mem' : second ∈ rows)
    (across : ¬ SameHalf (column first) (column second)) :
    ¬ FollowsLang column desc answer := by
  intro follows
  have both := ordered.sorted.and follows
  have distinct : first ≠ second := by
    rintro rfl
    exact across Iff.rfl
  have wrong : ∀ {one other : ρ}, ¬ SameHalf (column one) (column other) →
      ¬ ((∃ order, uintOrder (column one) (column other) = some order ∧ precedes desc order) ∧
        precedes desc (langOrder (column one) (column other))) := by
    rintro one other across ⟨⟨order, here, before⟩, beforeLang⟩
    rw [uintOrder_of_not_sameHalf across] at here
    cases here
    have notEqual := langOrder_ne_eq_of_not_sameHalf across
    revert before beforeLang notEqual
    generalize langOrder (column one) (column other) = order
    cases desc <;> cases order <;> simp [precedes, Ordering.swap]
  have found : ∃ i j, ∃ (hi : i < answer.length) (hj : j < answer.length), i < j ∧
      ¬ SameHalf (column answer[i]) (column answer[j]) := by
    obtain ⟨i, hi, rfl⟩ := List.mem_iff_getElem.mp (ordered.perm.symm.subset mem)
    obtain ⟨j, hj, rfl⟩ := List.mem_iff_getElem.mp (ordered.perm.symm.subset mem')
    rcases Nat.lt_trichotomy i j with less | equal | greater
    · exact ⟨i, j, hi, hj, less, across⟩
    · subst equal
      exact absurd rfl distinct
    · exact ⟨j, i, hj, hi, greater, fun same => across (Iff.symm same)⟩
  obtain ⟨i, j, hi, hj, less, across⟩ := found
  exact wrong across (List.pairwise_iff_getElem.mp both i j hi hj less)

theorem followsLang_iff (column : ρ → UInt64) (rows : List ρ) :
    (∀ desc answer, Ordered column desc rows answer → FollowsLang column desc answer) ↔
      ∀ first ∈ rows, ∀ second ∈ rows, SameHalf (column first) (column second) := by
  constructor
  · intro follows first mem second mem'
    by_contra across
    obtain ⟨answer, ordered⟩ := exists_ordered column false rows
    exact ordered.not_followsLang mem mem' across (follows false answer ordered)
  · exact fun same desc answer ordered => ordered.followsLang same

/-! ## Extremes -/

/-- Nothing precedes the row in the order of the language. -/
def LangExtreme (column : ρ → UInt64) (desc : Bool) (rows : List ρ) (found : ρ) : Prop :=
  ∀ row ∈ rows, precedes desc (langOrder (column found) (column row))

/-- The first row of an ordered answer comes before every row. -/
theorem Extreme.least {found : ρ} (extreme : Extreme column desc rows found) :
    found ∈ rows ∧ ∀ row ∈ rows, sortKey desc (column found) ≤ sortKey desc (column row) := by
  obtain ⟨answer, ordered, head⟩ := extreme
  obtain ⟨rest, rfl⟩ : ∃ rest, answer = found :: rest := by
    cases answer with
    | nil => simp at head
    | cons first rest =>
        simp only [List.head?_cons, Option.some.injEq] at head
        exact ⟨rest, by rw [head]⟩
  refine ⟨ordered.perm.subset (List.mem_cons_self), fun row mem => ?_⟩
  rcases List.mem_cons.mp (ordered.perm.symm.subset mem) with rfl | later
  · exact Int.le_refl _
  · have before := (List.pairwise_cons.mp ordered.sorted).1 row later
    rwa [precedes_uintOrder] at before

theorem exists_extreme (column : ρ → UInt64) (desc : Bool) {row : ρ} (mem : row ∈ rows) :
    ∃ found, Extreme column desc rows found := by
  obtain ⟨answer, ordered⟩ := exists_ordered column desc rows
  cases answer with
  | nil => exact absurd (ordered.perm.symm.subset mem) List.not_mem_nil
  | cons found rest => exact ⟨found, found :: rest, ordered, rfl⟩

/-- Over rows of both halves the least cell is the cell of a value of the upper half. -/
theorem Extreme.not_langExtreme {found low high : ρ}
    (extreme : Extreme column false rows found) (mem : low ∈ rows) (mem' : high ∈ rows)
    (below : (column low).toNat < 2 ^ 63) (above : ¬ (column high).toNat < 2 ^ 63) :
    ¬ LangExtreme column false rows found := by
  intro least
  have first := extreme.least.2 high mem'
  have firstLang := least low mem
  simp only [sortKey, Bool.false_eq_true, if_false, toInt_toInt64, above] at first
  simp only [precedes, Bool.false_eq_true, if_false, langOrder, ne_eq, Nat.compare_eq_gt]
    at firstLang
  have bound := (column high).toNat_lt
  split at first
  · omega
  · omega

theorem langExtreme_iff (column : ρ → UInt64) (rows : List ρ) :
    (∀ desc found, Extreme column desc rows found → LangExtreme column desc rows found) ↔
      ∀ first ∈ rows, ∀ second ∈ rows, SameHalf (column first) (column second) := by
  constructor
  · intro least first mem second mem'
    by_contra across
    obtain ⟨found, extreme⟩ := exists_extreme column false mem
    have leastLang := least false found extreme
    unfold SameHalf at across
    by_cases below : (column first).toNat < 2 ^ 63
    · exact extreme.not_langExtreme mem mem' below (fun high => across ⟨fun _ => high, fun _ => below⟩)
        leastLang
    · have other : (column second).toNat < 2 ^ 63 := by
        by_contra above
        exact across ⟨fun h => absurd h below, fun h => absurd h above⟩
      exact extreme.not_langExtreme mem' mem other below leastLang
  · intro same desc found extreme row mem
    have half := same found extreme.least.1 row mem
    have before := (precedes_uintOrder desc _ _).mpr (extreme.least.2 row mem)
    rw [uintOrder_of_sameHalf half] at before
    obtain ⟨order, here, before⟩ := before
    cases here
    exact before

end Rows

/-- A store compares two `UInt` values as the language does exactly when they lie in one
half of the range, and `ORDER BY` and the extremes follow the language's order exactly
when all the values of the column do. -/
theorem uint_order_iff {ρ : Type} (u v : UInt64) (column : ρ → UInt64) (rows : List ρ) :
    ((∀ op : GeasCmp, op.isOrder = true → storeHolds op u v = some (langHolds op u v)) ↔
      SameHalf u v) ∧
    (((∀ desc answer, Ordered column desc rows answer → FollowsLang column desc answer) ∧
        ∀ desc found, Extreme column desc rows found → LangExtreme column desc rows found) ↔
      ∀ first ∈ rows, ∀ second ∈ rows, SameHalf (column first) (column second)) := by
  refine ⟨storeHolds_agrees_iff u v, ?_⟩
  rw [followsLang_iff, langExtreme_iff, and_self_iff]

/-- One and `2 ^ 63`. -/
def acrossHalves : List UInt64 := [1, 9223372036854775808]

/-- The store finds the second the smaller one, in a comparison, in the order of a select
and as the minimum. -/
theorem uint_order_reversed :
    langHolds .lt 1 9223372036854775808 = true ∧
      storeHolds .lt 1 9223372036854775808 = some false ∧
      (∃ answer, Ordered id false acrossHalves answer ∧ ¬ FollowsLang id false answer) ∧
      ∃ found, Extreme id false acrossHalves found ∧ ¬ LangExtreme id false acrossHalves found := by
  have ordered : Ordered id false acrossHalves [9223372036854775808, 1] := by
    refine ⟨List.Perm.swap _ _ _, ?_⟩
    rw [List.pairwise_pair]
    exact ⟨.lt, by decide, by decide⟩
  refine ⟨by decide, by decide, ⟨_, ordered, ?_⟩, 9223372036854775808, ⟨_, ordered, rfl⟩, ?_⟩
  · intro follows
    rw [FollowsLang, List.pairwise_pair] at follows
    exact follows (by decide)
  · exact fun least => least 1 (by simp [acrossHalves]) (by decide)

end Geas.Store
