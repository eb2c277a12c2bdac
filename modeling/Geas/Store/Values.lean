import Geas.Store.Predicates
import Mathlib.Data.List.Sort
import Mathlib.Data.List.Count
import Mathlib.Data.List.Perm.Basic

/-!
# When the values of a predicate are computed

The right side of a comparison is any expression, effects included.  Its statements stand
where its term is lowered, before the call, and its value lands in a temporary the term
points to.  Terms are lowered as they come out of the normal form, so a comparison that
the normal form repeats is computed once for each group it is in.
-/

namespace Geas.Store

variable {ρ V : Type}

/-! ### The emitted statements -/

/-- The terms of some comparisons, each with the number of its temporary. -/
def cgSelectTerms (columns : List String) (comparisons : List (Comparison ρ)) :
    List (StoreTerm Nat) :=
  comparisons.mapIdx fun i comparison => cgSelectTerm columns (fun _ => i) comparison

/-- What stands before a statement and what it is called with: the right sides in the
order they are computed, the `i`-th into the temporary `i`, and terms that point to
temporaries. -/
structure Emission (ρ : Type) where
  values : List ρ
  call : WhereCall Nat

/-- The lowering of a predicate with the statements of its values.  An aggregate goes by
groups whether there is a disjunction or not. -/
def emitPredicate (columns : List String) (aggregate : Bool) (pred : Pred ρ) : Emission ρ :=
  let positive := cgPredPositive pred
  if aggregate || cgPredHasOr positive then
    let groups := cgDnf positive
    ⟨groups.flatten.map Comparison.right,
      .groups (cgSelectTerms columns groups.flatten) (groups.map List.length)⟩
  else
    let run := cgQueryTerms positive
    ⟨run.map Comparison.right, .terms (cgSelectTerms columns run)⟩

/-- A call with other values. -/
def WhereCall.map {V' : Type} (f : V → V') : WhereCall V → WhereCall V'
  | terms run => terms (run.map fun term => ⟨term.col, term.cmp, f term.value⟩)
  | groups run lens => groups (run.map fun term => ⟨term.col, term.cmp, f term.value⟩) lens

/-- Each term gets the value of its own right side. -/
theorem cgSelectTerms_value (columns : List String) (value : ρ → V) (default : V)
    (comparisons : List (Comparison ρ)) :
    ((cgSelectTerms columns comparisons).map fun term => (⟨term.col, term.cmp,
        ((comparisons.map Comparison.right)[term.value]?.map value).getD default⟩ : StoreTerm V)) =
      comparisons.map (cgSelectTerm columns value) := by
  apply List.ext_getElem?
  intro i
  simp only [cgSelectTerms, List.getElem?_map, List.getElem?_mapIdx, Option.map_map]
  cases here : comparisons[i]? with
  | none => rfl
  | some comparison => simp [cgSelectTerm, here]

/-- Where a right side has the same value each time it is computed, the call is the one
`lowerPredicate` and `lowerAggregate` give. -/
theorem emitPredicate_call (columns : List String) (value : ρ → V) (default : V)
    (aggregate : Bool) (pred : Pred ρ) :
    (emitPredicate columns aggregate pred).call.map (fun i =>
        ((emitPredicate columns aggregate pred).values[i]?.map value).getD default) =
      if aggregate then lowerAggregate columns value pred
      else lowerPredicate columns value pred := by
  have flat : ∀ groups : List (List (Comparison ρ)),
      groups.flatten.map (cgSelectTerm columns value) =
        groups.flatMap fun group => group.map (cgSelectTerm columns value) := by
    intro groups
    rw [List.map_flatten, List.flatMap_def]
  cases aggregate with
  | true =>
      simp only [emitPredicate, Bool.true_or, if_true, WhereCall.map, cgSelectTerms_value, flat]
      rfl
  | false =>
      simp only [emitPredicate, Bool.false_or, lowerPredicate]
      split
      · simp only [WhereCall.map, cgSelectTerms_value, flat]
        rfl
      · simp only [WhereCall.map, cgSelectTerms_value]
        rfl

/-! ### Comparisons of the source -/

/-- The right sides of a predicate in source order. -/
def Pred.rights : Pred ρ → List ρ
  | compare comparison => [comparison.right]
  | and left right | or left right => left.rights ++ right.rights
  | not inner => inner.rights

/-- The comparisons of a predicate without negation, in order. -/
def Positive.comparisons : Positive ρ → List (Comparison ρ)
  | compare comparison => [comparison]
  | and left right | or left right => left.comparisons ++ right.comparisons

/-- The comparisons of the source, numbered from a start. -/
def Pred.number : Pred ρ → Nat → Pred (Nat × ρ)
  | compare comparison, i => compare ⟨comparison.op, comparison.column, (i, comparison.right)⟩
  | and left right, i => and (left.number i) (right.number (i + left.rights.length))
  | or left right, i => or (left.number i) (right.number (i + left.rights.length))
  | not inner, i => not (inner.number i)

/-- The comparison a placeholder stems from: the one whose value is in its temporary. -/
def Emission.stem (emission : Emission (Nat × ρ)) (placeholder : Nat) : Option Nat :=
  (emission.call.params[placeholder]?.bind fun temporary => emission.values[temporary]?).map
    Prod.fst

/-- Every comparison of the source is computed once, in source order, and the
placeholders that stem from one comparison are bound to one value. -/
structure EvaluatedOnce (columns : List String) (aggregate : Bool) (pred : Pred ρ) : Prop where
  once : ∀ k < pred.rights.length,
    ((emitPredicate columns aggregate (pred.number 0)).values.map Prod.fst).count k = 1
  inOrder : ((emitPredicate columns aggregate (pred.number 0)).values.map Prod.fst).Pairwise
    (· ≤ ·)
  bound : ∀ i j k, (emitPredicate columns aggregate (pred.number 0)).stem i = some k →
    (emitPredicate columns aggregate (pred.number 0)).stem j = some k →
    (emitPredicate columns aggregate (pred.number 0)).call.params[i]? =
      (emitPredicate columns aggregate (pred.number 0)).call.params[j]?

/-- No conjunction has a disjunction below it. -/
def Positive.isFlat : Positive ρ → Bool
  | compare _ => true
  | and left right => !cgPredHasOr left && !cgPredHasOr right
  | or left right => left.isFlat && right.isFlat

/-! ### The normal form -/

theorem rights_number (pred : Pred ρ) (i : Nat) :
    (pred.number i).rights.map Prod.fst = List.range' i pred.rights.length := by
  induction pred generalizing i with
  | compare comparison => rfl
  | and left right ihLeft ihRight | or left right ihLeft ihRight =>
      simp only [Pred.number, Pred.rights, List.map_append, ihLeft, ihRight, List.length_append]
      rw [List.range'_append_1]
  | not inner ih => exact ih i

theorem comparisons_cgPredNorm (pred : Pred ρ) (neg : Bool) :
    (cgPredNorm pred neg).comparisons.map Comparison.right = pred.rights := by
  induction pred generalizing neg with
  | compare comparison => cases neg <;> rfl
  | and left right ihLeft ihRight | or left right ihLeft ihRight =>
      cases neg <;> simp [cgPredNorm, Positive.comparisons, Pred.rights, ihLeft, ihRight]
  | not inner ih => exact ih !neg

theorem cgQueryTerms_eq {pred : Positive ρ} (conjunctive : cgPredHasOr pred = false) :
    cgQueryTerms pred = pred.comparisons := by
  induction pred with
  | compare comparison => rfl
  | and left right ihLeft ihRight =>
      rw [cgPredHasOr, Bool.or_eq_false_iff] at conjunctive
      rw [cgQueryTerms, ihLeft conjunctive.1, ihRight conjunctive.2, Positive.comparisons]
  | or left right => cases conjunctive

theorem cgDnf_eq_single {pred : Positive ρ} (conjunctive : cgPredHasOr pred = false) :
    cgDnf pred = [pred.comparisons] := by
  induction pred with
  | compare comparison => rfl
  | and left right ihLeft ihRight =>
      rw [cgPredHasOr, Bool.or_eq_false_iff] at conjunctive
      rw [cgDnf, ihLeft conjunctive.1, ihRight conjunctive.2]
      rfl
  | or left right => cases conjunctive

/-- A flat predicate is its normal form already. -/
theorem flatten_cgDnf {pred : Positive ρ} (flat : pred.isFlat = true) :
    (cgDnf pred).flatten = pred.comparisons := by
  induction pred with
  | compare comparison => rfl
  | and left right =>
      simp only [Positive.isFlat, Bool.and_eq_true, Bool.not_eq_true'] at flat
      rw [cgDnf_eq_single (by simp [cgPredHasOr, flat])]
      exact List.append_nil _
  | or left right ihLeft ihRight =>
      rw [Positive.isFlat, Bool.and_eq_true] at flat
      rw [cgDnf, List.flatten_append, ihLeft flat.1, ihRight flat.2, Positive.comparisons]

theorem comparisons_pos (pred : Positive ρ) : 0 < pred.comparisons.length := by
  induction pred with
  | compare comparison => exact Nat.one_pos
  | and left right ihLeft ihRight | or left right ihLeft ihRight =>
      rw [Positive.comparisons, List.length_append]
      omega

/-- The number of groups, one exactly when there is no disjunction. -/
theorem length_cgDnf (pred : Positive ρ) :
    1 ≤ (cgDnf pred).length ∧ (cgPredHasOr pred = true → 2 ≤ (cgDnf pred).length) := by
  induction pred with
  | compare comparison => exact ⟨Nat.le_refl 1, fun or => by cases or⟩
  | and left right ihLeft ihRight =>
      have count : (cgDnf (left.and right)).length = (cgDnf left).length * (cgDnf right).length := by
        simp [cgDnf, List.length_flatMap]
      rw [count]
      refine ⟨Nat.mul_pos ihLeft.1 ihRight.1, fun or => ?_⟩
      rw [cgPredHasOr, Bool.or_eq_true] at or
      rcases or with or | or
      · exact Nat.le_trans (ihLeft.2 or) (Nat.le_mul_of_pos_right _ ihRight.1)
      · exact Nat.le_trans (ihRight.2 or) (Nat.le_mul_of_pos_left _ ihLeft.1)
  | or left right ihLeft ihRight =>
      rw [cgDnf, List.length_append]
      exact ⟨by omega, fun _ => by omega⟩

/-- The terms of joined groups. -/
theorem length_joined {α : Type} (left right : List (List α)) :
    (left.flatMap fun l => right.map fun r => l ++ r).flatten.length =
      left.flatten.length * right.length + left.length * right.flatten.length := by
  induction left with
  | nil => simp
  | cons group groups ih =>
      have joined : (right.map fun r => group ++ r).flatten.length =
          group.length * right.length + right.flatten.length := by
        clear ih
        induction right with
        | nil => simp
        | cons r right ih =>
            simp only [List.map_cons, List.flatten_cons, List.length_append, ih, List.length_cons,
              Nat.mul_succ]
            omega
      rw [List.flatMap_cons, List.flatten_append, List.length_append, joined, ih, List.flatten_cons,
        List.length_append, List.length_cons, Nat.add_mul, Nat.succ_mul]
      omega

/-- The normal form has at least the terms of the predicate, and more unless the
predicate is flat. -/
theorem length_flatten_cgDnf (pred : Positive ρ) :
    pred.comparisons.length ≤ (cgDnf pred).flatten.length ∧
      (pred.isFlat = false → pred.comparisons.length < (cgDnf pred).flatten.length) := by
  induction pred with
  | compare comparison => exact ⟨Nat.le_refl 1, fun flat => by cases flat⟩
  | or left right ihLeft ihRight =>
      rw [cgDnf, List.flatten_append, List.length_append, Positive.comparisons, List.length_append,
        Positive.isFlat]
      refine ⟨Nat.add_le_add ihLeft.1 ihRight.1, fun flat => ?_⟩
      rw [Bool.and_eq_false_iff] at flat
      rcases flat with flat | flat
      · exact Nat.add_lt_add_of_lt_of_le (ihLeft.2 flat) ihRight.1
      · exact Nat.add_lt_add_of_le_of_lt ihLeft.1 (ihRight.2 flat)
  | and left right ihLeft ihRight =>
      rw [cgDnf, length_joined, Positive.comparisons, List.length_append, Positive.isFlat]
      have leftGroups := length_cgDnf left
      have rightGroups := length_cgDnf right
      have leftPos := comparisons_pos left
      have rightPos := comparisons_pos right
      have fewest : left.comparisons.length * (cgDnf right).length +
          (cgDnf left).length * right.comparisons.length ≤
            (cgDnf left).flatten.length * (cgDnf right).length +
              (cgDnf left).length * (cgDnf right).flatten.length :=
        Nat.add_le_add (Nat.mul_le_mul_right _ ihLeft.1) (Nat.mul_le_mul_left _ ihRight.1)
      constructor
      · have leftOnce := Nat.le_mul_of_pos_right left.comparisons.length rightGroups.1
        have rightOnce := Nat.le_mul_of_pos_left right.comparisons.length leftGroups.1
        omega
      · intro flat
        rw [Bool.and_eq_false_iff, Bool.not_eq_false', Bool.not_eq_false'] at flat
        rcases flat with or | or
        · have leftOnce := Nat.le_mul_of_pos_right left.comparisons.length rightGroups.1
          have rightTwice := Nat.mul_le_mul_right right.comparisons.length (leftGroups.2 or)
          omega
        · have leftTwice := Nat.mul_le_mul_left left.comparisons.length (rightGroups.2 or)
          have rightOnce := Nat.le_mul_of_pos_left right.comparisons.length leftGroups.1
          omega

/-! ### Once and in order -/

/-- The comparisons in the order they are lowered. -/
def loweredOrder (aggregate : Bool) (positive : Positive ρ) : List (Comparison ρ) :=
  if aggregate || cgPredHasOr positive then (cgDnf positive).flatten else cgQueryTerms positive

theorem values_emitPredicate (columns : List String) (aggregate : Bool) (pred : Pred ρ) :
    (emitPredicate columns aggregate pred).values =
      (loweredOrder aggregate (cgPredPositive pred)).map Comparison.right := by
  unfold emitPredicate loweredOrder
  dsimp only
  split <;> rfl

theorem params_emitPredicate (columns : List String) (aggregate : Bool) (pred : Pred ρ) :
    (emitPredicate columns aggregate pred).call.params =
      List.range (emitPredicate columns aggregate pred).values.length := by
  have numbers : ∀ comparisons : List (Comparison ρ),
      (cgSelectTerms columns comparisons).map StoreTerm.value =
        List.range (comparisons.map Comparison.right).length := by
    intro comparisons
    apply List.ext_getElem?
    intro i
    simp only [cgSelectTerms, List.getElem?_map, List.getElem?_mapIdx, Option.map_map,
      List.length_map]
    rcases Nat.lt_or_ge i comparisons.length with inside | outside
    · rw [List.getElem?_eq_getElem inside, List.getElem?_range inside]
      rfl
    · rw [List.getElem?_eq_none outside, List.getElem?_eq_none (by simpa using outside)]
      rfl
  unfold emitPredicate
  dsimp only
  split <;> exact numbers _

theorem loweredOrder_flat {aggregate : Bool} {positive : Positive ρ}
    (flat : positive.isFlat = true) : loweredOrder aggregate positive = positive.comparisons := by
  unfold loweredOrder
  split
  · exact flatten_cgDnf flat
  · rename_i direct
    rw [Bool.not_eq_true, Bool.or_eq_false_iff] at direct
    exact cgQueryTerms_eq direct.2

theorem isFlat_of_conjunctive {pred : Positive ρ} (conjunctive : cgPredHasOr pred = false) :
    pred.isFlat = true := by
  cases pred with
  | compare comparison => rfl
  | and left right =>
      rw [cgPredHasOr, Bool.or_eq_false_iff] at conjunctive
      simp [Positive.isFlat, conjunctive]
  | or left right => cases conjunctive

theorem length_loweredOrder {aggregate : Bool} {positive : Positive ρ}
    (flat : positive.isFlat = false) :
    positive.comparisons.length < (loweredOrder aggregate positive).length := by
  have or : cgPredHasOr positive = true := by
    by_contra conjunctive
    rw [isFlat_of_conjunctive (by simpa using conjunctive)] at flat
    cases flat
  rw [loweredOrder, or, Bool.or_true, if_pos rfl]
  exact (length_flatten_cgDnf positive).2 flat

/-- Negations pushed in, the shape does not depend on the right sides. -/
theorem isFlat_number (pred : Pred ρ) (i : Nat) (neg : Bool) :
    (cgPredNorm (pred.number i) neg).isFlat = (cgPredNorm pred neg).isFlat ∧
      cgPredHasOr (cgPredNorm (pred.number i) neg) = cgPredHasOr (cgPredNorm pred neg) := by
  induction pred generalizing i neg with
  | compare comparison => cases neg <;> exact ⟨rfl, rfl⟩
  | and left right ihLeft ihRight | or left right ihLeft ihRight =>
      cases neg <;>
        simp [Pred.number, cgPredNorm, Positive.isFlat, cgPredHasOr, ihLeft, ihRight]
  | not inner ih => exact ih i !neg

/-- A group takes its comparisons in order. -/
theorem sublist_of_dnf {pred : Positive ρ} {group : List (Comparison ρ)}
    (isGroup : group ∈ cgDnf pred) : group.Sublist pred.comparisons := by
  induction pred generalizing group with
  | compare only =>
      rw [cgDnf, List.mem_singleton] at isGroup
      rw [isGroup]
      exact List.Sublist.refl _
  | and left right ihLeft ihRight =>
      simp only [cgDnf, List.mem_flatMap, List.mem_map] at isGroup
      obtain ⟨l, isLeft, r, isRight, rfl⟩ := isGroup
      exact (ihLeft isLeft).append (ihRight isRight)
  | or left right ihLeft ihRight =>
      rw [cgDnf, List.mem_append] at isGroup
      rcases isGroup with isGroup | isGroup
      · exact (ihLeft isGroup).trans (List.sublist_append_left _ _)
      · exact (ihRight isGroup).trans (List.sublist_append_right _ _)

theorem mem_comparisons_of_lowered {aggregate : Bool} {positive : Positive ρ}
    {comparison : Comparison ρ} (inside : comparison ∈ loweredOrder aggregate positive) :
    comparison ∈ positive.comparisons := by
  unfold loweredOrder at inside
  split at inside
  · obtain ⟨group, isGroup, inside⟩ := List.mem_flatten.mp inside
    exact (sublist_of_dnf isGroup).subset inside
  · rename_i direct
    rw [Bool.not_eq_true, Bool.or_eq_false_iff] at direct
    rwa [cgQueryTerms_eq direct.2] at inside

/-- The numbers of the comparisons, in the order they are computed. -/
theorem numbers_emitPredicate (columns : List String) (aggregate : Bool) (pred : Pred ρ) :
    (∀ k ∈ (emitPredicate columns aggregate (pred.number 0)).values.map Prod.fst,
        k < pred.rights.length) ∧
      ((cgPredPositive pred).isFlat = true →
        (emitPredicate columns aggregate (pred.number 0)).values.map Prod.fst =
          List.range pred.rights.length) ∧
      ((cgPredPositive pred).isFlat = false → pred.rights.length <
        (emitPredicate columns aggregate (pred.number 0)).values.length) := by
  have shape : (cgPredPositive (pred.number 0)).isFlat = (cgPredPositive pred).isFlat :=
    (isFlat_number pred 0 false).1
  have sources : (cgPredPositive (pred.number 0)).comparisons.map Comparison.right =
      (pred.number 0).rights := comparisons_cgPredNorm _ _
  have labels : (pred.number 0).rights.map Prod.fst = List.range pred.rights.length := by
    rw [rights_number, List.range_eq_range']
  have size : (cgPredPositive (pred.number 0)).comparisons.length = pred.rights.length := by
    have lengths := congrArg List.length labels
    rw [← sources] at lengths
    simpa using lengths
  rw [values_emitPredicate, ← shape]
  refine ⟨?_, ?_, ?_⟩
  · intro k inside
    simp only [List.mem_map] at inside
    obtain ⟨right, ⟨comparison, lowered, rfl⟩, rfl⟩ := inside
    have source := List.mem_map_of_mem (f := Comparison.right) (mem_comparisons_of_lowered lowered)
    rw [sources] at source
    have label := List.mem_map_of_mem (f := Prod.fst) source
    rwa [labels, List.mem_range] at label
  · intro flat
    rw [loweredOrder_flat flat, sources, labels]
  · intro notFlat
    rw [List.length_map, ← size]
    exact length_loweredOrder notFlat

/-- The values are computed once, in order, and shared exactly when no conjunction has a
disjunction below it once the negations are pushed in. -/
theorem evaluated_once_iff (columns : List String) (aggregate : Bool) (pred : Pred ρ) :
    EvaluatedOnce columns aggregate pred ↔ (cgPredPositive pred).isFlat = true := by
  obtain ⟨bounded, ordered, more⟩ := numbers_emitPredicate columns aggregate pred
  constructor
  · -- With a conjunction over a disjunction there are more values than comparisons.
    intro evaluated
    by_contra notFlat
    have more := more (by simpa using notFlat)
    have nodup : ((emitPredicate columns aggregate (pred.number 0)).values.map Prod.fst).Nodup := by
      rw [List.nodup_iff_count_le_one]
      intro k
      by_cases inside : k ∈ (emitPredicate columns aggregate (pred.number 0)).values.map Prod.fst
      · exact (evaluated.once k (bounded k inside)).le
      · rw [List.count_eq_zero_of_not_mem inside]
        exact Nat.zero_le 1
    have few := (List.subperm_of_subset nodup fun k inside =>
      List.mem_range.mpr (bounded k inside)).length_le
    rw [List.length_map, List.length_range] at few
    omega
  · intro flat
    have ordered := ordered flat
    have own : ∀ i k, (emitPredicate columns aggregate (pred.number 0)).stem i = some k → i = k := by
      intro i k stem
      simp only [Emission.stem, params_emitPredicate, Option.map_eq_some_iff,
        Option.bind_eq_some_iff] at stem
      obtain ⟨right, ⟨temporary, isParam, isValue⟩, rfl⟩ := stem
      have label : ((emitPredicate columns aggregate (pred.number 0)).values.map
          Prod.fst)[temporary]? = some right.1 := by
        rw [List.getElem?_map, isValue]
        rfl
      rw [ordered] at label
      rw [List.getElem?_eq_some_iff] at label isParam
      obtain ⟨_, rfl⟩ := isParam
      obtain ⟨_, label⟩ := label
      simpa using label
    refine ⟨?_, ?_, ?_⟩
    · intro k inside
      rw [ordered]
      exact List.count_eq_one_of_mem List.nodup_range (List.mem_range.mpr inside)
    · rw [ordered]
      exact List.pairwise_le_range
    · intro i j k stemI stemJ
      rw [own i k stemI, own j k stemJ]

/-! ### Once for each group -/

/-- The numbers of the comparisons of a group. -/
def groupNumbers (group : List (Comparison (Nat × ρ))) : List Nat :=
  (group.map Comparison.right).map Prod.fst

/-- What is computed is the normal form, group by group. -/
theorem numbers_eq_flatten (columns : List String) (aggregate : Bool) (pred : Pred (Nat × ρ)) :
    (emitPredicate columns aggregate pred).values.map Prod.fst =
      ((cgDnf (cgPredPositive pred)).map groupNumbers).flatten := by
  have flat : loweredOrder aggregate (cgPredPositive pred) =
      (cgDnf (cgPredPositive pred)).flatten := by
    unfold loweredOrder
    split
    · rfl
    · rename_i direct
      rw [Bool.not_eq_true, Bool.or_eq_false_iff] at direct
      rw [cgQueryTerms_eq direct.2, cgDnf_eq_single direct.2]
      exact (List.append_nil _).symm
  rw [values_emitPredicate, flat]
  simp only [List.map_flatten, List.map_map]
  rfl

theorem count_flatten_eq_countP {lists : List (List Nat)} (nodup : ∀ list ∈ lists, list.Nodup)
    (k : Nat) : lists.flatten.count k = lists.countP fun list => k ∈ list := by
  induction lists with
  | nil => rfl
  | cons list lists ih =>
      rw [List.flatten_cons, List.count_append, List.countP_cons,
        ih fun other inside => nodup other (List.mem_cons_of_mem _ inside)]
      by_cases inside : k ∈ list
      · rw [List.count_eq_one_of_mem (nodup list List.mem_cons_self) inside]
        simp [inside, Nat.add_comm]
      · rw [List.count_eq_zero_of_not_mem inside]
        simp [inside]

/-- A comparison is computed once for each group of the normal form it is in, before the
statement, and every placeholder is bound to the value computed for it.  This is once
for every comparison, in source order and with one value for all its placeholders,
exactly when no conjunction has a disjunction below it. -/
theorem evaluated_per_group (columns : List String) (aggregate : Bool) (pred : Pred ρ) :
    (∀ k, ((emitPredicate columns aggregate (pred.number 0)).values.map Prod.fst).count k =
        (cgDnf (cgPredPositive (pred.number 0))).countP fun group => k ∈ groupNumbers group) ∧
      (emitPredicate columns aggregate (pred.number 0)).call.params =
        List.range (emitPredicate columns aggregate (pred.number 0)).values.length ∧
      (EvaluatedOnce columns aggregate pred ↔ (cgPredPositive pred).isFlat = true) := by
  refine ⟨fun k => ?_, params_emitPredicate columns aggregate _,
    evaluated_once_iff columns aggregate pred⟩
  have labels : groupNumbers (cgPredPositive (pred.number 0)).comparisons =
      List.range' 0 pred.rights.length := by
    rw [groupNumbers, cgPredPositive, comparisons_cgPredNorm, rights_number]
  have nodup : ∀ list ∈ (cgDnf (cgPredPositive (pred.number 0))).map groupNumbers, list.Nodup := by
    intro list inside
    obtain ⟨group, isGroup, rfl⟩ := List.mem_map.mp inside
    have sub : (groupNumbers group).Sublist
        (groupNumbers (cgPredPositive (pred.number 0)).comparisons) :=
      ((sublist_of_dnf isGroup).map Comparison.right).map Prod.fst
    rw [labels] at sub
    exact sub.nodup List.nodup_range'
  rw [numbers_eq_flatten, count_flatten_eq_countP nodup, List.countP_map]
  rfl

/-- `a = f() && (b = g() || c = h())`, with the right sides by number. -/
def conjunctionOverDisjunction : Pred Nat :=
  .and (.compare ⟨.eq, "a", 0⟩) (.or (.compare ⟨.eq, "b", 1⟩) (.compare ⟨.eq, "c", 2⟩))

/-- The right side of the first comparison is computed twice. -/
theorem first_value_computed_twice :
    (emitPredicate ["a", "b", "c"] false conjunctionOverDisjunction).values = [0, 1, 0, 2] ∧
      ¬ EvaluatedOnce ["a", "b", "c"] false conjunctionOverDisjunction := by
  refine ⟨by decide, fun evaluated => ?_⟩
  have once := evaluated.once 0 (by decide)
  revert once
  decide

end Geas.Store
