import Mathlib.Data.List.Nodup

/-!
# Tables where the first entry stays

A table is a list of entries and keeps for a key what it was first given.  So a log of
entries leaves behind the first entry of each key, whether the entries of taken keys are
dropped or not, and none was dropped exactly when the log repeats no key and none of its
keys was taken before.
-/

namespace Geas.Lib.FirstWins

variable {κ ν : Type} [BEq κ] {tab tab' log first second : List (κ × ν)} {key : κ}

/-- The two tables answer alike. -/
def Same (tab tab' : List (κ × ν)) : Prop := ∀ key, tab.lookup key = tab'.lookup key

/-- No entry of the log meets a key that is taken. -/
def Fresh (tab log : List (κ × ν)) : Prop :=
  (log.map Prod.fst).Nodup ∧ ∀ key ∈ log.map Prod.fst, tab.lookup key = none

theorem Same.refl (tab : List (κ × ν)) : Same tab tab := fun _ => rfl

theorem Same.trans {tab'' : List (κ × ν)} (first : Same tab tab') (second : Same tab' tab'') :
    Same tab tab'' := fun key => (first key).trans (second key)

theorem Same.append (same : Same tab tab') (log : List (κ × ν)) :
    Same (tab ++ log) (tab' ++ log) := by
  intro key
  rw [List.lookup_append, List.lookup_append, same key]

theorem Fresh.congr (log : List (κ × ν)) (same : Same tab tab') : Fresh tab log ↔ Fresh tab' log := by
  simp only [Fresh, same _]

@[simp] theorem fresh_nil : Fresh tab [] := ⟨List.nodup_nil, by simp⟩

theorem fresh_empty : Fresh [] log ↔ (log.map Prod.fst).Nodup := by
  simp [Fresh]

variable [LawfulBEq κ]

theorem lookup_eq_none : tab.lookup key = none ↔ key ∉ tab.map Prod.fst := by
  rw [List.lookup_eq_none_iff]
  constructor
  · intro none inside
    obtain ⟨entry, member, rfl⟩ := List.mem_map.mp inside
    simpa using none entry member
  · intro absent entry member
    apply bne_iff_ne.mpr
    rintro rfl
    exact absent (List.mem_map_of_mem member)

/-- An entry of a taken key changes nothing. -/
theorem same_of_taken (taken : tab.lookup key ≠ none) (value : ν) :
    Same tab (tab ++ [(key, value)]) := by
  intro key'
  rw [List.lookup_append]
  by_cases here : key' = key
  · subst here
    obtain ⟨value', found⟩ := Option.ne_none_iff_exists'.mp taken
    rw [found, Option.some_or]
  · have other : [(key, value)].lookup key' = none := lookup_eq_none.mpr (by simpa using here)
    rw [other, Option.or_none]

theorem fresh_singleton {value : ν} : Fresh tab [(key, value)] ↔ tab.lookup key = none := by
  simp [Fresh]

theorem fresh_append :
    Fresh tab (first ++ second) ↔ Fresh tab first ∧ Fresh (tab ++ first) second := by
  have apart : (∀ key ∈ second.map Prod.fst, (tab ++ first).lookup key = none) ↔
      (∀ key ∈ second.map Prod.fst, tab.lookup key = none) ∧
        ∀ key ∈ second.map Prod.fst, key ∉ first.map Prod.fst := by
    simp only [List.lookup_append, Option.or_eq_none_iff, lookup_eq_none]
    exact forall₂_and
  unfold Fresh
  rw [apart, List.map_append, List.nodup_append, List.forall_mem_append]
  constructor
  · rintro ⟨⟨nodup, nodup', disjoint⟩, absent, absent'⟩
    exact ⟨⟨nodup, absent⟩, nodup', absent', fun key inside inside' => disjoint key inside' key inside rfl⟩
  · rintro ⟨⟨nodup, absent⟩, nodup', absent', disjoint⟩
    refine ⟨⟨nodup, nodup', ?_⟩, absent, absent'⟩
    rintro key inside _ inside' rfl
    exact disjoint key inside' inside

/-- A log without repeats is a function of its keys. -/
theorem lookup_of_mem {value : ν} (nodup : (log.map Prod.fst).Nodup) (member : (key, value) ∈ log) :
    log.lookup key = some value := by
  obtain ⟨before, after, rfl⟩ := List.append_of_mem member
  rw [List.lookup_append, List.lookup_cons_self]
  rw [List.map_append, List.nodup_append] at nodup
  have absent : before.lookup key = none :=
    lookup_eq_none.mpr fun inside => nodup.2.2 key inside key (by simp) rfl
  rw [absent, Option.none_or]

theorem mem_of_lookup {value : ν} (found : log.lookup key = some value) : (key, value) ∈ log := by
  obtain ⟨before, after, rfl, -⟩ := List.lookup_eq_some_iff.mp found
  simp

end Geas.Lib.FirstWins
