import Mathlib.Data.List.Basic

/-!
# Interning

An append only table that gives every text the position it was first put at.  Whatever
else is interned before, between and after, two texts get one position exactly when they
are one text.
-/

namespace Geas.Lib.Interner

variable {α : Type}

/-- What stands in a table stays there while it grows. -/
theorem getElem?_of_prefix {first second : List α} (grows : first <+: second) {i : Nat} {text : α}
    (here : first[i]? = some text) : second[i]? = some text := by
  obtain ⟨more, rfl⟩ := grows
  rw [List.getElem?_append_left (List.getElem?_eq_some_iff.mp here).1, here]

variable [DecidableEq α]

/-- The position of a text, and the table with it. -/
def intern (table : List α) (text : α) : Nat × List α :=
  if text ∈ table then (table.idxOf text, table) else (table.length, table ++ [text])

/-- The positions of the texts, interned one after the other. -/
def internAll (table : List α) : List α → List Nat
  | [] => []
  | text :: rest => (intern table text).1 :: internAll (intern table text).2 rest

/-- The table after the texts are interned. -/
def tableAfter (table : List α) (texts : List α) : List α :=
  texts.foldl (fun table text => (intern table text).2) table

variable {table texts : List α} {text : α}

theorem intern_extends (table : List α) (text : α) : table <+: (intern table text).2 := by
  rw [intern]
  split
  · exact List.prefix_rfl
  · exact List.prefix_append _ _

theorem intern_mem (table : List α) (text : α) : text ∈ (intern table text).2 := by
  rw [intern]
  split
  · assumption
  · exact List.mem_append_right _ List.mem_cons_self

theorem intern_idxOf (table : List α) (text : α) :
    (intern table text).1 = (intern table text).2.idxOf text := by
  rw [intern]
  split
  · rfl
  · rename_i fresh
    rw [List.idxOf_append_of_notMem fresh, List.idxOf_cons_self, Nat.add_zero]

/-- A text is found at its position. -/
theorem intern_get (table : List α) (text : α) :
    (intern table text).2[(intern table text).1]? = some text := by
  have inside := intern_mem table text
  rw [intern_idxOf, List.getElem?_eq_getElem (List.idxOf_lt_length_iff.mpr inside),
    List.getElem_idxOf]

theorem tableAfter_extends (texts table : List α) : table <+: tableAfter table texts := by
  induction texts generalizing table with
  | nil => exact List.prefix_rfl
  | cons text rest ih => exact (intern_extends table text).trans (ih _)

/-- A text keeps its position while the table grows. -/
theorem idxOf_of_prefix {first second : List α} (grows : first <+: second) (inside : text ∈ first) :
    second.idxOf text = first.idxOf text := by
  obtain ⟨more, rfl⟩ := grows
  exact List.idxOf_append_of_mem inside

/-- Every text gets its position in the last table. -/
theorem internAll_eq (texts table : List α) :
    internAll table texts = texts.map (tableAfter table texts).idxOf := by
  induction texts generalizing table with
  | nil => rfl
  | cons text rest ih =>
      rw [internAll, List.map_cons, ih, intern_idxOf,
        ← idxOf_of_prefix (tableAfter_extends rest _) (intern_mem table text)]
      rfl

theorem mem_tableAfter (texts table : List α) (inside : text ∈ texts) :
    text ∈ tableAfter table texts := by
  induction texts generalizing table with
  | nil => cases inside
  | cons first rest ih =>
      rcases List.mem_cons.mp inside with rfl | inside
      · exact (tableAfter_extends rest _).subset (intern_mem table text)
      · exact ih _ inside

/-- Two texts get one position exactly when they are one text. -/
theorem internAll_inj {i j : Nat} {first second : α} (here : texts[i]? = some first)
    (there : texts[j]? = some second) :
    (internAll table texts)[i]? = (internAll table texts)[j]? ↔ first = second := by
  rw [internAll_eq, List.getElem?_map, List.getElem?_map, here, there, Option.map_some,
    Option.map_some, Option.some.injEq]
  exact List.idxOf_inj (mem_tableAfter _ _ (List.mem_of_getElem? here))

end Geas.Lib.Interner
