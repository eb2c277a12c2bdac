import Mathlib.Data.List.Basic

/-!
# Texts with parameters

A template is a text with parameters in it.  Spelled out, a mark stands in the place of
each parameter, and the mark of a parameter depends on how many stand before it.

A text is often printed in pieces, one behind the other, into a block of a size that was
reckoned before.  The printing keeps the whole text exactly when the block has room for
all of it and a terminator, and no piece is longer than one call can print.
-/

namespace Geas.Lib

variable {α β ρ : Type}

/-- A piece of a template. -/
inductive Part (α ρ : Type) where
  | text (chars : List α)
  | param (value : ρ)

/-- The parameters of a template, left to right. -/
def params : List (Part α ρ) → List ρ
  | [] => []
  | .text _ :: parts => params parts
  | .param value :: parts => value :: params parts

/-- The text of a template behind `k` parameters: `mark i` stands for parameter `i`. -/
def spell (mark : Nat → List α) : Nat → List (Part α ρ) → List α
  | _, [] => []
  | k, .text chars :: parts => chars ++ spell mark k parts
  | k, .param _ :: parts => mark k ++ spell mark (k + 1) parts

section Templates

variable {mark : Nat → List α} {k : Nat}

@[simp] theorem params_nil : params ([] : List (Part α ρ)) = [] := rfl

@[simp] theorem params_text (chars : List α) (parts : List (Part α ρ)) :
    params (.text chars :: parts) = params parts := rfl

@[simp] theorem params_param (value : ρ) (parts : List (Part α ρ)) :
    params (.param value :: parts) = value :: params parts := rfl

@[simp] theorem params_append (first second : List (Part α ρ)) :
    params (first ++ second) = params first ++ params second := by
  induction first with
  | nil => rfl
  | cons part first ih => cases part <;> simp [ih]

@[simp] theorem spell_nil : spell mark k ([] : List (Part α ρ)) = [] := rfl

@[simp] theorem spell_text (chars : List α) (parts : List (Part α ρ)) :
    spell mark k (.text chars :: parts) = chars ++ spell mark k parts := rfl

@[simp] theorem spell_param (value : ρ) (parts : List (Part α ρ)) :
    spell mark k (.param value :: parts) = mark k ++ spell mark (k + 1) parts := rfl

@[simp] theorem spell_append (first second : List (Part α ρ)) :
    spell mark k (first ++ second) =
      spell mark k first ++ spell mark (k + (params first).length) second := by
  induction first generalizing k with
  | nil => simp
  | cons part first ih =>
      cases part with
      | text chars => simp [ih]
      | param value =>
          have behind : k + 1 + (params first).length = k + ((params first).length + 1) := by omega
          simp [ih, behind]

end Templates

/-! ## Separated lists -/

theorem intercalate_cons (sep item : List α) (items : List (List α)) :
    sep.intercalate (item :: items) = item ++ items.flatMap (sep ++ ·) := by
  induction items generalizing item with
  | nil => simp [List.intercalate]
  | cons next items ih =>
      rw [List.intercalate_cons_cons, ih]
      simp

theorem flatMap_mapIdx (sep : List α) (item : Nat → β → List α) (items : List β) :
    (items.mapIdx item).flatMap (sep ++ ·) = (items.mapIdx fun i x => sep ++ item i x).flatten := by
  rw [List.flatMap_def]
  congr 1
  exact List.ext_getElem (by simp) (by simp)

/-- A loop that prints the separator before every item but the first. -/
theorem flatten_separated (sep : List α) (item : Nat → β → List α) (items : List β) :
    (items.mapIdx fun i x => (if i = 0 then [] else sep) ++ item i x).flatten =
      sep.intercalate (items.mapIdx item) := by
  cases items with
  | nil => simp [List.intercalate]
  | cons x items => simp [List.mapIdx_cons, intercalate_cons, flatMap_mapIdx]

theorem params_flatMap (item : β → List (Part α ρ)) (items : List β) :
    params (items.flatMap item) = items.flatMap fun x => params (item x) := by
  induction items with
  | nil => rfl
  | cons x items ih => simp [ih]

/-- A separator has no parameters. -/
theorem params_separated (sep : List α) (items : List (List (Part α ρ))) :
    params (List.intercalate [.text sep] items) = items.flatMap params := by
  cases items with
  | nil => rfl
  | cons item items => simp [intercalate_cons, params_flatMap]

/-- The text of a run of items behind a separator each, `n` parameters in an item. -/
theorem spell_behind {mark : Nat → List α} {k n : Nat} {item : β → List (Part α ρ)}
    (sep : List α) (width : ∀ x, (params (item x)).length = n) (items : List β) :
    spell mark k (items.flatMap fun x => .text sep :: item x) =
      (items.mapIdx fun i x => sep ++ spell mark (k + n * i) (item x)).flatten := by
  induction items generalizing k with
  | nil => rfl
  | cons x items ih =>
      have next (i : Nat) : k + n + n * i = k + n * (i + 1) := by
        rw [Nat.mul_add, Nat.mul_one, Nat.add_assoc, Nat.add_comm n]
      simp [List.mapIdx_cons, width, ih, next]

/-- The text of a separated list whose items have `n` parameters each. -/
theorem spell_separated {mark : Nat → List α} {k n : Nat} {item : β → List (Part α ρ)}
    (sep : List α) (width : ∀ x, (params (item x)).length = n) (items : List β) :
    spell mark k (List.intercalate [.text sep] (items.map item)) =
      sep.intercalate (items.mapIdx fun i x => spell mark (k + n * i) (item x)) := by
  cases items with
  | nil => simp [List.intercalate]
  | cons x items =>
      have next (i : Nat) : k + n + n * i = k + n * (i + 1) := by
        rw [Nat.mul_add, Nat.mul_one, Nat.add_assoc, Nat.add_comm n]
      have tail := @spell_behind _ _ _ mark (k + n) n item sep width items
      simp only [next] at tail
      simp [List.mapIdx_cons, intercalate_cons, flatMap_mapIdx, List.flatMap_map, width, tail]

/-! ## Printing into a block -/

/-- Print the pieces behind the text already there.  `none` when a piece does not fit with
its terminator, or is longer than one call prints. -/
def fill (limit size : Nat) : List (List α) → List α → Option (List α)
  | [], text => some text
  | piece :: pieces, text =>
      if piece.length ≤ limit ∧ text.length + piece.length < size then
        fill limit size pieces (text ++ piece)
      else none

/-- Room for the whole text is room at every step. -/
theorem fill_of_room {limit size : Nat} {pieces : List (List α)} {text : List α}
    (short : ∀ piece ∈ pieces, piece.length ≤ limit)
    (room : text.length + pieces.flatten.length < size) :
    fill limit size pieces text = some (text ++ pieces.flatten) := by
  induction pieces generalizing text with
  | nil => simp [fill]
  | cons piece pieces ih =>
      rw [List.flatten_cons, List.length_append] at room
      have here : piece.length ≤ limit ∧ text.length + piece.length < size :=
        ⟨short piece List.mem_cons_self, by omega⟩
      have rest := @ih (text ++ piece)
        (fun next member => short next (List.mem_cons_of_mem piece member))
        (by rw [List.length_append]; omega)
      rw [fill, if_pos here, rest, List.append_assoc, List.flatten_cons]

/-- A text that came out is the whole one, no piece of it over the limit. -/
theorem whole_of_fill {limit size : Nat} {pieces : List (List α)} {text whole : List α}
    (printed : fill limit size pieces text = some whole) :
    whole = text ++ pieces.flatten ∧ ∀ piece ∈ pieces, piece.length ≤ limit := by
  induction pieces generalizing text with
  | nil => simpa [fill, eq_comm] using printed
  | cons piece pieces ih =>
      rw [fill] at printed
      split at printed
      · next here =>
          obtain ⟨eq, short⟩ := ih printed
          refine ⟨by rw [eq, List.append_assoc, List.flatten_cons], ?_⟩
          intro next member
          cases List.mem_cons.mp member with
          | inl same => exact same ▸ here.1
          | inr later => exact short next later
      · cases printed

end Geas.Lib
