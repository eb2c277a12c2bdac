import Mathlib.Data.List.Basic

/-!
# Writes to a buffer

A buffer as the bytes stored in it one after the other, each at its offset.  What it holds at
an offset is the last thing stored there, and where nothing was stored it holds nothing of
the writer's.

`Filled` says that the writes up to an offset spell a text and that beyond it nothing was
stored; at the offset itself something may stand that the next block overwrites, as a
terminator does.
-/

namespace Geas.Lib.Writes

variable {β : Type}

/-- The last thing stored at an offset. -/
def storedAt (log : List (Nat × β)) (i : Nat) : Option β :=
  log.foldl (fun held store => if store.1 = i then some store.2 else held) none

/-- A block stored from an offset on. -/
def block (off : Nat) : List β → List (Nat × β)
  | [] => []
  | b :: bytes => (off, b) :: block (off + 1) bytes

theorem storedAt_concat (log : List (Nat × β)) (off : Nat) (b : β) (i : Nat) :
    storedAt (log ++ [(off, b)]) i = if off = i then some b else storedAt log i := by
  simp [storedAt, List.foldl_append]

/-- A block stands where it was stored, and everything else is as it was. -/
theorem storedAt_append_block (log : List (Nat × β)) (off : Nat) (bytes : List β) (i : Nat) :
    storedAt (log ++ block off bytes) i =
      if off ≤ i ∧ i < off + bytes.length then bytes[i - off]? else storedAt log i := by
  induction bytes generalizing log off with
  | nil =>
      rw [block, List.append_nil, if_neg]
      simp only [List.length_nil]
      omega
  | cons b bytes ih =>
      have step : log ++ block off (b :: bytes) = (log ++ [(off, b)]) ++ block (off + 1) bytes := by
        simp [block]
      rw [step, ih, storedAt_concat, List.length_cons]
      by_cases here : off = i
      · subst here
        rw [if_neg (by omega), if_pos rfl, if_pos (by omega), Nat.sub_self, List.getElem?_cons_zero]
      · rw [if_neg here]
        by_cases behind : off + 1 ≤ i ∧ i < off + 1 + bytes.length
        · have next : i - off = i - (off + 1) + 1 := by omega
          rw [if_pos behind, if_pos (by omega), next, List.getElem?_cons_succ]
        · rw [if_neg behind, if_neg (by omega)]

/-- The writes spell a text, and nothing stands behind its end. -/
structure Filled (log : List (Nat × β)) (text : List β) : Prop where
  spells : ∀ i, i < text.length → storedAt log i = text[i]?
  ends : ∀ i, text.length < i → storedAt log i = none

variable {log : List (Nat × β)} {text : List β}

theorem filled_nil : Filled ([] : List (Nat × β)) [] :=
  ⟨fun _ inside => absurd inside (Nat.not_lt_zero _), fun _ _ => rfl⟩

/-- A block behind the text, and a last byte that may be overwritten. -/
theorem Filled.append (filled : Filled log text) (bytes : List β) (last : β) :
    Filled (log ++ block text.length (bytes ++ [last])) (text ++ bytes) := by
  have size : (bytes ++ [last]).length = bytes.length + 1 := by simp
  constructor
  · intro i inside
    rw [List.length_append] at inside
    rw [storedAt_append_block, size]
    by_cases old : i < text.length
    · rw [if_neg (by omega), filled.spells i old, List.getElem?_append_left old]
    · rw [if_pos (by omega), List.getElem?_append_left (by omega),
        List.getElem?_append_right (Nat.le_of_not_lt old)]
  · intro i past
    rw [List.length_append] at past
    rw [storedAt_append_block, size, if_neg (by omega), filled.ends i (by omega)]

/-- A block behind the text, with no last byte: nothing stands behind it then. -/
theorem Filled.extend (filled : Filled log text) (bytes : List β) :
    Filled (log ++ block text.length bytes) (text ++ bytes) := by
  constructor
  · intro i inside
    rw [List.length_append] at inside
    rw [storedAt_append_block]
    by_cases old : i < text.length
    · rw [if_neg (by omega), filled.spells i old, List.getElem?_append_left old]
    · rw [if_pos (by omega), List.getElem?_append_right (Nat.le_of_not_lt old)]
  · intro i past
    rw [List.length_append] at past
    rw [storedAt_append_block, if_neg (by omega), filled.ends i (by omega)]

/-- With its last byte stored, a buffer holds the text and that byte, and nothing else. -/
theorem Filled.close (filled : Filled log text) (last : β) (i : Nat) :
    storedAt (log ++ [(text.length, last)]) i = (text ++ [last])[i]? := by
  rw [storedAt_concat]
  rcases Nat.lt_trichotomy i text.length with inside | rfl | past
  · rw [if_neg (by omega), filled.spells i inside, List.getElem?_append_left inside]
  · rw [if_pos rfl, List.getElem?_concat_length]
  · rw [if_neg (by omega), filled.ends i past, List.getElem?_eq_none]
    rw [List.length_append, List.length_singleton]
    omega

end Geas.Lib.Writes
