import Mathlib.Data.List.Basic

/-!
# Maps in insertion order

A map kept as a list of pairs that grows at its end.  Keys are compared by a Boolean
relation that is symmetric and transitive.  The map is compared with the log of its writes.
-/

namespace Geas.Lib.OrderedMap

variable {κ α : Type} (same : κ → κ → Bool)

/-- Write a key: the value of its pair is replaced, or a new pair put behind the others. -/
def put (key : κ) (value : α) : List (κ × α) → List (κ × α)
  | [] => [(key, value)]
  | pair :: rest =>
      if same pair.1 key then (pair.1, value) :: rest else pair :: put key value rest

/-- The value stored under a key. -/
def get? (pairs : List (κ × α)) (key : κ) : Option α :=
  (pairs.find? fun pair => same pair.1 key).map Prod.snd

/-- The keys of a log of writes, in the order they were first written. -/
def firstKeys (log : List (κ × α)) : List κ :=
  log.foldl
    (fun keys write => if keys.any (same · write.1) then keys else keys ++ [write.1]) []

/-- The value a log wrote last under a key. -/
def lastWritten (log : List (κ × α)) (key : κ) : Option α :=
  (log.reverse.find? fun write => same write.1 key).map Prod.snd

/-- A map holds what a log wrote. -/
structure OfLog (log pairs : List (κ × α)) : Prop where
  distinct : (pairs.map Prod.fst).Pairwise fun left right => same left right = false
  order : pairs.map Prod.fst = firstKeys same log
  last : ∀ key, get? same pairs key = lastWritten same log key

variable {same}

theorem OfLog.empty : OfLog same ([] : List (κ × α)) [] :=
  ⟨.nil, rfl, fun _ => rfl⟩

theorem put_keys (key : κ) (value : α) (pairs : List (κ × α)) :
    (put same key value pairs).map Prod.fst =
      if (pairs.map Prod.fst).any (same · key) then pairs.map Prod.fst
      else pairs.map Prod.fst ++ [key] := by
  induction pairs with
  | nil => rfl
  | cons pair rest ih =>
      by_cases hit : same pair.1 key = true
      · simp [put, hit]
      · simp only [put, hit, Bool.false_eq_true, if_false, List.map_cons, ih, List.any_cons,
          Bool.false_or]
        split <;> rfl

theorem firstKeys_append (log : List (κ × α)) (key : κ) (value : α) :
    firstKeys same (log ++ [(key, value)]) =
      if (firstKeys same log).any (same · key) then firstKeys same log
      else firstKeys same log ++ [key] := by
  unfold firstKeys
  rw [List.foldl_append]
  rfl

theorem lastWritten_append (log : List (κ × α)) (key other : κ) (value : α) :
    lastWritten same (log ++ [(key, value)]) other =
      if same key other then some value else lastWritten same log other := by
  unfold lastWritten
  rw [List.reverse_append, List.reverse_singleton, List.singleton_append, List.find?_cons]
  split <;> simp [*]

theorem lastWritten_eq_none {log : List (κ × α)} {key : κ} :
    lastWritten same log key = none ↔ ∀ write ∈ log, same write.1 key = false := by
  simp [lastWritten]

section Equivalent

variable (symm : ∀ a b, same a b = true → same b a = true)
  (trans : ∀ a b c, same a b = true → same b c = true → same a c = true)

include symm trans

theorem same_congr {a b : κ} (alike : same a b = true) (other : κ) :
    same a other = same b other := by
  rw [Bool.eq_iff_iff]
  exact ⟨trans _ _ _ (symm _ _ alike), trans _ _ _ alike⟩

/-- A write changes the value of its own key and of no other. -/
theorem get?_put {key : κ} (value : α) (pairs : List (κ × α)) (other : κ) :
    get? same (put same key value pairs) other =
      if same key other then some value else get? same pairs other := by
  unfold get?
  induction pairs with
  | nil =>
      rw [put, List.find?_cons]
      split <;> simp [*]
  | cons pair rest ih =>
      rw [put]
      by_cases hit : same pair.1 key = true
      · rw [if_pos hit, List.find?_cons, List.find?_cons, same_congr symm trans hit other]
        split <;> simp [*]
      · rw [if_neg hit, List.find?_cons, List.find?_cons]
        by_cases own : same pair.1 other = true
        · have apart : ¬ same key other = true := fun alike => hit (trans _ _ _ own (symm _ _ alike))
          rw [own, if_neg apart]
        · rw [Bool.not_eq_true] at own
          rw [own]
          exact ih

/-- A write to a map of a log gives the map of the longer log. -/
theorem OfLog.put {log pairs : List (κ × α)} (holds : OfLog same log pairs) (key : κ)
    (value : α) :
    OfLog same (log ++ [(key, value)]) (OrderedMap.put same key value pairs) where
  distinct := by
    rw [put_keys]
    split
    · exact holds.distinct
    · next fresh =>
      refine List.pairwise_append.mpr ⟨holds.distinct, List.pairwise_singleton _ _, ?_⟩
      intro stored mem new here
      rw [List.mem_singleton.mp here]
      simpa using List.any_eq_false.mp (by simpa using fresh) stored mem
  order := by rw [put_keys, firstKeys_append, holds.order]
  last other := by rw [get?_put symm trans, lastWritten_append, holds.last]

end Equivalent

end Geas.Lib.OrderedMap
