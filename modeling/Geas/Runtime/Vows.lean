import Geas.Runtime.Descriptor

/-!
# Vow values

The deep copy every value crosses on its way onto an instance, and the vow
storage sign fills with it: defaults under overrides, each override checked by
name and by type.  Allocation succeeds here.  `none` marks a read through a NULL
pointer, which a caller that hands over readable blocks never causes.
-/

namespace Geas.Runtime

open Geas.Abi

/-- A copy that may end with a status, or without any defined result. -/
abbrev Copy := ExceptT GeasStatus Option

/-- A block the copy reads. -/
def readable {α : Type} (block : Option α) : Copy α := ExceptT.mk (block.map .ok)

mutual
/-- `geas_value_deep_copy`.  A string is rebuilt with a zero tag. -/
def geasValueDeepCopy : GeasValue → Copy GeasValue
  | .string _ bytes => do
      let bytes ← readable bytes
      pure (.string 0 (some bytes))
  | .list tag elemTy (some elements) => do
      let copies ← deepCopyAll elements
      pure (.list tag elemTy (some copies))
  | .map tag elemTy (some slots) => do
      let copies ← deepCopyAll slots
      pure (.map tag elemTy (some copies))
  | .tuple tag (some fields) => do
      let copies ← deepCopyAll fields
      pure (.tuple tag (some copies))
  | .record tag (some fields) => do
      let copies ← deepCopyAll fields
      pure (.record tag (some copies))
  | .sum tag (some fields) => do
      let copies ← deepCopyAll fields
      pure (.sum tag (some copies))
  | .list _ _ none | .map _ _ none | .tuple _ none | .record _ none | .sum _ none =>
      readable none
  | .option tag (some content) => do
      let copy ← geasValueDeepCopy content
      pure (.option tag (some copy))
  | .result tag (some content) => do
      let copy ← geasValueDeepCopy content
      pure (.result tag (some copy))
  | .unknown _ _ _ => throw .errType
  | value => pure value

/-- The element loop of the copy. -/
def deepCopyAll : List GeasValue → Copy (List GeasValue)
  | [] => pure []
  | element :: rest => do
      let copy ← geasValueDeepCopy element
      let copies ← deepCopyAll rest
      pure (copy :: copies)
end

/-- An instance handle is not a value a vow may lock. -/
def copyVowValue (src : GeasValue) : Copy GeasValue :=
  if src.ty = GeasTypeTag.inst.code then throw .errType else geasValueDeepCopy src

/-- A vow override, its name NULL or not. -/
structure GeasVowBinding where
  name : Option String
  value : GeasValue

/-- The first vow declared under a name. -/
def findVowDesc (d : GeasContractDesc) (name : String) : Option (Fin d.vows.length) :=
  (List.finRange d.vows.length).find? fun i => (d.vows.get i).name == name

/-- The override loop of `bind_vows` over the slots bound so far. -/
def bindOverrides (d : GeasContractDesc) :
    List GeasVowBinding → List (Option GeasValue) → Copy (List (Option GeasValue))
  | [], slots => pure slots
  | binding :: rest, slots =>
      match binding.name.bind (findVowDesc d) with
      | none => throw .errName
      | some slot =>
          if binding.value.ty ≠ (d.vows.get slot).ty then throw .errType
          else do
            let copy ← copyVowValue binding.value
            bindOverrides d rest (slots.set slot (some copy))

/-- The default loop of `bind_vows`. -/
def bindDefaults : List (GeasVowDesc × Option GeasValue) → Copy (List GeasValue)
  | [] => pure []
  | (_, some value) :: rest => do
      let values ← bindDefaults rest
      pure (value :: values)
  | (vow, none) :: rest =>
      match vow.default with
      | none => throw .errUnbound
      | some value => do
          let copy ← copyVowValue value
          let values ← bindDefaults rest
          pure (copy :: values)

/-- The length of the table of bound marks, `GEAS_MAX_CONTRACT_TYPES`. -/
def maxVows : Nat := 64

/-- `bind_vows`: the values an instance signed with these overrides holds. -/
def bindVows (d : GeasContractDesc) (vows : List GeasVowBinding) : Copy (List GeasValue) :=
  if d.vows.length = 0 then
    if vows.isEmpty then pure [] else throw .errName
  else if d.vows.length > maxVows then throw .errOom
  else do
    let slots ← bindOverrides d vows (List.replicate d.vows.length none)
    bindDefaults (d.vows.zip slots)

/-! ## Every vow is accounted for -/

/-- What a successful sequence of two copies did. -/
theorem copy_bind {α β : Type} {first : Copy α} {next : α → Copy β} {result : β}
    (done : (first >>= next) = some (.ok result)) :
    ∃ value, first = some (.ok value) ∧ next value = some (.ok result) := by
  rcases first with _ | (status | value)
  · cases done
  · cases done
  · exact ⟨value, rfl, done⟩

theorem bindOverrides_length {d : GeasContractDesc} {vows : List GeasVowBinding}
    {slots result : List (Option GeasValue)} (done : bindOverrides d vows slots = some (.ok result)) :
    result.length = slots.length := by
  induction vows generalizing slots with
  | nil =>
      cases done
      rfl
  | cons binding rest ih =>
      simp only [bindOverrides] at done
      split at done
      · cases done
      · split at done
        · cases done
        · obtain ⟨copy, -, later⟩ := copy_bind done
          rw [ih later, List.length_set]

theorem bindDefaults_length {slots : List (GeasVowDesc × Option GeasValue)}
    {values : List GeasValue} (done : bindDefaults slots = some (.ok values)) :
    values.length = slots.length := by
  induction slots generalizing values with
  | nil =>
      cases done
      rfl
  | cons slot rest ih =>
      obtain ⟨vow, bound⟩ := slot
      cases bound with
      | some value =>
          obtain ⟨later, bound, done⟩ := copy_bind done
          cases done
          rw [List.length_cons, List.length_cons, ih bound]
      | none =>
          simp only [bindDefaults] at done
          split at done
          · cases done
          · obtain ⟨copy, -, done⟩ := copy_bind done
            obtain ⟨later, bound, done⟩ := copy_bind done
            cases done
            rw [List.length_cons, List.length_cons, ih bound]

/-- A successful sign leaves one value per declared vow. -/
theorem bindVows_length {d : GeasContractDesc} {vows : List GeasVowBinding}
    {values : List GeasValue} (done : bindVows d vows = some (.ok values)) :
    values.length = d.vows.length := by
  unfold bindVows at done
  split at done
  · next none =>
    split at done
    · cases done
      exact none.symm
    · cases done
  · split at done
    · cases done
    · obtain ⟨slots, bound, done⟩ := copy_bind done
      rw [bindDefaults_length done, List.length_zip, bindOverrides_length bound,
        List.length_replicate, Nat.min_self]

end Geas.Runtime
