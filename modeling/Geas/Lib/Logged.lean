import Mathlib.Data.List.Basic

/-!
# Fallible computations with a log

A computation that ends with a result or a fault and leaves a log of what it did
on the way, on both ends.  `ok_bind` takes a successful sequence apart, and
`Logs` states what every entry of a log satisfies and `Stops` what a fault
satisfies, one rule per constructor.
-/

namespace Geas.Lib

/-- A result or a fault, and the log up to that point. -/
structure Logged (ε ω α : Type) where
  result : Except ε α
  log : List ω

namespace Logged

variable {ε ω α β : Type}

instance : Monad (Logged ε ω) where
  pure value := ⟨.ok value, []⟩
  bind first next :=
    match first with
    | ⟨.ok value, log⟩ => ⟨(next value).result, log ++ (next value).log⟩
    | ⟨.error fault, log⟩ => ⟨.error fault, log⟩

/-- Stop with a fault. -/
def fail (fault : ε) : Logged ε ω α := ⟨.error fault, []⟩

/-- Stop with a fault unless a condition holds. -/
def require (fault : ε) (condition : Bool) : Logged ε ω Unit :=
  if condition then pure () else fail fault

/-- Record one entry. -/
def note (entry : ω) : Logged ε ω Unit := ⟨.ok (), [entry]⟩

/-- A computation without a log. -/
def lift (result : Except ε α) : Logged ε ω α := ⟨result, []⟩

@[simp] theorem pure_result (value : α) : (pure value : Logged ε ω α).result = .ok value := rfl

@[simp] theorem fail_result (fault : ε) : (fail fault : Logged ε ω α).result = .error fault := rfl

@[simp] theorem note_result (entry : ω) : (note entry : Logged ε ω Unit).result = .ok () := rfl

@[simp] theorem lift_result (result : Except ε α) :
    (lift result : Logged ε ω α).result = result := rfl

theorem bind_result {first : Logged ε ω α} (next : α → Logged ε ω β) {value : α}
    (done : first.result = .ok value) : (first >>= next).result = (next value).result := by
  rcases first with ⟨result, log⟩
  cases done
  rfl

/-- A successful sequence succeeded at both parts. -/
theorem ok_bind {first : Logged ε ω α} {next : α → Logged ε ω β} {result : β} :
    (first >>= next).result = .ok result ↔
      ∃ value, first.result = .ok value ∧ (next value).result = .ok result := by
  rcases first with ⟨_ | value, log⟩
  · constructor
    · intro done
      cases done
    · rintro ⟨value, done, -⟩
      cases done
  · constructor
    · exact fun done => ⟨value, rfl, done⟩
    · rintro ⟨other, done, later⟩
      cases done
      exact later

theorem ok_require {fault : ε} {condition : Bool} {result : Unit} :
    (require fault condition : Logged ε ω Unit).result = .ok result ↔ condition = true := by
  cases condition <;> simp [require]

/-- Every entry of the log satisfies `safe`. -/
def Logs (safe : ω → Prop) (computation : Logged ε ω α) : Prop :=
  ∀ entry ∈ computation.log, safe entry

namespace Logs

variable {safe : ω → Prop}

theorem pure (value : α) : Logs safe (Pure.pure value : Logged ε ω α) := nofun

theorem fail (fault : ε) : Logs safe (Logged.fail fault : Logged ε ω α) := nofun

theorem lift (result : Except ε α) : Logs safe (Logged.lift result : Logged ε ω α) := nofun

theorem note {entry : ω} (holds : safe entry) : Logs safe (Logged.note entry : Logged ε ω Unit) := by
  intro other membership
  rw [List.mem_singleton.mp membership]
  exact holds

theorem require (fault : ε) (condition : Bool) :
    Logs safe (Logged.require fault condition : Logged ε ω Unit) := by
  cases condition
  · exact fail fault
  · exact pure ()

/-- A sequence keeps to `safe` when its parts do; the second part may use that the
first succeeded. -/
theorem bind {first : Logged ε ω α} {next : α → Logged ε ω β} (head : Logs safe first)
    (tail : ∀ value, first.result = .ok value → Logs safe (next value)) :
    Logs safe (first >>= next) := by
  rcases first with ⟨_ | value, log⟩
  · exact head
  · intro entry membership
    rcases List.mem_append.mp membership with early | late
    · exact head entry early
    · exact tail value rfl entry late

end Logs

/-- A fault the computation ends with satisfies `allowed`. -/
def Stops (allowed : ε → Prop) (computation : Logged ε ω α) : Prop :=
  ∀ fault, computation.result = .error fault → allowed fault

namespace Stops

variable {allowed : ε → Prop}

theorem pure (value : α) : Stops allowed (Pure.pure value : Logged ε ω α) := nofun

theorem note (entry : ω) : Stops allowed (Logged.note entry : Logged ε ω Unit) := nofun

theorem require {fault : ε} (fine : allowed fault) (condition : Bool) :
    Stops allowed (Logged.require fault condition : Logged ε ω Unit) := by
  cases condition
  · rintro other ⟨⟩
    exact fine
  · exact pure ()

/-- A sequence stops with an allowed fault when its parts do. -/
theorem bind {first : Logged ε ω α} {next : α → Logged ε ω β} (head : Stops allowed first)
    (tail : ∀ value, Stops allowed (next value)) : Stops allowed (first >>= next) := by
  rcases first with ⟨fault | value, log⟩
  · rintro other ⟨⟩
    exact head fault rfl
  · exact tail value

end Stops

end Logged

end Geas.Lib
