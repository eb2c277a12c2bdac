/-!
# Loops that use something up

A loop over a state that decides at every turn whether it goes round again, given with
the quantity that each such turn makes smaller.  It therefore ends, and its run is a total
function.

There are two rules for its runs.  `run_invariant` carries a property of the state from
the start to the end; `run_rec` reads a run from its end, one turn after the other.
-/

namespace Geas.Lib

variable {σ β : Type}

/-- What a turn of a loop decides. -/
inductive Round (σ β : Type) where
  | again (next : σ)
  | stop (result : β)

/-- A loop that ends. -/
structure Loop (σ β : Type) where
  turn : σ → Round σ β
  size : σ → Nat
  shrinks : ∀ state next, turn state = .again next → size next < size state

namespace Loop

variable (loop : Loop σ β)

/-- Take turns until one stops. -/
def run (state : σ) : β :=
  match turned : loop.turn state with
  | .stop result => result
  | .again next =>
      have := loop.shrinks state next turned
      run next
termination_by loop.size state

variable {state next : σ} {result : β}

theorem run_stop (turned : loop.turn state = .stop result) : loop.run state = result := by
  rw [run]
  split <;> simp_all

theorem run_again (turned : loop.turn state = .again next) : loop.run state = loop.run next := by
  rw [run]
  split <;> simp_all

/-- A property of a state and the result of the loop from it, told turn by turn from the
last one. -/
theorem run_rec (holds : σ → β → Prop)
    (stop : ∀ state result, loop.turn state = .stop result → holds state result)
    (again : ∀ state next result, loop.turn state = .again next → holds next result →
      holds state result) (state : σ) : holds state (loop.run state) := by
  induction measured : loop.size state using Nat.strongRecOn generalizing state with
  | ind size ih =>
      cases turned : loop.turn state with
      | stop result =>
          rw [loop.run_stop turned]
          exact stop state result turned
      | again next =>
          rw [loop.run_again turned]
          have less := loop.shrinks state next turned
          exact again state next _ turned (ih _ (measured ▸ less) next rfl)

/-- An invariant of the turns holds where the last turn starts. -/
theorem run_invariant (invariant : σ → Prop) (holds : β → Prop)
    (kept : ∀ state next, invariant state → loop.turn state = .again next → invariant next)
    (ends : ∀ state result, invariant state → loop.turn state = .stop result → holds result)
    (start : invariant state) : holds (loop.run state) :=
  loop.run_rec (fun state result => invariant state → holds result)
    (fun state result turned start => ends state result start turned)
    (fun state next _ turned after start => after (kept state next start turned)) state start

end Loop

end Geas.Lib
