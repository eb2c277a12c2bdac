import Geas.Runtime.Lifecycle

/-!
# Steady descriptors

When the state of a contract can move back.  Latches only ever leave `PENDING`,
one pledge at a time, so whether a state regresses is a question about the
policy alone: a descriptor is steady when no such change takes its reading back.
The runs of a steady descriptor never regress.  Only pledges a call can name
ever latch, which the invariant of this module records.
-/

namespace Geas.Runtime

open Geas.Abi
open Geas.Lib.Transition

variable {d : GeasContractDesc}

/-- Looking up the pledge's name finds the pledge itself and not an earlier one
under the same name. -/
def Callable (d : GeasContractDesc) (p : Fin d.npledges) : Prop :=
  d.findPledge (d.pledge p).name = some p

instance (p : Fin d.npledges) : Decidable (Callable d p) :=
  inferInstanceAs (Decidable (_ = _))

theorem callable_of_findPledge {name : String} {p : Fin d.npledges}
    (found : d.findPledge name = some p) : Callable d p := by
  have named : (d.pledge p).name = name := by
    have holds := List.find?_some found
    simpa using holds
  rw [Callable, named]
  exact found

theorem callable_of_validate {c : GeasContract d} {request : Request} {p : Fin d.npledges}
    (accepted : validate c request = .ok p) : Callable d p := by
  unfold validate at accepted
  split at accepted
  · cases accepted
  · split at accepted
    · cases accepted
    · split at accepted
      · cases accepted
      · next found =>
        split at accepted
        · cases accepted
        · split at accepted
          · cases accepted
          · cases accepted
            exact callable_of_findPledge found

/-! ## Only callable pledges latch -/

/-- Queued, running and latched pledges are callable. -/
structure CallInvariant (s : Sys d) : Prop where
  futures : ∀ f ∈ s.futures, ∀ p, f.pidx = some p → Callable d p
  running : ∀ thunk ∈ s.running, Callable d thunk.pidx
  latched : ∀ p, s.c.pledgeState p ≠ .pending → Callable d p

theorem signedSys_callInvariant (vowVals : List GeasValue) (signedAt : Int64) :
    CallInvariant (signedSys d vowVals signedAt) where
  futures _ membership := by cases membership
  running _ membership := by cases membership
  latched _ latched := absurd rfl latched

/-- A future keeps its pledge when an outcome is published to it. -/
theorem mem_publish {futures : List (GeasFuture d)} {future : Option Nat} {status : GeasStatus}
    {value : Option GeasValue} {f : GeasFuture d}
    (membership : f ∈ publish futures future status value) :
    ∃ before ∈ futures, before.pidx = f.pidx := by
  cases future with
  | none => exact ⟨f, membership, rfl⟩
  | some k =>
      obtain ⟨i, inside, rfl⟩ := List.getElem_of_mem membership
      have bound : i < futures.length := by simpa [publish] using inside
      refine ⟨futures[i], List.getElem_mem bound, ?_⟩
      simp only [publish, List.getElem_modify]
      split
      · unfold futureFinish
        split <;> rfl
      · rfl

theorem enter_futures {s : Sys d} {thunk : Thunk d} {begun : GeasStatus} {f : GeasFuture d}
    (membership : f ∈ (enter s thunk begun).futures) :
    ∃ before ∈ s.futures, before.pidx = f.pidx := by
  unfold enter at membership
  dsimp only at membership
  split at membership
  · exact mem_publish membership
  · exact ⟨f, membership, rfl⟩

/-- A step queues a pledge only through validation. -/
theorem step_futures {s t : Sys d} {action : Action d} (stepped : step s action = some t)
    {f : GeasFuture d} (membership : f ∈ t.futures) {p : Fin d.npledges}
    (names : f.pidx = some p) :
    (∃ before ∈ s.futures, before.pidx = some p) ∨
      ∃ request, validate s.c request = .ok p := by
  rw [← names]
  cases action with
  | fulfill request =>
      simp only [step] at stepped
      split at stepped <;> cases stepped <;>
        rcases List.mem_append.mp membership with old | new
      · exact Or.inl ⟨f, old, rfl⟩
      · rw [List.mem_singleton.mp new] at names
        cases names
      · exact Or.inl ⟨f, old, rfl⟩
      · next q accepted =>
        rw [List.mem_singleton.mp new] at names
        cases names
        exact Or.inr ⟨request, accepted⟩
  | dequeue k begun =>
      simp only [step] at stepped
      split at stepped
      · next q status value done waited running present =>
        have marked : ∀ g ∈ s.futures.set k ⟨some q, false, status, value, done, waited⟩,
            ∃ before ∈ s.futures, before.pidx = g.pidx := by
          intro g inside
          rcases List.mem_or_eq_of_mem_set inside with old | rfl
          · exact ⟨g, old, rfl⟩
          · exact ⟨_, List.mem_of_getElem? present, rfl⟩
        refine Or.inl ?_
        split at stepped
        · cases stepped
          obtain ⟨g, inside, same⟩ := enter_futures membership
          rw [← same]
          exact marked g inside
        · cases stepped
          have published : f ∈ publish (s.futures.set k
            ⟨some q, false, status, value, done, waited⟩) (some k) .errState none := membership
          obtain ⟨g, inside, same⟩ := mem_publish published
          rw [← same]
          exact marked g inside
      · cases stepped
  | inline request begun =>
      simp only [step] at stepped
      split at stepped
      · cases stepped
        exact Or.inl ⟨f, membership, rfl⟩
      · cases stepped
        exact Or.inl (enter_futures membership)
  | finish status out commit writeBack =>
      obtain ⟨thunk, rest, -, rfl⟩ := step_finish stepped
      exact Or.inl (mem_publish membership)
  | wait k =>
      simp only [step] at stepped
      split at stepped
      · next g present =>
        split at stepped
        · cases stepped
          rcases List.mem_or_eq_of_mem_set membership with old | rfl
          · exact Or.inl ⟨f, old, rfl⟩
          · exact Or.inl ⟨g, List.mem_of_getElem? present, rfl⟩
        · cases stepped
      · cases stepped
  | brk =>
      simp only [step] at stepped
      split at stepped
      · cases stepped
        exact Or.inl ⟨f, membership, rfl⟩
      · cases stepped
        obtain ⟨g, inside, rfl⟩ := List.mem_map.mp membership
        refine Or.inl ⟨g, inside, ?_⟩
        unfold futureForfeit
        split <;> rfl

/-- The pledge of a call that reaches its gate is callable. -/
theorem callable_of_calls {s : Sys d} {action : Action d} {p : Fin d.npledges}
    (holds : CallInvariant s) (calls : Calls s action p) : Callable d p := by
  rcases calls with ⟨k, begun, f, -, present, names⟩ | ⟨request, begun, -, accepted⟩
  · exact holds.futures f (List.mem_of_getElem? present) p names
  · exact callable_of_validate accepted

theorem step_callInvariant {s t : Sys d} {action : Action d} (holds : CallInvariant s)
    (stepped : step s action = some t) : CallInvariant t := by
  have queued : ∀ f ∈ t.futures, ∀ p, f.pidx = some p → Callable d p := by
    intro f membership p names
    rcases step_futures stepped membership names with ⟨before, old, same⟩ | ⟨request, accepted⟩
    · exact holds.futures before old p same
    · exact callable_of_validate accepted
  rcases step_cases stepped with ⟨c, running, -⟩ | ⟨futures, thunk, begun, -, calls, -, rfl⟩ |
    ⟨thunk, rest, status, out, commit, writeBack, -, running, rfl⟩ | ⟨-, -, rfl⟩
  · refine ⟨queued, ?_, ?_⟩
    · rw [running]
      exact holds.running
    · rw [c]
      exact holds.latched
  · refine ⟨queued, ?_, ?_⟩
    · obtain ⟨more, last, -, -, ends⟩ := enter_log { s with futures := futures } thunk begun
      rcases ends with ⟨-, started⟩ | ⟨-, -, refused⟩
      · rw [started]
        intro other membership
        rcases List.mem_cons.mp membership with rfl | old
        · exact callable_of_calls holds calls
        · exact holds.running other old
      · rw [refused]
        exact holds.running
    · rw [enter_pledgeState]
      exact holds.latched
  · refine ⟨queued, ?_, ?_⟩
    · intro other membership
      exact holds.running other (running ▸ List.mem_cons_of_mem _ membership)
    · intro p latched
      by_cases same : p = thunk.pidx
      · rw [same]
        exact holds.running thunk (running ▸ List.mem_cons_self)
      · refine holds.latched p ?_
        simp only [leave, settle_pledgeState] at latched
        split at latched
        · rwa [latchPledge_pledgeState, if_neg fun both => same both.1] at latched
        · exact latched
  · exact ⟨queued, holds.running, holds.latched⟩

theorem reached_callInvariant {vowVals : List GeasValue} {signedAt : Int64}
    {actions : List (Action d)} {s : Sys d}
    (reached : run step (signedSys d vowVals signedAt) actions = some s) : CallInvariant s :=
  run_invariant (fun _ _ _ holds _ stepped => step_callInvariant holds stepped)
    (signedSys_callInvariant vowVals signedAt) (guarded_true _ actions) reached

/-! ## Runs of a steady descriptor -/

/-- Latches an instance can have after an outcome: some pledge has latched, and
only callable ones have. -/
structure Attained (latches : Latches d) : Prop where
  some : ∃ q, latches q ≠ .pending
  callable : ∀ q, latches q ≠ .pending → Callable d q

/-- No pledge that latches takes the policy back from Fulfilled, or from Partial
to Signed. -/
def Steady (d : GeasContractDesc) : Prop :=
  ∀ (latches : Latches d) (p : Fin d.npledges) (latch : PledgeLatch), Attained latches →
    Callable d p → latches p = .pending → latch ≠ .pending →
    (policyState d latches = .fulfilled →
      policyState d (Function.update latches p latch) = .fulfilled) ∧
    (policyState d latches = .partly →
      policyState d (Function.update latches p latch) ≠ .signed)

/-- The states an instance may go on to. -/
def Onward (before after : GeasContractState) : Prop :=
  match before with
  | .fulfilled => after = .fulfilled
  | .partly => after = .partly ∨ after = .fulfilled ∨ after = .broken
  | .broken => after = .broken
  | _ => True

theorem Onward.refl (state : GeasContractState) : Onward state state := by
  cases state <;> simp [Onward]

theorem Onward.trans {first second third : GeasContractState} (before : Onward first second)
    (after : Onward second third) : Onward first third := by
  cases first with
  | unsigned | signed => trivial
  | fulfilled | broken =>
      cases before
      exact after
  | partly =>
      rcases before with rfl | rfl | rfl
      · exact after
      · exact Or.inr (Or.inl after)
      · exact Or.inr (Or.inr after)

theorem evalPolicy_ne_unsigned (latches : Latches d) (state : GeasContractState) :
    evalPolicy d latches state ≠ .unsigned := by
  unfold evalPolicy policyState
  split_ifs <;> simp

/-- One return moves a steady instance onward. -/
theorem leave_onward (steady : Steady d) {s : Sys d} (latch : LatchInvariant s)
    (calls : CallInvariant s) {thunk : Thunk d} {rest : List (Thunk d)}
    (running : s.running = thunk :: rest) (status : GeasStatus) (out : GeasValue)
    (commit writeBack : GeasStatus) :
    Onward s.c.state (leave s thunk rest status out commit writeBack).c.state := by
  by_cases ok : status = .ok
  swap
  · simp only [leave, settle_state, if_neg ok]
    exact Onward.refl _
  simp only [leave, settle_state, if_pos ok]
  by_cases broken : s.c.state = .broken
  · rw [broken]
    rfl
  by_cases decided : ∃ p, firstOutcome s.log p ≠ none
  swap
  · push Not at decided
    rw [latch.fresh broken decided]
    trivial
  have reads := latch.state broken decided
  rw [evalPolicy, if_neg broken, reads]
  by_cases pending : s.c.pledgeState thunk.pidx = .pending
  · have attained : Attained s.c.pledgeState := by
      refine ⟨?_, calls.latched⟩
      obtain ⟨q, some⟩ := decided
      exact ⟨q, by rw [latch.latch, ne_eq, latchOf_eq_pending]; exact some⟩
    have moved : (latchPledge s.c thunk.pidx out).pledgeState =
        Function.update s.c.pledgeState thunk.pidx (latchOf (some out)) := by
      funext q
      rw [latchPledge_pledgeState, Function.update_apply]
      simp only [pending, and_true]
    have kept := steady s.c.pledgeState thunk.pidx (latchOf (some out)) attained
      (calls.running thunk (running ▸ List.mem_cons_self)) pending
      (by rw [ne_eq, latchOf_eq_pending]; exact Option.some_ne_none out)
    rw [moved]
    cases before : policyState d s.c.pledgeState with
    | unsigned | signed => trivial
    | fulfilled => exact kept.1 before
    | partly =>
        have after := kept.2 before
        cases now : policyState d
            (Function.update s.c.pledgeState thunk.pidx (latchOf (some out))) with
        | unsigned =>
            have never := evalPolicy_ne_unsigned
              (Function.update s.c.pledgeState thunk.pidx (latchOf (some out))) .signed
            exact absurd now never
        | signed => exact absurd now after
        | fulfilled => exact Or.inr (Or.inl rfl)
        | partly => exact Or.inl rfl
        | broken => exact Or.inr (Or.inr rfl)
    | broken => exact absurd (reads.trans before) broken
  · have same : latchPledge s.c thunk.pidx out = s.c := if_pos pending
    rw [same]
    exact Onward.refl _

/-- Any step that is not an explicit break moves a steady instance onward. -/
theorem step_onward (steady : Steady d) {s t : Sys d} {action : Action d}
    (latch : LatchInvariant s) (calls : CallInvariant s) (fulfills : action ≠ .brk)
    (stepped : step s action = some t) : Onward s.c.state t.c.state := by
  rcases step_cases stepped with ⟨c, -, -⟩ | ⟨futures, thunk, begun, -, -, -, rfl⟩ |
    ⟨thunk, rest, status, out, commit, writeBack, -, running, rfl⟩ | ⟨brk, -, -⟩
  · rw [c]
    exact Onward.refl _
  · rw [enter_state]
    exact Onward.refl _
  · exact leave_onward steady latch calls running status out commit writeBack
  · exact absurd brk fulfills

/-- `t` comes after `s` without a regression. -/
def Forward (s t : Sys d) : Prop := Onward s.c.state t.c.state

/-- A steady descriptor never regresses along a run of fulfillments. -/
theorem run_forward (steady : Steady d) {vowVals : List GeasValue} {signedAt : Int64}
    {front back : List (Action d)} {s t : Sys d}
    (reached : run step (signedSys d vowVals signedAt) front = some s)
    (fulfills : .brk ∉ back) (later : run step s back = some t) : Forward s t := by
  have guarded : Guarded step (fun _ action => action ≠ .brk) s back :=
    guarded_of_forall (fun _ membership _ => ne_of_mem_of_not_mem membership fulfills) s
  have keeps : ∀ (u : Sys d) (action : Action d) (v : Sys d),
      LatchInvariant u ∧ CallInvariant u → action ≠ .brk → step u action = some v →
      (LatchInvariant v ∧ CallInvariant v) ∧ Forward u v := by
    rintro u action v ⟨latch, calls⟩ fulfilling stepped
    exact ⟨⟨step_latchInvariant latch stepped, step_callInvariant calls stepped⟩,
      step_onward steady latch calls fulfilling stepped⟩
  exact run_relation (fun state => Onward.refl state.c.state) (fun _ _ _ => Onward.trans) keeps
    ⟨reached_latchInvariant reached, reached_callInvariant reached⟩ guarded later

end Geas.Runtime
